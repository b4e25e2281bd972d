import Mathlib.Data.List.Basic

/-!
# Code that changes a state and may stop

An `Outcome` is the state a piece of code leaves: `ok` when it returns,
`stopped` when its thread ends in it (an exception nobody catches, a failed
assertion, undefined behaviour). `Keeps I f`: `f` leaves a state with the
invariant `I` either way; `Ensures P o` asks for `P` only if the code returned.
`runAll` is a run of steps, up to the first that stops. `Made step A f`: all
that `f` does to the state are steps with the property `A`; what `f` returns is
then what a run of such steps returns (`Made.run`).
-/

inductive Outcome (σ : Type) where
  | ok (s : σ)
  | stopped (s : σ)

namespace Outcome

variable {σ α : Type} {I : σ → Prop} {f g : σ → Outcome σ}

def state : Outcome σ → σ
  | .ok s => s
  | .stopped s => s

/-- `g` after code that returned. -/
def andThen : Outcome σ → (σ → Outcome σ) → Outcome σ
  | .ok s, g => g s
  | .stopped s, _ => .stopped s

def map {τ : Type} (f : σ → τ) : Outcome σ → Outcome τ
  | .ok s => .ok (f s)
  | .stopped s => .stopped (f s)

@[simp] theorem state_map {τ : Type} (f : σ → τ) (o : Outcome σ) : (o.map f).state = f o.state := by
  cases o <;> rfl

@[simp] theorem state_ok (s : σ) : (ok s).state = s := rfl
@[simp] theorem state_stopped (s : σ) : (stopped s).state = s := rfl
@[simp] theorem andThen_ok (s : σ) (g : σ → Outcome σ) : (ok s).andThen g = g s := rfl
@[simp] theorem andThen_stopped (s : σ) (g : σ → Outcome σ) : (stopped s).andThen g = stopped s := rfl

theorem andThen_assoc (o : Outcome σ) (f g : σ → Outcome σ) :
    (o.andThen f).andThen g = o.andThen fun s => (f s).andThen g := by
  cases o <;> rfl

theorem eq_ok_of_andThen {o : Outcome σ} {t : σ} (e : o.andThen g = ok t) : ∃ s, o = ok s ∧ g s = ok t := by
  cases o with
  | ok s => exact ⟨s, rfl, e⟩
  | stopped s => cases e

def Keeps (I : σ → Prop) (f : σ → Outcome σ) : Prop := ∀ s, I s → I (f s).state

theorem keeps_ok : Keeps I ok := fun _ hs => hs
theorem keeps_stopped : Keeps I stopped := fun _ hs => hs

theorem Keeps.state_andThen (hg : Keeps I g) {o : Outcome σ} (h : I o.state) : I (o.andThen g).state := by
  cases o with
  | ok s => exact hg s h
  | stopped s => exact h

theorem Keeps.andThen (hf : Keeps I f) (hg : Keeps I g) : Keeps I fun s => (f s).andThen g :=
  fun s hs => hg.state_andThen (hf s hs)

/-- Code whose course depends on the state it starts in. -/
theorem Keeps.branch {f : σ → σ → Outcome σ} (h : ∀ d, Keeps I (f d)) : Keeps I fun s => f s s :=
  fun s => h s s

def Ensures (P : σ → Prop) (o : Outcome σ) : Prop := ∀ s, o = ok s → P s

variable {P Q : σ → Prop}

theorem ensures_ok {s : σ} (h : P s) : Ensures P (ok s) := fun _ e => ok.inj e ▸ h
theorem ensures_stopped (s : σ) : Ensures P (stopped s) := fun _ e => by cases e

theorem Ensures.andThen {o : Outcome σ} (ho : Ensures P o) (hg : ∀ s, P s → Ensures Q (g s)) :
    Ensures Q (o.andThen g) := by
  cases o with
  | ok s => exact hg s (ho s rfl)
  | stopped s => exact ensures_stopped s

/-- Steps in order, up to the first that stops. -/
def runAll (step : α → σ → Outcome σ) : List α → σ → Outcome σ
  | [], s => .ok s
  | a :: as, s => (step a s).andThen (runAll step as)

theorem runAll_append (step : α → σ → Outcome σ) (as bs : List α) (s : σ) :
    runAll step (as ++ bs) s = (runAll step as s).andThen (runAll step bs) := by
  induction as generalizing s with
  | nil => rfl
  | cons a as ih =>
    rw [List.cons_append, runAll, runAll, andThen_assoc]
    cases step a s with
    | ok s' => exact ih s'
    | stopped s' => rfl

theorem keeps_runAll {step : α → σ → Outcome σ} {as : List α} (h : ∀ a ∈ as, Keeps I (step a)) :
    Keeps I (runAll step as) := by
  induction as with
  | nil => exact keeps_ok
  | cons a as ih =>
    exact (h a List.mem_cons_self).andThen (ih fun b hb => h b (List.mem_cons_of_mem _ hb))

theorem ensures_runAll {step : α → σ → Outcome σ} {as : List α}
    (h : ∀ a ∈ as, ∀ s, P s → Ensures P (step a s)) : ∀ s, P s → Ensures P (runAll step as s) := by
  induction as with
  | nil => exact fun s hs => ensures_ok hs
  | cons a as ih =>
    exact fun s hs => (h a List.mem_cons_self s hs).andThen (ih fun b hb => h b (List.mem_cons_of_mem _ hb))

/-! ## Code made of steps -/

inductive Made (step : α → σ → Outcome σ) (A : α → Prop) : (σ → Outcome σ) → Prop where
  | done : Made step A ok
  | stop : Made step A stopped
  | one {a : α} : A a → Made step A (step a)
  | andThen {f g : σ → Outcome σ} : Made step A f → Made step A g → Made step A fun s => (f s).andThen g
  | branch {f : σ → σ → Outcome σ} : (∀ d, Made step A (f d)) → Made step A fun s => f s s

variable {step : α → σ → Outcome σ} {A B : α → Prop}

theorem Made.mono (h : Made step A f) (hab : ∀ a, A a → B a) : Made step B f := by
  induction h with
  | done => exact .done
  | stop => exact .stop
  | one ha => exact .one (hab _ ha)
  | andThen _ _ hf hg => exact hf.andThen hg
  | branch _ ih => exact .branch ih

theorem Made.keeps (h : Made step A f) (hs : ∀ a, A a → Keeps I (step a)) : Keeps I f := by
  induction h with
  | done => exact keeps_ok
  | stop => exact keeps_stopped
  | one ha => exact hs _ ha
  | andThen _ _ hf hg => exact hf.andThen hg
  | branch _ ih => exact .branch ih

theorem Made.runAll {as : List α} (h : ∀ a ∈ as, A a) : Made step A (runAll step as) := by
  induction as with
  | nil => exact .done
  | cons a as ih =>
    exact (Made.one (h a List.mem_cons_self)).andThen (ih fun b hb => h b (List.mem_cons_of_mem _ hb))

theorem Made.runAll_of {β : Type} {f : β → σ → Outcome σ} {bs : List β} (h : ∀ b ∈ bs, Made step A (f b)) :
    Made step A (Outcome.runAll f bs) := by
  induction bs with
  | nil => exact .done
  | cons b bs ih => exact (h b List.mem_cons_self).andThen (ih fun c hc => h c (List.mem_cons_of_mem _ hc))

theorem Made.run (h : Made step A f) :
    ∀ s t, f s = ok t → ∃ as, (∀ a ∈ as, A a) ∧ Outcome.runAll step as s = ok t := by
  induction h with
  | done => exact fun s t e => ⟨[], fun _ hm => absurd hm List.not_mem_nil, e⟩
  | stop => exact fun s t e => by cases e
  | @one a ha =>
    intro s t e
    refine ⟨[a], by simpa using ha, ?_⟩
    rw [Outcome.runAll, e]
    rfl
  | @andThen f g _ _ hf hg =>
    intro s t e
    change (f s).andThen g = ok t at e
    cases ef : f s with
    | ok s' =>
      rw [ef] at e
      obtain ⟨as, ha, hr⟩ := hf s s' ef
      obtain ⟨bs, hb, hr'⟩ := hg s' t e
      refine ⟨as ++ bs, fun a hm => (List.mem_append.mp hm).elim (ha a) (hb a), ?_⟩
      rwa [runAll_append, hr]
    | stopped s' =>
      rw [ef] at e
      cases e
  | branch _ ih => exact fun s t e => ih s s t e

end Outcome
