import Mathlib.Logic.Relation
import Mathlib.Order.WellFounded

/-!
# States along a run

A run is a list of steps from a state; `next s a s'` says that the step `a`
takes `s` to `s'`. `Throughout P`: `P` holds in every state of the run, the
first included. `Meets C`: `C` holds of every step in the state it is taken in.

`throughout_iff`: where steps that meet `C` keep an invariant that has `P`,
and any other step breaks `P`, `P` holds throughout a run if and only if all
its steps meet `C`.

`Completes`: whatever unlabelled steps are taken, they come to an end, and a
property holds there. `Completes.of_rank`: an invariant and a rank that every
step decreases are enough.
-/

namespace Run

variable {σ α : Type} (next : σ → α → σ → Prop)

def Throughout (P : σ → Prop) : List α → σ → Prop
  | [], s => P s
  | a :: as, s => P s ∧ ∀ s', next s a s' → Throughout P as s'

def Meets (C : σ → α → Prop) : List α → σ → Prop
  | [], _ => True
  | a :: as, s => ∀ s', next s a s' → C s a ∧ Meets C as s'

/-- The run may come to `t`. -/
def Reaches : List α → σ → σ → Prop
  | [], s, t => t = s
  | a :: as, s, t => ∃ s', next s a s' ∧ Reaches as s' t

variable {next} {P I : σ → Prop} {C : σ → α → Prop}

theorem Throughout.head {as : List α} {s : σ} (h : Throughout next P as s) : P s := by
  cases as with
  | nil => exact h
  | cons a as => exact h.1

theorem Meets.of_append {as bs : List α} {s : σ} (h : Meets next C (as ++ bs) s) : Meets next C as s := by
  induction as generalizing s with
  | nil => trivial
  | cons a as ih => exact fun s' hn => ⟨(h s' hn).1, ih (h s' hn).2⟩

theorem Meets.after {as bs : List α} {s t : σ} (h : Meets next C (as ++ bs) s) (hr : Reaches next as s t) :
    Meets next C bs t := by
  induction as generalizing s with
  | nil =>
    obtain rfl : t = s := hr
    exact h
  | cons a as ih =>
    obtain ⟨s', hn, hr⟩ := hr
    exact ih (h s' hn).2 hr

theorem Throughout.after {as bs : List α} {s t : σ} (h : Throughout next P (as ++ bs) s) (hr : Reaches next as s t) :
    Throughout next P bs t := by
  induction as generalizing s with
  | nil =>
    obtain rfl : t = s := hr
    exact h
  | cons a as ih =>
    obtain ⟨s', hn, hr⟩ := hr
    exact ih (h.2 s' hn) hr

theorem meets_of_forall (h : ∀ s a, C s a) (as : List α) : ∀ s, Meets next C as s := by
  induction as with
  | nil => exact fun _ => trivial
  | cons a as ih => exact fun s s' _ => ⟨h s a, ih s'⟩

theorem Meets.and_mem {D : α → Prop} {as : List α} {s : σ} (h : Meets next C as s) (hd : ∀ a ∈ as, D a) :
    Meets next (fun s a => D a ∧ C s a) as s := by
  induction as generalizing s with
  | nil => trivial
  | cons a as ih =>
    exact fun s' hn => ⟨⟨hd a List.mem_cons_self, (h s' hn).1⟩,
      ih (h s' hn).2 fun b hb => hd b (List.mem_cons_of_mem _ hb)⟩

theorem throughout_of_meets (hI : ∀ s, I s → P s) (hC : ∀ s a s', I s → next s a s' → C s a → I s')
    (as : List α) : ∀ s, I s → Meets next C as s → Throughout next P as s := by
  induction as with
  | nil => exact fun s hs _ => hI s hs
  | cons a as ih =>
    exact fun s hs hm => ⟨hI s hs, fun s' hn => ih s' (hC s a s' hs hn (hm s' hn).1) (hm s' hn).2⟩

/-- What holds of the steps from states with the invariant, where steps that
meet `C` keep it. -/
theorem meets_of_inv {D : σ → α → Prop} (hC : ∀ s a s', I s → next s a s' → C s a → I s')
    (hD : ∀ s a s', I s → next s a s' → D s a) (as : List α) : ∀ s, I s → Meets next C as s → Meets next D as s := by
  induction as with
  | nil => exact fun _ _ _ => trivial
  | cons a as ih =>
    exact fun s hs hm s' hn => ⟨hD s a s' hs hn, ih s' (hC s a s' hs hn (hm s' hn).1) (hm s' hn).2⟩

/-- Where every step keeps the invariant. -/
theorem throughout_of_inv (hI : ∀ s, I s → P s) (hn : ∀ s a s', I s → next s a s' → I s')
    (as : List α) : ∀ s, I s → Throughout next P as s := by
  induction as with
  | nil => exact hI
  | cons a as ih => exact fun s hs => ⟨hI s hs, fun s' h => ih s' (hn s a s' hs h)⟩

theorem throughout_iff (hI : ∀ s, I s → P s) (hC : ∀ s a s', I s → next s a s' → C s a → I s')
    (hP : ∀ s a s', I s → next s a s' → P s' → C s a) (as : List α) :
    ∀ s, I s → (Throughout next P as s ↔ Meets next C as s) := by
  intro s hs
  refine ⟨fun h => ?_, throughout_of_meets hI hC as s hs⟩
  induction as generalizing s with
  | nil => trivial
  | cons a as ih =>
    intro s' hn
    have hc : C s a := hP s a s' hs hn (h.2 s' hn).head
    exact ⟨hc, ih s' (hC s a s' hs hn hc) (h.2 s' hn)⟩

section Completes

variable {σ α : Type} {step : σ → σ → Prop} {P I : σ → Prop}

def Ended (step : σ → σ → Prop) (s : σ) : Prop := ∀ s', ¬ step s s'

/-- Whatever steps are taken, they come to an end, and `P` holds there. -/
inductive Completes (step : σ → σ → Prop) (P : σ → Prop) : σ → Prop where
  | intro {s : σ} : (∀ s', step s s' → Completes step P s') → (Ended step s → P s) → Completes step P s

theorem Completes.of_rank {r : α → α → Prop} (hr : WellFounded r) (rank : σ → α)
    (hI : ∀ s s', I s → step s s' → I s') (hlt : ∀ s s', I s → step s s' → r (rank s') (rank s))
    (hP : ∀ s, I s → Ended step s → P s) (s : σ) (hs : I s) : Completes step P s := by
  induction h : rank s using hr.induction generalizing s with
  | _ a ih =>
    subst h
    exact .intro (fun s' h => ih _ (hlt s s' hs h) s' (hI s s' hs h) rfl) (hP s hs)

theorem Completes.exists_reach {s : σ} (h : Completes step P s) :
    ∃ s', Relation.ReflTransGen step s s' ∧ P s' := by
  induction h with
  | @intro s _ hP ih =>
    by_cases he : Ended step s
    · exact ⟨s, .refl, hP he⟩
    · obtain ⟨s₁, h₁⟩ := not_forall_not.mp he
      obtain ⟨s', h', hp⟩ := ih s₁ h₁
      exact ⟨s', .head h₁ h', hp⟩

end Completes

end Run
