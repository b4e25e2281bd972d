import Mathlib.Data.Nat.Find

/-!
# Runs without end

A run is a state for each moment, and each next one is reached by a step or is
the same (`Trace`). `LeadsTo r P Q`: whenever `P` holds in the run, `Q` holds
then or later. What a scheduler promises is stated in the same way, as what it
leads away from: `leadsTo_of_leaves` makes of that what it leads to.

In a run with named steps, `a n` being the one from `r n`, a scheduler promises
kinds of steps (`Fairly`), and `leadsTo_of_fairly` is what they lead to.
-/

namespace Endless

variable {σ : Type} {step : σ → σ → Prop} {r : Nat → σ} {P Q R S : σ → Prop}

def Trace (step : σ → σ → Prop) (r : Nat → σ) : Prop := ∀ n, step (r n) (r (n + 1)) ∨ r (n + 1) = r n

def LeadsTo (r : Nat → σ) (P Q : σ → Prop) : Prop := ∀ n, P (r n) → ∃ m, n ≤ m ∧ Q (r m)

/-! ## Rules -/

theorem LeadsTo.of_imp (h : ∀ s, P s → Q s) : LeadsTo r P Q :=
  fun n hp => ⟨n, Nat.le_refl n, h _ hp⟩

theorem LeadsTo.trans (h : LeadsTo r P Q) (h' : LeadsTo r Q R) : LeadsTo r P R := by
  intro n hp
  obtain ⟨m, hm, hq⟩ := h n hp
  obtain ⟨k, hk, hr⟩ := h' m hq
  exact ⟨k, Nat.le_trans hm hk, hr⟩

theorem LeadsTo.mono (h : LeadsTo r P Q) (hp : ∀ s, R s → P s) (hq : ∀ s, Q s → S s) : LeadsTo r R S := by
  intro n hr
  obtain ⟨m, hm, h⟩ := h n (hp _ hr)
  exact ⟨m, hm, hq _ h⟩

theorem LeadsTo.exists {ι : Type} {P : ι → σ → Prop} (h : ∀ i, LeadsTo r (P i) Q) :
    LeadsTo r (fun s => ∃ i, P i s) Q := by
  intro n hp
  obtain ⟨i, hp⟩ := hp
  exact h i n hp

theorem LeadsTo.or (h : LeadsTo r P R) (h' : LeadsTo r Q R) : LeadsTo r (fun s => P s ∨ Q s) R := by
  intro n hp
  rcases hp with hp | hp
  · exact h n hp
  · exact h' n hp

/-- A list is worked off. -/
theorem LeadsTo.drain {ι : Type} {P : List ι → σ → Prop} (h : ∀ a l, LeadsTo r (P (a :: l)) (P l)) (l : List ι) :
    LeadsTo r (P l) (P []) := by
  induction l with
  | nil => exact .of_imp fun _ hp => hp
  | cons a l ih => exact (h a l).trans ih

/-- What every step keeps, once it holds. -/
theorem Trace.keeps (ht : Trace step r) {I : σ → Prop} (hI : ∀ n, I (r n))
    (hs : ∀ s s', I s → P s → step s s' → P s') {n : Nat} (hp : P (r n)) {m : Nat} (hm : n ≤ m) : P (r m) := by
  induction m, hm using Nat.le_induction with
  | base => exact hp
  | succ m _ ih =>
    rcases ht m with h | e
    · exact hs _ _ (hI m) ih h
    · exact e ▸ ih

theorem Trace.inv (ht : Trace step r) (h₀ : P (r 0)) (hs : ∀ s s', P s → step s s' → P s') (n : Nat) : P (r n) :=
  ht.keeps (I := fun _ => True) (fun _ => trivial) (fun s s' _ => hs s s') h₀ (Nat.zero_le n)

/-- How far a run goes from any of its states. -/
theorem Trace.related (ht : Trace step r) {R : σ → σ → Prop} (refl : ∀ s, R s s)
    (trans : ∀ {s t u}, R s t → R t u → R s u) (hs : ∀ {s s'}, step s s' → R s s') {n m : Nat} (hm : n ≤ m) :
    R (r n) (r m) :=
  ht.keeps (I := fun _ => True) (P := R (r n)) (fun _ => trivial) (fun _ _ _ h h' => trans h (hs h')) (refl _) hm

/-- The step that ends what holds no longer. -/
theorem Trace.exists_step (ht : Trace step r) {n m : Nat} (hm : n ≤ m) (hp : P (r n)) (hq : ¬ P (r m)) :
    ∃ k, n ≤ k ∧ P (r k) ∧ ¬ P (r (k + 1)) ∧ step (r k) (r (k + 1)) := by
  induction m, hm using Nat.le_induction with
  | base => exact absurd hp hq
  | succ m hm ih =>
    by_cases h : P (r m)
    · refine ⟨m, hm, h, hq, (ht m).resolve_right fun e => hq ?_⟩
      exact e ▸ h
    · exact ih h

theorem leadsTo_of_leaves (ht : Trace step r) {I : σ → Prop} (hI : ∀ n, I (r n))
    (h : LeadsTo r P fun s => ¬ P s) (hs : ∀ s s', I s → P s → step s s' → ¬ P s' → Q s') : LeadsTo r P Q := by
  intro n hp
  obtain ⟨m, hm, hq⟩ := h n hp
  obtain ⟨k, hk, hpk, hqk, hstep⟩ := ht.exists_step hm hp hq
  exact ⟨k + 1, Nat.le_succ_of_le hk, hs _ _ (hI k) hpk hstep hqk⟩

/-- A countdown. -/
theorem LeadsTo.descend {P : Nat → σ → Prop} (h : ∀ k, LeadsTo r (P (k + 1)) (P k)) (k : Nat) :
    LeadsTo r (P k) (P 0) := by
  induction k with
  | zero => exact .of_imp fun _ hp => hp
  | succ k ih => exact (h k).trans ih

/-! ## Fairness -/

section

variable {α : Type} {a : Nat → α} {A : α → Prop} {E : σ → Prop}

/-- While `E` holds, a step of the kind `A` comes. -/
def Fairly (r : Nat → σ) (a : Nat → α) (E : σ → Prop) (A : α → Prop) : Prop :=
  ∀ n, E (r n) → ∃ m, n ≤ m ∧ (A (a m) ∨ ¬ E (r m))

/-- `P` holds until `Q` does, and meanwhile a kind of step can come that makes
`Q` true. -/
theorem leadsTo_of_fairly (hf : Fairly r a E A) (hs : ∀ n, P (r n) → P (r (n + 1)) ∨ Q (r (n + 1)))
    (he : ∀ n, P (r n) → E (r n) ∨ Q (r n)) (ha : ∀ n, P (r n) → A (a n) → Q (r (n + 1))) : LeadsTo r P Q := by
  intro n hp
  by_contra hno
  have hq : ∀ m, n ≤ m → ¬ Q (r m) := fun m hm hq => hno ⟨m, hm, hq⟩
  have hall : ∀ m, n ≤ m → P (r m) := by
    intro m hm
    induction m, hm using Nat.le_induction with
    | base => exact hp
    | succ m hm ih => exact (hs m ih).resolve_right (hq _ (Nat.le_succ_of_le hm))
  have henabled : ∀ m, n ≤ m → E (r m) := fun m hm => (he m (hall m hm)).resolve_right (hq m hm)
  obtain ⟨m, hm, h | h⟩ := hf n (henabled n (Nat.le_refl n))
  · exact hq (m + 1) (Nat.le_succ_of_le hm) (ha m (hall m hm) h)
  · exact h (henabled m hm)

end

end Endless
