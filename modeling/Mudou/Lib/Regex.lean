import Mathlib.Data.List.Basic
import Mathlib.Data.List.Forall2

/-!
# Regular expressions

The part of ECMAScript's expressions without look-around and back
references. `run r s` lists the ways to match a prefix of `s`, the preferred
one first: a repetition or an option is greedy, an alternative prefers its
left side. `fullMatch` is `std::regex_match`, the captures of the first way
that leaves nothing.

`Denotes` is what an expression matches, without the order. A string that is
matched with only one list of captures gets these from `fullMatch`
(`fullMatch_eq`).
-/

inductive Regex (α : Type) where
  /-- one character of each class -/
  | chars (ps : List (α → Bool))
  | seq (r s : Regex α)
  | alt (r s : Regex α)
  | opt (r : Regex α)
  /-- any number of characters of a class -/
  | many (p : α → Bool)
  | group (n : Nat) (r : Regex α)

namespace Regex

variable {α : Type}

/-- The groups that took part, with what they matched. -/
abbrev Captures (α : Type) := List (Nat × List α)

def runChars : List (α → Bool) → List α → Option (List α)
  | [], s => some s
  | _ :: _, [] => none
  | p :: ps, x :: s => if p x then runChars ps s else none

def runMany (p : α → Bool) : List α → List (List α)
  | [] => [[]]
  | x :: s => (if p x then runMany p s else []) ++ [x :: s]

/-- The captures and the rest of the string. -/
def run : Regex α → List α → List (Captures α × List α)
  | .chars ps, s => (runChars ps s).toList.map fun t => ([], t)
  | .seq r r', s =>
    (run r s).flatMap fun m => (run r' m.2).map fun m' => (m.1 ++ m'.1, m'.2)
  | .alt r r', s => run r s ++ run r' s
  | .opt r, s => run r s ++ [([], s)]
  | .many p, s => (runMany p s).map fun t => ([], t)
  | .group n r, s => (run r s).map fun m => ((n, s.take (s.length - m.2.length)) :: m.1, m.2)

def fullMatch (r : Regex α) (s : List α) : Option (Captures α) :=
  ((run r s).find? fun m => m.2.isEmpty).map fun m => m.1

/-- What group `n` matched, nothing if it took no part. -/
def capture (c : Captures α) (n : Nat) : List α := (c.lookup n).getD []

/-- The string is matched with these captures. -/
def Denotes : Regex α → List α → Captures α → Prop
  | .chars ps, u, c => List.Forall₂ (fun p x => p x = true) ps u ∧ c = []
  | .seq r s, u, c => ∃ u₁ u₂ c₁ c₂, u = u₁ ++ u₂ ∧ c = c₁ ++ c₂ ∧ Denotes r u₁ c₁ ∧ Denotes s u₂ c₂
  | .alt r s, u, c => Denotes r u c ∨ Denotes s u c
  | .opt r, u, c => Denotes r u c ∨ u = [] ∧ c = []
  | .many p, u, c => (∀ x ∈ u, p x = true) ∧ c = []
  | .group n r, u, c => ∃ c', Denotes r u c' ∧ c = (n, u) :: c'

theorem runChars_eq_some {ps : List (α → Bool)} : ∀ {s t : List α},
    runChars ps s = some t ↔ ∃ u, s = u ++ t ∧ List.Forall₂ (fun p x => p x = true) ps u := by
  induction ps with
  | nil =>
    intro s t
    rw [runChars, Option.some_inj]
    refine ⟨fun h => ⟨[], h, .nil⟩, fun ⟨u, h, hu⟩ => ?_⟩
    rw [List.forall₂_nil_left_iff.mp hu] at h
    exact h
  | cons p ps ih =>
    intro s t
    cases s with
    | nil =>
      refine ⟨fun h => absurd h (by simp [runChars]), fun ⟨u, h, hu⟩ => ?_⟩
      obtain ⟨rfl, _⟩ := List.append_eq_nil_iff.mp h.symm
      cases hu
    | cons x s =>
      rw [runChars]
      split
      · next hp =>
        rw [ih]
        refine ⟨fun ⟨u, h, hu⟩ => ⟨x :: u, by rw [h]; rfl, .cons hp hu⟩, fun ⟨u, h, hu⟩ => ?_⟩
        cases hu with
        | cons hx hu =>
          rw [List.cons_append, List.cons.injEq] at h
          exact ⟨_, h.2, hu⟩
      · next hp =>
        refine ⟨fun h => absurd h (by simp), fun ⟨u, h, hu⟩ => ?_⟩
        cases hu with
        | cons hx hu =>
          rw [List.cons_append, List.cons.injEq] at h
          exact absurd (h.1 ▸ hx) hp

theorem mem_runMany {p : α → Bool} : ∀ {s t : List α},
    t ∈ runMany p s ↔ ∃ u, s = u ++ t ∧ ∀ x ∈ u, p x = true := by
  intro s
  induction s with
  | nil =>
    intro t
    rw [runMany, List.mem_singleton]
    refine ⟨fun h => ⟨[], by rw [h]; rfl, by simp⟩, fun ⟨u, h, _⟩ => ?_⟩
    exact (List.append_eq_nil_iff.mp h.symm).2
  | cons x s ih =>
    intro t
    rw [runMany, List.mem_append, List.mem_singleton]
    constructor
    · rintro (h | rfl)
      · split at h
        · next hp =>
          obtain ⟨u, hs, hu⟩ := ih.mp h
          exact ⟨x :: u, by rw [hs]; rfl, List.forall_mem_cons.mpr ⟨hp, hu⟩⟩
        · simp at h
      · exact ⟨[], rfl, by simp⟩
    · rintro ⟨u, h, hu⟩
      cases u with
      | nil => exact .inr h.symm
      | cons y u =>
        obtain ⟨hy, hu⟩ := List.forall_mem_cons.mp hu
        rw [List.cons_append, List.cons.injEq] at h
        left
        rw [h.1, if_pos hy]
        exact ih.mpr ⟨u, h.2, hu⟩

theorem mem_run {r : Regex α} : ∀ {s t : List α} {c : Captures α},
    (c, t) ∈ run r s ↔ ∃ u, s = u ++ t ∧ Denotes r u c := by
  induction r with
  | chars ps =>
    intro s t c
    simp only [run, Denotes, List.mem_map, Option.mem_toList, runChars_eq_some,
      Prod.mk.injEq]
    constructor
    · rintro ⟨t, ⟨u, h, hu⟩, rfl, rfl⟩
      exact ⟨u, h, hu, rfl⟩
    · rintro ⟨u, h, hu, rfl⟩
      exact ⟨t, ⟨u, h, hu⟩, rfl, rfl⟩
  | seq r r' ih ih' =>
    intro s t c
    simp only [run, Denotes, List.mem_flatMap, List.mem_map, Prod.mk.injEq, Prod.exists]
    constructor
    · rintro ⟨c₁, t₁, h, c₂, t₂, h', rfl, rfl⟩
      obtain ⟨u₁, rfl, hu₁⟩ := ih.mp h
      obtain ⟨u₂, rfl, hu₂⟩ := ih'.mp h'
      exact ⟨u₁ ++ u₂, (List.append_assoc ..).symm, u₁, u₂, c₁, c₂, rfl, rfl, hu₁, hu₂⟩
    · rintro ⟨_, rfl, u₁, u₂, c₁, c₂, rfl, rfl, hu₁, hu₂⟩
      exact ⟨c₁, u₂ ++ t, ih.mpr ⟨u₁, List.append_assoc .., hu₁⟩, c₂, t, ih'.mpr ⟨u₂, rfl, hu₂⟩, rfl, rfl⟩
  | alt r r' ih ih' =>
    intro s t c
    simp only [run, Denotes, List.mem_append, ih, ih']
    constructor
    · rintro (⟨u, h, hu⟩ | ⟨u, h, hu⟩)
      · exact ⟨u, h, .inl hu⟩
      · exact ⟨u, h, .inr hu⟩
    · rintro ⟨u, h, hu | hu⟩
      · exact .inl ⟨u, h, hu⟩
      · exact .inr ⟨u, h, hu⟩
  | opt r ih =>
    intro s t c
    simp only [run, Denotes, List.mem_append, List.mem_singleton, Prod.mk.injEq, ih]
    constructor
    · rintro (⟨u, h, hu⟩ | ⟨rfl, rfl⟩)
      · exact ⟨u, h, .inl hu⟩
      · exact ⟨[], rfl, .inr ⟨rfl, rfl⟩⟩
    · rintro ⟨u, h, hu | ⟨rfl, rfl⟩⟩
      · exact .inl ⟨u, h, hu⟩
      · exact .inr ⟨rfl, h.symm⟩
  | many p =>
    intro s t c
    simp only [run, Denotes, List.mem_map, mem_runMany, Prod.mk.injEq]
    constructor
    · rintro ⟨t, ⟨u, h, hu⟩, rfl, rfl⟩
      exact ⟨u, h, hu, rfl⟩
    · rintro ⟨u, h, hu, rfl⟩
      exact ⟨t, ⟨u, h, hu⟩, rfl, rfl⟩
  | group n r ih =>
    intro s t c
    simp only [run, Denotes, List.mem_map, Prod.mk.injEq, Prod.exists]
    constructor
    · rintro ⟨c', t, h, rfl, rfl⟩
      obtain ⟨u, rfl, hu⟩ := ih.mp h
      exact ⟨u, rfl, c', hu, by simp⟩
    · rintro ⟨u, rfl, c', hu, rfl⟩
      exact ⟨c', t, ih.mpr ⟨u, rfl, hu⟩, by simp, rfl⟩

theorem Denotes.of_fullMatch {r : Regex α} {s : List α} {c : Captures α} (h : fullMatch r s = some c) :
    Denotes r s c := by
  obtain ⟨⟨c', t⟩, hf, rfl⟩ := Option.map_eq_some_iff.mp h
  have ht : t = [] := by simpa using List.find?_some hf
  obtain ⟨u, hs, hu⟩ := mem_run.mp (List.mem_of_find?_eq_some hf)
  rw [ht, List.append_nil] at hs
  rwa [hs]

/-- A string that is matched in one way. -/
theorem fullMatch_eq {r : Regex α} {s : List α} {c : Captures α} (h : Denotes r s c)
    (hu : ∀ c', Denotes r s c' → c' = c) : fullMatch r s = some c := by
  have hm : (c, []) ∈ run r s := mem_run.mpr ⟨s, (List.append_nil s).symm, h⟩
  cases e : fullMatch r s with
  | some c' => rw [hu c' (.of_fullMatch e)]
  | none =>
    rw [fullMatch, Option.map_eq_none_iff, List.find?_eq_none] at e
    exact absurd rfl (e _ hm)

end Regex
