import Mudou.Http.Util

/-!
# Splitting a string

The loop of `Split` as the source has it, from an offset on (`Splits`).
`split_exact`: for any separator that is not empty, it ends, and has appended
the pieces of the cut that are not empty.
-/

namespace Mudou.Util

open Cutting

variable {sep src : Bytes} {offset : Nat} {arry : List Bytes}

/-- `src.find(sep, offset)`. -/
def findFrom (sep src : Bytes) (offset : Nat) : Option Nat := (find sep (src.drop offset)).map (offset + ·)

/-- The loop from `offset` on comes to an end with an array and its size. -/
inductive Splits (sep src : Bytes) : Nat → List Bytes → List Bytes × Nat → Prop where
  | done {offset : Nat} {arry : List Bytes} : src.length ≤ offset → Splits sep src offset arry (arry, arry.length)
  | rest {offset : Nat} {arry : List Bytes} : offset < src.length → findFrom sep src offset = none →
      Splits sep src offset arry (arry ++ [src.drop offset], (arry ++ [src.drop offset]).length)
  | skip {offset : Nat} {arry : List Bytes} {r : List Bytes × Nat} : offset < src.length →
      findFrom sep src offset = some offset → Splits sep src (offset + sep.length) arry r →
      Splits sep src offset arry r
  | piece {offset pos : Nat} {arry : List Bytes} {r : List Bytes × Nat} : offset < src.length →
      findFrom sep src offset = some pos → pos ≠ offset →
      Splits sep src (pos + sep.length) (arry ++ [(src.drop offset).take (pos - offset)]) r →
      Splits sep src offset arry r

theorem splits_unique {r r' : List Bytes × Nat} (h : Splits sep src offset arry r)
    (h' : Splits sep src offset arry r') : r = r' := by
  induction h with
  | done hl =>
    cases h' with
    | done => rfl
    | rest hl' | skip hl' | piece hl' => omega
  | rest hl e =>
    cases h' with
    | rest => rfl
    | done hl' => omega
    | skip _ e' | piece _ e' => simp [e] at e'
  | skip hl e _ ih =>
    cases h' with
    | skip _ _ h' => exact ih h'
    | done hl' => omega
    | rest _ e' => simp [e] at e'
    | piece _ e' hne => exact absurd (Option.some.inj (e.symm.trans e')).symm hne
  | piece hl e hne _ ih =>
    cases h' with
    | piece _ e' _ h' =>
      obtain rfl := Option.some.inj (e.symm.trans e')
      exact ih h'
    | done hl' => omega
    | rest _ e' => simp [e] at e'
    | skip _ e' => exact absurd (Option.some.inj (e.symm.trans e')) hne

/-- What is left from the offset on is cut into `ps`. -/
theorem splits_of_cut (hs : sep ≠ []) {s : Bytes} {ps : List Bytes} (h : Cut sep s ps) :
    ∀ (offset : Nat) (arry : List Bytes), src.drop offset = s →
      Splits sep src offset arry (arry ++ ps.filter (· ≠ []), (arry ++ ps.filter (· ≠ [])).length) := by
  induction h with
  | @last s hi =>
    rintro offset arry rfl
    by_cases hl : offset < src.length
    · have h0 : src.drop offset ≠ [] := by simpa using hl
      rw [List.filter_cons_of_pos (by simpa using h0), List.filter_nil]
      exact .rest hl (by rw [findFrom, find_none hs hi]; rfl)
    · have h0 : src.drop offset = [] := List.drop_of_length_le (Nat.not_lt.mp hl)
      rw [List.filter_cons_of_neg (by simp [h0]), List.filter_nil, List.append_nil]
      exact .done (Nat.not_lt.mp hl)
  | @piece s p r ps e hf _ ih =>
    rintro offset arry rfl
    have hpos := List.length_pos_iff.mpr hs
    have hlen := congrArg List.length e
    simp only [List.length_drop, List.length_append] at hlen
    have hl : offset < src.length := by omega
    have hfind : findFrom sep src offset = some (offset + p.length) := by
      rw [findFrom, e, find_first hs hf]
      rfl
    have hr : src.drop (offset + p.length + sep.length) = r := by
      rw [← List.drop_drop, ← List.drop_drop, e, List.drop_left, List.drop_left]
    by_cases hp0 : p = []
    · subst hp0
      rw [List.filter_cons_of_neg (by simp)]
      exact .skip hl hfind (ih _ arry hr)
    · have hne : offset + p.length ≠ offset := by
        have := List.length_pos_iff.mpr hp0
        omega
      have ht : (src.drop offset).take (offset + p.length - offset) = p := by
        rw [Nat.add_sub_cancel_left, e, List.take_left]
      have ih := ih (offset + p.length + sep.length) (arry ++ [p]) hr
      rw [List.append_assoc, List.singleton_append] at ih
      rw [List.filter_cons_of_pos (by simpa using hp0)]
      refine .piece hl hfind hne ?_
      rw [ht]
      exact ih

/-- Whatever the string, the separator and the array: there is one cut of the
string, and the loop ends in one way, with the pieces of that which are not
empty behind what was in the array. -/
theorem split_exact (src : Bytes) {sep : Bytes} (hs : sep ≠ []) (arry : List Bytes) :
    ∃ ps, (∀ qs, Cut sep src qs ↔ qs = ps) ∧
      (∀ r, Splits sep src 0 arry r ↔ r = split src sep arry) ∧
      split src sep arry = (arry ++ ps.filter (· ≠ []), (arry ++ ps.filter (· ≠ [])).length) := by
  obtain ⟨ps, hc⟩ := exists_cut hs src
  have he : split src sep arry = (arry ++ ps.filter (· ≠ []), (arry ++ ps.filter (· ≠ [])).length) := by
    rw [split, splitLoop_cut hs hc _ arry (Nat.lt_succ_self _)]
  have hsp : Splits sep src 0 arry (split src sep arry) := he ▸ splits_of_cut hs hc 0 arry rfl
  refine ⟨ps, fun qs => ⟨fun h => cut_unique h hc, ?_⟩, fun r => ⟨fun h => splits_unique h hsp, ?_⟩, he⟩
  · rintro rfl
    exact hc
  · rintro rfl
    exact hsp

/-- A separator that overlaps itself, at the start of the string and twice
more. -/
theorem split_exact_overlap : ∃ ps, (∀ qs, Cut (str "aba") (str "ababaXabaabaY") qs ↔ qs = ps) ∧
    (∀ r, Splits (str "aba") (str "ababaXabaabaY") 0 [str "k"] r ↔
      r = split (str "ababaXabaabaY") (str "aba") [str "k"]) ∧
    split (str "ababaXabaabaY") (str "aba") [str "k"] =
      ([str "k"] ++ ps.filter (· ≠ []), ([str "k"] ++ ps.filter (· ≠ [])).length) :=
  split_exact _ (by decide) _

example : split (str "ababaXabaabaY") (str "aba") [str "k"] = ([str "k", str "baX", str "Y"], 3) := by decide +kernel

end Mudou.Util
