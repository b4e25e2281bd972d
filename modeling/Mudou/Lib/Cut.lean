import Mathlib.Data.List.Infix

/-!
# Cutting a list at a separator

`Cut sep s ps`: the pieces `ps` remain of `s` when it is cut at the
occurrences of `sep`, found from the left and without overlap. There are such
pieces in one way only (`cut_unique`), unless `sep` is empty, and for a
separator of one element they are those of `splitOn`.
-/

namespace Cutting

variable {α : Type} {sep s : List α}

/-- In `p ++ (sep ++ r)`, no `sep` begins before the end of `p`. -/
def First (sep p r : List α) : Prop := ∀ q t, p ++ (sep ++ r) = q ++ (sep ++ t) → p.length ≤ q.length

inductive Cut (sep : List α) : List α → List (List α) → Prop where
  | last {s : List α} : ¬ sep <:+: s → Cut sep s [s]
  | piece {s p r : List α} {ps : List (List α)} : s = p ++ (sep ++ r) → First sep p r → Cut sep r ps →
      Cut sep s (p :: ps)

theorem infix_of_eq {p r : List α} (h : s = p ++ (sep ++ r)) : sep <:+: s :=
  ⟨p, r, by rw [h, List.append_assoc]⟩

/-- If `sep` occurs, it does so first. -/
theorem exists_first (h : sep <:+: s) : ∃ p r, s = p ++ (sep ++ r) ∧ First sep p r := by
  induction s with
  | nil =>
    obtain rfl := List.infix_nil.mp h
    exact ⟨[], [], rfl, fun _ _ _ => Nat.zero_le _⟩
  | cons x s ih =>
    by_cases hp : sep <+: x :: s
    · obtain ⟨r, e⟩ := hp
      exact ⟨[], r, e.symm, fun _ _ _ => Nat.zero_le _⟩
    · obtain ⟨p, r, rfl, hf⟩ := ih ((List.infix_cons_iff.mp h).resolve_left hp)
      refine ⟨x :: p, r, rfl, fun q t e => ?_⟩
      cases q with
      | nil => exact absurd ⟨t, e.symm⟩ hp
      | cons y q => exact Nat.succ_le_succ (hf q t (List.cons.inj e).2)

theorem exists_cut (hs : sep ≠ []) (s : List α) : ∃ ps, Cut sep s ps := by
  have hpos := List.length_pos_iff.mpr hs
  induction h : s.length using Nat.strong_induction_on generalizing s with
  | _ n ih =>
    by_cases hi : sep <:+: s
    · obtain ⟨p, r, e, hf⟩ := exists_first hi
      have hl : s.length = p.length + (sep.length + r.length) := by simp [e]
      obtain ⟨ps, hc⟩ := ih r.length (by omega) r rfl
      exact ⟨p :: ps, .piece e hf hc⟩
    · exact ⟨[s], .last hi⟩

theorem cut_unique {ps qs : List (List α)} (h : Cut sep s ps) (h' : Cut sep s qs) : ps = qs := by
  induction h generalizing qs with
  | last hi =>
    cases h' with
    | last => rfl
    | piece e => exact absurd (infix_of_eq e) hi
  | @piece s p r ps e hf _ ih =>
    cases h' with
    | last hi => exact absurd (infix_of_eq e) hi
    | @piece _ p' r' qs e' hf' hc' =>
      have hee := e.symm.trans e'
      have hl : p.length = p'.length := Nat.le_antisymm (hf _ _ hee) (hf' _ _ hee.symm)
      obtain ⟨rfl, ee⟩ := List.append_inj hee hl
      obtain rfl := List.append_cancel_left ee
      rw [ih hc']

/-- At one element. -/
theorem cut_splitOn [DecidableEq α] (c : α) (s : List α) : Cut [c] s (s.splitOn c) := by
  induction h : s.length using Nat.strong_induction_on generalizing s with
  | _ n ih =>
    by_cases hc : c ∈ s
    · obtain ⟨p, r, rfl, hp⟩ := List.eq_append_cons_of_mem hc
      have hr : r.length < n := by
        rw [← h, List.length_append, List.length_cons]
        omega
      rw [List.splitOn_append_cons_self_of_not_mem hp]
      refine .piece rfl (fun q t e => ?_) (ih r.length hr r rfl)
      by_contra hlt
      have hm : c ∈ p := by
        have hq : q ++ [c] <+: p := by
          refine List.prefix_of_prefix_length_le ⟨t, ?_⟩ (List.prefix_append p ([c] ++ r)) ?_
          · rw [List.append_assoc]
            exact e.symm
          · simp only [List.length_append, List.length_singleton]
            omega
        exact hq.subset (by simp)
      exact hp hm
    · rw [List.splitOn_eq_singleton hc]
      exact .last fun hi => hc (hi.subset (List.mem_singleton_self c))

end Cutting
