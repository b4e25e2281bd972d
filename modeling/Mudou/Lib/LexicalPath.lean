import Mathlib.Data.List.Infix
import Mudou.Lib.Bytes

/-!
# File names, read lexically

A name is walked component by component, without symbolic links: an empty
component and `.` stay, `..` goes to the parent, anything else goes down. A
directory is the list of the names on the way from the root.

`Confined`: a name that begins with that of a directory never leaves the
directory again. `confined_append_iff` says when: the components that lead
there from the directory (`fromDir`) must never go above it (`staysBelow`).
Without a slash in between, the last component of the directory's own name
becomes longer, and the name leads to a sibling.
-/

namespace Mudou.LexicalPath

abbrev Dir := List Bytes

def components (name : Bytes) : List Bytes := name.splitOn 47

/-- A component that stays: empty or `.`. -/
def Stays (c : Bytes) : Prop := c = [] ∨ c = [46]

instance (c : Bytes) : Decidable (Stays c) := inferInstanceAs (Decidable (_ ∨ _))

def walk (dir : Dir) (c : Bytes) : Dir :=
  if Stays c then dir else if c = [46, 46] then dir.dropLast else dir ++ [c]

/-- Where a name starts. -/
def start (cwd : Dir) (name : Bytes) : Dir := if name.head? = some 47 then [] else cwd

def resolve (cwd : Dir) (name : Bytes) : Dir := (components name).foldl walk (start cwd name)

/-- From the components of `base` on, each prefix of the name is in `base` or
below. -/
def Confined (cwd : Dir) (base name : Bytes) : Prop :=
  ∀ pre, pre <+: components name → (components base).length ≤ pre.length →
    resolve cwd base <+: pre.foldl walk (start cwd name)

/-- Components that, from `n` levels below a directory, never go above it. -/
def staysBelow : Nat → List Bytes → Bool
  | _, [] => true
  | n, c :: cs =>
    if Stays c then staysBelow n cs
    else if c = [46, 46] then decide (0 < n) && staysBelow (n - 1) cs
    else staysBelow (n + 1) cs

/-- What leads from a directory, whose name ends in the component `last`, to
what the name with these components behind it stands for. -/
def fromDir (last : Bytes) : List Bytes → List Bytes
  | [] => []
  | c :: cs =>
    if last = [] ∨ c = [] then c :: cs
    else if last = [46] then (last ++ c) :: cs
    -- back into the directory that the last component left
    else if last = [46, 46] then str "dir" :: (last ++ c) :: cs
    else [46, 46] :: (last ++ c) :: cs

/-! ## Walking -/

theorem walk_stays {c : Bytes} (h : Stays c) (dir : Dir) : walk dir c = dir := if_pos h

theorem walk_parent (dir : Dir) : walk dir [46, 46] = dir.dropLast := by
  rw [walk, if_neg (by decide), if_pos rfl]

theorem walk_down {c : Bytes} (h : ¬ Stays c) (h' : c ≠ [46, 46]) (dir : Dir) : walk dir c = dir ++ [c] := by
  rw [walk, if_neg h, if_neg h']

theorem forall_prefix_cons {dir at' : Dir} (h : dir <+: at') (c : Bytes) (cs : List Bytes) :
    (∀ pre, pre <+: c :: cs → dir <+: pre.foldl walk at') ↔
      ∀ pre, pre <+: cs → dir <+: pre.foldl walk (walk at' c) := by
  refine ⟨fun hp pre hpre => hp (c :: pre) (List.cons_prefix_cons.mpr ⟨rfl, hpre⟩), fun hp pre hpre => ?_⟩
  cases pre with
  | nil => exact h
  | cons c' pre =>
    obtain ⟨rfl, htl⟩ := List.cons_prefix_cons.mp hpre
    exact hp pre htl

/-- From below a directory, a walk stays in it as long as the levels say. -/
theorem prefix_foldl_iff {dir : Dir} (hd : dir ≠ []) (cs : List Bytes) : ∀ below : Dir,
    (∀ pre, pre <+: cs → dir <+: pre.foldl walk (dir ++ below)) ↔ staysBelow below.length cs = true := by
  induction cs with
  | nil =>
    intro below
    refine iff_of_true (fun pre hp => ?_) rfl
    rw [List.prefix_nil.mp hp]
    exact List.prefix_append ..
  | cons c cs ih =>
    intro below
    rw [forall_prefix_cons (List.prefix_append ..), staysBelow]
    by_cases hs : Stays c
    · rw [walk_stays hs, if_pos hs]
      exact ih below
    · rw [if_neg hs]
      by_cases hp : c = [46, 46]
      · rw [hp, walk_parent, if_pos rfl]
        cases below using List.reverseRecOn with
        | nil =>
          rw [List.append_nil]
          refine iff_of_false (fun h => ?_) Bool.false_ne_true
          have hl := (h [] List.nil_prefix).length_le
          rw [List.foldl_nil, List.length_dropLast] at hl
          have := List.length_pos_of_ne_nil hd
          omega
        | append_singleton below x =>
          rw [← List.append_assoc, List.dropLast_concat, List.length_append, List.length_singleton, ih,
            Nat.add_sub_cancel, decide_eq_true (Nat.succ_pos _), Bool.true_and]
      · rw [walk_down hs hp, if_neg hp, List.append_assoc, ih, List.length_append]
        rfl

/-! ## Names that are put together -/

/-- The last component of one name and the first of the next become one. -/
theorem exists_components_append (base : Bytes) : ∃ init last, components base = init ++ [last] ∧
    ∀ rest, components (base ++ rest) = init ++ (components rest).modifyHead (last ++ ·) := by
  induction base with
  | nil =>
    refine ⟨[], [], rfl, fun rest => ?_⟩
    show components rest = (components rest).modifyHead ([] ++ ·)
    generalize components rest = cs
    cases cs <;> rfl
  | cons x base ih =>
    obtain ⟨init, last, e, h⟩ := ih
    simp only [components, List.cons_append, List.splitOn_cons_eq_if_modifyHead] at e h ⊢
    by_cases hx : x = 47
    · refine ⟨[] :: init, last, ?_, fun rest => ?_⟩
      · rw [if_pos (beq_iff_eq.mpr hx), e, List.cons_append]
      · rw [if_pos (beq_iff_eq.mpr hx), h, List.cons_append]
    · simp only [beq_iff_eq, hx, if_false, e, h]
      cases init with
      | nil =>
        refine ⟨[], x :: last, rfl, fun rest => ?_⟩
        generalize List.splitOn 47 rest = cs
        cases cs <;> rfl
      | cons d init => exact ⟨(x :: d) :: init, last, rfl, fun rest => rfl⟩

/-- Two components in one are a name, unless they are two dots. -/
theorem append_ordinary {last c : Bytes} (hl : last ≠ []) (hc : c ≠ []) (h : last ≠ [46]) :
    ¬ Stays (last ++ c) ∧ last ++ c ≠ [46, 46] := by
  obtain ⟨x, last, rfl⟩ := List.exists_cons_of_ne_nil hl
  obtain ⟨y, c, rfl⟩ := List.exists_cons_of_ne_nil hc
  refine ⟨?_, fun e => h ?_⟩
  · rintro (e | e) <;> simp at e
  · cases last with
    | nil => simpa using (List.cons.inj e).1
    | cons z last => simp at e

theorem staysBelow_down {c : Bytes} (h : ¬ Stays c ∧ c ≠ [46, 46]) (n : Nat) (cs : List Bytes) :
    staysBelow n (c :: cs) = staysBelow (n + 1) cs := by
  rw [staysBelow, if_neg h.1, if_neg h.2]

theorem prefix_walk_iff {dir : Dir} {last c : Bytes} {cs : List Bytes} (hd : walk dir last ≠ []) :
    (∀ pre, pre <+: cs → walk dir last <+: pre.foldl walk (walk dir (last ++ c))) ↔
      staysBelow 0 (fromDir last (c :: cs)) = true := by
  rw [fromDir]
  by_cases hs : last = [] ∨ c = []
  · rw [if_pos hs]
    have hw : walk dir (last ++ c) = walk (walk dir last) c := by
      rcases hs with rfl | rfl
      · rw [walk_stays (.inl rfl), List.nil_append]
      · rw [walk_stays (.inl rfl), List.append_nil]
    have h := prefix_foldl_iff hd (c :: cs) []
    rw [List.append_nil, forall_prefix_cons (List.prefix_refl _)] at h
    rw [hw]
    exact h
  · obtain ⟨hl, hc⟩ := not_or.mp hs
    rw [if_neg hs]
    by_cases h₁ : last = [46]
    · have hst : walk dir last = dir := walk_stays (.inr h₁) dir
      have h := prefix_foldl_iff (hst ▸ hd) ((last ++ c) :: cs) []
      rw [List.append_nil, forall_prefix_cons (List.prefix_refl _)] at h
      rw [if_pos h₁, hst]
      exact h
    · have hns := append_ordinary hl hc h₁
      rw [if_neg h₁, walk_down hns.1 hns.2]
      by_cases h₂ : last = [46, 46]
      · rw [h₂, walk_parent] at hd
        have hne : dir ≠ [] := fun e => hd (by rw [e]; rfl)
        have h := prefix_foldl_iff hd cs [dir.getLast hne, last ++ c]
        rw [if_pos h₂, staysBelow_down (by decide), staysBelow_down hns]
        nth_rewrite 1 [h₂]
        rw [walk_parent]
        rw [List.append_cons, List.dropLast_append_getLast] at h
        exact h
      · rw [if_neg h₂]
        refine iff_of_false (fun h => ?_) (by simp [staysBelow, Stays])
        have hs : ¬ Stays last := fun hs => hs.elim hl h₁
        have h := h [] List.nil_prefix
        rw [walk_down hs h₂, List.foldl_nil] at h
        have h := (List.prefix_append_right_inj dir).mp h
        obtain ⟨e, _⟩ := List.cons_prefix_cons.mp h
        exact hc (List.append_right_eq_self.mp e.symm)

theorem components_ne_nil (name : Bytes) : components name ≠ [] := List.splitOn_ne_nil _ _

/-- When a name put together from that of a directory and more stays in the
directory. -/
theorem confined_append_iff (cwd : Dir) {base : Bytes} (hb : base ≠ []) (rest : Bytes) :
    Confined cwd base (base ++ rest) ↔ resolve cwd base = [] ∨
      staysBelow 0 (fromDir ((components base).getLast (components_ne_nil base)) (components rest)) = true := by
  obtain ⟨init, last, e, h⟩ := exists_components_append base
  have hl : (components base).getLast (components_ne_nil base) = last := by simp only [e, List.getLast_concat]
  have hstart : start cwd (base ++ rest) = start cwd base := by
    rw [start, start, List.head?_append_of_ne_nil _ hb]
  obtain ⟨c, cs, hcs⟩ := List.exists_cons_of_ne_nil (components_ne_nil rest)
  have hB : resolve cwd base = walk (init.foldl walk (start cwd base)) last := by
    rw [resolve, e, List.foldl_concat]
  have hc : Confined cwd base (base ++ rest) ↔ ∀ pre, pre <+: cs →
      resolve cwd base <+: pre.foldl walk (walk (init.foldl walk (start cwd base)) (last ++ c)) := by
    unfold Confined
    rw [h, e, hcs, hstart, List.length_append, List.length_singleton]
    refine ⟨fun hp pre hpre => ?_, fun hp pre hpre hlen => ?_⟩
    · have hp := hp (init ++ (last ++ c) :: pre) ?_ (by simp)
      · rwa [List.foldl_append] at hp
      · exact (List.prefix_append_right_inj init).mpr (List.cons_prefix_cons.mpr ⟨rfl, hpre⟩)
    · obtain ⟨tl, rfl⟩ : init <+: pre :=
        List.prefix_of_prefix_length_le (List.prefix_append ..) hpre (by omega)
      have ht := (List.prefix_append_right_inj init).mp hpre
      cases tl with
      | nil =>
        rw [List.append_nil] at hlen
        omega
      | cons x tl =>
        obtain ⟨rfl, htl⟩ := List.cons_prefix_cons.mp ht
        rw [List.foldl_append]
        exact hp tl htl
  rw [hc, hl, hcs, hB]
  by_cases h0 : walk (init.foldl walk (start cwd base)) last = []
  · rw [h0]
    exact iff_of_true (fun pre _ => List.nil_prefix) (.inl rfl)
  · rw [prefix_walk_iff h0, or_iff_right h0]

end Mudou.LexicalPath
