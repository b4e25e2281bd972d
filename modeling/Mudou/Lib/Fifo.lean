import Mathlib.Data.List.TakeDrop
import Mathlib.Data.List.Basic

/-!
# Queues kept in an array segment

A FIFO queue is a list, written at its end and read at its front; `popLine`
reads up to and including the first delimiter. `slice`, `overwrite` and
`copyWithin` are the reads, writes and moves of an array segment that holds
such a queue. `copyWithin` copies one element after the other, so where the
source and the target overlap it may read what it has written;
`copyWithin_eq` says that a move towards the front never does.
-/

namespace Fifo

variable {α : Type*}

/-- The `n` elements of `xs` from position `i` on. -/
def slice (xs : List α) (i n : Nat) : List α := (xs.drop i).take n

/-- `xs` with `ys` written over the elements from position `j` on. -/
def overwrite (xs : List α) (j : Nat) (ys : List α) : List α :=
  xs.take j ++ ys ++ xs.drop (j + ys.length)

/-- `n` elements copied, one after the other, from position `i` on to
position `j` on. -/
def copyWithin : Nat → List α → Nat → Nat → List α
  | 0, xs, _, _ => xs
  | n + 1, xs, i, j =>
    match xs[i]? with
    | some a => copyWithin n (xs.set j a) (i + 1) (j + 1)
    | none => xs

@[simp] theorem length_slice (xs : List α) (i n : Nat) :
    (slice xs i n).length = min n (xs.length - i) := by
  simp [slice]

theorem length_overwrite {xs ys : List α} {j : Nat} (h : j + ys.length ≤ xs.length) :
    (overwrite xs j ys).length = xs.length := by
  simp only [overwrite, List.length_append, List.length_take, List.length_drop]
  omega

theorem slice_append_left {xs : List α} (ys : List α) {i n : Nat} (h : i + n ≤ xs.length) :
    slice (xs ++ ys) i n = slice xs i n := by
  rw [slice, slice, List.drop_append_of_le_length (by omega),
    List.take_append_of_le_length (by rw [List.length_drop]; omega)]

/-- Reading a segment and the one behind it is reading both at once. -/
theorem slice_append_slice (xs : List α) (i m n : Nat) :
    slice xs i m ++ slice xs (i + m) n = slice xs i (m + n) := by
  rw [slice, slice, slice, ← List.drop_drop, ← List.take_add]

/-- A write behind a segment does not change it. -/
theorem slice_overwrite_before {xs ys : List α} {i n j : Nat} (h : i + n ≤ j)
    (hj : j + ys.length ≤ xs.length) : slice (overwrite xs j ys) i n = slice xs i n := by
  rw [overwrite, List.append_assoc, slice_append_left _ (by rw [List.length_take]; omega), slice,
    slice, List.drop_take, List.take_take, Nat.min_eq_left (by omega)]

/-- What is written is what is read back. -/
theorem slice_overwrite_self {xs ys : List α} {j : Nat} (hj : j + ys.length ≤ xs.length) :
    slice (overwrite xs j ys) j ys.length = ys := by
  have hl : (xs.take j).length = j := by rw [List.length_take]; omega
  rw [overwrite, List.append_assoc, slice, List.drop_append_of_le_length (by omega),
    List.drop_of_length_le (by omega), List.nil_append, List.take_left]

theorem slice_zero_overwrite {xs ys : List α} (hj : ys.length ≤ xs.length) :
    slice (overwrite xs 0 ys) 0 ys.length = ys :=
  slice_overwrite_self (by omega)

/-- A move towards the front reads only elements it has not yet written. -/
theorem copyWithin_eq (n : Nat) :
    ∀ (xs : List α) (i j : Nat), j ≤ i → i + n ≤ xs.length →
      copyWithin n xs i j = overwrite xs j (slice xs i n) := by
  induction n with
  | zero =>
    intro xs i j _ _
    simp [copyWithin, overwrite, slice]
  | succ n ih =>
    intro xs i j hj hi
    have hlt : i < xs.length := by omega
    rw [copyWithin, List.getElem?_eq_getElem hlt]
    simp only
    rw [ih (xs.set j xs[i]) (i + 1) (j + 1) (by omega) (by rw [List.length_set]; omega)]
    have hs : slice (xs.set j xs[i]) (i + 1) n = slice xs (i + 1) n := by
      rw [slice, slice, List.drop_set_of_lt (by omega)]
    have hc : slice xs i (n + 1) = xs[i] :: slice xs (i + 1) n := by
      rw [slice, slice, List.drop_eq_getElem_cons hlt, List.take_succ_cons]
    rw [hs, hc, overwrite, overwrite, List.length_cons]
    have ht : (xs.set j xs[i]).take (j + 1) = xs.take j ++ [xs[i]] := by
      rw [List.take_succ_eq_append_getElem (by rw [List.length_set]; omega),
        List.getElem_set_self, List.take_set_of_le (Nat.le_refl j)]
    rw [ht, List.drop_set_of_lt (by omega),
      show j + 1 + (slice xs (i + 1) n).length = j + ((slice xs (i + 1) n).length + 1) by omega]
    simp

section Lines

variable [DecidableEq α]

/-- The first line of a queue, with its delimiter, and the queue without it;
nothing when there is no delimiter. -/
def popLine (d : α) (q : List α) : List α × List α :=
  if d ∈ q then (q.takeWhile (· ≠ d) ++ [d], (q.dropWhile (· ≠ d)).tail) else ([], q)

theorem popLine_of_mem {d : α} {q : List α} (h : d ∈ q) :
    popLine d q = (q.takeWhile (· ≠ d) ++ [d], (q.dropWhile (· ≠ d)).tail) := by
  rw [popLine, if_pos h]

theorem popLine_of_not_mem {d : α} {q : List α} (h : d ∉ q) : popLine d q = ([], q) := by
  rw [popLine, if_neg h]

theorem popLine_append {d : α} {l : List α} (h : d ∉ l) (q : List α) :
    popLine d (l ++ d :: q) = (l ++ [d], q) := by
  have ht : ∀ a ∈ l, decide (a ≠ d) = true := fun a ha =>
    decide_eq_true fun e => h (e ▸ ha)
  rw [popLine_of_mem (by simp), List.takeWhile_append_of_pos ht, List.dropWhile_append_of_pos ht]
  simp

theorem popLine_fst_append_snd (d : α) (q : List α) : (popLine d q).1 ++ (popLine d q).2 = q := by
  by_cases h : d ∈ q
  · obtain ⟨l, r, rfl, hl⟩ := List.eq_append_cons_of_mem h
    simp [popLine_append hl]
  · simp [popLine_of_not_mem h]

theorem popLine_fst_eq_nil {d : α} {q : List α} : (popLine d q).1 = [] ↔ d ∉ q := by
  constructor
  · intro h hm
    simp [popLine_of_mem hm] at h
  · intro h
    rw [popLine_of_not_mem h]

/-- Elements that arrive later do not change a line that is complete. -/
theorem popLine_append_right {d : α} {q : List α} (h : d ∈ q) (r : List α) :
    popLine d (q ++ r) = ((popLine d q).1, (popLine d q).2 ++ r) := by
  obtain ⟨l, s, rfl, hl⟩ := List.eq_append_cons_of_mem h
  rw [List.append_assoc, List.cons_append, popLine_append hl, popLine_append hl]

/-- A line that becomes complete later. -/
theorem length_lt_popLine_fst {d : α} {q r : List α} (h : d ∉ q) (hr : d ∈ r) :
    q.length < (popLine d (q ++ r)).1.length := by
  obtain ⟨l, s, rfl, hl⟩ := List.eq_append_cons_of_mem hr
  rw [← List.append_assoc, popLine_append fun hm => (List.mem_append.mp hm).elim h hl]
  simp

/-- A line has no delimiter but its last element. -/
theorem popLine_fst_last {d : α} {q s r : List α} (h : (popLine d q).1 = s ++ d :: r) : r = [] := by
  have hm : d ∈ q := by
    by_contra hm
    rw [popLine_of_not_mem hm] at h
    exact absurd h.symm (by simp)
  obtain ⟨l, t, rfl, hl⟩ := List.eq_append_cons_of_mem hm
  rw [popLine_append hl] at h
  have hp := popLine_append_right (List.mem_append_right s (List.mem_singleton_self d)) r
  rw [List.append_assoc, List.singleton_append, ← show l ++ [d] = s ++ d :: r from h, popLine_append hl,
    Prod.mk.injEq] at hp
  exact (List.append_eq_nil_iff.mp hp.2.symm).2

theorem length_popLine_snd (d : α) (q : List α) :
    (popLine d q).2.length = q.length - (popLine d q).1.length := by
  have h := congrArg List.length (popLine_fst_append_snd d q)
  rw [List.length_append] at h
  omega

theorem length_popLine_snd_le (d : α) (q : List α) : (popLine d q).2.length ≤ q.length := by
  rw [length_popLine_snd]
  exact Nat.sub_le ..

/-- A line takes at least its end. -/
theorem length_popLine_snd_lt {d : α} {q : List α} (h : (popLine d q).1.length ≠ 0) :
    (popLine d q).2.length < q.length := by
  have hq := congrArg List.length (popLine_fst_append_snd d q)
  rw [List.length_append] at hq
  omega

end Lines

end Fifo
