import Mathlib.Algebra.BigOperators.Group.Finset.Basic
import Mathlib.Algebra.BigOperators.Group.Finset.Piecewise
import Mathlib.Data.List.Basic

/-!
# Calendars

A calendar has `n` slots, and tick `k` empties the slot `k % n`. Its log has
what was entered, where and when: a slot holds the entries of the log that no
tick has visited since (`slotAt`), and none of them is older than `n` ticks.
So the calendar holds no more than was entered in the last `n` ticks
(`length_slots_le`).
-/

namespace Calendar

variable {α : Type}

structure Entry (α : Type) where
  /-- the number of ticks before it was entered -/
  time : Nat
  slot : Nat
  item : α

/-- The first tick after `time` that visits `slot`. -/
def visit (n time slot : Nat) : Nat := time + 1 + (slot + n - (time + 1) % n) % n

theorem lt_visit (n time slot : Nat) : time < visit n time slot := by
  unfold visit
  omega

theorem visit_le {n : Nat} (hn : 0 < n) (time slot : Nat) : visit n time slot ≤ time + n := by
  have := Nat.mod_lt (slot + n - (time + 1) % n) hn
  unfold visit
  omega

theorem visit_mod {n slot : Nat} (hs : slot < n) (time : Nat) : visit n time slot % n = slot := by
  have hk := Nat.mod_lt (time + 1) (Nat.zero_lt_of_lt hs)
  unfold visit
  rw [Nat.add_mod_mod]
  have hd := Nat.div_add_mod (time + 1) n
  have e : time + 1 + (slot + n - (time + 1) % n) = slot + n * ((time + 1) / n + 1) := by
    rw [Nat.mul_add, Nat.mul_one]
    omega
  rw [e, Nat.add_mul_mod_self_left, Nat.mod_eq_of_lt hs]

/-- Whether no tick up to `now` has visited the entry. -/
def Entry.kept (n now : Nat) (e : Entry α) : Bool := decide (now < visit n e.time e.slot)

def slotAt (n now : Nat) (log : List (Entry α)) (i : Nat) : List α :=
  (log.filter fun e => decide (e.slot = i) && e.kept n now).map Entry.item

variable {n now i : Nat} {log : List (Entry α)}

/-- An entry that is made now. -/
theorem slotAt_concat (slot : Nat) (x : α) : slotAt n now (log ++ [⟨now, slot, x⟩]) i =
    slotAt n now log i ++ if slot = i then [x] else [] := by
  have hk : Entry.kept n now ⟨now, slot, x⟩ = true := decide_eq_true (lt_visit n now slot)
  rw [slotAt, List.filter_append, List.map_append, ← slotAt, List.filter_singleton, hk]
  by_cases hi : slot = i <;> simp [hi]

/-- The next tick empties its slot and no other: an entry that stayed in it would
be visited a whole turn later. -/
theorem slotAt_succ (hs : ∀ e ∈ log, e.slot < n) (ht : ∀ e ∈ log, e.time ≤ now) :
    slotAt n (now + 1) log i = if i = (now + 1) % n then [] else slotAt n now log i := by
  by_cases hi : i = (now + 1) % n
  · rw [if_pos hi, slotAt, List.map_eq_nil_iff, List.filter_eq_nil_iff]
    intro e he
    have hv := visit_mod (hs e he) e.time
    have hle := visit_le (Nat.zero_lt_of_lt (hs e he)) e.time e.slot
    have hte := ht e he
    simp only [Entry.kept, Bool.and_eq_true, decide_eq_true_eq]
    intro ⟨hei, hlt⟩
    have hd : n ∣ visit n e.time e.slot - (now + 1) :=
      Nat.dvd_of_mod_eq_zero (Nat.sub_mod_eq_zero_of_mod_eq (by rw [hv, hei, hi]))
    have := Nat.le_of_dvd (by omega) hd
    omega
  · rw [if_neg hi, slotAt, slotAt]
    refine congrArg _ (List.filter_congr fun e he => ?_)
    by_cases hei : e.slot = i
    · have hv := visit_mod (hs e he) e.time
      have hne : visit n e.time e.slot ≠ now + 1 := fun h => hi (by rw [← hei, ← hv, h])
      have hk : now + 1 < visit n e.time e.slot ↔ now < visit n e.time e.slot := by omega
      simp only [Entry.kept, hk]
    · simp [hei]

theorem sum_length_slotAt (hs : ∀ e ∈ log, e.slot < n) :
    ∑ i ∈ Finset.range n, (slotAt n now log i).length = log.countP (Entry.kept n now) := by
  induction log with
  | nil => exact Finset.sum_const_zero
  | cons e log ih =>
    have he := hs e List.mem_cons_self
    have hc : ∀ i, (slotAt n now (e :: log) i).length =
        (slotAt n now log i).length + if e.slot = i then (if e.kept n now then 1 else 0) else 0 := by
      intro i
      simp only [slotAt, List.length_map, ← List.countP_eq_length_filter, List.countP_cons]
      by_cases hi : e.slot = i <;> simp [hi]
    simp only [hc]
    rw [Finset.sum_add_distrib, ih fun e' h => hs e' (List.mem_cons_of_mem _ h), Finset.sum_ite_eq,
      if_pos (Finset.mem_range.mpr he), List.countP_cons]

/-- The slots, one after the other. -/
def slots (n : Nat) (slot : Nat → List α) : List α := (List.range n).flatMap slot

theorem length_slots (slot : Nat → List α) : (slots n slot).length = ∑ i ∈ Finset.range n, (slot i).length :=
  List.length_flatMap

theorem length_slots_le (hs : ∀ e ∈ log, e.slot < n) : (slots n (slotAt n now log)).length ≤
    (log.map Entry.time).countP fun t => decide (now < t + n) := by
  rw [length_slots, sum_length_slotAt hs, List.countP_map]
  refine List.countP_mono_left fun e he hk => ?_
  have hle := visit_le (Nat.zero_lt_of_lt (hs e he)) e.time e.slot
  have hk : now < visit n e.time e.slot := of_decide_eq_true hk
  exact decide_eq_true (by omega)

end Calendar
