import Mathlib.Data.List.Nodup
import Mathlib.Data.List.Range
import Mathlib.Data.Nat.ModEq

/-!
# Taking turns

`turns n s m`: the first `m` turns among `n`, from turn `s` on. One round of
`n` turns is everybody's turn once (`count_turns_round`), whoever begins, so
that of any `m` turns in a row everybody has `m / n`, or one more
(`count_turns`).
-/

namespace RoundRobin

variable {n a : Nat}

def turns (n s m : Nat) : List Nat := (List.range m).map fun j => (s + j) % n

theorem turns_add (n s m k : Nat) : turns n s (m + k) = turns n s m ++ turns n (s + m) k := by
  rw [turns, List.range_add, List.map_append, List.map_map]
  refine congrArg _ (List.map_congr_left fun j _ => ?_)
  show (s + (m + j)) % n = (s + m + j) % n
  rw [Nat.add_assoc]

theorem turns_succ (n s m : Nat) : turns n s (m + 1) = s % n :: turns n (s + 1) m := by
  rw [Nat.add_comm, turns_add]
  rfl

/-- A round later the turns are the same. -/
theorem turns_add_self (n s m : Nat) : turns n (s + n) m = turns n s m := by
  refine List.map_congr_left fun j _ => ?_
  rw [Nat.add_right_comm, Nat.add_mod_right]

theorem turns_mod (n s m : Nat) : turns n (s % n) m = turns n s m :=
  List.map_congr_left fun _ _ => Nat.mod_add_mod ..

theorem mod_lt_of_mem_turns (hn : 0 < n) {s m : Nat} (h : a ∈ turns n s m) : a < n := by
  obtain ⟨j, -, rfl⟩ := List.mem_map.mp h
  exact Nat.mod_lt _ hn

/-- Nobody has two turns in a round. -/
theorem nodup_turns {s m : Nat} (hm : m ≤ n) : (turns n s m).Nodup := by
  refine List.Nodup.map_on (fun i hi j hj e => ?_) List.nodup_range
  have hi := List.mem_range.mp hi
  have hj := List.mem_range.mp hj
  have h : i ≡ j [MOD n] := Nat.ModEq.add_left_cancel' s e
  exact Nat.ModEq.eq_of_lt_of_lt h (by omega) (by omega)

theorem count_turns_round (ha : a < n) (s : Nat) : (turns n s n).count a = 1 := by
  refine List.count_eq_one_of_mem (nodup_turns (Nat.le_refl n)) (List.mem_map.mpr ?_)
  have hs : s % n < n := Nat.mod_lt _ (by omega)
  refine ⟨(a + (n - s % n)) % n, List.mem_range.mpr (Nat.mod_lt _ (by omega)), ?_⟩
  have e : s % n + (a + (n - s % n)) = a + n := by omega
  calc (s + (a + (n - s % n)) % n) % n = (s % n + (a + (n - s % n))) % n := by
        rw [Nat.add_mod_mod, ← Nat.mod_add_mod]
    _ = a := by rw [e, Nat.add_mod_right, Nat.mod_eq_of_lt ha]

theorem count_turns_mul_add (ha : a < n) (s q r : Nat) :
    (turns n s (n * q + r)).count a = q + (turns n s r).count a := by
  induction q with
  | zero => rw [Nat.mul_zero, Nat.zero_add, Nat.zero_add]
  | succ q ih =>
    rw [Nat.mul_succ, Nat.add_right_comm, Nat.add_comm, turns_add, turns_add_self, List.count_append,
      count_turns_round ha, ih]
    omega

theorem count_turns (ha : a < n) (s m : Nat) :
    m / n ≤ (turns n s m).count a ∧ (turns n s m).count a ≤ m / n + 1 := by
  have hr : m % n < n := Nat.mod_lt _ (by omega)
  have h := count_turns_mul_add ha s (m / n) (m % n)
  have h1 := List.nodup_iff_count_le_one.mp (nodup_turns (n := n) (s := s) hr.le) a
  rw [Nat.div_add_mod] at h
  omega

end RoundRobin
