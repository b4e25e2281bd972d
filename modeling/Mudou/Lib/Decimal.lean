import Mathlib.Data.List.TakeWhile
import Mudou.Lib.Bytes

/-!
# Decimal numbers

`std::to_string` of an integer and `std::stol`. A number that `stol` reads may
have white space and a sign before it and anything behind it.
-/

namespace Mudou

/-- What `std::stol` throws. -/
inductive StolError where
  | invalidArgument
  | outOfRange
  deriving DecidableEq

def decimal (n : Nat) : Bytes := (Nat.toDigits 10 n).map fun c => c.toNat.toUInt8

def toString' (n : Int) : Bytes := if n < 0 then str "-" ++ decimal n.natAbs else decimal n.natAbs

def isDigit (c : Byte) : Bool := 48 ≤ c && c ≤ 57

/-- The white space of the C locale. -/
def isSpace (c : Byte) : Bool := c == 32 || 9 ≤ c && c ≤ 13

def ofDigits (s : Bytes) : Nat := s.foldl (fun n c => 10 * n + (c.toNat - 48)) 0

/-- An optional sign, and whether it is a minus. -/
def sign : Bytes → Bool × Bytes
  | [] => (false, [])
  | c :: s => if c = 43 then (false, s) else if c = 45 then (true, s) else (false, c :: s)

def stol (s : Bytes) : Except StolError Int :=
  let (neg, s) := sign (s.dropWhile isSpace)
  let digits := s.takeWhile isDigit
  if digits = [] then .error .invalidArgument
  else
    let n : Int := if neg then -ofDigits digits else ofDigits digits
    if n < -9223372036854775808 ∨ 9223372036854775807 < n then .error .outOfRange else .ok n

theorem isDigit_iff {c : Byte} : isDigit c = true ↔ 48 ≤ c.toNat ∧ c.toNat ≤ 57 := by
  rw [isDigit, Bool.and_eq_true, decide_eq_true_eq, decide_eq_true_eq, UInt8.le_iff_toNat_le,
    UInt8.le_iff_toNat_le]
  exact Iff.rfl

theorem isSpace_iff {c : Byte} : isSpace c = true ↔ c.toNat = 32 ∨ 9 ≤ c.toNat ∧ c.toNat ≤ 13 := by
  rw [isSpace, Bool.or_eq_true, Bool.and_eq_true, decide_eq_true_eq, decide_eq_true_eq, beq_iff_eq,
    UInt8.le_iff_toNat_le, UInt8.le_iff_toNat_le, ← UInt8.toNat_inj]
  exact Iff.rfl

/-- A digit of a number is one as a byte, with the same value. -/
theorem toUInt8_of_mem_toDigits {n : Nat} {d : Char} (h : d ∈ Nat.toDigits 10 n) :
    isDigit d.toNat.toUInt8 = true ∧ d.toNat.toUInt8.toNat = d.toNat := by
  have h := Nat.isDigit_of_mem_toDigits (by omega) (by omega) h
  rw [Char.isDigit, Bool.and_eq_true, decide_eq_true_eq, decide_eq_true_eq] at h
  have h₁ : 48 ≤ d.toNat := UInt32.le_iff_toNat_le.mp h.1
  have h₂ : d.toNat ≤ 57 := UInt32.le_iff_toNat_le.mp h.2
  have hv : d.toNat.toUInt8.toNat = d.toNat := by
    rw [Nat.toUInt8_eq, UInt8.toNat_ofNat']
    omega
  exact ⟨isDigit_iff.mpr (by omega), hv⟩

theorem isDigit_of_mem_decimal {n : Nat} {c : Byte} (h : c ∈ decimal n) : isDigit c = true := by
  obtain ⟨d, hd, rfl⟩ := List.mem_map.mp h
  exact (toUInt8_of_mem_toDigits hd).1

theorem decimal_ne_nil (n : Nat) : decimal n ≠ [] := by
  rw [decimal, ne_eq, List.map_eq_nil_iff]
  exact Nat.toDigits_ne_nil

theorem ofDigits_decimal (n : Nat) : ofDigits (decimal n) = n := by
  have h : ∀ (l : List Char) (k : Nat), (∀ d ∈ l, d.toNat.toUInt8.toNat = d.toNat) →
      (l.map fun c => c.toNat.toUInt8).foldl (fun n c => 10 * n + (c.toNat - 48)) k =
        Nat.ofDigitChars 10 l k := by
    intro l
    induction l with
    | nil => exact fun _ _ => rfl
    | cons d l ih =>
      intro k hl
      rw [List.map_cons, List.foldl_cons, hl d List.mem_cons_self, Nat.ofDigitChars_cons]
      exact ih _ fun e he => hl e (List.mem_cons_of_mem _ he)
  rw [ofDigits, decimal, h _ _ fun d hd => (toUInt8_of_mem_toDigits hd).2, Nat.ofDigitChars_ten_toDigits]

/-- A string of digits is read as the number it denotes. -/
theorem stol_digits {s : Bytes} (hs : s ≠ []) (hd : ∀ c ∈ s, isDigit c = true)
    (hn : ofDigits s < 9223372036854775808) : stol s = .ok (ofDigits s) := by
  obtain ⟨c, t, e⟩ := List.exists_cons_of_ne_nil hs
  have hc := isDigit_iff.mp (hd c (by rw [e]; exact List.mem_cons_self))
  have hdrop : s.dropWhile isSpace = s := by
    rw [e, List.dropWhile_cons_of_neg]
    rw [isSpace_iff]
    omega
  have hsign : sign s = (false, s) := by
    rw [e, sign, if_neg, if_neg] <;> rintro rfl <;> simp at hc
  rw [stol, hdrop, hsign]
  simp only [List.takeWhile_eq_self_iff.mpr hd, if_neg hs]
  rw [if_neg (by simp only [Bool.false_eq_true, if_false]; omega)]
  rfl

theorem stol_decimal {n : Nat} (hn : n < 9223372036854775808) : stol (decimal n) = .ok n := by
  have h := stol_digits (decimal_ne_nil n) (fun c => isDigit_of_mem_decimal) (by rwa [ofDigits_decimal])
  rwa [ofDigits_decimal] at h

end Mudou
