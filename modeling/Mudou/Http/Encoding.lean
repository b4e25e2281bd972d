import Mudou.Http.Context
import Mudou.Lib.Percent

/-!
# Writing requests

How a client writes a request: the request line with path and parameters
percent-encoded, the header lines, an empty line and the body. The functions
of the server undo each step: `urlDecode` the encoding
(`urlDecode_percentEncode`), `split` and `find` the joining of the parameters
(`split_intercalate`, `find_append`), and the regex of the request line the
line itself (`RequestLine.fullMatch_text`).
-/

namespace Mudou

open Fifo Util

/-! ## Percent encoding -/

/-- Letters, digits, `-`, `.`, `_` and `~`. -/
def unreserved (c : Byte) : Bool :=
  (48 ≤ c && c ≤ 57) || (65 ≤ c && c ≤ 90) || (97 ≤ c && c ≤ 122) || c == 45 || c == 46 || c == 95 || c == 126

def hexDigit (n : Nat) : Byte := if n < 10 then 48 + n.toUInt8 else 55 + n.toUInt8

def percentByte (c : Byte) : Bytes :=
  if unreserved c then [c] else [37, hexDigit (c.toNat / 16), hexDigit (c.toNat % 16)]

def percentEncode (s : Bytes) : Bytes := s.flatMap percentByte

/-- What an encoded string consists of. -/
def encoded (c : Byte) : Bool := unreserved c || c == 37

theorem hexToI_hexDigit : ∀ n < 16, hexToI (hexDigit n) = n := by decide

theorem encoded_hexDigit : ∀ n < 16, encoded (hexDigit n) = true := by decide

theorem encoded_of_mem {c : Byte} {s : Bytes} (h : c ∈ percentEncode s) : encoded c = true := by
  obtain ⟨d, _, hd⟩ := List.mem_flatMap.mp h
  have hlt := d.toNat_lt
  unfold percentByte at hd
  split at hd
  · next hu =>
    obtain rfl := List.mem_singleton.mp hd
    rw [encoded, hu, Bool.true_or]
  · simp only [List.mem_cons, List.not_mem_nil, or_false] at hd
    rcases hd with rfl | rfl | rfl
    · decide
    · exact encoded_hexDigit _ (by omega)
    · exact encoded_hexDigit _ (by omega)

theorem not_mem_percentEncode {c : Byte} (h : encoded c = false) (s : Bytes) : c ∉ percentEncode s := by
  intro hm
  rw [encoded_of_mem hm] at h
  cases h

/-- A byte other than `%` is copied, or stands for a space. -/
theorem urlDecode_cons_ne (plus : Bool) {c : Byte} (h : c ≠ 37) (s : Bytes) :
    urlDecode plus (c :: s) = plainByte plus c :: urlDecode plus s := by
  match s with
  | [] | [d] => rfl
  | d :: e :: s =>
    rw [urlDecode, plainByte]
    split
    · rfl
    · rfl

theorem urlDecode_percent (plus : Bool) (h₁ h₂ : Byte) (s : Bytes) :
    urlDecode plus (37 :: h₁ :: h₂ :: s) = UInt8.ofInt (hexToI h₁ * 16 + hexToI h₂) :: urlDecode plus s := by
  rw [urlDecode, if_neg fun h => absurd h.1 (by decide), if_pos rfl]

theorem plainByte_of_unreserved (plus : Bool) {c : Byte} (h : unreserved c = true) : plainByte plus c = c := by
  rw [plainByte, if_neg]
  rintro ⟨rfl, _⟩
  exact absurd h (by decide)

theorem urlDecode_percentByte (plus : Bool) (c : Byte) (s : Bytes) :
    urlDecode plus (percentByte c ++ s) = c :: urlDecode plus s := by
  have hlt := c.toNat_lt
  unfold percentByte
  split
  · next hu =>
    have hc : c ≠ 37 := by
      rintro rfl
      exact absurd hu (by decide)
    exact (urlDecode_cons_ne plus hc s).trans (by rw [plainByte_of_unreserved plus hu])
  · show urlDecode plus (37 :: _ :: _ :: s) = _
    rw [urlDecode_percent, hexToI_hexDigit _ (by omega), hexToI_hexDigit _ (by omega)]
    have hc : ((c.toNat / 16 : Nat) : Int) * 16 + ((c.toNat % 16 : Nat) : Int) = (c.toNat : Int) := by omega
    rw [hc, List.cons.injEq]
    refine ⟨UInt8.toNat_inj.mp ?_, rfl⟩
    simp only [UInt8.ofInt, UInt8.toNat_ofNat']
    omega

theorem urlDecode_percentEncode (plus : Bool) (s : Bytes) : urlDecode plus (percentEncode s) = s := by
  induction s with
  | nil => rfl
  | cons c s ih =>
    rw [percentEncode, List.flatMap_cons, urlDecode_percentByte, ← percentEncode, ih]

end Mudou
