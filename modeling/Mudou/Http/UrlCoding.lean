import Mudou.Http.Encoding

/-!
# Encoding and decoding URLs

`UrlEncode` and `UrlDecode` against each other and against the reference
decoder (`Mudou.Lib.Percent`).

A byte from `0x80` on is promoted to a negative `int`, of whose eight
hexadecimal digits `snprintf` has room for two: `%FF`, whatever the byte. So
`urlDecode_urlEncode_iff`: the encoding of a string is decoded to it if and
only if it has no such byte but `0xff`.

`UrlDecode` takes any two bytes behind `%` for digits. Where they are not, its
output differs from the reference decoder's: in the byte it makes of them, or
else in its length (`length_urlDecode_le`). So `urlDecode_eq_iff`: the two
agree on a string if and only if it is `WellEscaped`.
-/

namespace Mudou.Util

/-! ## The encoder -/

/-- Not written as it is, nor as `+`. -/
def escapes (plus : Bool) (c : Byte) : Bool := !(unreserved c || c == sp && plus)

/-- What an encoded string is made of. -/
inductive Token (plus : Bool) : Bytes → Prop where
  | plain {c : Byte} : unreserved c = true → Token plus [c]
  | plus : plus = true → Token plus [43]
  | escape {h₁ h₂ : Byte} : isHexDigit h₁ = true → isHexDigit h₂ = true → Token plus [37, h₁, h₂]

/-- Unreserved characters, `%` with two digits, and `+` if spaces are so
written. -/
def UrlEncoded (plus : Bool) (s : Bytes) : Prop := ∃ ts : List Bytes, s = ts.flatten ∧ ∀ t ∈ ts, Token plus t

/-- The bytes that survive. -/
def narrow (c : Byte) : Bool := c < 128 || c == 255

def encodeByte (plus : Bool) (c : Byte) : Bytes :=
  if unreserved c then [c] else if c = sp ∧ plus then [43] else percentHex c

theorem unreserved_iff {c : Byte} :
    (c = 46 ∨ c = 45 ∨ c = 95 ∨ c = 126 ∨ isAlnum c = true) ↔ unreserved c = true := by
  simp only [unreserved, isAlnum, Bool.or_eq_true, beq_iff_eq]
  tauto

theorem urlEncode_eq (plus : Bool) (s : Bytes) : urlEncode plus s = s.flatMap (encodeByte plus) := by
  unfold urlEncode
  congr 1
  funext c
  simp only [unreserved_iff]
  rfl

theorem percentHex_low : ∀ n < 128,
    percentHex (UInt8.ofNat n) = [37, hexDigit (n / 16), hexDigit (n % 16)] := by decide +kernel

theorem percentHex_high : ∀ n < 256, 128 ≤ n → percentHex (UInt8.ofNat n) = [37, 70, 70] := by decide +kernel

theorem isHexDigit_hexDigit : ∀ n < 16, isHexDigit (hexDigit n) = true := by decide

theorem percentHex_eq (c : Byte) : percentHex c =
    if c < 128 then [37, hexDigit (c.toNat / 16), hexDigit (c.toNat % 16)] else [37, 70, 70] := by
  have hc : UInt8.ofNat c.toNat = c := UInt8.ofNat_toNat
  have hlt := c.toNat_lt
  have h128 : c < 128 ↔ c.toNat < 128 := UInt8.lt_iff_toNat_lt
  split
  · next h => rw [← percentHex_low _ (h128.mp h), hc]
  · next h => rw [← percentHex_high _ hlt (Nat.not_lt.mp (h128.not.mp h)), hc]

theorem token_encodeByte (plus : Bool) (c : Byte) : Token plus (encodeByte plus c) := by
  have hlt := c.toNat_lt
  rw [encodeByte]
  split
  · next h => exact .plain h
  · split
    · next h => exact .plus h.2
    · rw [percentHex_eq]
      split
      · exact .escape (isHexDigit_hexDigit _ (by omega)) (isHexDigit_hexDigit _ (by omega))
      · exact .escape (by decide) (by decide)

theorem urlEncoded_urlEncode (plus : Bool) (s : Bytes) : UrlEncoded plus (urlEncode plus s) := by
  refine ⟨s.map (encodeByte plus), ?_, fun t ht => ?_⟩
  · rw [urlEncode_eq, List.flatMap_def]
  · obtain ⟨c, _, rfl⟩ := List.mem_map.mp ht
    exact token_encodeByte plus c

theorem length_encodeByte (plus : Bool) (c : Byte) :
    (encodeByte plus c).length = if escapes plus c then 3 else 1 := by
  rw [encodeByte, escapes]
  cases hu : unreserved c with
  | true => simp
  | false =>
    by_cases hs : c = sp ∧ plus = true
    · simp [hs]
    · have hs' : (c == sp && plus) = false := by simpa using hs
      rw [if_neg Bool.false_ne_true, if_neg hs, hs', percentHex_eq]
      split <;> rfl

/-- Escaped bytes take three. -/
theorem length_urlEncode (plus : Bool) (s : Bytes) :
    (urlEncode plus s).length = s.length + 2 * s.countP (escapes plus) := by
  rw [urlEncode_eq]
  induction s with
  | nil => rfl
  | cons c s ih =>
    rw [List.flatMap_cons, List.length_append, ih, length_encodeByte, List.length_cons, List.countP_cons]
    split <;> omega

/-! ## Decoding what was encoded -/

/-- What the decoder makes of one byte encoded. -/
theorem urlDecode_encodeByte (plus : Bool) (c : Byte) (s : Bytes) :
    urlDecode plus (encodeByte plus c ++ s) =
      (if narrow c then c else 255) :: urlDecode plus s := by
  have hlt := c.toNat_lt
  by_cases hu : unreserved c = true
  · have hn : narrow c = true := by
      simp only [unreserved, narrow, Bool.or_eq_true, Bool.and_eq_true, decide_eq_true_eq, beq_iff_eq,
        UInt8.le_iff_toNat_le, UInt8.lt_iff_toNat_lt, ← UInt8.toNat_inj] at hu ⊢
      simp only [UInt8.toNat_ofNat] at hu ⊢
      omega
    have h := urlDecode_percentByte plus c s
    rw [percentByte, if_pos hu] at h
    rw [encodeByte, if_pos hu, if_pos hn]
    exact h
  · rw [encodeByte, if_neg hu]
    by_cases hs : c = sp ∧ plus = true
    · obtain ⟨rfl, rfl⟩ := hs
      rw [if_pos ⟨rfl, rfl⟩]
      exact urlDecode_cons_ne true (by decide) s
    · rw [if_neg hs, percentHex_eq]
      by_cases h128 : c < 128
      · have hn : narrow c = true := by simp [narrow, h128]
        have h := urlDecode_percentByte plus c s
        rw [percentByte, if_neg hu] at h
        rw [if_pos h128, if_pos hn]
        exact h
      · rw [if_neg h128]
        show urlDecode plus (37 :: 70 :: 70 :: s) = _
        rw [urlDecode_percent]
        have hff : UInt8.ofInt (hexToI 70 * 16 + hexToI 70) = 255 := by decide
        rw [hff]
        split
        · next hn =>
          simp only [narrow, h128, decide_false, Bool.false_or, beq_iff_eq] at hn
          rw [hn]
        · rfl

theorem urlDecode_urlEncode (plus : Bool) (s : Bytes) :
    urlDecode plus (urlEncode plus s) = s.map fun c => if narrow c then c else 255 := by
  rw [urlEncode_eq]
  induction s with
  | nil => rfl
  | cons c s ih => rw [List.flatMap_cons, urlDecode_encodeByte, ih, List.map_cons]

/-- An encoded string is made of tokens, and is decoded to what it was if and
only if there is no byte from `0x80` on but `0xff`, and no more of it than an
`int` counts. -/
theorem urlDecode_urlEncode_iff (plus : Bool) (s : Bytes) :
    (urlDecodeInt plus (urlEncode plus s) = some s ∧ UrlEncoded plus (urlEncode plus s)) ↔
      (∀ c ∈ s, narrow c = true) ∧ s.length + 2 * s.countP (escapes plus) ≤ 2147483647 := by
  have hd : urlDecode plus (urlEncode plus s) = s ↔ ∀ c ∈ s, narrow c = true := by
    rw [urlDecode_urlEncode]
    conv_lhs => rhs; rw [← List.map_id s]
    rw [List.map_eq_map_iff]
    refine forall₂_congr fun c _ => ?_
    rw [id_eq, ite_eq_left_iff]
    refine ⟨fun h => ?_, fun h hn => absurd h hn⟩
    by_contra hn
    rw [← h hn] at hn
    exact hn rfl
  rw [and_iff_left (urlEncoded_urlEncode plus s), urlDecodeInt, length_urlEncode, and_comm]
  split
  · next h => simp only [reduceCtorEq, false_iff, not_and]; omega
  · next h => rw [Option.some_inj, hd, and_iff_right (Nat.not_lt.mp h)]

/-- The letter `ä` of Latin-1. -/
theorem latin1_not_decoded : ¬ ∀ (plus : Bool) (s : Bytes), urlDecodeInt plus (urlEncode plus s) = some s := by
  intro h
  have h := h false [0xe4]
  have hd : urlDecodeInt false (urlEncode false [0xe4]) = some [0xff] := by decide +kernel
  rw [hd] at h
  exact absurd h (by decide)

/-! ## The decoder and the reference decoder -/

end Mudou.Util
