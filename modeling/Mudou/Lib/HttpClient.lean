import Mudou.Lib.Decimal

/-!
# How a client reads responses

The framing of HTTP/1.1 responses as a client sees it. A response ends with
its head if the request was `HEAD` or the status is 204 or 304, and else after
as many bytes as its `Content-Length` says; without one it lasts until the
connection closes, and is not complete before.

`readResponses_flatMap`: responses each of which is read off whatever follows
are read one for each request.
-/

namespace Mudou.HttpClient

structure Response where
  statu : Nat
  body : Bytes
  deriving DecidableEq

abbrev crlf : Bytes := [cr, lf]

/-- The first line, without its line ending. -/
def readLine (s : Bytes) : Option (Bytes × Bytes) :=
  if lf ∈ s then
    let line := s.takeWhile (· ≠ lf)
    some (if line.getLast? = some cr then line.dropLast else line, (s.dropWhile (· ≠ lf)).tail)
  else none

/-- The lines up to an empty one. -/
def readHeaders : Nat → Bytes → Option (List Bytes × Bytes)
  | 0, _ => none
  | fuel + 1, s =>
    (readLine s).bind fun (line, s) =>
      if line = [] then some ([], s) else (readHeaders fuel s).map fun (lines, s) => (line :: lines, s)

def lower (c : Byte) : Byte := if 65 ≤ c ∧ c ≤ 90 then c + 32 else c

def fieldName (line : Bytes) : Bytes := (line.takeWhile (· ≠ 58)).map lower

def trim (s : Bytes) : Bytes := ((s.dropWhile isSpace).reverse.dropWhile isSpace).reverse

def fieldValue (line : Bytes) : Bytes := trim ((line.dropWhile (· ≠ 58)).drop 1)

def number (s : Bytes) : Option Nat := if s ≠ [] ∧ s.all isDigit then some (ofDigits s) else none

def contentLength (lines : List Bytes) : Option Nat :=
  (lines.find? fun line => fieldName line = str "content-length").bind fun line => number (fieldValue line)

def statusCode (line : Bytes) : Option Nat :=
  number (((line.dropWhile (· ≠ sp)).drop 1).takeWhile (· ≠ sp))

/-- The body, after the head of a response. -/
def readBody (closed : Bool) (length : Option Nat) (s : Bytes) : Option (Bytes × Bytes) :=
  match length with
  | some n => if n ≤ s.length then some (s.take n, s.drop n) else none
  | none => if closed then some (s, []) else none

/-- A response to a request, which was `HEAD` or not; `none` if it is not
complete, or no response. Nothing follows `s` if the connection is closed. -/
def readResponse (closed head : Bool) (s : Bytes) : Option (Response × Bytes) :=
  (readLine s).bind fun (line, s) =>
  (statusCode line).bind fun statu =>
  (readHeaders (s.length + 1) s).bind fun (lines, s) =>
  if head ∨ statu = 204 ∨ statu = 304 then some (⟨statu, []⟩, s)
  else (readBody closed (contentLength lines) s).map fun (body, s) => (⟨statu, body⟩, s)

/-- One response for each request, and nothing else. -/
def readResponses (closed : Bool) : List Bool → Bytes → Option (List Response)
  | [], s => if s = [] then some [] else none
  | head :: heads, s =>
    (readResponse closed head s).bind fun (r, s) => (readResponses closed heads s).map fun rs => r :: rs

theorem readResponses_flatMap {ι : Type} {closed : Bool} {head : ι → Bool} {text : ι → Bytes}
    {resp : ι → Response} (es : List ι)
    (h : ∀ e ∈ es, ∀ rest, readResponse closed (head e) (text e ++ rest) = some (resp e, rest)) :
    ∀ heads rest, readResponses closed (es.map head ++ heads) (es.flatMap text ++ rest) =
      (readResponses closed heads rest).map fun rs => es.map resp ++ rs := by
  induction es with
  | nil => exact fun heads rest => Option.map_id'.symm
  | cons e es ih =>
    intro heads rest
    rw [List.map_cons, List.cons_append, readResponses, List.flatMap_cons, List.append_assoc,
      h e List.mem_cons_self]
    simp only [Option.bind_some]
    rw [ih (fun e he => h e (List.mem_cons_of_mem _ he)), Option.map_map]
    rfl

/-! ## Lines -/

theorem readLine_crlf {line : Bytes} (h : lf ∉ line) (rest : Bytes) :
    readLine (line ++ crlf ++ rest) = some (line, rest) := by
  have he : line ++ crlf ++ rest = (line ++ [cr]) ++ lf :: rest := by simp
  have hc : ∀ x ∈ line ++ [cr], decide (x ≠ lf) = true := by
    intro x hx
    rcases List.mem_append.mp hx with hx | hx
    · exact decide_eq_true fun e => h (e ▸ hx)
    · rw [List.mem_singleton.mp hx]
      decide
  rw [readLine, if_pos (by simp), he, List.takeWhile_append_of_pos hc, List.dropWhile_append_of_pos hc]
  simp

theorem readHeaders_lines (rest : Bytes) (lines : List Bytes) : ∀ fuel, lines.length < fuel →
    (∀ line ∈ lines, line ≠ [] ∧ lf ∉ line) →
      readHeaders fuel (lines.flatMap (· ++ crlf) ++ crlf ++ rest) = some (lines, rest) := by
  induction lines with
  | nil =>
    intro fuel hn _
    obtain ⟨fuel, rfl⟩ := Nat.exists_eq_succ_of_ne_zero (Nat.ne_zero_of_lt hn)
    have hl : readLine ([] ++ crlf ++ rest) = some ([], rest) := readLine_crlf List.not_mem_nil rest
    rw [readHeaders, List.flatMap_nil, hl]
    rfl
  | cons line lines ih =>
    intro fuel hn h
    obtain ⟨fuel, rfl⟩ := Nat.exists_eq_succ_of_ne_zero (Nat.ne_zero_of_lt hn)
    obtain ⟨hne, hlf⟩ := h line List.mem_cons_self
    have hl := readLine_crlf hlf (lines.flatMap (· ++ crlf) ++ crlf ++ rest)
    rw [readHeaders, List.flatMap_cons, List.append_assoc, List.append_assoc, ← List.append_assoc _ crlf rest, hl]
    simp only [Option.bind_some, if_neg hne]
    rw [ih fuel (Nat.lt_of_succ_lt_succ hn) fun l hm => h l (List.mem_cons_of_mem _ hm)]
    rfl

theorem number_decimal (n : Nat) : number (decimal n) = some n := by
  rw [number, if_pos ⟨decimal_ne_nil n, List.all_eq_true.mpr fun c => isDigit_of_mem_decimal⟩, ofDigits_decimal]

theorem dropWhile_isSpace {s : Bytes} (h : ∀ c ∈ s, isDigit c = true) : s.dropWhile isSpace = s := by
  cases s with
  | nil => rfl
  | cons c s =>
    have hc := isDigit_iff.mp (h c List.mem_cons_self)
    rw [List.dropWhile_cons_of_neg]
    rw [isSpace_iff]
    omega

theorem trim_digits {s : Bytes} (h : ∀ c ∈ s, isDigit c = true) : trim (sp :: s) = s := by
  rw [trim, List.dropWhile_cons_of_pos (by decide), dropWhile_isSpace h,
    dropWhile_isSpace fun c hc => h c (List.mem_reverse.mp hc), List.reverse_reverse]

/-- The name and the value of a header line. -/
theorem fieldName_append (name value : Bytes) :
    fieldName (name ++ 58 :: value) = (name.takeWhile (· ≠ 58)).map lower := by
  rw [fieldName]
  congr 1
  induction name with
  | nil => rfl
  | cons c name ih =>
    rw [List.cons_append, List.takeWhile_cons, List.takeWhile_cons, ih]

theorem fieldValue_append {name : Bytes} (h : 58 ∉ name) (value : Bytes) :
    fieldValue (name ++ 58 :: value) = trim value := by
  have hc : ∀ x ∈ name, decide (x ≠ 58) = true := fun x hx => decide_eq_true fun e => h (e ▸ hx)
  rw [fieldValue, List.dropWhile_append_of_pos hc]
  rfl

/-- The status of a status line. -/
theorem statusCode_line {version : Bytes} (h : sp ∉ version) (n : Nat) (reason : Bytes) :
    statusCode (version ++ sp :: (decimal n ++ sp :: reason)) = some n := by
  have hv : ∀ x ∈ version, decide (x ≠ sp) = true := fun x hx => decide_eq_true fun e => h (e ▸ hx)
  have hn : ∀ x ∈ decimal n, decide (x ≠ sp) = true := by
    intro x hx
    refine decide_eq_true fun e => ?_
    have hd := isDigit_of_mem_decimal hx
    rw [e] at hd
    cases hd
  rw [statusCode, List.dropWhile_append_of_pos hv]
  show number ((decimal n ++ sp :: reason).takeWhile (· ≠ sp)) = _
  rw [List.takeWhile_append_of_pos hn]
  simp [number_decimal]

end Mudou.HttpClient
