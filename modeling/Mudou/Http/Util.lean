import Mudou.Lib.Bytes
import Mudou.Lib.Cut

/-!
# Strings and paths

The class `Util` of `source/http.hpp`, apart from what reads and writes
files. Strings are byte strings; a `char` of `HEXTOI` is signed.
-/

namespace Mudou

def statuMsg : List (Int × String) :=
  [(100, "Continue"), (101, "Switching Protocol"), (102, "Processing"), (103, "Early Hints"),
    (200, "OK"), (201, "Created"), (202, "Accepted"), (203, "Non-Authoritative Information"),
    (204, "No Content"), (205, "Reset Content"), (206, "Partial Content"), (207, "Multi-Status"),
    (208, "Already Reported"), (226, "IM Used"), (300, "Multiple Choice"),
    (301, "Moved Permanently"), (302, "Found"), (303, "See Other"), (304, "Not Modified"),
    (305, "Use Proxy"), (306, "unused"), (307, "Temporary Redirect"), (308, "Permanent Redirect"),
    (400, "Bad Request"), (401, "Unauthorized"), (402, "Payment Required"), (403, "Forbidden"),
    (404, "Not Found"), (405, "Method Not Allowed"), (406, "Not Acceptable"),
    (407, "Proxy Authentication Required"), (408, "Request Timeout"), (409, "Conflict"),
    (410, "Gone"), (411, "Length Required"), (412, "Precondition Failed"),
    (413, "Payload Too Large"), (414, "URI Too Long"), (415, "Unsupported Media Type"),
    (416, "Range Not Satisfiable"), (417, "Expectation Failed"), (418, "I'm a teapot"),
    (421, "Misdirected Request"), (422, "Unprocessable Entity"), (423, "Locked"),
    (424, "Failed Dependency"), (425, "Too Early"), (426, "Upgrade Required"),
    (428, "Precondition Required"), (429, "Too Many Requests"),
    (431, "Request Header Fields Too Large"), (451, "Unavailable For Legal Reasons"),
    (501, "Not Implemented"), (502, "Bad Gateway"), (503, "Service Unavailable"),
    (504, "Gateway Timeout"), (505, "HTTP Version Not Supported"),
    (506, "Variant Also Negotiates"), (507, "Insufficient Storage"), (508, "Loop Detected"),
    (510, "Not Extended"), (511, "Network Authentication Required")]

def mimeMsg : List (String × String) :=
  [(".aac", "audio/aac"), (".abw", "application/x-abiword"), (".arc", "application/x-freearc"),
    (".avi", "video/x-msvideo"), (".azw", "application/vnd.amazon.ebook"),
    (".bin", "application/octet-stream"), (".bmp", "image/bmp"), (".bz", "application/x-bzip"),
    (".bz2", "application/x-bzip2"), (".csh", "application/x-csh"), (".css", "text/css"),
    (".csv", "text/csv"), (".doc", "application/msword"),
    (".docx", "application/vnd.openxmlformats-officedocument.wordprocessingml.document"),
    (".eot", "application/vnd.ms-fontobject"), (".epub", "application/epub+zip"),
    (".gif", "image/gif"), (".htm", "text/html"), (".html", "text/html"),
    (".ico", "image/vnd.microsoft.icon"), (".ics", "text/calendar"),
    (".jar", "application/java-archive"), (".jpeg", "image/jpeg"), (".jpg", "image/jpeg"),
    (".js", "text/javascript"), (".json", "application/json"), (".jsonld", "application/ld+json"),
    (".mid", "audio/midi"), (".midi", "audio/x-midi"), (".mjs", "text/javascript"),
    (".mp3", "audio/mpeg"), (".mpeg", "video/mpeg"),
    (".mpkg", "application/vnd.apple.installer+xml"),
    (".odp", "application/vnd.oasis.opendocument.presentation"),
    (".ods", "application/vnd.oasis.opendocument.spreadsheet"),
    (".odt", "application/vnd.oasis.opendocument.text"), (".oga", "audio/ogg"),
    (".ogv", "video/ogg"), (".ogx", "application/ogg"), (".otf", "font/otf"),
    (".png", "image/png"), (".pdf", "application/pdf"), (".ppt", "application/vnd.ms-powerpoint"),
    (".pptx", "application/vnd.openxmlformats-officedocument.presentationml.presentation"),
    (".rar", "application/x-rar-compressed"), (".rtf", "application/rtf"),
    (".sh", "application/x-sh"), (".svg", "image/svg+xml"),
    (".swf", "application/x-shockwave-flash"), (".tar", "application/x-tar"),
    (".tif", "image/tiff"), (".tiff", "image/tiff"), (".ttf", "font/ttf"), (".txt", "text/plain"),
    (".vsd", "application/vnd.visio"), (".wav", "audio/wav"), (".weba", "audio/webm"),
    (".webm", "video/webm"), (".webp", "image/webp"), (".woff", "font/woff"),
    (".woff2", "font/woff2"), (".xhtml", "application/xhtml+xml"),
    (".xls", "application/vnd.ms-excel"),
    (".xlsx", "application/vnd.openxmlformats-officedocument.spreadsheetml.sheet"),
    (".xml", "application/xml"), (".xul", "application/vnd.mozilla.xul+xml"),
    (".zip", "application/zip"), (".3gp", "video/3gpp"), (".3g2", "video/3gpp2"),
    (".7z", "application/x-7z-compressed")]

namespace Util

open Cutting

/-- `src.find(sep)`. -/
def find (sep : Bytes) : Bytes → Option Nat
  | [] => if sep = [] then some 0 else none
  | x :: src => if sep.isPrefixOf (x :: src) then some 0 else (find sep src).map (· + 1)

/-- The loop of `Split` on what is left from `offset` on. Each round drops a
piece or a separator, so the length of the string is enough fuel unless `sep`
is empty, when the source does not terminate. -/
def splitLoop (sep : Bytes) : Nat → Bytes → List Bytes → List Bytes
  | 0, _, arry => arry
  | fuel + 1, src, arry =>
    if src = [] then arry
    else
      match find sep src with
      | none => arry ++ [src]
      | some pos =>
        if pos = 0 then splitLoop sep fuel (src.drop sep.length) arry
        else splitLoop sep fuel (src.drop (pos + sep.length)) (arry ++ [src.take pos])

/-- The array with the pieces, and its size. -/
def split (src sep : Bytes) (arry : List Bytes) : List Bytes × Nat :=
  let arry := splitLoop sep (src.length + 1) src arry
  (arry, arry.length)

/-- `isalnum` of the C locale. -/
def isAlnum (c : Byte) : Bool := (48 ≤ c && c ≤ 57) || (65 ≤ c && c ≤ 90) || (97 ≤ c && c ≤ 122)

/-- A `char` promoted to `int` and read as an `unsigned int`. -/
def promote (c : Byte) : Nat := if c < 128 then c.toNat else c.toNat + 4294967040

/-- `snprintf(tmp, 4, "%%%02X", c)`. -/
def percentHex (c : Byte) : Bytes :=
  let digits := (Nat.toDigits 16 (promote c)).map fun d => d.toUpper.toNat.toUInt8
  (37 :: digits.leftpad 2 48).take 3

def urlEncode (convertSpaceToPlus : Bool) (url : Bytes) : Bytes :=
  url.flatMap fun c =>
    if c = 46 ∨ c = 45 ∨ c = 95 ∨ c = 126 ∨ isAlnum c then [c]
    else if c = sp ∧ convertSpaceToPlus then [43]
    else percentHex c

def hexToI (c : Byte) : Int :=
  if 48 ≤ c ∧ c ≤ 57 then c.toNat - 48
  else if 97 ≤ c ∧ c ≤ 122 then c.toNat - 97 + 10
  else if 65 ≤ c ∧ c ≤ 90 then c.toNat - 65 + 10
  else -1

def urlDecode (convertPlusToSpace : Bool) : Bytes → Bytes
  | c :: h₁ :: h₂ :: url =>
    if c = 43 ∧ convertPlusToSpace then sp :: urlDecode convertPlusToSpace (h₁ :: h₂ :: url)
    else if c = 37 then
      UInt8.ofInt (hexToI h₁ * 16 + hexToI h₂) :: urlDecode convertPlusToSpace url
    else c :: urlDecode convertPlusToSpace (h₁ :: h₂ :: url)
  | c :: url => (if c = 43 ∧ convertPlusToSpace then sp else c) :: urlDecode convertPlusToSpace url
  | [] => []

/-- `UrlDecode`, whose index is an `int`: it overflows in a string of more
bytes than `INT_MAX`. -/
def urlDecodeInt (convertPlusToSpace : Bool) (url : Bytes) : Option Bytes :=
  if 2147483647 < url.length then none else some (urlDecode convertPlusToSpace url)

def statuDesc (statu : Int) : Bytes :=
  match statuMsg.lookup statu with
  | some msg => str msg
  | none => str "Unknow"

/-- From the last dot on, `none` without one. -/
def extension (filename : Bytes) : Option Bytes :=
  if 46 ∈ filename then some (46 :: (filename.reverse.takeWhile (· ≠ 46)).reverse) else none

def extMime (filename : Bytes) : Bytes :=
  match extension filename with
  | none => str "application/octet-stream"
  | some ext =>
    match mimeMsg.find? fun m => str m.1 = ext with
    | some m => str m.2
    | none => str "application/octet-stream"

/-- The loop of `ValidPath` over the components. -/
def validLevels : List Bytes → Int → Bool
  | [], _ => true
  | dir :: subdir, level =>
    if dir = str ".." then
      if level - 1 < 0 then false else validLevels subdir (level - 1)
    else validLevels subdir (level + 1)

def validPath (path : Bytes) : Bool := validLevels (split path (str "/") []).1 0

/-! ## Searching and splitting -/

/-- The first occurrence of a separator. -/
theorem find_append {sep : Bytes} (hs : sep ≠ []) (r : Bytes) : ∀ {l : Bytes},
    (∀ l₁ l₂, l = l₁ ++ l₂ → l₂ ≠ [] → ¬ sep <+: l₂ ++ (sep ++ r)) →
      find sep (l ++ (sep ++ r)) = some l.length := by
  intro l
  induction l with
  | nil =>
    intro _
    obtain ⟨x, sep, rfl⟩ := List.exists_cons_of_ne_nil hs
    show find _ (x :: (sep ++ r)) = _
    rw [find, if_pos]
    · rfl
    · exact List.isPrefixOf_iff_prefix.mpr (List.prefix_append ..)
  | cons x l ih =>
    intro h
    show find _ (x :: (l ++ (sep ++ r))) = _
    rw [find, if_neg, ih]
    · rfl
    · exact fun l₁ l₂ e => h (x :: l₁) l₂ (congrArg (x :: ·) e)
    · rw [List.isPrefixOf_iff_prefix]
      exact h [] (x :: l) rfl (List.cons_ne_nil _ _)

theorem find_first {sep p r : Bytes} (hs : sep ≠ []) (h : First sep p r) :
    find sep (p ++ (sep ++ r)) = some p.length := by
  refine find_append hs r fun l₁ l₂ e hne hp => ?_
  obtain ⟨t, ht⟩ := hp
  have hle := h l₁ t (by rw [ht, e, List.append_assoc])
  have hpos := List.length_pos_iff.mpr hne
  rw [e, List.length_append] at hle
  omega

theorem find_none {sep src : Bytes} (hs : sep ≠ []) (h : ¬ sep <:+: src) : find sep src = none := by
  induction src with
  | nil => rw [find, if_neg hs]
  | cons x src ih =>
    rw [List.infix_cons_iff, not_or] at h
    rw [find, if_neg (by rw [List.isPrefixOf_iff_prefix]; exact h.1), ih h.2]
    rfl

theorem find_byte {c : Byte} {l : Bytes} (h : c ∉ l) (r : Bytes) : find [c] (l ++ c :: r) = some l.length := by
  refine find_append (List.cons_ne_nil _ _) r fun l₁ l₂ e hne hp => ?_
  obtain ⟨x, l₂, rfl⟩ := List.exists_cons_of_ne_nil hne
  obtain rfl : c = x := (List.cons_prefix_cons.mp hp).1
  exact h (e ▸ List.mem_append_right _ List.mem_cons_self)

theorem find_byte_none {c : Byte} {l : Bytes} (h : c ∉ l) : find [c] l = none :=
  find_none (List.cons_ne_nil _ _) fun hi => h (hi.subset (List.mem_singleton_self c))

theorem mem_intercalate {c x : Byte} {ps : List Bytes} (h : x ∈ [c].intercalate ps) :
    x = c ∨ ∃ p ∈ ps, x ∈ p := by
  induction ps with
  | nil => cases h
  | cons p ps ih =>
    cases ps with
    | nil =>
      rw [List.intercalate_singleton] at h
      exact .inr ⟨p, List.mem_cons_self, h⟩
    | cons q ps =>
      rw [List.intercalate_cons_cons, List.append_assoc, List.mem_append, List.mem_append,
        List.mem_singleton] at h
      rcases h with h | rfl | h
      · exact .inr ⟨p, List.mem_cons_self, h⟩
      · exact .inl rfl
      · obtain h | ⟨p', hm, hp⟩ := ih h
        · exact .inl h
        · exact .inr ⟨p', List.mem_cons_of_mem _ hm, hp⟩

/-- The loop of `Split` appends the pieces that are not empty. -/
theorem splitLoop_cut {sep src : Bytes} (hs : sep ≠ []) {ps : List Bytes} (h : Cut sep src ps) :
    ∀ (fuel : Nat) (arry : List Bytes), src.length < fuel →
      splitLoop sep fuel src arry = arry ++ ps.filter (· ≠ []) := by
  induction h with
  | @last s hi =>
    intro fuel arry hn
    obtain ⟨fuel, rfl⟩ := Nat.exists_eq_succ_of_ne_zero (Nat.ne_zero_of_lt hn)
    by_cases h0 : s = []
    · simp [splitLoop, h0]
    · rw [splitLoop, if_neg h0, find_none hs hi, List.filter_cons_of_pos (by simpa using h0), List.filter_nil]
  | @piece s p r ps e hf _ ih =>
    intro fuel arry hn
    subst e
    obtain ⟨fuel, rfl⟩ := Nat.exists_eq_succ_of_ne_zero (Nat.ne_zero_of_lt hn)
    have hpos := List.length_pos_iff.mpr hs
    have hr : r.length < fuel := by
      simp only [List.length_append] at hn
      omega
    have h0 : p ++ (sep ++ r) ≠ [] := by simp [hs]
    rw [splitLoop, if_neg h0, find_first hs hf]
    by_cases hp0 : p = []
    · subst hp0
      simp only [List.length_nil, if_true, List.nil_append, List.drop_left]
      rw [ih fuel arry hr, List.filter_cons_of_neg (by simp)]
    · have hlen : p.length ≠ 0 := fun h => hp0 (List.length_eq_zero_iff.mp h)
      have hd : (p ++ (sep ++ r)).drop (p.length + sep.length) = r := by
        rw [← List.drop_drop, List.drop_left, List.drop_left]
      simp only [if_neg hlen, hd, List.take_left]
      rw [ih fuel _ hr, List.filter_cons_of_pos (by simpa using hp0), List.append_assoc, List.singleton_append]

/-- Splitting at one byte: the pieces between its occurrences that are not
empty. -/
theorem split_byte (c : Byte) (src : Bytes) : (split src [c] []).1 = (src.splitOn c).filter (· ≠ []) :=
  splitLoop_cut (List.cons_ne_nil _ _) (cut_splitOn c src) _ [] (Nat.lt_succ_self _)

/-- Pieces that are not empty and do not have the separator. -/
theorem split_intercalate {c : Byte} {ps : List Bytes} (h : ∀ p ∈ ps, p ≠ [] ∧ c ∉ p) :
    (split ([c].intercalate ps) [c] []).1 = ps := by
  rw [split_byte]
  by_cases h0 : ps = []
  · simp [h0]
  · rw [List.splitOn_intercalate c (fun p hp => (h p hp).2) h0]
    exact List.filter_eq_self.mpr fun p hp => by simpa using (h p hp).1

end Util

end Mudou
