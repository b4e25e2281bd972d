import Mudou.Http.Context
import Mudou.Http.Parsing

/-!
# The request line

The grammar that `ParseHttpLine` accepts: `M SP T SP V E` (`RequestLine`). The
target `T` may have spaces and may look like a version, but a method has no
space, and neither has a version with what ends the line: a line is split in
one way only (`RequestLine.text_inj`), so that the regex has no choice between
its captures (`fullMatch_text`).

`parseHttpLine_iff`: the function accepts the lines of the grammar whose
parameters all have a `=`, stores what they say, and rejects every other one.
-/

namespace Mudou

open Fifo Util

theorem append_inj_first {c : Byte} {l l' r r' : Bytes} (h : c ∉ l) (h' : c ∉ l')
    (e : l ++ c :: r = l' ++ c :: r') : l = l' ∧ r = r' := by
  have hp := popLine_append h r
  rw [e, popLine_append h', Prod.mk.injEq] at hp
  exact ⟨(List.append_cancel_right hp.1).symm, hp.2.symm⟩

theorem append_inj_last {c : Byte} {l l' r r' : Bytes} (h : c ∉ r) (h' : c ∉ r')
    (e : l ++ c :: r = l' ++ c :: r') : l = l' ∧ r = r' := by
  have hr := congrArg List.reverse e
  rw [List.reverse_append, List.reverse_append, List.reverse_cons, List.reverse_cons, List.append_assoc,
    List.append_assoc, List.singleton_append, List.singleton_append] at hr
  obtain ⟨h₁, h₂⟩ := append_inj_first (by rwa [List.mem_reverse]) (by rwa [List.mem_reverse]) hr
  exact ⟨List.reverse_inj.mp h₂, List.reverse_inj.mp h₁⟩

namespace HttpContext

open Regex

/-! ## What the parts of the regex match -/

theorem denotes_chars_map {p : Byte → Byte → Bool} {u s : Bytes} {c : Captures Byte} :
    Denotes (.chars (s.map p)) u c ↔ List.Forall₂ (fun x y => p x y = true) s u ∧ c = [] := by
  rw [Denotes, List.forall₂_map_left_iff]

/-- A literal is matched by what differs from it in case only. -/
theorem denotes_lit {s : String} {u : Bytes} {c : Captures Byte} :
    Denotes (lit s) u c ↔ u.map toLower = (str s).map toLower ∧ c = [] := by
  rw [lit, denotes_chars_map, and_congr_left_iff]
  rintro rfl
  generalize str s = l
  induction l generalizing u with
  | nil => rw [List.forall₂_nil_left_iff, List.map_nil, List.map_eq_nil_iff]
  | cons x l ih =>
    cases u with
    | nil => simp
    | cons y u => rw [List.forall₂_cons, ih, beq_iff_eq, List.map_cons, List.map_cons, List.cons.injEq]

theorem toLower_eq {x c : Byte} (hc : c.toNat < 65) : toLower x = toLower c ↔ x = c := by
  have hlt := x.toNat_lt
  have h65 : (65 : Byte).toNat = 65 := rfl
  have h32 : (32 : Byte).toNat = 32 := rfl
  refine ⟨fun h => ?_, fun h => h ▸ rfl⟩
  have hc' : toLower c = c := by
    refine if_neg fun h' => ?_
    have h₁ := UInt8.le_iff_toNat_le.mp h'.1
    omega
  rw [hc', toLower] at h
  split at h
  · next hx =>
    have h₁ := UInt8.le_iff_toNat_le.mp hx.1
    have h₂ := UInt8.le_iff_toNat_le.mp hx.2
    have h90 : (90 : Byte).toNat = 90 := rfl
    have ha := UInt8.toNat_add x 32
    rw [h] at ha
    omega
  · exact h

/-- A literal without letters. -/
theorem denotes_lit_low {s : String} (hs : ((str s).all fun c => c.toNat < 65) = true) {u : Bytes}
    {c : Captures Byte} : Denotes (lit s) u c ↔ u = str s ∧ c = [] := by
  rw [denotes_lit, and_congr_left_iff]
  rintro rfl
  generalize str s = l at hs
  induction l generalizing u with
  | nil => rw [List.map_nil, List.map_eq_nil_iff]
  | cons x l ih =>
    rw [List.all_cons, Bool.and_eq_true, decide_eq_true_eq] at hs
    cases u with
    | nil => simp
    | cons y u =>
      rw [List.map_cons, List.map_cons, List.cons.injEq, List.cons.injEq, ih hs.2, toLower_eq hs.1]

theorem not_mem_of_map {c : Byte} (hc : c.toNat < 65) {u v : Bytes} (h : u.map toLower = v.map toLower)
    (hv : c ∉ v) : c ∉ u := by
  intro hm
  have hm : toLower c ∈ v.map toLower := h ▸ List.mem_map_of_mem hm
  obtain ⟨x, hx, e⟩ := List.mem_map.mp hm
  exact hv ((toLower_eq hc).mp e ▸ hx)

def methodNames : List Bytes := [str "GET", str "HEAD", str "POST", str "PUT", str "DELETE"]

def versions : List Bytes := [str "HTTP/1.0", str "HTTP/1.1"]

def lineEndings : List Bytes := [[], str "\n", str "\r\n"]

/-- The strings differ in the case of their letters only. -/
def SameLetters (u v : Bytes) : Prop := u.map toLower = v.map toLower

theorem denotes_methods {u : Bytes} {c : Captures Byte} :
    Denotes methods u c ↔ (∃ m ∈ methodNames, SameLetters u m) ∧ c = [] := by
  simp only [methods, Denotes, denotes_lit, methodNames, SameLetters, List.mem_cons, List.not_mem_nil, or_false,
    exists_eq_or_imp, exists_eq_left, ← or_and_right]

theorem sp_not_mem_method {u : Bytes} (h : ∃ m ∈ methodNames, SameLetters u m) : sp ∉ u := by
  obtain ⟨m, hm, h⟩ := h
  have hn : ∀ m ∈ methodNames, sp ∉ m := by decide
  exact not_mem_of_map (by decide) h (hn m hm)

theorem denotes_version {u : Bytes} {c : Captures Byte} :
    Denotes (.seq (lit "HTTP/1.") (.chars [fun c => c == 48 || c == 49])) u c ↔
      (∃ v ∈ versions, SameLetters u v) ∧ c = [] := by
  have h0 : (str "HTTP/1.0").map toLower = (str "HTTP/1.").map toLower ++ [toLower 48] := by decide
  have h1 : (str "HTTP/1.1").map toLower = (str "HTTP/1.").map toLower ++ [toLower 49] := by decide
  simp only [versions, SameLetters, List.mem_cons, List.not_mem_nil, or_false, exists_eq_or_imp, exists_eq_left,
    h0, h1]
  constructor
  · rintro ⟨u₁, u₂, c₁, c₂, rfl, rfl, hd, h₂, rfl⟩
    obtain ⟨h₁, rfl⟩ := denotes_lit.mp hd
    obtain ⟨y, t, hy, ht, rfl⟩ := List.forall₂_cons_left_iff.mp h₂
    obtain rfl := List.forall₂_nil_left_iff.mp ht
    rw [Bool.or_eq_true, beq_iff_eq, beq_iff_eq] at hy
    refine ⟨?_, rfl⟩
    rw [List.map_append, h₁]
    rcases hy with rfl | rfl
    · exact .inl rfl
    · exact .inr rfl
  · rintro ⟨h, rfl⟩
    have hy : ∃ y : Byte, (y = 48 ∨ y = 49) ∧ u.map toLower = (str "HTTP/1.").map toLower ++ [toLower y] := by
      rcases h with h | h
      · exact ⟨48, .inl rfl, h⟩
      · exact ⟨49, .inr rfl, h⟩
    obtain ⟨y, hy, h⟩ := hy
    obtain ⟨u₁, u₂, rfl, h₁, h₂⟩ := List.map_eq_append_iff.mp h
    obtain ⟨z, rfl, hz⟩ := List.map_eq_singleton_iff.mp h₂
    obtain rfl : z = y := by
      rcases hy with rfl | rfl
      all_goals exact (toLower_eq (by decide)).mp hz
    refine ⟨u₁, [z], [], [], rfl, rfl, denotes_lit.mpr ⟨h₁, rfl⟩, .cons ?_ .nil, rfl⟩
    rw [Bool.or_eq_true, beq_iff_eq, beq_iff_eq]
    exact hy

/-- Neither a space nor a line ending is in a version. -/
theorem not_mem_version {u : Bytes} (h : ∃ v ∈ versions, SameLetters u v) :
    (∀ x ∈ [sp, lf, cr], x ∉ u) ∧ u.length = 8 := by
  obtain ⟨v, hv, h⟩ := h
  have hl : u.length = v.length := by
    have hl := congrArg List.length h
    rwa [List.length_map, List.length_map] at hl
  have hlow : ∀ x ∈ [sp, lf, cr], x.toNat < 65 := by
    simp only [List.forall_mem_cons, List.not_mem_nil, false_imp_iff, implies_true, and_true]
    decide
  have hv' : ∀ v ∈ versions, (∀ x ∈ [sp, lf, cr], x ∉ v) ∧ v.length = 8 := by
    simp only [List.forall_mem_cons, List.not_mem_nil, false_imp_iff, implies_true, and_true]
    decide
  exact ⟨fun x hx => not_mem_of_map (hlow x hx) h ((hv' v hv).1 x hx), hl.trans (hv' v hv).2⟩

/-- The query string with its question mark. -/
def queryPart : Option Bytes → Bytes
  | none => []
  | some q => 63 :: q

def lineCaptures (m p : Bytes) (q : Option Bytes) (v : Bytes) : Captures Byte :=
  (1, m) :: (2, p) :: (q.toList.map fun q => (3, q)) ++ [(4, v)]

theorem denotes_query {u : Bytes} {c : Captures Byte} :
    Denotes (.opt (.seq (lit "?") (.group 3 (.many fun c => c != lf && c != cr)))) u c ↔
      ∃ q : Option Bytes, u = queryPart q ∧ (c = q.toList.map fun q => (3, q)) ∧
        ∀ s, q = some s → lf ∉ s ∧ cr ∉ s := by
  have hs : ∀ s : Bytes, (∀ x ∈ s, (x != lf && x != cr) = true) ↔ lf ∉ s ∧ cr ∉ s := by
    intro s
    simp only [Bool.and_eq_true, bne_iff_ne, forall_and]
    exact and_congr ⟨fun h hm => h _ hm rfl, fun h _ hx e => h (e ▸ hx)⟩
      ⟨fun h hm => h _ hm rfl, fun h _ hx e => h (e ▸ hx)⟩
  constructor
  · rintro (⟨m, q, _, _, rfl, rfl, h₁, _, ⟨hq, rfl⟩, rfl⟩ | ⟨rfl, rfl⟩)
    · obtain ⟨rfl, rfl⟩ := (denotes_lit_low (by decide)).mp h₁
      refine ⟨some q, rfl, rfl, fun s e => ?_⟩
      obtain rfl := Option.some.inj e
      exact (hs q).mp hq
    · exact ⟨none, rfl, rfl, fun s e => by cases e⟩
  · rintro ⟨q, rfl, rfl, hq⟩
    cases q with
    | none => exact .inr ⟨rfl, rfl⟩
    | some s =>
      refine .inl ⟨[63], s, [], [(3, s)], rfl, rfl, denotes_lit.mpr ⟨rfl, rfl⟩, [], ⟨?_, rfl⟩, rfl⟩
      exact (hs s).mpr (hq s rfl)

theorem denotes_ending {u : Bytes} {c : Captures Byte} :
    Denotes (.opt (.alt (lit "\n") (lit "\r\n"))) u c ↔ u ∈ lineEndings ∧ c = [] := by
  simp only [Denotes, denotes_lit_low (show ((str "\n").all fun c => c.toNat < 65) = true by decide),
    denotes_lit_low (show ((str "\r\n").all fun c => c.toNat < 65) = true by decide), lineEndings, List.mem_cons,
    List.not_mem_nil, or_false, ← or_and_right]
  rw [or_comm]

theorem denotes_requestLine {u : Bytes} {c : Captures Byte} : Denotes requestLine u c ↔
    ∃ m p q v e, u = m ++ sp :: (p ++ (queryPart q ++ sp :: (v ++ e))) ∧ c = lineCaptures m p q v ∧
      (∃ n ∈ methodNames, SameLetters m n) ∧ 63 ∉ p ∧ (∀ s, q = some s → lf ∉ s ∧ cr ∉ s) ∧
      (∃ n ∈ versions, SameLetters v n) ∧ e ∈ lineEndings := by
  constructor
  · rintro ⟨m, _, _, _, rfl, rfl, ⟨c₁, hm, rfl⟩, s₁, _, _, _, rfl, rfl, hs₁, p, _, _, _, rfl, rfl,
      ⟨c₂, ⟨hp, rfl⟩, rfl⟩, qs, _, c₃, _, rfl, rfl, hq, s₂, _, _, _, rfl, rfl, hs₂, v, e, _, c₅, rfl, rfl,
      ⟨c₄, hv, rfl⟩, he⟩
    obtain ⟨hm', rfl⟩ := denotes_methods.mp hm
    obtain ⟨hv', rfl⟩ := denotes_version.mp hv
    obtain ⟨q, rfl, rfl, hq'⟩ := denotes_query.mp hq
    obtain ⟨he', rfl⟩ := denotes_ending.mp he
    obtain ⟨rfl, rfl⟩ := (denotes_lit_low (by decide)).mp hs₁
    obtain ⟨rfl, rfl⟩ := (denotes_lit_low (by decide)).mp hs₂
    refine ⟨m, p, q, v, e, ?_, ?_, hm', fun h => absurd (hp 63 h) (by decide), hq', hv', he'⟩
    · simp [str]
    · simp [lineCaptures]
  · rintro ⟨m, p, q, v, e, rfl, rfl, hm, hp, hq, hv, he⟩
    refine ⟨m, _, [(1, m)], _, rfl, rfl, ⟨[], denotes_methods.mpr ⟨hm, rfl⟩, rfl⟩, [sp], _, [], _, rfl, rfl,
      denotes_lit.mpr ⟨rfl, rfl⟩, p, _, [(2, p)], _, rfl, rfl, ⟨[], ⟨fun x hx => ?_, rfl⟩, rfl⟩,
      queryPart q, _, _, _, rfl, rfl, denotes_query.mpr ⟨q, rfl, rfl, hq⟩, [sp], _, [], _, rfl, rfl,
      denotes_lit.mpr ⟨rfl, rfl⟩, v, e, [(4, v)], [], rfl, rfl, ⟨[], denotes_version.mpr ⟨hv, rfl⟩, rfl⟩,
      denotes_ending.mpr ⟨he, rfl⟩⟩
    rw [bne_iff_ne]
    exact fun e => hp (e ▸ hx)

theorem queryPart_inj {p p' : Bytes} (hp : 63 ∉ p) (hp' : 63 ∉ p') : ∀ {q q' : Option Bytes},
    p ++ queryPart q = p' ++ queryPart q' → p = p' ∧ q = q'
  | none, none, e => ⟨List.append_cancel_right e, rfl⟩
  | some q, some q', e => by
    obtain ⟨rfl, rfl⟩ := append_inj_first hp hp' e
    exact ⟨rfl, rfl⟩
  | none, some q', e => by
    rw [queryPart, List.append_nil] at e
    exact absurd (e ▸ List.mem_append_right _ List.mem_cons_self) hp
  | some q, none, e => by
    rw [queryPart, queryPart, List.append_nil] at e
    exact absurd (e ▸ List.mem_append_right _ List.mem_cons_self) hp'

end HttpContext

/-! ## The grammar -/

/-- A line `M SP T SP V E`. -/
structure RequestLine where
  method : Bytes
  target : Bytes
  version : Bytes
  ending : Bytes

namespace RequestLine

open HttpContext Regex

def text (l : RequestLine) : Bytes := l.method ++ sp :: (l.target ++ sp :: (l.version ++ l.ending))

/-- The target before its first `?`. -/
def path (l : RequestLine) : Bytes := l.target.takeWhile (· ≠ 63)

/-- And after it. -/
def query (l : RequestLine) : Option Bytes :=
  if 63 ∈ l.target then some (l.target.dropWhile (· ≠ 63)).tail else none

/-- The pieces of the query that are not empty. -/
def pieces (l : RequestLine) : List Bytes := ((l.query.getD []).splitOn 38).filter (· ≠ [])

/-- Key and value of a piece, which its first `=` separates. -/
def param (piece : Bytes) : Bytes × Bytes :=
  (urlDecode true (piece.takeWhile (· ≠ 61)), urlDecode true (piece.dropWhile (· ≠ 61)).tail)

structure WellFormed (l : RequestLine) : Prop where
  method : ∃ m ∈ methodNames, SameLetters l.method m
  version : ∃ v ∈ versions, SameLetters l.version v
  ending : l.ending ∈ lineEndings
  query : cr ∉ l.query.getD []
  pieces : ∀ piece ∈ l.pieces, 61 ∈ piece

/-- What the regex asks of a line. -/
structure Matches (l : RequestLine) : Prop where
  method : ∃ m ∈ methodNames, SameLetters l.method m
  version : ∃ v ∈ versions, SameLetters l.version v
  ending : l.ending ∈ lineEndings
  query : ∀ s, l.query = some s → lf ∉ s ∧ cr ∉ s

def captures (l : RequestLine) : Captures Byte := lineCaptures l.method l.path l.query l.version

variable {l l' : RequestLine}

theorem path_append_query (l : RequestLine) : l.path ++ queryPart l.query = l.target := by
  rw [path, query]
  split
  · next h =>
    obtain ⟨p, q, e, hp⟩ := List.eq_append_cons_of_mem h
    have hd : ∀ a ∈ p, decide (a ≠ 63) = true := fun a ha => decide_eq_true fun e => hp (e ▸ ha)
    rw [e, List.takeWhile_append_of_pos hd, List.dropWhile_append_of_pos hd]
    simp [queryPart]
  · next h =>
    have ht : ∀ a ∈ l.target, decide (a ≠ 63) = true := fun a ha => decide_eq_true fun e => h (e ▸ ha)
    rw [List.takeWhile_eq_self_iff.mpr ht]
    exact List.append_nil _

theorem not_mem_path (l : RequestLine) : 63 ∉ l.path :=
  fun h => absurd (List.mem_takeWhile_imp h) (by decide)

/-- A target is split at its first `?` in one way only. -/
theorem path_query_eq {p : Bytes} {q : Option Bytes} (hp : 63 ∉ p) (h : l.target = p ++ queryPart q) :
    l.path = p ∧ l.query = q :=
  queryPart_inj l.not_mem_path hp (l.path_append_query.trans h)

theorem denotes_iff {u : Bytes} {c : Captures Byte} :
    Denotes requestLine u c ↔ ∃ l : RequestLine, l.Matches ∧ l.text = u ∧ c = l.captures := by
  rw [denotes_requestLine]
  constructor
  · rintro ⟨m, p, q, v, e, rfl, rfl, hm, hp, hq, hv, he⟩
    obtain ⟨ep, eq⟩ := path_query_eq (l := ⟨m, p ++ queryPart q, v, e⟩) hp rfl
    refine ⟨⟨m, p ++ queryPart q, v, e⟩, ⟨hm, hv, he, fun s es => hq s (eq ▸ es)⟩, ?_, ?_⟩
    · simp [text]
    · rw [captures, ep, eq]
  · rintro ⟨l, h, rfl, rfl⟩
    refine ⟨l.method, l.path, l.query, l.version, l.ending, ?_, rfl, h.method, l.not_mem_path, h.query,
      h.version, h.ending⟩
    rw [text, ← l.path_append_query, List.append_assoc]

/-- A line is split in one way only. -/
theorem text_inj (h : l.Matches) (h' : l'.Matches) (e : l.text = l'.text) : l = l' := by
  have hs : ∀ {l : RequestLine}, l.Matches → sp ∉ l.version ++ l.ending := by
    intro l h hm
    have he : ∀ e ∈ lineEndings, sp ∉ e := by decide
    rcases List.mem_append.mp hm with hm | hm
    · exact (not_mem_version h.version).1 sp List.mem_cons_self hm
    · exact he _ h.ending hm
  obtain ⟨em, e⟩ := append_inj_first (sp_not_mem_method h.method) (sp_not_mem_method h'.method) e
  obtain ⟨et, e⟩ := append_inj_last (hs h) (hs h') e
  have hl : l.version.length = l'.version.length :=
    (not_mem_version h.version).2.trans (not_mem_version h'.version).2.symm
  obtain ⟨ev, ee⟩ := List.append_inj e hl
  cases l
  cases l'
  simp only [mk.injEq]
  exact ⟨em, et, ev, ee⟩

theorem fullMatch_text (h : l.Matches) : requestLine.fullMatch l.text = some l.captures := by
  refine fullMatch_eq (denotes_iff.mpr ⟨l, h, rfl, rfl⟩) fun c hc => ?_
  obtain ⟨l', h', e, rfl⟩ := denotes_iff.mp hc
  rw [text_inj h' h e]

theorem captures_eq (l : RequestLine) : capture l.captures 1 = l.method ∧ capture l.captures 2 = l.path ∧
    capture l.captures 3 = l.query.getD [] ∧ capture l.captures 4 = l.version := by
  rw [captures]
  cases l.query <;> exact ⟨rfl, rfl, rfl, rfl⟩

/-! ## Parsing a line -/

theorem lf_not_mem_query (h : ∀ s r, l.text = s ++ lf :: r → r = []) :
    lf ∉ l.query.getD [] := by
  intro hm
  cases hq : l.query with
  | none =>
    rw [hq] at hm
    exact List.not_mem_nil hm
  | some q =>
    rw [hq, Option.getD_some] at hm
    obtain ⟨q₁, q₂, rfl⟩ := List.append_of_mem hm
    have ht := l.path_append_query
    rw [hq, queryPart] at ht
    have hr := h (l.method ++ sp :: (l.path ++ 63 :: q₁)) (q₂ ++ sp :: (l.version ++ l.ending))
      (by rw [text, ← ht]; simp)
    exact absurd hr (by simp)

/-- In a line whose line feed is its last byte, the regex asks for nothing
but the grammar. -/
theorem wellFormed_iff (h : ∀ s r, l.text = s ++ lf :: r → r = []) :
    l.WellFormed ↔ l.Matches ∧ ∀ piece ∈ l.pieces, 61 ∈ piece := by
  constructor
  · intro hl
    refine ⟨⟨hl.method, hl.version, hl.ending, fun s e => ?_⟩, hl.pieces⟩
    have hq := hl.query
    have hlf := lf_not_mem_query h
    rw [e] at hq hlf
    exact ⟨hlf, hq⟩
  · rintro ⟨hl, hp⟩
    refine ⟨hl.method, hl.version, hl.ending, ?_, hp⟩
    cases e : l.query with
    | none => exact List.not_mem_nil
    | some s => exact (hl.query s e).2

theorem setParams_of_mem (ps : List Bytes) : ∀ ctx : HttpContext, (∀ piece ∈ ps, 61 ∈ piece) →
    setParams ps ctx = ({ ctx with request := { ctx.request with
      params := (ps.map param).foldl (fun m e => m.insert e.1 e.2) ctx.request.params } }, true) := by
  induction ps with
  | nil => exact fun _ _ => rfl
  | cons piece ps ih =>
    intro ctx h
    obtain ⟨k, v, rfl, hk⟩ := List.eq_append_cons_of_mem (h piece List.mem_cons_self)
    have hd : ∀ a ∈ k, decide (a ≠ 61) = true := fun a ha => decide_eq_true fun e => hk (e ▸ ha)
    have hpos : find (str "=") (k ++ 61 :: v) = some k.length := find_byte hk v
    have htake : (k ++ 61 :: v).takeWhile (· ≠ 61) = k := by
      rw [List.takeWhile_append_of_pos hd, List.takeWhile_cons_of_neg (by decide), List.append_nil]
    have hdrop : (k ++ 61 :: v).dropWhile (· ≠ 61) = 61 :: v := by
      rw [List.dropWhile_append_of_pos hd, List.dropWhile_cons_of_neg (by decide)]
    have hval : (k ++ 61 :: v).drop (k.length + 1) = v := by
      rw [← List.drop_drop, List.drop_left]
      rfl
    rw [setParams, hpos]
    simp only
    rw [ih _ fun p hp => h p (List.mem_cons_of_mem _ hp), List.take_left, hval, List.map_cons, List.foldl_cons,
      param, htake, hdrop]
    rfl

theorem setParams_of_not_mem (ps : List Bytes) : ∀ ctx : HttpContext, (∃ piece ∈ ps, 61 ∉ piece) →
    (setParams ps ctx).2 = false := by
  induction ps with
  | nil => exact fun _ ⟨_, h, _⟩ => absurd h List.not_mem_nil
  | cons piece ps ih =>
    rintro ctx ⟨p, hp, h⟩
    rw [setParams]
    rcases List.mem_cons.mp hp with rfl | hp
    · rw [show find (str "=") p = none from find_byte_none h]
    · split
      · rfl
      · exact ih _ ⟨p, hp, h⟩

/-- What the line stores, and nothing else changes. A key that was there
keeps its value; in a context that waits for a request line, none is. -/
def Stores (l : RequestLine) (ctx ctx' : HttpContext) : Prop :=
  ∃ params, ctx' = { ctx with request := { ctx.request with
      method := l.method.map toUpper
      path := urlDecode false l.path
      version := l.version
      params } } ∧
    ∀ k, params.find k = (ctx.request.params.find k).or
      (((l.pieces.map param).find? fun e => e.1 = k).map Prod.snd)

theorem parseHttpLine_text (h : l.Matches) (ctx : HttpContext) : ctx.parseHttpLine l.text =
    setParams l.pieces { ctx with request := { ctx.request with
      method := l.method.map toUpper
      path := urlDecode false l.path
      version := l.version } } := by
  obtain ⟨h₁, h₂, h₃, h₄⟩ := l.captures_eq
  rw [parseHttpLine, fullMatch_text h]
  simp only
  rw [h₁, h₂, h₃, h₄, show str "&" = [38] from rfl, split_byte, pieces]

theorem parseHttpLine_wellFormed (h : l.Matches) (hp : ∀ piece ∈ l.pieces, 61 ∈ piece) (ctx : HttpContext) :
    (ctx.parseHttpLine l.text).2 = true ∧ l.Stores ctx (ctx.parseHttpLine l.text).1 := by
  rw [parseHttpLine_text h, setParams_of_mem _ _ hp]
  exact ⟨rfl, _, rfl, fun k => UnorderedMap.find_foldl_insert ..⟩

/-- For a line with no line feed but its last byte: it is accepted if and only
if it is a well-formed line, which is so in one way only; then it is stored,
and otherwise answered by 400. -/
theorem parseHttpLine_iff (ctx : HttpContext) {line : Bytes} (h : ∀ s r, line = s ++ lf :: r → r = []) :
    ((ctx.parseHttpLine line).2 = true ↔ ∃! l : RequestLine, l.WellFormed ∧ l.text = line) ∧
      (∀ l : RequestLine, l.WellFormed → l.text = line → l.Stores ctx (ctx.parseHttpLine line).1) ∧
      ((ctx.parseHttpLine line).2 = false →
        (ctx.parseHttpLine line).1.recvStatu = .recvHttpError ∧ (ctx.parseHttpLine line).1.respStatu = 400) := by
  have hw : ∀ {l : RequestLine}, l.text = line → (l.WellFormed ↔ l.Matches ∧ ∀ piece ∈ l.pieces, 61 ∈ piece) := by
    rintro l rfl
    exact wellFormed_iff h
  refine ⟨⟨fun ha => ?_, ?_⟩, ?_, fun hf => ?_⟩
  · cases hc : requestLine.fullMatch line with
    | none =>
      rw [parseHttpLine, hc] at ha
      cases ha
    | some c =>
      obtain ⟨l, hl, rfl, rfl⟩ := denotes_iff.mp (.of_fullMatch hc)
      have hp : ∀ piece ∈ l.pieces, 61 ∈ piece := by
        by_contra hn
        push Not at hn
        rw [parseHttpLine_text hl, setParams_of_not_mem _ _ hn] at ha
        cases ha
      refine ⟨l, ⟨(hw rfl).mpr ⟨hl, hp⟩, rfl⟩, ?_⟩
      rintro l' ⟨hl', e⟩
      exact text_inj ((hw e).mp hl').1 hl e
  · rintro ⟨l, ⟨hl, rfl⟩, _⟩
    obtain ⟨hm, hp⟩ := (hw rfl).mp hl
    exact (parseHttpLine_wellFormed hm hp ctx).1
  · rintro l hl rfl
    obtain ⟨hm, hp⟩ := (hw rfl).mp hl
    exact (parseHttpLine_wellFormed hm hp ctx).2
  · rcases parseHttpLine_cases ctx line with ⟨request, e⟩ | ⟨request, e⟩
    · rw [e] at hf
      cases hf
    · rw [e]
      exact ⟨rfl, rfl⟩

/-- A line read from the buffer, with an empty piece and a key twice. -/
theorem parseHttpLine_iff_keyTwice : ∃! l : RequestLine,
    l.WellFormed ∧ l.text = (popLine lf (str "get /a b?k=1&&k=2 http/1.0\r\nHost: c")).1 :=
  (parseHttpLine_iff .new fun _ _ => popLine_fst_last).1.mp (by decide +kernel)

end RequestLine

end Mudou
