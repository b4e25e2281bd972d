import Mudou.Http.ContextStates
import Mudou.Http.RequestLine

/-!
# The grammar of requests

What a client must write for `RecvHttpRequest` to complete a request: a
request line, header lines `K ": " V E`, an empty line and the body that the
headers declare, each line of at most `MAX_LINE` bytes (`RequestText`). The
name `K` may have anything but a line feed and `": "`, and the value `V` may
end with a carriage return only where the line ends with another.

`recvAll_iff_text`: in any chunks, a request is complete if and only if the
bytes are a text of the grammar and what follows it, which they are in one way
only, and once bytes are rejected no more bytes make them the start of a text.
-/

namespace Mudou

open Fifo Util Cutting HttpContext

/-! ## Lines -/

/-- One line, with its line feed. -/
def IsLine (t : Bytes) : Prop := ∃ l, t = l ++ [lf] ∧ lf ∉ l

theorem IsLine.popLine {t : Bytes} (h : IsLine t) (rest : Bytes) : popLine lf (t ++ rest) = (t, rest) := by
  obtain ⟨l, rfl, hl⟩ := h
  rw [List.append_assoc]
  exact popLine_append hl rest

theorem IsLine.ne_zero {t : Bytes} (h : IsLine t) : t.length ≠ 0 := by
  obtain ⟨l, rfl, -⟩ := h
  simp

theorem IsLine.append_inj {t t' x x' : Bytes} (h : IsLine t) (h' : IsLine t') (e : t ++ x = t' ++ x') :
    t = t' ∧ x = x' := by
  have hp := h.popLine x
  rw [e, h'.popLine] at hp
  exact ⟨(Prod.mk.inj hp).1.symm, (Prod.mk.inj hp).2.symm⟩

theorem IsLine.last {t : Bytes} (h : IsLine t) (s r : Bytes) (e : t = s ++ lf :: r) : r = [] := by
  have hp := h.popLine []
  rw [List.append_nil] at hp
  exact popLine_fst_last ((Prod.mk.inj hp).1.trans e)

/-- What `GetLine` takes off a buffer. -/
theorem isLine_popLine {buf : Bytes} (h : (popLine lf buf).1.length ≠ 0) : IsLine (popLine lf buf).1 := by
  have hm : lf ∈ buf := by
    by_contra hm
    exact h (List.length_eq_zero_iff.mpr (popLine_fst_eq_nil.mpr hm))
  obtain ⟨l, r, rfl, hl⟩ := List.eq_append_cons_of_mem hm
  rw [popLine_append hl]
  exact ⟨l, rfl, hl⟩

/-- An empty line. -/
def blankLines : List Bytes := [str "\n", str "\r\n"]

theorem isLine_blank {b : Bytes} (h : b ∈ blankLines) : IsLine b := by
  rcases List.mem_pair.mp h with rfl | rfl
  · exact ⟨[], rfl, by decide⟩
  · exact ⟨[cr], rfl, by decide⟩

namespace Util

/-- `find` finds the first occurrence. -/
theorem find_eq_some {sep src : Bytes} (hs : sep ≠ []) {pos : Nat} (h : find sep src = some pos) :
    ∃ p r, src = p ++ (sep ++ r) ∧ First sep p r ∧ p.length = pos := by
  by_cases hi : sep <:+: src
  · obtain ⟨p, r, rfl, hf⟩ := exists_first hi
    rw [find_first hs hf] at h
    exact ⟨p, r, rfl, hf, Option.some.inj h⟩
  · rw [find_none hs hi] at h
    cases h

end Util

theorem not_infix_of_first {sep p r : Bytes} (hs : sep ≠ []) (h : First sep p r) : ¬ sep <:+: p := by
  rintro ⟨a, b, e⟩
  have hle := h a (b ++ (sep ++ r)) (by simp [← e])
  have hpos := List.length_pos_iff.mpr hs
  have hlen := congrArg List.length e
  simp only [List.length_append] at hlen
  omega

/-! ## Header lines -/

theorem HttpContext.popBack_append (c : Byte) (l : Bytes) : popBack c (l ++ [c]) = l := by
  rw [popBack, if_pos List.getLast?_concat, List.dropLast_concat]

structure HeaderLine where
  key : Bytes
  val : Bytes
  ending : Bytes

namespace HeaderLine

def text (h : HeaderLine) : Bytes := h.key ++ (str ": " ++ h.val) ++ h.ending

structure WellFormed (h : HeaderLine) : Prop where
  key : ¬ str ": " <:+: h.key
  ending : h.ending ∈ blankLines
  val : h.ending = str "\n" → h.val.getLast? ≠ some cr
  oneLine : lf ∉ h.key ∧ lf ∉ h.val

variable {h h' : HeaderLine}

theorem isLine_text (hw : h.WellFormed) : IsLine h.text := by
  obtain ⟨b, e, hb⟩ := isLine_blank hw.ending
  refine ⟨h.key ++ (str ": " ++ h.val) ++ b, by simp [text, e], ?_⟩
  simp only [List.mem_append, not_or]
  exact ⟨⟨hw.oneLine.1, by decide, hw.oneLine.2⟩, hb⟩

/-- What `ParseHttpHead` looks at. -/
theorem popBack_text (hw : h.WellFormed) : popBack cr (popBack lf h.text) = h.key ++ (str ": " ++ h.val) := by
  rcases List.mem_pair.mp hw.ending with he | he
  · have hl : (h.key ++ (str ": " ++ h.val)).getLast? ≠ some cr := by
      rw [List.getLast?_append_of_ne_nil _ (by simp [str])]
      cases hv : h.val.getLast? with
      | none =>
        rw [List.getLast?_eq_none_iff.mp hv]
        decide
      | some c =>
        rw [List.getLast?_append, hv]
        exact fun e => hw.val he (hv.trans e)
    rw [text, he, show str "\n" = [lf] from rfl, popBack_append, HttpContext.popBack, if_neg hl]
  · rw [text, he, show str "\r\n" = [cr] ++ [lf] from rfl, ← List.append_assoc, popBack_append,
      popBack_append]

/-- The colon of a name would have to be followed by a space. -/
theorem find_text (hw : h.WellFormed) : find (str ": ") (h.key ++ (str ": " ++ h.val)) = some h.key.length := by
  refine find_append (by decide) h.val fun l₁ l₂ el hne hp => hw.key ?_
  match l₂, hne with
  | [x], _ =>
    have hx := (List.cons_prefix_cons.mp hp).2
    exact absurd (List.cons_prefix_cons.mp hx).1 (by decide)
  | x :: y :: l₂, _ =>
    have hx := List.cons_prefix_cons.mp hp
    have hy := List.cons_prefix_cons.mp hx.2
    refine ⟨l₁, l₂, ?_⟩
    rw [el, ← hx.1, ← hy.1, List.append_assoc]
    rfl

/-- A line of a header is split in one way only. -/
theorem text_inj (hw : h.WellFormed) (hw' : h'.WellFormed) (e : h.text = h'.text) : h = h' := by
  have hp := popBack_text hw
  rw [e, popBack_text hw'] at hp
  have hf := find_text hw
  rw [← hp, find_text hw'] at hf
  obtain ⟨hk, hv⟩ := List.append_inj hp (Option.some.inj hf)
  have hv := List.append_cancel_left hv
  have he : h.ending = h'.ending := by
    rw [text, text, hp] at e
    exact List.append_cancel_left e
  cases h
  cases h'
  simp only at hk hv he
  rw [hk, hv, he]

theorem parseHttpHead_text (hw : h.WellFormed) (ctx : HttpContext) :
    ctx.parseHttpHead h.text = ({ ctx with request := ctx.request.setHeader h.key h.val }, true) := by
  have hd : (h.key ++ (str ": " ++ h.val)).drop (h.key.length + 2) = h.val := by
    rw [← List.drop_drop, List.drop_left]
    rfl
  rw [parseHttpHead, popBack_text hw, find_text hw]
  simp only
  rw [List.take_left, hd]

/-- The lines that `ParseHttpHead` accepts. -/
theorem exists_of_parseHttpHead {t : Bytes} (ht : IsLine t) {ctx : HttpContext}
    (h : (ctx.parseHttpHead t).2 = true) : ∃ h : HeaderLine, h.WellFormed ∧ h.text = t := by
  obtain ⟨l, rfl, hl⟩ := ht
  rw [parseHttpHead, popBack_append] at h
  cases hf : find (str ": ") (popBack cr l) with
  | none =>
    rw [hf] at h
    cases h
  | some pos =>
    obtain ⟨k, v, e, hfirst, -⟩ := find_eq_some (by decide) hf
    have hk := not_infix_of_first (by decide) hfirst
    by_cases hc : l.getLast? = some cr
    · have hl' : l = k ++ (str ": " ++ v) ++ [cr] := by
        rw [popBack, if_pos hc] at e
        rw [← e]
        exact (List.dropLast_append_getLast? _ hc).symm
      rw [hl'] at hl ⊢
      simp only [List.mem_append, not_or] at hl
      have hne : str "\r\n" ≠ str "\n" := by decide
      have hw : WellFormed ⟨k, v, str "\r\n"⟩ :=
        ⟨hk, List.mem_cons_of_mem _ List.mem_cons_self, fun h => absurd h hne, hl.1.1, hl.1.2.2⟩
      exact ⟨_, hw, by simp [text, str]⟩
    · have hl' : l = k ++ (str ": " ++ v) := by
        rwa [popBack, if_neg hc] at e
      rw [hl'] at hl hc ⊢
      simp only [List.mem_append, not_or] at hl
      refine ⟨⟨k, v, str "\n"⟩, ⟨hk, List.mem_cons_self, fun _ hv => hc ?_, hl.1, hl.2.2⟩, by simp [text, str]⟩
      rw [List.getLast?_append, List.getLast?_append, show v.getLast? = some cr from hv]
      rfl

end HeaderLine

/-! ## The texts -/

/-- A request as it is written. -/
structure RequestText where
  line : RequestLine
  heads : List HeaderLine
  blank : Bytes
  body : Bytes

namespace RequestText

def text (m : RequestText) : Bytes := m.line.text ++ (m.heads.flatMap HeaderLine.text ++ (m.blank ++ m.body))

/-- What the request line says. -/
def afterLine (m : RequestText) : HttpRequest :=
  { HttpRequest.new with
    method := m.line.method.map toUpper
    path := urlDecode false m.line.path
    version := m.line.version
    params := (m.line.pieces.map RequestLine.param).foldl (fun p e => p.insert e.1 e.2) .empty }

def afterHead (m : RequestText) : HttpRequest :=
  { m.afterLine with headers := m.heads.foldl (fun p h => p.insert h.key h.val) .empty }

/-- The request that is read. -/
def request (m : RequestText) : HttpRequest := { m.afterHead with body := m.body }

structure WellFormed (m : RequestText) : Prop where
  line : m.line.WellFormed
  oneLine : IsLine m.line.text
  heads : ∀ h ∈ m.heads, h.WellFormed
  blank : m.blank ∈ blankLines
  short : m.line.text.length ≤ maxLine ∧ ∀ h ∈ m.heads, h.text.length ≤ maxLine
  body : m.request.contentLength = .ok m.body.length

end RequestText

/-! ## The request line -/

namespace RequestLine

theorem parseHttpLine_of_wellFormed {l : RequestLine} (h : l.WellFormed) (ht : IsLine l.text) (ctx : HttpContext) :
    ctx.parseHttpLine l.text = ({ ctx with request := { ctx.request with
      method := l.method.map toUpper
      path := urlDecode false l.path
      version := l.version
      params := (l.pieces.map param).foldl (fun m e => m.insert e.1 e.2) ctx.request.params } }, true) := by
  obtain ⟨hm, hp⟩ := (wellFormed_iff ht.last).mp h
  rw [parseHttpLine_text hm, setParams_of_mem _ _ hp]

/-- The lines that `ParseHttpLine` accepts. -/
theorem exists_of_parseHttpLine {t : Bytes} (ht : IsLine t) {ctx : HttpContext}
    (h : (ctx.parseHttpLine t).2 = true) : ∃ l : RequestLine, l.WellFormed ∧ l.text = t := by
  cases hc : requestLine.fullMatch t with
  | none =>
    rw [parseHttpLine, hc] at h
    cases h
  | some c =>
    obtain ⟨l, hl, rfl, rfl⟩ := denotes_iff.mp (.of_fullMatch hc)
    refine ⟨l, (wellFormed_iff ht.last).mpr ⟨hl, ?_⟩, rfl⟩
    by_contra hn
    push Not at hn
    rw [parseHttpLine_text hl, setParams_of_not_mem _ _ hn] at h
    cases h

end RequestLine

/-! ## The head -/

/-- Header lines and an empty line are read up to what follows. -/
theorem recvHttpHead_text {b : Bytes} (hb : b ∈ blankLines) (rest : Bytes) (hs : List HeaderLine) :
    ∀ {ctx : HttpContext}, ctx.recvStatu = .recvHttpHead →
      (∀ h ∈ hs, h.WellFormed) → (∀ h ∈ hs, h.text.length ≤ maxLine) →
        ctx.recvHttpHead (hs.flatMap HeaderLine.text ++ (b ++ rest)) =
          ({ ctx with recvStatu := .recvHttpBody, request := { ctx.request with
            headers := hs.foldl (fun p h => p.insert h.key h.val) ctx.request.headers } }, rest) := by
  have hlb := isLine_blank hb
  induction hs with
  | nil =>
    intro ctx hc _ _
    have hlen : ¬ maxLine < b.length := by
      rcases List.mem_pair.mp hb with rfl | rfl <;> decide
    rw [recvHttpHead_eq hc, List.flatMap_nil, List.nil_append, hlb.popLine]
    simp only
    rw [if_neg hlb.ne_zero, if_neg hlen, if_pos (List.mem_pair.mp hb)]
    rfl
  | cons h hs ih =>
    intro ctx hc hw hl
    have hw₁ := hw h List.mem_cons_self
    have hlh := HeaderLine.isLine_text hw₁
    have hn : ¬ (h.text = str "\n" ∨ h.text = str "\r\n") := by
      have hlong : 3 ≤ h.text.length := by
        have := hlb.ne_zero
        have he := (isLine_blank hw₁.ending).ne_zero
        simp only [HeaderLine.text, List.length_append, show (str ": ").length = 2 from rfl]
        omega
      rintro (e | e) <;> rw [e] at hlong <;> exact absurd hlong (by decide)
    rw [recvHttpHead_eq hc, List.flatMap_cons, List.append_assoc, hlh.popLine]
    simp only
    rw [if_neg hlh.ne_zero, if_neg (Nat.not_lt.mpr (hl h List.mem_cons_self)), if_neg hn,
      HeaderLine.parseHttpHead_text hw₁]
    simp only
    rw [ih (show ({ ctx with request := ctx.request.setHeader h.key h.val } : HttpContext).recvStatu = _ from hc)
      (fun h hm => hw h (List.mem_cons_of_mem _ hm)) fun h hm => hl h (List.mem_cons_of_mem _ hm)]
    rfl

/-- What a completed head has been read from. -/
theorem exists_of_recvHttpHead (n : Nat) : ∀ {ctx ctx' : HttpContext} {buf rest : Bytes}, buf.length ≤ n →
    ctx.recvStatu = .recvHttpHead → ctx.recvHttpHead buf = (ctx', rest) → ctx'.recvStatu = .recvHttpBody →
      ∃ (hs : List HeaderLine) (b : Bytes), (∀ h ∈ hs, h.WellFormed) ∧ (∀ h ∈ hs, h.text.length ≤ maxLine) ∧
        b ∈ blankLines ∧ buf = hs.flatMap HeaderLine.text ++ (b ++ rest) := by
  induction n with
  | zero =>
    intro ctx ctx' buf rest hn hc e ho
    obtain rfl := List.length_eq_zero_iff.mp (Nat.le_zero.mp hn)
    rw [recvHttpHead_eq hc] at e
    obtain rfl := (Prod.mk.inj e).1
    rw [hc] at ho
    cases ho
  | succ n ih =>
    intro ctx ctx' buf rest hn hc e ho
    rw [recvHttpHead_eq hc] at e
    by_cases h0 : (popLine lf buf).1.length = 0
    · rw [if_pos h0] at e
      split at e
      · obtain rfl := (Prod.mk.inj e).1
        cases ho
      · obtain rfl := (Prod.mk.inj e).1
        rw [hc] at ho
        cases ho
    · have hlen := length_popLine_snd_lt h0
      have hcut := popLine_fst_append_snd lf buf
      rw [if_neg h0] at e
      by_cases hl : maxLine < (popLine lf buf).1.length
      · rw [if_pos hl] at e
        obtain rfl := (Prod.mk.inj e).1
        cases ho
      · rw [if_neg hl] at e
        by_cases hb : (popLine lf buf).1 = str "\n" ∨ (popLine lf buf).1 = str "\r\n"
        · rw [if_pos hb] at e
          refine ⟨[], (popLine lf buf).1, fun _ h => absurd h List.not_mem_nil,
            fun _ h => absurd h List.not_mem_nil, List.mem_pair.mpr hb, ?_⟩
          rw [← (Prod.mk.inj e).2, List.flatMap_nil, List.nil_append, hcut]
        · rw [if_neg hb] at e
          have hx : (ctx.parseHttpHead (popLine lf buf).1).2 = true → _ :=
            HeaderLine.exists_of_parseHttpHead (isLine_popLine h0)
          rcases parseHttpHead_cases ctx (popLine lf buf).1 with ⟨request, ep⟩ | ep
          · rw [ep] at e hx
            obtain ⟨h, hw, ht⟩ := hx rfl
            change ({ ctx with request } : HttpContext).recvHttpHead (popLine lf buf).2 = _ at e
            have hc' : ({ ctx with request } : HttpContext).recvStatu = .recvHttpHead := hc
            obtain ⟨hs, b, hws, hls, hb, eb⟩ := ih (by omega) hc' e ho
            refine ⟨h :: hs, b, List.forall_mem_cons.mpr ⟨hw, hws⟩,
              List.forall_mem_cons.mpr ⟨ht ▸ Nat.not_lt.mp hl, hls⟩, hb, ?_⟩
            rw [List.flatMap_cons, List.append_assoc, ← eb, ht, hcut]
          · rw [ep] at e
            obtain rfl := (Prod.mk.inj e).1
            cases ho

/-- Header lines end at the first empty line. -/
theorem headerLines_inj {b b' x x' : Bytes} (hb : b ∈ blankLines) (hb' : b' ∈ blankLines) (hs : List HeaderLine) :
    ∀ {hs' : List HeaderLine}, (∀ h ∈ hs, h.WellFormed) → (∀ h ∈ hs', h.WellFormed) →
      hs.flatMap HeaderLine.text ++ (b ++ x) = hs'.flatMap HeaderLine.text ++ (b' ++ x') →
        hs = hs' ∧ b = b' ∧ x = x' := by
  have hne : ∀ {h : HeaderLine} {b : Bytes}, h.WellFormed → b ∈ blankLines → h.text ≠ b := by
    intro h b hw hb e
    have hp := HeaderLine.popBack_text hw
    rw [e] at hp
    rcases List.mem_pair.mp hb with rfl | rfl
    · exact absurd hp (by simp [popBack, str])
    · exact absurd hp (by simp [popBack, str])
  induction hs with
  | nil =>
    rintro (_ | ⟨h', hs'⟩) _ hw' e
    · obtain ⟨rfl, rfl⟩ := (isLine_blank hb).append_inj (isLine_blank hb') e
      exact ⟨rfl, rfl, rfl⟩
    · have hw₁ := hw' h' List.mem_cons_self
      rw [List.flatMap_cons, List.append_assoc] at e
      have ht := ((isLine_blank hb).append_inj (HeaderLine.isLine_text hw₁) e).1
      exact absurd ht.symm (hne hw₁ hb)
  | cons h hs ih =>
    have hlh : h.WellFormed → IsLine h.text := HeaderLine.isLine_text
    rintro (_ | ⟨h', hs'⟩) hw hw' e
    · have hw₁ := hw h List.mem_cons_self
      rw [List.flatMap_cons, List.append_assoc] at e
      exact absurd ((hlh hw₁).append_inj (isLine_blank hb') e).1 (hne hw₁ hb')
    · have hw₁ := hw h List.mem_cons_self
      have hw₁' := hw' h' List.mem_cons_self
      rw [List.flatMap_cons, List.flatMap_cons, List.append_assoc, List.append_assoc] at e
      obtain ⟨ht, e⟩ := (hlh hw₁).append_inj (HeaderLine.isLine_text hw₁') e
      obtain ⟨rfl, hr⟩ := ih (fun h hm => hw h (List.mem_cons_of_mem _ hm))
        (fun h hm => hw' h (List.mem_cons_of_mem _ hm)) e
      rw [HeaderLine.text_inj hw₁ hw₁' ht]
      exact ⟨rfl, hr⟩

/-! ## Requests -/

/-- The body, from its beginning. -/
theorem recvHttpBody_first {ctx : HttpContext} (h : ctx.recvStatu = .recvHttpBody) (hb : ctx.request.body = [])
    {n : Nat} (hc : ctx.request.contentLength = .ok n) (buf : Bytes) :
    ctx.recvHttpBody buf =
      if n ≤ buf.length then
        .ok (⟨ctx.respStatu, .recvHttpOver, { ctx.request with body := buf.take n }⟩, buf.drop n)
      else .ok (ctx.appendBody buf, []) := by
  rw [recvHttpBody_eq h hc (by rw [hb]; exact Nat.zero_le n), hb, List.length_nil, Nat.sub_zero, appendBody, hb]
  rfl

namespace RequestText

variable {m m' : RequestText}

/-- The head of the text, read. -/
def atHead (m : RequestText) : HttpContext := ⟨200, .recvHttpHead, m.afterLine⟩

def atBody (m : RequestText) : HttpContext := ⟨200, .recvHttpBody, m.afterHead⟩

theorem recvHttpLine_text (h : m.WellFormed) (rest : Bytes) :
    HttpContext.new.recvHttpLine (m.line.text ++ rest) = (m.atHead, rest) := by
  rw [recvHttpLine_eq rfl, h.oneLine.popLine]
  simp only
  rw [if_neg h.oneLine.ne_zero, if_neg (Nat.not_lt.mpr h.short.1),
    RequestLine.parseHttpLine_of_wellFormed h.line h.oneLine]
  rfl

/-- A text and what follows it. -/
theorem recvHttpRequest_text (h : m.WellFormed) (rest : Bytes) :
    HttpContext.new.recvHttpRequest (m.text ++ rest) = .ok (⟨200, .recvHttpOver, m.request⟩, rest) := by
  have hh : m.atHead.recvHttpHead (m.heads.flatMap HeaderLine.text ++ (m.blank ++ (m.body ++ rest))) =
      (m.atBody, m.body ++ rest) := recvHttpHead_text h.blank _ m.heads rfl h.heads h.short.2
  have hl : m.body.length ≤ (m.body ++ rest).length := by
    rw [List.length_append]
    exact Nat.le_add_right ..
  rw [recvHttpRequest_line rfl, text]
  simp only [List.append_assoc]
  rw [recvHttpLine_text h]
  simp only
  rw [hh, recvHttpBody_first rfl rfl h.body, if_pos hl, List.take_left, List.drop_left]
  rfl

/-! ### Completed requests -/

variable {buf rest : Bytes} {ctx : HttpContext}

/-- The body is completed in one state only. -/
theorem recvStatu_of_recvHttpBody {c : HttpContext} (e : c.recvHttpBody buf = .ok (ctx, rest))
    (ho : ctx.recvStatu = .recvHttpOver) (hc : c.recvStatu ≠ .recvHttpOver) : c.recvStatu = .recvHttpBody := by
  by_contra hb
  rw [recvHttpBody_of_ne hb] at e
  obtain rfl := (Prod.mk.inj (Except.ok.inj e)).1
  exact hc ho

/-- What a completed body has been read from. -/
theorem exists_of_recvHttpBody (m : RequestText) (e : m.atBody.recvHttpBody buf = .ok (ctx, rest))
    (ho : ctx.recvStatu = .recvHttpOver) :
    ∃ body, buf = body ++ rest ∧ m.afterHead.contentLength = .ok body.length := by
  cases hn : m.afterHead.contentLength with
  | error err =>
    rw [recvHttpBody_error rfl hn] at e
    cases e
  | ok n =>
    rw [recvHttpBody_first rfl rfl hn] at e
    split at e
    · next hlen =>
      cases e
      exact ⟨buf.take n, (List.take_append_drop n buf).symm,
        congrArg Except.ok (List.length_take_of_le hlen).symm⟩
    · cases e
      cases ho

/-- The header lines before it. -/
theorem exists_of_head {c : HttpContext} (hc : c.recvStatu = .recvHttpHead)
    (e : (c.recvHttpHead buf).1.recvHttpBody (c.recvHttpHead buf).2 = .ok (ctx, rest))
    (ho : ctx.recvStatu = .recvHttpOver) :
    ∃ (hs : List HeaderLine) (b following : Bytes), (∀ h ∈ hs, h.WellFormed) ∧
      (∀ h ∈ hs, h.text.length ≤ maxLine) ∧ b ∈ blankLines ∧
      buf = hs.flatMap HeaderLine.text ++ (b ++ following) ∧
      HttpContext.recvHttpBody { c with recvStatu := .recvHttpBody, request := { c.request with
        headers := hs.foldl (fun p h => p.insert h.key h.val) c.request.headers } } following = .ok (ctx, rest) := by
  have hst := recvHeadLoop_statu (buf.length + 1) c buf hc
  rw [← recvHttpHead_loop hc (Nat.lt_succ_self _)] at hst
  cases hh : c.recvHttpHead buf with
  | mk c' following =>
    rw [hh] at e hst
    have hb : c'.recvStatu = .recvHttpBody := by
      refine recvStatu_of_recvHttpBody e ho fun ho' => ?_
      rw [ho'] at hst
      rcases hst with h | ⟨-, h | h⟩ <;> cases h
    obtain ⟨hs, b, hws, hls, hbl, rfl⟩ := exists_of_recvHttpHead _ (Nat.le_refl _) hc hh hb
    rw [recvHttpHead_text hbl following hs hc hws hls] at hh
    obtain rfl := (Prod.mk.inj hh).1
    exact ⟨hs, b, following, hws, hls, hbl, rfl, e⟩

/-- Every completed request has been read from a text: a failed or missing
line comes to no body. -/
theorem exists_of_recvHttpRequest (e : HttpContext.new.recvHttpRequest buf = .ok (ctx, rest))
    (ho : ctx.recvStatu = .recvHttpOver) : ∃ m : RequestText, m.WellFormed ∧ buf = m.text ++ rest := by
  have hhead : ∀ {c : HttpContext} {b : Bytes}, c.recvStatu = .recvHttpError ∨ c.recvStatu = .recvHttpLine →
      (c.recvHttpHead b).1.recvHttpBody (c.recvHttpHead b).2 ≠ .ok (ctx, rest) := by
    intro c b hs e
    have hne : c.recvStatu ≠ .recvHttpHead ∧ c.recvStatu ≠ .recvHttpBody ∧ c.recvStatu ≠ .recvHttpOver := by
      rcases hs with hs | hs <;> rw [hs] <;> decide
    rw [recvHttpHead_of_ne hne.1] at e
    exact hne.2.1 (recvStatu_of_recvHttpBody e ho hne.2.2)
  have hcut := popLine_fst_append_snd lf buf
  rw [recvHttpRequest_line rfl, recvHttpLine_eq rfl] at e
  by_cases h0 : (popLine lf buf).1.length = 0
  · rw [if_pos h0] at e
    split at e
    · exact absurd e (hhead (.inl rfl))
    · exact absurd e (hhead (.inr rfl))
  · rw [if_neg h0] at e
    by_cases hmax : maxLine < (popLine lf buf).1.length
    · rw [if_pos hmax] at e
      exact absurd e (hhead (.inl rfl))
    · rw [if_neg hmax] at e
      rcases parseHttpLine_cases .new (popLine lf buf).1 with ⟨request, ep⟩ | ⟨request, ep⟩
      · have hline := isLine_popLine h0
        obtain ⟨l, hw, ht⟩ := RequestLine.exists_of_parseHttpLine hline (congrArg Prod.snd ep)
        rw [← ht] at hline hmax hcut
        rw [← ht, RequestLine.parseHttpLine_of_wellFormed hw hline] at e
        obtain ⟨hs, b, following, hws, hls, hbl, eb, e⟩ := exists_of_head rfl e ho
        obtain ⟨body, rfl, hn⟩ := exists_of_recvHttpBody ⟨l, hs, b, []⟩ e ho
        refine ⟨⟨l, hs, b, body⟩, ⟨hw, hline, hws, hbl, ⟨Nat.not_lt.mp hmax, hls⟩, hn⟩, ?_⟩
        rw [← hcut, eb, text]
        simp only [List.append_assoc]
      · rw [ep] at e
        exact absurd e (hhead (.inl rfl))

/-- The grammar is unambiguous, and no text is the start of another: the same
headers declare the same length. -/
theorem text_inj {x x' : Bytes} (h : m.WellFormed) (h' : m'.WellFormed) (e : m.text ++ x = m'.text ++ x') :
    m = m' ∧ x = x' := by
  rw [text, text] at e
  simp only [List.append_assoc] at e
  obtain ⟨hl, e⟩ := h.oneLine.append_inj h'.oneLine e
  have hm : ∀ {m : RequestText}, m.WellFormed → m.line.Matches := by
    intro m h
    exact ((RequestLine.wellFormed_iff h.oneLine.last).mp h.line).1
  obtain ⟨hh, hb, e⟩ := headerLines_inj h.blank h'.blank m.heads h.heads h'.heads e
  have hl := RequestLine.text_inj (hm h) (hm h') hl
  have hn : m.body.length = m'.body.length := by
    have hc : m.request.contentLength = m'.request.contentLength := by
      show m.afterHead.contentLength = m'.afterHead.contentLength
      rw [afterHead, afterHead, hh]
      rfl
    rw [h.body, h'.body] at hc
    exact Except.ok.inj hc
  obtain ⟨hbody, hx⟩ := List.append_inj e hn
  refine ⟨?_, hx⟩
  cases m
  cases m'
  simp only at hl hh hb hbody
  rw [hl, hh, hb, hbody]

end RequestText

/-! ## Chunks -/

namespace HttpContext

variable {ctx ctx' : HttpContext} {buf' : Bytes}

/-- After an error or a request, bytes stay in the buffer. -/
theorem recvAll_stays (h : ctx.recvStatu = .recvHttpError ∨ ctx.recvStatu = .recvHttpOver) (chunks : List Bytes) :
    ∀ buf, recvAll chunks ctx buf = .ok (ctx, buf ++ chunks.flatten) := by
  have hr : ∀ b, ctx.recvHttpRequest b = .ok (ctx, b) := by
    intro b
    rcases h with h | h <;> rw [recvHttpRequest, h]
  induction chunks with
  | nil => exact fun buf => by rw [recvAll, List.flatten_nil, List.append_nil]
  | cons x chunks ih =>
    intro buf
    rw [recvAll, hr, List.flatten_cons, ← List.append_assoc]
    exact ih (buf ++ x)

/-- A request that is completed in chunks is completed in one. -/
theorem recvHttpRequest_of_recvAll (chunks : List Bytes) : ∀ {ctx : HttpContext} {buf : Bytes} (x : Bytes),
    ctx.Ordered → recvAll (x :: chunks) ctx buf = .ok (ctx', buf') → ctx'.recvStatu = .recvHttpOver →
      ctx.recvHttpRequest (buf ++ (x :: chunks).flatten) = .ok (ctx', buf') := by
  induction chunks with
  | nil =>
    intro ctx buf x _ e _
    rw [List.flatten_singleton]
    rw [recvAll] at e
    cases hx : ctx.recvHttpRequest (buf ++ x) with
    | error err =>
      rw [hx] at e
      cases e
    | ok r =>
      rw [hx] at e
      exact e
  | cons y chunks ih =>
    intro ctx buf x ho e hover
    by_cases herr : ctx.recvStatu = .recvHttpError
    · rw [recvAll_stays (.inl herr)] at e
      cases e
      rw [herr] at hover
      cases hover
    · have hr : ctx.respStatu < 400 := by
        rw [ho.ok herr]
        decide
      have hs := recvHttpRequest_append hr (buf ++ x) (y :: chunks).flatten
      rw [List.flatten_cons, ← List.append_assoc]
      rw [recvAll] at e
      cases hx : ctx.recvHttpRequest (buf ++ x) with
      | error err =>
        rw [hx] at e
        cases e
      | ok r =>
        obtain ⟨ctx₁, buf₁⟩ := r
        rw [hx] at e hs
        have ho₁ := ho.recvHttpRequest hx
        change recvAll (y :: chunks) ctx₁ buf₁ = _ at e
        simp only at hs
        by_cases h400 : 400 ≤ ctx₁.respStatu
        · have herr₁ := ho₁.error.mpr h400
          rw [recvAll_stays (.inl herr₁)] at e
          cases e
          rw [herr₁] at hover
          cases hover
        · rw [if_neg h400] at hs
          by_cases hover₁ : ctx₁.recvStatu = .recvHttpOver
          · rw [if_pos hover₁] at hs
            rw [recvAll_stays (.inr hover₁)] at e
            exact hs.trans e
          · rw [if_neg hover₁] at hs
            exact hs.trans (ih y ho₁ e hover)

/-- The bytes are answered by an error, or `stol` throws. -/
def Rejected : Except StolError (HttpContext × Bytes) → Prop
  | .error _ => True
  | .ok (ctx, _) => ctx.recvStatu = .recvHttpError

/-- A text in any chunks. -/
theorem recvAll_text {m : RequestText} (h : m.WellFormed) {chunks : List Bytes} {rest : Bytes}
    (e : chunks.flatten = m.text ++ rest) :
    recvAll chunks new [] = .ok (⟨200, .recvHttpOver, m.request⟩, rest) := by
  have hr := RequestText.recvHttpRequest_text h rest
  cases chunks with
  | nil =>
    have hn := congrArg List.length e
    have h0 := h.oneLine.ne_zero
    simp only [RequestText.text, List.flatten_nil, List.length_nil, List.length_append] at hn
    omega
  | cons x chunks =>
    rw [recvAll_eq chunks x (by decide), List.nil_append, e, hr]
    intro ctx' buf' er
    rw [List.nil_append, e, hr] at er
    cases er
    exact show (200 : Int) < 400 by decide

/-- Bytes that are rejected begin no text. -/
theorem not_rejected {m : RequestText} (h : m.WellFormed) {chunks : List Bytes} {more rest : Bytes}
    (e : chunks.flatten ++ more = m.text ++ rest) : ¬ Rejected (recvAll chunks new []) := by
  cases chunks with
  | nil => exact fun h => nomatch h
  | cons x chunks =>
    have hs := recvHttpRequest_append (show new.respStatu < 400 by decide) (x :: chunks).flatten more
    rw [e, RequestText.recvHttpRequest_text h rest] at hs
    cases hx : new.recvHttpRequest (x :: chunks).flatten with
    | error err =>
      rw [hx] at hs
      cases hs
    | ok r =>
      obtain ⟨ctx, buf⟩ := r
      rw [hx] at hs
      simp only at hs
      have hr : ctx.respStatu < 400 := by
        by_contra h400
        rw [if_pos (Int.not_lt.mp h400)] at hs
        obtain ⟨b, hs⟩ := hs
        cases hs
        exact h400 (show (200 : Int) < 400 by decide)
      have hall : recvAll (x :: chunks) new [] = .ok (ctx, buf) := by
        rw [recvAll_eq chunks x (by decide), List.nil_append, hx]
        intro ctx' buf' er
        rw [List.nil_append, hx] at er
        cases er
        exact hr
      rw [hall]
      exact fun herr => Int.not_lt.mpr ((ordered_new.recvHttpRequest hx).error.mp herr) hr

/-- In any chunks: a request is completed if and only if the bytes are a text
of the grammar and what follows it. They are so in one way only, and bytes that
are rejected are the start of no text, whatever follows. -/
theorem recvAll_iff_text (chunks : List Bytes) :
    (∀ req rest, recvAll chunks new [] = .ok (⟨200, .recvHttpOver, req⟩, rest) ↔
      ∃ m : RequestText, m.WellFormed ∧ chunks.flatten = m.text ++ rest ∧ req = m.request) ∧
    (∀ (m m' : RequestText) (x x' : Bytes), m.WellFormed → m'.WellFormed → m.text ++ x = m'.text ++ x' →
      m = m' ∧ x = x') ∧
    (Rejected (recvAll chunks new []) → ∀ (m : RequestText) (more rest : Bytes), m.WellFormed →
      chunks.flatten ++ more ≠ m.text ++ rest) := by
  refine ⟨fun req rest => ⟨fun e => ?_, ?_⟩, fun _ _ _ _ => RequestText.text_inj,
    fun hr m more rest h e => not_rejected h e hr⟩
  · cases chunks with
    | nil => cases e
    | cons x chunks =>
      have hone := recvHttpRequest_of_recvAll chunks x ordered_new e rfl
      rw [List.nil_append] at hone
      obtain ⟨m, hm, ht⟩ := RequestText.exists_of_recvHttpRequest hone rfl
      rw [recvAll_text hm ht] at e
      cases e
      exact ⟨m, hm, ht, rfl⟩
  · rintro ⟨m, hm, ht, rfl⟩
    exact recvAll_text hm ht

/-- Lines that end with a line feed only, in two chunks. -/
example : ∃ req, recvAll [str "get /a HTTP/1.0\nk", str ": v\n\nGET"] new [] =
    .ok (⟨200, .recvHttpOver, req⟩, str "GET") := ⟨_, rfl⟩

end HttpContext

end Mudou
