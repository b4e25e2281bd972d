import Mudou.Http.Confinement
import Mudou.Http.Passes
import Mudou.Http.RequestLine

/-!
# The last byte of a string

`back()` of an empty string is undefined. The calls that `ParseHttpHead`,
`IsFileHandler` and `FileHandler` make of it, as lists of the strings. The
header line is never empty, nor is it without its line feed, since
`RecvHttpHead` has taken out the empty lines (`recvBacks_ne_nil`). The path
is that of the request line (`OpenedBy.ofLine`): it is empty where nothing
comes before the `?` of the target, and `ValidPath` does not mind.

`backs_iff`: for every stream, no string is empty if and only if no request
that is handed to `Route` began with a `GET` or `HEAD` line of such a target.
-/

namespace Mudou

open Fifo Util Outcome Connection

namespace RequestLine

open HttpContext

/-- `GET` or `HEAD`, and nothing before the `?` of the target. -/
def AsksForNothing (l : RequestLine) : Prop :=
  (l.method.map toUpper = str "GET" ∨ l.method.map toUpper = str "HEAD") ∧ (l.target = [] ∨ ∃ q, l.target = 63 :: q)

end RequestLine

namespace HttpContext

/-! ## Header lines -/

/-- The strings whose `back()` `ParseHttpHead` calls. -/
def parseHeadBacks (line : Bytes) : List Bytes := [line, popBack lf line]

def headLoopBacks : Nat → HttpContext → Bytes → List Bytes
  | 0, _, _ => []
  | fuel + 1, ctx, buf =>
    let (line, buf) := popLine lf buf
    if line.length = 0 then []
    else if maxLine < line.length then []
    else if line = str "\n" ∨ line = str "\r\n" then []
    else
      parseHeadBacks line ++ match ctx.parseHttpHead line with
        | (_, false) => []
        | (ctx, true) => headLoopBacks fuel ctx buf

def headBacks (ctx : HttpContext) (buf : Bytes) : List Bytes :=
  if ctx.recvStatu ≠ .recvHttpHead then [] else headLoopBacks (buf.length + 1) ctx buf

/-- Those of `RecvHttpRequest`. -/
def recvBacks (ctx : HttpContext) (buf : Bytes) : List Bytes :=
  match ctx.recvStatu with
  | .recvHttpLine =>
    let (ctx, buf) := ctx.recvHttpLine buf
    ctx.headBacks buf
  | .recvHttpHead => ctx.headBacks buf
  | .recvHttpBody | .recvHttpError | .recvHttpOver => []

/-- A line ends in a line feed, and more than that is left of one that is not
blank. -/
theorem parseHeadBacks_ne_nil {buf : Bytes} (h₀ : (popLine lf buf).1.length ≠ 0) (hb : (popLine lf buf).1 ≠ str "\n") :
    ∀ s ∈ parseHeadBacks (popLine lf buf).1, s ≠ [] := by
  have hne : (popLine lf buf).1 ≠ [] := fun e => h₀ (List.length_eq_zero_iff.mpr e)
  have hm : lf ∈ buf := by
    by_contra hm
    exact hne (popLine_fst_eq_nil.mpr hm)
  obtain ⟨l, r, rfl, hl⟩ := List.eq_append_cons_of_mem hm
  rw [popLine_append hl] at hb ⊢
  have hback : popBack lf (l ++ [lf]) = l := by
    rw [popBack, List.getLast?_concat, if_pos rfl, List.dropLast_concat]
  simp only [parseHeadBacks, hback, List.mem_cons, List.not_mem_nil, or_false]
  rintro s (rfl | rfl)
  · simp
  · rintro rfl
    exact hb rfl

theorem headLoopBacks_ne_nil (fuel : Nat) : ∀ (ctx : HttpContext) (buf : Bytes),
    ∀ s ∈ headLoopBacks fuel ctx buf, s ≠ [] := by
  induction fuel with
  | zero => exact fun _ _ s hs => absurd hs List.not_mem_nil
  | succ fuel ih =>
    intro ctx buf s hs
    unfold headLoopBacks at hs
    simp only at hs
    split at hs
    · exact absurd hs List.not_mem_nil
    · next h₀ =>
      split at hs
      · exact absurd hs List.not_mem_nil
      · split at hs
        · exact absurd hs List.not_mem_nil
        · next hb =>
          rcases List.mem_append.mp hs with hs | hs
          · exact parseHeadBacks_ne_nil h₀ (fun e => hb (.inl e)) s hs
          · split at hs
            · exact absurd hs List.not_mem_nil
            · exact ih _ _ s hs

theorem headBacks_ne_nil (ctx : HttpContext) (buf : Bytes) : ∀ s ∈ ctx.headBacks buf, s ≠ [] := by
  intro s hs
  unfold headBacks at hs
  split at hs
  · exact absurd hs List.not_mem_nil
  · exact headLoopBacks_ne_nil _ _ _ s hs

/-- Whatever the context and the bytes, `ParseHttpHead` looks at no empty
string. -/
theorem recvBacks_ne_nil (ctx : HttpContext) (buf : Bytes) : ∀ s ∈ ctx.recvBacks buf, s ≠ [] := by
  intro s hs
  unfold recvBacks at hs
  split at hs
  · exact headBacks_ne_nil _ _ s hs
  · exact headBacks_ne_nil _ _ s hs
  all_goals exact absurd hs List.not_mem_nil

/-! ## Request lines -/

/-- The request that is being received began with the line `l`. -/
inductive OpenedBy (l : RequestLine) : HttpContext → Prop where
  | line {ctx ctx' : HttpContext} {buf buf' : Bytes} : ctx.recvStatu = .recvHttpLine → l.Matches →
      (popLine lf buf).1 = l.text → ctx.recvHttpRequest buf = .ok (ctx', buf') → ctx'.respStatu < 400 →
      OpenedBy l ctx'
  | more {ctx ctx' : HttpContext} {buf buf' : Bytes} : OpenedBy l ctx → ctx.recvStatu ≠ .recvHttpLine →
      ctx.recvHttpRequest buf = .ok (ctx', buf') → ctx'.respStatu < 400 → OpenedBy l ctx'

/-- The request has the method and the path of the line. -/
def OfLine (l : RequestLine) (r : HttpRequest) : Prop :=
  r.method = l.method.map toUpper ∧ r.path = urlDecode false l.path

variable {l : RequestLine} {ctx : HttpContext}

theorem ofLine_carried : Carried (OfLine l) := ⟨fun _ _ h => h, fun _ _ h => h⟩

theorem ofLine_parseHttpLine (h : l.Matches) (ctx : HttpContext) : OfLine l (ctx.parseHttpLine l.text).1.request := by
  rw [RequestLine.parseHttpLine_text h]
  exact ofLine_carried.setParams _ _ ⟨rfl, rfl⟩

theorem OpenedBy.ofLine (h : OpenedBy l ctx) : OfLine l ctx.request := by
  induction h with
  | @line ctx ctx' buf buf' hs hm ht e hr =>
    have h₀ : (popLine lf buf).1.length ≠ 0 := by
      rw [ht, RequestLine.text, List.length_append, List.length_cons]
      omega
    by_cases hl : maxLine < (popLine lf buf).1.length
    · rw [recvHttpRequest_line_fail hs ((takesLine_line hs).tooLong (.inr ⟨h₀, hl⟩))] at e
      cases e
      exact absurd hr (by show ¬ (414 : Int) < 400; decide)
    · refine ofLine_carried.recvHttpRequest_line (fun _ h => h) hs ?_ e
      have hp := ofLine_parseHttpLine hm ctx
      rw [recvHttpLine_eq hs, if_neg h₀, if_neg hl, ht]
      split
      · next e =>
        rw [e] at hp
        exact hp
      · next e =>
        rw [e] at hp
        exact hp
  | more _ hs e _ ih => exact ofLine_carried.recvHttpRequest_of_ne (fun _ h => h) hs ih e

theorem openedBy_step {ctx' : HttpContext} {buf buf' : Bytes}
    (h : ctx.recvStatu ≠ .recvHttpLine → ∃ l, OpenedBy l ctx) (e : ctx.recvHttpRequest buf = .ok (ctx', buf'))
    (hr : ctx'.respStatu < 400) (hs' : ctx'.recvStatu ≠ .recvHttpLine) : ∃ l, OpenedBy l ctx' := by
  by_cases hs : ctx.recvStatu = .recvHttpLine
  · rcases recvHttpLine_cases hs buf with hl | ⟨ctx₁, statu, b, h400, hl⟩ | ⟨request, b, -, hp, -⟩
    · rw [recvHttpRequest_line_more hs hl] at e
      cases e
      exact absurd hs hs'
    · rw [recvHttpRequest_line_fail hs hl] at e
      cases e
      exact absurd h400 (Int.not_le.mpr hr)
    · cases hc : requestLine.fullMatch (popLine lf buf).1 with
      | none =>
        rw [parseHttpLine, hc] at hp
        cases congrArg Prod.snd hp
      | some captures =>
        obtain ⟨l, hm, ht, -⟩ := RequestLine.denotes_iff.mp (.of_fullMatch hc)
        exact ⟨l, .line hs hm ht.symm e hr⟩
  · obtain ⟨l, hl⟩ := h hs
    exact ⟨l, .more hl hs e hr⟩

/-- Past the request line there is one. -/
theorem Waits.openedBy (h : ctx.Waits) (hs : ctx.recvStatu ≠ .recvHttpLine) : ∃ l, OpenedBy l ctx := by
  induction h with
  | new => exact absurd rfl hs
  | more _ e hr _ ih => exact openedBy_step ih e hr hs

theorem urlDecode_eq_nil {url : Bytes} : urlDecode false url = [] ↔ url = [] := by
  constructor
  · intro h
    match url with
    | [] => rfl
    | [c] => cases h
    | [c, d] => cases h
    | c :: d :: e :: url =>
      rw [urlDecode] at h
      split at h
      · cases h
      · split at h <;> cases h
  · rintro rfl
    rfl

theorem path_eq_nil_iff (l : RequestLine) : l.path = [] ↔ l.target = [] ∨ ∃ q, l.target = 63 :: q := by
  rw [RequestLine.path]
  cases l.target with
  | nil => simp
  | cons c t =>
    by_cases hc : c = 63
    · simp [hc]
    · simp [hc]

end HttpContext

namespace HttpServer

variable (srv : HttpServer)

/-! ## Paths -/

/-- The strings whose `back()` `IsFileHandler` calls. -/
def isFileBacks (req : HttpRequest) : List Bytes :=
  if srv.baseDir = [] then []
  else if req.method ≠ str "GET" ∧ req.method ≠ str "HEAD" then []
  else if validPath req.path = false then []
  else [req.path]

/-- Those of `Route`, with the one of `FileHandler`. -/
def routeBacks (t : Nat) (req : HttpRequest) : List Bytes :=
  srv.isFileBacks req ++ if srv.isFileHandler t req then [req.path] else []

/-- Those of a pass of the loop of `OnMessage`. -/
def passBacks (c : HttpConnection) : List Bytes :=
  if c.inBuffer = [] then []
  else
    c.context.recvBacks c.inBuffer ++ match c.context.recvHttpRequest c.inBuffer with
      | .error _ => []
      | .ok (context, _) =>
        if 400 ≤ context.respStatu then []
        else if context.recvStatu ≠ .recvHttpOver then []
        else srv.routeBacks (served c.log) context.request

/-- The pass at `c` hands a request to `Route`, which began with the line
`l`. -/
inductive Hands (c : HttpConnection) (l : RequestLine) : Prop where
  | intro {context : HttpContext} {inBuffer : Bytes} : c.inBuffer ≠ [] →
      c.context.recvHttpRequest c.inBuffer = .ok (context, inBuffer) → context.respStatu < 400 →
      context.recvStatu = .recvHttpOver → HttpContext.OpenedBy l context → Hands c l

variable {srv}

theorem validPath_nil : validPath [] = true := by decide

theorem routeBacks_iff (hb : srv.baseDir ≠ []) (t : Nat) (req : HttpRequest) :
    (∀ s ∈ srv.routeBacks t req, s ≠ []) ↔
      (req.method = str "GET" ∨ req.method = str "HEAD" → req.path ≠ []) := by
  constructor
  · intro h hm hp
    refine h [] ?_ rfl
    rw [routeBacks, isFileBacks, if_neg hb, if_neg (by tauto), hp, validPath_nil]
    exact List.mem_cons_self
  · intro h s hs
    rcases List.mem_append.mp hs with hs | hs
    · rw [isFileBacks, if_neg hb] at hs
      split at hs
      · exact absurd hs List.not_mem_nil
      · next hm =>
        split at hs
        · exact absurd hs List.not_mem_nil
        · obtain rfl := List.mem_singleton.mp hs
          exact h (by tauto)
    · split at hs
      · next hf =>
        obtain rfl := List.mem_singleton.mp hs
        refine h ?_
        by_contra hm
        rw [isFileHandler, if_neg hb, if_pos (by tauto)] at hf
        cases hf
      · exact absurd hs List.not_mem_nil

theorem passBacks_iff (hb : srv.baseDir ≠ []) {c : HttpConnection} (hw : c.context.Waits) :
    (∀ s ∈ srv.passBacks c, s ≠ []) ↔ ∀ l, Hands c l → ¬ l.AsksForNothing := by
  constructor
  · rintro h l ⟨hne, e, hr, ho, hl⟩ ⟨hm, ht⟩
    obtain ⟨em, ep⟩ := hl.ofLine
    rw [← em] at hm
    refine (routeBacks_iff hb (served c.log) _).mp (fun s hs => h s ?_) hm ?_
    · rw [passBacks, if_neg hne, e]
      simp only [if_neg (Int.not_le.mpr hr), if_neg (not_not_intro ho)]
      exact List.mem_append_right _ hs
    · rw [ep, HttpContext.urlDecode_eq_nil]
      exact (HttpContext.path_eq_nil_iff l).mpr ht
  · intro h s hs
    unfold passBacks at hs
    split at hs
    · exact absurd hs List.not_mem_nil
    · next hne =>
      rcases List.mem_append.mp hs with hs | hs
      · exact HttpContext.recvBacks_ne_nil _ _ s hs
      · split at hs
        · exact absurd hs List.not_mem_nil
        · next context inBuffer e =>
          split at hs
          · exact absurd hs List.not_mem_nil
          · next hr =>
            split at hs
            · exact absurd hs List.not_mem_nil
            · next ho =>
              have hr := Int.not_le.mp hr
              have ho := Decidable.not_not.mp ho
              obtain ⟨l, hl⟩ := HttpContext.openedBy_step hw.openedBy e hr (by rw [ho]; decide)
              obtain ⟨em, ep⟩ := hl.ofLine
              refine (routeBacks_iff hb _ _).mpr (fun hm hp => ?_) s hs
              rw [em] at hm
              rw [ep, HttpContext.urlDecode_eq_nil, HttpContext.path_eq_nil_iff] at hp
              exact h l (.intro hne e hr ho hl) ⟨hm, hp⟩

/-! ## Every stream -/

/-- With a base directory, for every stream in any chunks: `back()` is called
on no empty string if and only if no request that is handed to `Route` began
with a `GET` or `HEAD` line that has nothing before the `?` of its target. -/
theorem backs_iff (srv : HttpServer) (hb : srv.baseDir ≠ []) (c : HttpConnection) (hw : c.context.Waits)
    (chunks : List Bytes) : (∀ d, srv.PassOf c chunks d → ∀ s ∈ srv.passBacks d, s ≠ []) ↔
      ∀ d, srv.PassOf c chunks d → ∀ l, Hands d l → ¬ l.AsksForNothing :=
  forall₂_congr fun _ hd => passBacks_iff hb (hd.waits hw)

theorem backs_iff_file : (∀ d, wwwroot.PassOf (new 1 true .new none) [str "GET /a HT", str "TP/1.1\r\n\r\n"] d →
    ∀ s ∈ wwwroot.passBacks d, s ≠ []) ↔
      ∀ d, wwwroot.PassOf (new 1 true .new none) [str "GET /a HT", str "TP/1.1\r\n\r\n"] d → ∀ l, Hands d l →
        ¬ l.AsksForNothing :=
  backs_iff wwwroot (by decide) _ .new _

/-- Two spaces, and nothing between them. -/
theorem emptyPath_back : ¬ ∀ (srv : HttpServer) (chunks : List Bytes), srv.baseDir ≠ [] →
    ∀ d, srv.PassOf (new 1 true .new none) chunks d → ∀ s ∈ srv.passBacks d, s ≠ [] := by
  intro h
  have hp : wwwroot.PassOf (new 1 true .new none) [str "GET  HTTP/1.1\r\n\r\n"]
      { (new 1 true .new none) with inBuffer := str "GET  HTTP/1.1\r\n\r\n" } :=
    ⟨[], _, [], _, rfl, rfl, .refl⟩
  exact h wwwroot _ (by decide) _ hp [] (by decide +kernel) rfl

end HttpServer

end Mudou
