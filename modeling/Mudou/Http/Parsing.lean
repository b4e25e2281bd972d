import Mudou.Http.Context
import Mudou.Lib.Resumable

/-!
# Bytes that arrive later

What `RecvHttpRequest` reports about a buffer, it reports about every longer
one (`recvHttpRequest_append`): a complete line stays complete, and a line
that is too long without its end is too long with it, so that the two tests
for 414 agree. The function stops in each of its three states with what it
has consumed taken off the buffer, and goes on from there.
-/

namespace Mudou.HttpContext

open Fifo Util

variable {ctx : HttpContext}

/-! ## Lines -/

/-- A parsed line leaves the state to the caller, or is a bad request. -/
theorem setParams_cases (query : List Bytes) : ∀ ctx : HttpContext,
    (∃ request, setParams query ctx = ({ ctx with request }, true)) ∨
      ∃ request, setParams query ctx = ({ ctx with request }.fail 400, false) := by
  induction query with
  | nil => exact fun ctx => .inl ⟨ctx.request, rfl⟩
  | cons piece query ih =>
    intro ctx
    rw [setParams]
    split
    · exact .inr ⟨ctx.request, rfl⟩
    · rcases ih _ with ⟨request, e⟩ | ⟨request, e⟩
      · exact .inl ⟨request, e⟩
      · exact .inr ⟨request, e⟩

theorem parseHttpLine_cases (ctx : HttpContext) (line : Bytes) :
    (∃ request, ctx.parseHttpLine line = ({ ctx with request }, true)) ∨
      ∃ request, ctx.parseHttpLine line = ({ ctx with request }.fail 400, false) := by
  rw [parseHttpLine]
  split
  · exact .inr ⟨ctx.request, rfl⟩
  · rcases setParams_cases _ _ with ⟨request, e⟩ | ⟨request, e⟩
    · exact .inl ⟨request, e⟩
    · exact .inr ⟨request, e⟩

theorem parseHttpHead_cases (ctx : HttpContext) (line : Bytes) :
    (∃ request, ctx.parseHttpHead line = ({ ctx with request }, true)) ∨
      ctx.parseHttpHead line = (ctx.fail 400, false) := by
  rw [parseHttpHead]
  split
  · exact .inr rfl
  · exact .inl ⟨_, rfl⟩

/-- A property of requests that parameters and headers leave. -/
structure Carried (P : HttpRequest → Prop) : Prop where
  param {r : HttpRequest} (key val : Bytes) : P r → P (r.setParam key val)
  header {r : HttpRequest} (key val : Bytes) : P r → P (r.setHeader key val)

/-- The parts of a request line leave it, too. -/
def LineCarried (P : HttpRequest → Prop) : Prop :=
  ∀ {r : HttpRequest} {line : Bytes} {captures : List (Nat × Bytes)} (method path : Bytes),
    requestLine.fullMatch line = some captures → P r →
      P { r with method, path, version := Regex.capture captures 4 }

namespace Carried

variable {P : HttpRequest → Prop} (hP : Carried P)
include hP

theorem setParams (query : List Bytes) : ∀ ctx : HttpContext, P ctx.request →
    P (HttpContext.setParams query ctx).1.request := by
  induction query with
  | nil => exact fun _ h => h
  | cons piece query ih =>
    intro ctx h
    rw [HttpContext.setParams]
    split
    · exact h
    · exact ih _ (hP.param _ _ h)

theorem parseHttpLine (hl : LineCarried P) (h : P ctx.request) (line : Bytes) :
    P (ctx.parseHttpLine line).1.request := by
  rw [HttpContext.parseHttpLine]
  split
  · exact h
  · next captures hm => exact hP.setParams _ _ (hl _ _ hm h)

theorem recvHttpLine (hl : LineCarried P) (h : P ctx.request) (buf : Bytes) :
    P (ctx.recvHttpLine buf).1.request := by
  unfold HttpContext.recvHttpLine
  split
  · exact h
  · simp only
    split
    · split <;> exact h
    · split
      · exact h
      · have hp := hP.parseHttpLine hl h (popLine lf buf).1
        split
        · next e =>
          rw [e] at hp
          exact hp
        · next e =>
          rw [e] at hp
          exact hp

theorem parseHttpHead (h : P ctx.request) (line : Bytes) : P (ctx.parseHttpHead line).1.request := by
  unfold HttpContext.parseHttpHead
  simp only
  split
  · exact h
  · exact hP.header _ _ h

theorem recvHeadLoop (fuel : Nat) : ∀ (ctx : HttpContext) (buf : Bytes), P ctx.request →
    P (HttpContext.recvHeadLoop fuel ctx buf).1.request := by
  induction fuel with
  | zero => exact fun _ _ h => h
  | succ fuel ih =>
    intro ctx buf h
    unfold HttpContext.recvHeadLoop
    simp only
    split
    · split <;> exact h
    · split
      · exact h
      · split
        · exact h
        · have hp := hP.parseHttpHead h (popLine lf buf).1
          split
          · next e =>
            rw [e] at hp
            exact hp
          · next e =>
            rw [e] at hp
            exact ih _ _ hp

theorem recvHttpHead (h : P ctx.request) (buf : Bytes) : P (ctx.recvHttpHead buf).1.request := by
  unfold HttpContext.recvHttpHead
  split
  · exact h
  · exact hP.recvHeadLoop _ _ _ h

end Carried

/-! ## Equations of the states -/

theorem recvHttpRequest_head (h : ctx.recvStatu = .recvHttpHead) (buf : Bytes) :
    ctx.recvHttpRequest buf = (ctx.recvHttpHead buf).1.recvHttpBody (ctx.recvHttpHead buf).2 := by
  rw [recvHttpRequest, h]

theorem recvHttpRequest_body (h : ctx.recvStatu = .recvHttpBody) (buf : Bytes) :
    ctx.recvHttpRequest buf = ctx.recvHttpBody buf := by
  rw [recvHttpRequest, h]

theorem recvHttpHead_of_ne (h : ctx.recvStatu ≠ .recvHttpHead) (buf : Bytes) :
    ctx.recvHttpHead buf = (ctx, buf) := by
  rw [recvHttpHead, if_pos h]

theorem recvHttpBody_of_ne (h : ctx.recvStatu ≠ .recvHttpBody) (buf : Bytes) :
    ctx.recvHttpBody buf = .ok (ctx, buf) := by
  rw [recvHttpBody, if_pos h]

/-- Fuel beyond the length of the buffer does not matter. -/
theorem recvHeadLoop_fuel (n : Nat) : ∀ (m : Nat) (ctx : HttpContext) (buf : Bytes), buf.length < n →
    buf.length < m → recvHeadLoop n ctx buf = recvHeadLoop m ctx buf := by
  induction n with
  | zero => exact fun _ _ _ h => absurd h (Nat.not_lt_zero _)
  | succ n ih =>
    intro m ctx buf hn hm
    cases m with
    | zero => exact absurd hm (Nat.not_lt_zero _)
    | succ m =>
      rw [recvHeadLoop, recvHeadLoop]
      simp only
      by_cases h0 : (popLine lf buf).1.length = 0
      · rw [if_pos h0, if_pos h0]
      · have hlen := length_popLine_snd_lt h0
        rw [if_neg h0, if_neg h0]
        split
        · rfl
        · split
          · rfl
          · rcases parseHttpHead_cases ctx (popLine lf buf).1 with ⟨request, e⟩ | e
            · rw [e]
              exact ih m _ _ (by omega) (by omega)
            · rw [e]

theorem recvHttpHead_loop (h : ctx.recvStatu = .recvHttpHead) {buf : Bytes} {n : Nat} (hn : buf.length < n) :
    ctx.recvHttpHead buf = recvHeadLoop n ctx buf := by
  rw [recvHttpHead, if_neg (not_not_intro h)]
  exact recvHeadLoop_fuel _ _ _ _ (Nat.lt_succ_self _) hn

/-- One line of the head. -/
theorem recvHttpHead_eq (h : ctx.recvStatu = .recvHttpHead) (buf : Bytes) :
    ctx.recvHttpHead buf =
      if (popLine lf buf).1.length = 0 then
        if maxLine < (popLine lf buf).2.length then (ctx.fail 414, (popLine lf buf).2)
        else (ctx, (popLine lf buf).2)
      else if maxLine < (popLine lf buf).1.length then (ctx.fail 414, (popLine lf buf).2)
      else if (popLine lf buf).1 = str "\n" ∨ (popLine lf buf).1 = str "\r\n" then
        ({ ctx with recvStatu := .recvHttpBody }, (popLine lf buf).2)
      else
        match ctx.parseHttpHead (popLine lf buf).1 with
        | (ctx, false) => (ctx, (popLine lf buf).2)
        | (ctx, true) => ctx.recvHttpHead (popLine lf buf).2 := by
  rw [recvHttpHead, if_neg (not_not_intro h), recvHeadLoop]
  simp only
  by_cases h0 : (popLine lf buf).1.length = 0
  · rw [if_pos h0, if_pos h0]
  · have hr := length_popLine_snd_lt h0
    rw [if_neg h0, if_neg h0]
    rcases parseHttpHead_cases ctx (popLine lf buf).1 with ⟨request, e⟩ | e
    · simp only [e]
      rw [recvHttpHead_loop (show { ctx with request }.recvStatu = _ from h) hr]
    · simp only [e]

/-! ## Later bytes -/

/-- What is reported about a buffer is reported about every longer one. -/
def StableAt (ctx : HttpContext) (buf : Bytes) : Prop := ∀ x,
  match ctx.recvHttpRequest buf with
  | .error e => ctx.recvHttpRequest (buf ++ x) = .error e
  | .ok (ctx', buf') =>
    if 400 ≤ ctx'.respStatu then ∃ buf'', ctx.recvHttpRequest (buf ++ x) = .ok (ctx', buf'')
    else if ctx'.recvStatu = .recvHttpOver then ctx.recvHttpRequest (buf ++ x) = .ok (ctx', buf' ++ x)
    else ctx.recvHttpRequest (buf ++ x) = ctx'.recvHttpRequest (buf' ++ x)

/-- The function has stopped in a state, with nothing reported yet. -/
theorem StableAt.of_more {buf buf' : Bytes} {ctx' : HttpContext} (hr : ctx'.respStatu < 400)
    (ho : ctx'.recvStatu ≠ .recvHttpOver) (h : ctx.recvHttpRequest buf = .ok (ctx', buf'))
    (hx : ∀ x, ctx.recvHttpRequest (buf ++ x) = ctx'.recvHttpRequest (buf' ++ x)) : StableAt ctx buf := by
  intro x
  rw [h]
  simp only [if_neg (Int.not_le.mpr hr), if_neg ho]
  exact hx x

theorem StableAt.of_fail {buf : Bytes} {ctx' : HttpContext} (hr : 400 ≤ ctx'.respStatu)
    (hx : ∀ x, ∃ buf', ctx.recvHttpRequest (buf ++ x) = .ok (ctx', buf')) : StableAt ctx buf := by
  intro x
  obtain ⟨buf', h⟩ := hx []
  rw [List.append_nil] at h
  rw [h]
  simp only [if_pos hr]
  exact hx x

/-- The function goes on with what it has consumed taken off. -/
theorem StableAt.of_eq {buf buf' : Bytes} {ctx' : HttpContext}
    (hx : ∀ x, ctx.recvHttpRequest (buf ++ x) = ctx'.recvHttpRequest (buf' ++ x))
    (h : StableAt ctx' buf') : StableAt ctx buf := by
  intro x
  have h₀ := hx []
  rw [List.append_nil, List.append_nil] at h₀
  rw [h₀, hx x]
  exact h x

/-- The body with a length other than 0. -/
theorem recvHttpBody_of_length (h : ctx.recvStatu = .recvHttpBody) {n : Nat} (hn : n ≠ 0)
    (hc : ctx.request.contentLength = .ok n) (buf : Bytes) :
    ctx.recvHttpBody buf =
      let realLen := HttpRequest.sizeT (n - ctx.request.body.length)
      if realLen ≤ buf.length then
        .ok ({ ctx.appendBody (buf.take realLen) with recvStatu := .recvHttpOver }, buf.drop realLen)
      else .ok (ctx.appendBody buf, []) := by
  rw [recvHttpBody, if_neg (not_not_intro h), hc]
  exact if_neg hn

theorem recvHttpBody_error (h : ctx.recvStatu = .recvHttpBody) {e : StolError}
    (hc : ctx.request.contentLength = .error e) (buf : Bytes) : ctx.recvHttpBody buf = .error e := by
  rw [recvHttpBody, if_neg (not_not_intro h), hc]

/-- What is missing of the body shrinks by what has arrived. -/
theorem sizeT_appendBody {n : Nat} {buf : Bytes}
    (h : buf.length < HttpRequest.sizeT (n - ctx.request.body.length)) :
    HttpRequest.sizeT (n - (ctx.appendBody buf).request.body.length) =
      HttpRequest.sizeT (n - ctx.request.body.length) - buf.length := by
  rw [appendBody]
  simp only [HttpRequest.sizeT, List.length_append] at h ⊢
  omega

theorem stableAt_body (h : ctx.recvStatu = .recvHttpBody) (hr : ctx.respStatu < 400) (buf : Bytes) :
    StableAt ctx buf := by
  have eq := recvHttpRequest_body h
  cases hc : ctx.request.contentLength with
  | error e =>
    intro x
    rw [eq, recvHttpBody_error h hc]
    exact (eq _).trans (recvHttpBody_error h hc _)
  | ok n =>
    by_cases hn : n = 0
    · have hb : ∀ b, ctx.recvHttpBody b = .ok ({ ctx with recvStatu := .recvHttpOver }, b) := by
        intro b
        rw [recvHttpBody, if_neg (not_not_intro h), hc]
        exact if_pos hn
      intro x
      rw [eq, hb]
      simp only [if_neg (Int.not_le.mpr hr), if_true]
      exact (eq _).trans (hb _)
    · have hb := recvHttpBody_of_length h hn hc
      simp only at hb
      by_cases hl : HttpRequest.sizeT (n - ctx.request.body.length) ≤ buf.length
      · intro x
        rw [eq, hb, if_pos hl]
        simp only [appendBody, if_neg (Int.not_le.mpr hr), if_true]
        rw [eq, hb, if_pos (by rw [List.length_append]; omega),
          List.take_append_of_le_length hl, List.drop_append_of_le_length hl]
        rfl
      · have ha : (ctx.appendBody buf).recvStatu = .recvHttpBody := h
        have hb' := recvHttpBody_of_length ha hn (show _ = _ from hc)
        simp only [sizeT_appendBody (Nat.lt_of_not_le hl)] at hb'
        refine .of_more (show (ctx.appendBody buf).respStatu < 400 from hr) (by rw [ha]; decide)
          ((eq _).trans ((hb _).trans (if_neg hl))) fun x => ?_
        rw [eq, hb, recvHttpRequest_body ha, hb', List.length_append, List.nil_append]
        by_cases hx : HttpRequest.sizeT (n - ctx.request.body.length) ≤ buf.length + x.length
        · rw [if_pos hx, if_pos (by omega), List.take_append, List.drop_append,
            List.take_of_length_le (by omega), List.drop_of_length_le (by omega)]
          simp [appendBody, List.append_assoc]
        · rw [if_neg hx, if_neg (by omega)]
          simp [appendBody, List.append_assoc]

theorem popLine_ne_zero {buf : Bytes} (h : lf ∈ buf) : (popLine lf buf).1.length ≠ 0 := by
  rw [ne_eq, List.length_eq_zero_iff, popLine_fst_eq_nil]
  exact not_not_intro h

/-! ## The next line -/

/-- The two tests for 414. -/
def TooLong (buf : Bytes) : Prop :=
  (popLine lf buf).1.length = 0 ∧ maxLine < (popLine lf buf).2.length ∨
    (popLine lf buf).1.length ≠ 0 ∧ maxLine < (popLine lf buf).1.length

/-- A line that is too long without its end is too long with it. -/
theorem tooLong_append {buf : Bytes} (h : lf ∉ buf) (hl : maxLine < buf.length) (x : Bytes) :
    TooLong (buf ++ x) := by
  by_cases hx : lf ∈ x
  · have hlen := length_lt_popLine_fst h hx
    exact .inr ⟨by omega, by omega⟩
  · rw [TooLong, popLine_of_not_mem fun hm => (List.mem_append.mp hm).elim h hx]
    exact .inl ⟨rfl, by rw [List.length_append]; omega⟩

/-- What `RecvHttpLine` and `RecvHttpHead` do before they look into a line. -/
def takeLine (ctx : HttpContext) (k : Bytes → Bytes → HttpContext × Bytes) (buf : Bytes) :
    HttpContext × Bytes :=
  if (popLine lf buf).1.length = 0 then
    if maxLine < (popLine lf buf).2.length then (ctx.fail 414, (popLine lf buf).2)
    else (ctx, (popLine lf buf).2)
  else if maxLine < (popLine lf buf).1.length then (ctx.fail 414, (popLine lf buf).2)
  else k (popLine lf buf).1 (popLine lf buf).2

/-- `RecvHttpRequest` begins with `f`, which hands the next line to `k`. -/
structure TakesLine (ctx : HttpContext) (f : Bytes → HttpContext × Bytes)
    (k : Bytes → Bytes → HttpContext × Bytes) : Prop where
  eq (buf : Bytes) : f buf = ctx.takeLine k buf
  fail {buf buf' : Bytes} {ctx' : HttpContext} {statu : Int} :
    f buf = (ctx'.fail statu, buf') → ctx.recvHttpRequest buf = .ok (ctx'.fail statu, buf')
  more {buf : Bytes} : f buf = (ctx, buf) → ctx.recvHttpRequest buf = .ok (ctx, buf)

namespace TakesLine

variable {f : Bytes → HttpContext × Bytes} {k : Bytes → Bytes → HttpContext × Bytes} {buf : Bytes}

theorem tooLong (h : TakesLine ctx f k) (hl : TooLong buf) : f buf = (ctx.fail 414, (popLine lf buf).2) := by
  rw [h.eq, takeLine]
  rcases hl with ⟨h₀, hl⟩ | ⟨h₀, hl⟩
  · rw [if_pos h₀, if_pos hl]
  · rw [if_neg h₀, if_pos hl]

theorem taken (h : TakesLine ctx f k) (hm : lf ∈ buf) (hl : ¬ maxLine < (popLine lf buf).1.length) (x : Bytes) :
    f (buf ++ x) = k (popLine lf buf).1 ((popLine lf buf).2 ++ x) := by
  rw [h.eq, takeLine, popLine_append_right hm, if_neg (popLine_ne_zero hm), if_neg hl]

theorem waits (h : TakesLine ctx f k) (hm : lf ∉ buf) (hl : ¬ maxLine < buf.length) : f buf = (ctx, buf) := by
  rw [h.eq, takeLine, popLine_of_not_mem hm, if_pos List.length_nil, if_neg hl]

/-- An error is reported whatever follows. -/
theorem refused (h : TakesLine ctx f k) (ctx' : HttpContext) {statu : Int} (hs : 400 ≤ statu)
    (hx : ∀ x, ∃ buf', f (buf ++ x) = (ctx'.fail statu, buf')) : StableAt ctx buf := by
  have hs' : 400 ≤ (ctx'.fail statu).respStatu := hs
  refine .of_fail hs' fun x => ?_
  obtain ⟨buf', e⟩ := hx x
  exact ⟨buf', h.fail e⟩

/-- It remains to look at the line that has been taken. -/
theorem stableAt (h : TakesLine ctx f k) (hr : ctx.respStatu < 400) (ho : ctx.recvStatu ≠ .recvHttpOver)
    (hk : (popLine lf buf).1.length ≠ 0 → (∀ x, f (buf ++ x) = k (popLine lf buf).1 ((popLine lf buf).2 ++ x)) →
      StableAt ctx buf) : StableAt ctx buf := by
  have h414 : (400 : Int) ≤ 414 := by decide
  by_cases hm : lf ∈ buf
  · by_cases hl : maxLine < (popLine lf buf).1.length
    · refine h.refused ctx h414 fun x => ⟨_, h.tooLong (.inr ?_)⟩
      rw [popLine_append_right hm]
      exact ⟨popLine_ne_zero hm, hl⟩
    · exact hk (popLine_ne_zero hm) (h.taken hm hl)
  · by_cases hl : maxLine < buf.length
    · exact h.refused ctx h414 fun x => ⟨_, h.tooLong (tooLong_append hm hl x)⟩
    · exact .of_more hr ho (h.more (h.waits hm hl)) fun x => rfl

end TakesLine

/-! ## The head -/

/-- `RecvHttpHead` with a line. -/
def headLine (ctx : HttpContext) (line rest : Bytes) : HttpContext × Bytes :=
  if line = str "\n" ∨ line = str "\r\n" then ({ ctx with recvStatu := .recvHttpBody }, rest)
  else
    match ctx.parseHttpHead line with
    | (ctx, false) => (ctx, rest)
    | (ctx, true) => ctx.recvHttpHead rest

theorem takesLine_head (h : ctx.recvStatu = .recvHttpHead) : TakesLine ctx ctx.recvHttpHead ctx.headLine where
  eq := recvHttpHead_eq h
  fail {_ _ ctx' statu} e := by
    have he : (ctx'.fail statu).recvStatu = .recvHttpError := rfl
    rw [recvHttpRequest_head h, e]
    exact recvHttpBody_of_ne (by rw [he]; decide) _
  more e := by
    rw [recvHttpRequest_head h, e]
    exact recvHttpBody_of_ne (by rw [h]; decide) _

theorem stableAt_head (n : Nat) : ∀ {ctx : HttpContext} {buf : Bytes}, buf.length ≤ n →
    ctx.recvStatu = .recvHttpHead → ctx.respStatu < 400 → StableAt ctx buf := by
  induction n using Nat.strong_induction_on with
  | _ n ih =>
    intro ctx buf hn h hr
    have ht := takesLine_head h
    refine ht.stableAt hr (by rw [h]; decide) fun h₀ hx => ?_
    by_cases hb : (popLine lf buf).1 = str "\n" ∨ (popLine lf buf).1 = str "\r\n"
    · have hb' : { ctx with recvStatu := .recvHttpBody }.recvStatu = .recvHttpBody := rfl
      have hs : StableAt { ctx with recvStatu := .recvHttpBody } (popLine lf buf).2 := stableAt_body hb' hr _
      refine .of_eq (fun x => ?_) hs
      rw [recvHttpRequest_head h, hx, headLine, if_pos hb]
      rfl
    · have hlen := length_popLine_snd_lt h₀
      rcases parseHttpHead_cases ctx (popLine lf buf).1 with ⟨request, e⟩ | e
      · have hs : StableAt { ctx with request } (popLine lf buf).2 :=
          ih (popLine lf buf).2.length (by omega) (Nat.le_refl _) h hr
        refine .of_eq (fun x => ?_) hs
        rw [recvHttpRequest_head h, hx, headLine, if_neg hb, e]
        exact (recvHttpRequest_head (show { ctx with request }.recvStatu = _ from h) _).symm
      · refine ht.refused ctx (Int.le_refl 400) fun x => ⟨(popLine lf buf).2 ++ x, ?_⟩
        rw [hx, headLine, if_neg hb, e]

/-! ## The request line -/

theorem recvHttpRequest_line (h : ctx.recvStatu = .recvHttpLine) (buf : Bytes) :
    ctx.recvHttpRequest buf =
      ((ctx.recvHttpLine buf).1.recvHttpHead (ctx.recvHttpLine buf).2).1.recvHttpBody
        ((ctx.recvHttpLine buf).1.recvHttpHead (ctx.recvHttpLine buf).2).2 := by
  rw [recvHttpRequest, h]

namespace Carried

variable {P : HttpRequest → Prop} {ctx' : HttpContext} {buf buf' : Bytes} (hP : Carried P)
  (body : ∀ {r : HttpRequest} (b : Bytes), P r → P { r with body := b })
include body

theorem recvHttpBody (h : P ctx.request) (e : ctx.recvHttpBody buf = .ok (ctx', buf')) : P ctx'.request := by
  unfold HttpContext.recvHttpBody at e
  split at e
  · cases e
    exact h
  · split at e
    · cases e
    · simp only at e
      split at e
      · cases e
        exact h
      · split at e <;> cases e <;> exact body _ h

include hP

theorem recvHttpRequest_line (hs : ctx.recvStatu = .recvHttpLine) (h : P (ctx.recvHttpLine buf).1.request)
    (e : ctx.recvHttpRequest buf = .ok (ctx', buf')) : P ctx'.request := by
  rw [HttpContext.recvHttpRequest_line hs] at e
  exact recvHttpBody body (hP.recvHttpHead h _) e

theorem recvHttpRequest_of_ne (hs : ctx.recvStatu ≠ .recvHttpLine) (h : P ctx.request)
    (e : ctx.recvHttpRequest buf = .ok (ctx', buf')) : P ctx'.request := by
  cases hc : ctx.recvStatu with
  | recvHttpLine => exact absurd hc hs
  | recvHttpHead =>
    rw [recvHttpRequest_head hc] at e
    exact recvHttpBody body (hP.recvHttpHead h _) e
  | recvHttpBody =>
    rw [recvHttpRequest_body hc] at e
    exact recvHttpBody body h e
  | recvHttpError | recvHttpOver =>
    rw [HttpContext.recvHttpRequest, hc] at e
    cases e
    exact h

end Carried

theorem recvHttpLine_eq (h : ctx.recvStatu = .recvHttpLine) (buf : Bytes) :
    ctx.recvHttpLine buf =
      if (popLine lf buf).1.length = 0 then
        if maxLine < (popLine lf buf).2.length then (ctx.fail 414, (popLine lf buf).2)
        else (ctx, (popLine lf buf).2)
      else if maxLine < (popLine lf buf).1.length then (ctx.fail 414, (popLine lf buf).2)
      else
        match ctx.parseHttpLine (popLine lf buf).1 with
        | (ctx, false) => (ctx, (popLine lf buf).2)
        | (ctx, true) => ({ ctx with recvStatu := .recvHttpHead }, (popLine lf buf).2) := by
  rw [recvHttpLine]
  exact if_neg (not_not_intro h)

theorem recvHttpLine_cases (h : ctx.recvStatu = .recvHttpLine) (buf : Bytes) :
    ctx.recvHttpLine buf = (ctx, buf) ∨
      (∃ (ctx' : HttpContext) (statu : Int) (b : Bytes), 400 ≤ statu ∧
        ctx.recvHttpLine buf = (ctx'.fail statu, b)) ∨
      ∃ (request : HttpRequest) (b : Bytes), b.length < buf.length ∧
        ctx.parseHttpLine (popLine lf buf).1 = ({ ctx with request }, true) ∧
        ctx.recvHttpLine buf = (⟨ctx.respStatu, .recvHttpHead, request⟩, b) := by
  rw [recvHttpLine_eq h]
  split
  · next h0 =>
    split
    · exact .inr (.inl ⟨ctx, 414, _, by decide, rfl⟩)
    · have hm : lf ∉ buf := fun hm => popLine_ne_zero hm h0
      rw [popLine_of_not_mem hm]
      exact .inl rfl
  · next h0 =>
    split
    · exact .inr (.inl ⟨ctx, 414, _, by decide, rfl⟩)
    · rcases parseHttpLine_cases ctx (popLine lf buf).1 with ⟨request, e⟩ | ⟨request, e⟩
      · rw [e]
        exact .inr (.inr ⟨request, _, length_popLine_snd_lt h0, rfl, rfl⟩)
      · rw [e]
        exact .inr (.inl ⟨_, 400, _, by decide, rfl⟩)

theorem recvHttpRequest_line_fail (h : ctx.recvStatu = .recvHttpLine) {buf buf' : Bytes}
    {ctx' : HttpContext} {statu : Int} (e : ctx.recvHttpLine buf = (ctx'.fail statu, buf')) :
    ctx.recvHttpRequest buf = .ok (ctx'.fail statu, buf') := by
  have he : (ctx'.fail statu).recvStatu = .recvHttpError := rfl
  rw [recvHttpRequest_line h, e]
  simp only
  rw [recvHttpHead_of_ne (by rw [he]; decide)]
  exact recvHttpBody_of_ne (by rw [he]; decide) _

theorem recvHttpRequest_line_more (h : ctx.recvStatu = .recvHttpLine) {buf : Bytes}
    (e : ctx.recvHttpLine buf = (ctx, buf)) : ctx.recvHttpRequest buf = .ok (ctx, buf) := by
  rw [recvHttpRequest_line h, e]
  simp only
  rw [recvHttpHead_of_ne (by rw [h]; decide)]
  exact recvHttpBody_of_ne (by rw [h]; decide) _

/-- `RecvHttpLine` with a line. -/
def requestLineTaken (ctx : HttpContext) (line rest : Bytes) : HttpContext × Bytes :=
  match ctx.parseHttpLine line with
  | (ctx, false) => (ctx, rest)
  | (ctx, true) => ({ ctx with recvStatu := .recvHttpHead }, rest)

theorem takesLine_line (h : ctx.recvStatu = .recvHttpLine) :
    TakesLine ctx ctx.recvHttpLine ctx.requestLineTaken where
  eq := recvHttpLine_eq h
  fail := recvHttpRequest_line_fail h
  more := recvHttpRequest_line_more h

theorem stableAt_line (h : ctx.recvStatu = .recvHttpLine) (hr : ctx.respStatu < 400) (buf : Bytes) :
    StableAt ctx buf := by
  have ht := takesLine_line h
  refine ht.stableAt hr (by rw [h]; decide) fun _ hx => ?_
  rcases parseHttpLine_cases ctx (popLine lf buf).1 with ⟨request, e⟩ | ⟨request, e⟩
  · have hs : StableAt ⟨ctx.respStatu, .recvHttpHead, request⟩ (popLine lf buf).2 :=
      stableAt_head _ (Nat.le_refl _) rfl hr
    refine .of_eq (fun x => ?_) hs
    rw [recvHttpRequest_line h, hx, requestLineTaken, e]
    exact (recvHttpRequest_head rfl _).symm
  · refine ht.refused { ctx with request } (Int.le_refl 400) fun x => ⟨(popLine lf buf).2 ++ x, ?_⟩
    rw [hx, requestLineTaken, e]

/-- Bytes that arrive later change nothing that was reported. -/
theorem recvHttpRequest_append (hr : ctx.respStatu < 400) (buf : Bytes) : StableAt ctx buf := by
  cases h : ctx.recvStatu with
  | recvHttpLine => exact stableAt_line h hr buf
  | recvHttpHead => exact stableAt_head _ (Nat.le_refl _) h hr
  | recvHttpBody => exact stableAt_body h hr buf
  | recvHttpError =>
    have eq : ∀ b, ctx.recvHttpRequest b = .ok (ctx, b) := fun b => by rw [recvHttpRequest, h]
    exact .of_more hr (by rw [h]; decide) (eq buf) fun x => rfl
  | recvHttpOver =>
    have eq : ∀ b, ctx.recvHttpRequest b = .ok (ctx, b) := fun b => by rw [recvHttpRequest, h]
    intro x
    rw [eq]
    simp only [if_neg (Int.not_le.mpr hr), if_pos h]
    exact eq _

end Mudou.HttpContext
