import Mudou.Http.Parsing
import Mudou.Http.Serving

/-!
# The message callback as a consumer of a stream

`consume` is one round of the loop of `OnMessage`: what it makes of the bytes
in the buffer. It is stable (`consume_stable`), and the loop is the drain of
it, nested calls through `Shutdown` included (`onMessageLoop_drains`): after
one drain another has nothing to do.

`feed_trace_eq`: what is parsed up to the first error or the first request
that closes the connection does not depend on how the stream is cut.
-/

namespace Mudou

open Outcome Resumable

namespace HttpContext

open Fifo

variable {ctx ctx' : HttpContext} {buf buf' : Bytes}

/-! ## What a request consumes -/

/-- One more than the bytes, once the request line is parsed: the request may
be complete without another byte. -/
def size (ctx : HttpContext) (buf : Bytes) : Nat :=
  buf.length + if ctx.recvStatu = .recvHttpLine then 0 else 1

theorem length_recvHeadLoop (fuel : Nat) : ∀ (ctx : HttpContext) (buf : Bytes),
    (recvHeadLoop fuel ctx buf).2.length ≤ buf.length := by
  induction fuel with
  | zero => exact fun _ _ => Nat.le_refl _
  | succ fuel ih =>
    intro ctx buf
    have hl := length_popLine_snd_le lf buf
    unfold recvHeadLoop
    simp only
    split
    · split <;> exact hl
    · split
      · exact hl
      · split
        · exact hl
        · split
          · exact hl
          · exact (ih _ _).trans hl

theorem length_recvHttpBody (h : ctx.recvHttpBody buf = .ok (ctx', buf')) : buf'.length ≤ buf.length := by
  unfold recvHttpBody at h
  split at h
  · cases h
    exact Nat.le_refl _
  · split at h
    · cases h
    · simp only at h
      split at h
      · cases h
        exact Nat.le_refl _
      · split at h
        · cases h
          exact (List.length_drop ..).trans_le (Nat.sub_le ..)
        · cases h
          exact Nat.zero_le _

theorem length_recvHttpHead (ctx : HttpContext) (buf : Bytes) :
    (ctx.recvHttpHead buf).2.length ≤ buf.length := by
  unfold recvHttpHead
  split
  · exact Nat.le_refl _
  · exact length_recvHeadLoop ..

theorem length_recvHttpRequest (h : ctx.recvStatu ≠ .recvHttpLine)
    (e : ctx.recvHttpRequest buf = .ok (ctx', buf')) : buf'.length ≤ buf.length := by
  cases hs : ctx.recvStatu with
  | recvHttpLine => exact absurd hs h
  | recvHttpHead =>
    rw [recvHttpRequest_head hs] at e
    exact (length_recvHttpBody e).trans (length_recvHttpHead ..)
  | recvHttpBody =>
    rw [recvHttpRequest_body hs] at e
    exact length_recvHttpBody e
  | recvHttpError | recvHttpOver =>
    rw [recvHttpRequest, hs] at e
    cases e
    exact Nat.le_refl _

theorem size_le (ctx : HttpContext) (buf : Bytes) : ctx.size buf ≤ buf.length + 1 := by
  unfold size
  split <;> omega

theorem size_of_ne (h : ctx.recvStatu ≠ .recvHttpLine) (buf : Bytes) : ctx.size buf = buf.length + 1 := by
  rw [size, if_neg h]

/-- A request that is parsed to its end has consumed something. -/
theorem size_recvHttpRequest (e : ctx.recvHttpRequest buf = .ok (ctx', buf')) (hr : ctx'.respStatu < 400) :
    ctx'.size buf' ≤ ctx.size buf ∧ (ctx'.recvStatu = .recvHttpOver → buf'.length < ctx.size buf) := by
  by_cases h : ctx.recvStatu = .recvHttpLine
  · have hs : ctx.size buf = buf.length := by rw [size, if_pos h, Nat.add_zero]
    rcases recvHttpLine_cases h buf with hl | ⟨ctx₁, statu, b, h400, hl⟩ | ⟨request, b, hb, -, hl⟩
    · rw [recvHttpRequest_line_more h hl] at e
      cases e
      refine ⟨Nat.le_refl _, fun ho => ?_⟩
      rw [h] at ho
      cases ho
    · rw [recvHttpRequest_line_fail h hl] at e
      cases e
      exact absurd h400 (Int.not_le.mpr hr)
    · have hh : (⟨ctx.respStatu, .recvHttpHead, request⟩ : HttpContext).recvStatu = .recvHttpHead := rfl
      have e' : (⟨ctx.respStatu, .recvHttpHead, request⟩ : HttpContext).recvHttpRequest b = .ok (ctx', buf') := by
        rw [recvHttpRequest_line h, hl] at e
        rw [recvHttpRequest_head hh]
        exact e
      have hlen := length_recvHttpRequest (by rw [hh]; decide) e'
      have hle := ctx'.size_le buf'
      exact ⟨by omega, fun _ => by omega⟩
  · have hlen := length_recvHttpRequest h e
    have hle := ctx'.size_le buf'
    rw [size_of_ne h]
    exact ⟨by omega, fun _ => by omega⟩

end HttpContext

/-- The context of a connection that goes on receiving. -/
abbrev Receiving := { ctx : HttpContext // ctx.respStatu < 400 }

namespace HttpServer

open Connection HttpContext

variable (srv : HttpServer)

/-! ## The consumer -/

def fresh : Receiving := ⟨.new, by decide⟩

/-- What the loop reports of the parser's result, on the `t`-th request. It
stops if `Route` throws. -/
def report (t : Nat) : Except StolError (HttpContext × Bytes) → Progress (Receiving × Nat) Parsed Byte
  | .error e => .halt (.exception e)
  | .ok (ctx, buf) =>
    if h : 400 ≤ ctx.respStatu then .fail (.error ctx.respStatu) (fresh, t)
    else if ctx.recvStatu ≠ .recvHttpOver then .more (⟨ctx, Int.not_le.mp h⟩, t) buf
    else if srv.route t ctx.request (.new ctx.respStatu) = none then .halt (.request ctx.request)
    else .emit (.request ctx.request) (fresh, t + 1) buf

/-- One round of the loop. -/
def consume (s : Receiving × Nat) (buf : Bytes) : Progress (Receiving × Nat) Parsed Byte :=
  srv.report s.2 (s.1.1.recvHttpRequest buf)

variable {srv : HttpServer}

theorem report_error {t : Nat} {ctx : HttpContext} {buf : Bytes} (h : 400 ≤ ctx.respStatu) :
    srv.report t (.ok (ctx, buf)) = .fail (.error ctx.respStatu) (fresh, t) := by
  rw [report, dif_pos h]

theorem report_more {t : Nat} {ctx : HttpContext} {buf : Bytes} (h : ctx.respStatu < 400)
    (ho : ctx.recvStatu ≠ .recvHttpOver) :
    srv.report t (.ok (ctx, buf)) = .more (⟨ctx, h⟩, t) buf := by
  rw [report, dif_neg (Int.not_le.mpr h), if_pos ho]

theorem report_over {t : Nat} {ctx : HttpContext} {buf : Bytes} (h : ctx.respStatu < 400)
    (ho : ctx.recvStatu = .recvHttpOver) :
    srv.report t (.ok (ctx, buf)) =
      if srv.route t ctx.request (.new ctx.respStatu) = none then .halt (.request ctx.request)
      else .emit (.request ctx.request) (fresh, t + 1) buf := by
  rw [report, dif_neg (Int.not_le.mpr h), if_neg (not_not_intro ho)]

/-- Later bytes change nothing that was reported. -/
theorem consume_append (srv : HttpServer) (s : Receiving × Nat) (buf x : Bytes) :
    match srv.consume s buf with
    | .more s' buf' => srv.consume s (buf ++ x) = srv.consume s' (buf' ++ x)
    | .emit e s' buf' => srv.consume s (buf ++ x) = .emit e s' (buf' ++ x)
    | .fail e s' => srv.consume s (buf ++ x) = .fail e s'
    | .halt e => srv.consume s (buf ++ x) = .halt e := by
  have hs := recvHttpRequest_append s.1.2 buf x
  unfold consume
  cases e : s.1.1.recvHttpRequest buf with
  | error err =>
    rw [e] at hs
    rw [hs]
    rfl
  | ok r =>
    obtain ⟨ctx, buf'⟩ := r
    rw [e] at hs
    simp only at hs
    by_cases hr : 400 ≤ ctx.respStatu
    · rw [if_pos hr] at hs
      obtain ⟨buf'', hs⟩ := hs
      rw [report_error hr, hs]
      exact report_error hr
    · have hr' := Int.not_le.mp hr
      rw [if_neg hr] at hs
      by_cases ho : ctx.recvStatu = .recvHttpOver
      · rw [if_pos ho] at hs
        rw [report_over hr' ho, hs, report_over hr' ho]
        by_cases hn : srv.route s.2 ctx.request (.new ctx.respStatu) = none
        · rw [if_pos hn, if_pos hn]
        · rw [if_neg hn, if_neg hn]
      · rw [if_neg ho] at hs
        rw [report_more hr' ho, hs]

theorem consume_stable (srv : HttpServer) : Stable srv.consume where
  more {s _ buf _} x e := by
    have h := srv.consume_append s buf x
    rwa [e] at h
  emit {s _ buf _ _} x e := by
    have h := srv.consume_append s buf x
    rwa [e] at h
  fail {s _ buf _} x e := by
    have h := srv.consume_append s buf x
    rwa [e] at h
  halt {s buf _} x e := by
    have h := srv.consume_append s buf x
    rwa [e] at h

theorem size_report (srv : HttpServer) (t : Nat) {r : Except StolError (HttpContext × Bytes)} {n : Nat}
    (h : ∀ ctx buf, r = .ok (ctx, buf) → ctx.respStatu < 400 →
      ctx.size buf ≤ n ∧ (ctx.recvStatu = .recvHttpOver → buf.length < n)) :
    match srv.report t r with
    | .more s buf => s.1.1.size buf ≤ n
    | .emit _ s buf => s.1.1.size buf < n
    | .fail _ s => s.1.1.size [] ≤ n
    | .halt _ => True := by
  cases r with
  | error e => trivial
  | ok r =>
    obtain ⟨ctx, buf⟩ := r
    by_cases hr : 400 ≤ ctx.respStatu
    · rw [report_error hr]
      exact Nat.zero_le n
    · have hr := Int.not_le.mp hr
      obtain ⟨h₁, h₂⟩ := h ctx buf rfl hr
      by_cases ho : ctx.recvStatu = .recvHttpOver
      · rw [report_over hr ho]
        by_cases hn : srv.route t ctx.request (.new ctx.respStatu) = none
        · rw [if_pos hn]
          trivial
        · rw [if_neg hn]
          exact h₂ ho
      · rw [report_more hr ho]
        exact h₁

/-- What a loop leaves is not more than there was. -/
theorem size_drain {s s' : Receiving × Nat} {buf buf' : Bytes} {es : List Parsed}
    (h : Drain srv.consume s buf es (some (s', buf'))) : s'.1.1.size buf' ≤ s.1.1.size buf := by
  have hz : ∀ (s : Receiving × Nat) (buf : Bytes), _ := fun s buf =>
    srv.size_report s.2 fun ctx b e => size_recvHttpRequest (show s.1.1.recvHttpRequest buf = _ from e)
  generalize ho : some (s', buf') = o at h
  induction h with
  | nil s =>
    cases ho
    exact Nat.le_refl _
  | @more s _ b _ _ e =>
    cases ho
    have hz := hz s b
    rw [← consume, e] at hz
    exact hz
  | @emit s _ b _ _ _ _ _ e _ ih =>
    have hz := hz s b
    rw [← consume, e] at hz
    exact (ih ho).trans hz.le
  | @fail s _ b _ _ e =>
    cases ho
    have hz := hz s b
    rw [← consume, e] at hz
    exact hz
  | halt => cases ho

/-! ## The loop -/

theorem trace_append (log log' : List (Event HttpEvent)) : trace (log ++ log') = trace log ++ trace log' :=
  List.filterMap_append

theorem trace_writeReponse (req : HttpRequest) (rsp : HttpResponse) (c : HttpConnection) :
    trace (srv.writeReponse req rsp c).log = trace c.log := by
  rw [log_writeReponse, trace_append]
  split <;> exact List.append_nil _

/-- The connections do not differ in what the parser sees. -/
structure Same (c d : HttpConnection) : Prop where
  context : d.context = c.context
  inBuffer : d.inBuffer = c.inBuffer
  trace : trace d.log = trace c.log

theorem Same.trans {b c d : HttpConnection} (h : Same b c) (h' : Same c d) : Same b d :=
  ⟨h'.context.trans h.context, h'.inBuffer.trans h.inBuffer, h'.trace.trans h.trace⟩

theorem same_beginShutdown (c : HttpConnection) :
    Same c (c.record (.note (.shutdown c.inBuffer))).beginShutdown :=
  ⟨rfl, rfl, (trace_append _ _).trans (by rw [log_record, trace_append]; simp [HttpServer.trace, parsedOf])⟩

theorem same_endShutdown (c : HttpConnection) : Same c c.endShutdown := by
  rcases endShutdown_cases c with ⟨_, e⟩ | ⟨_, e | e⟩
  · rw [e]
    exact ⟨rfl, rfl, (trace_append _ _).trans (List.append_nil _)⟩
  · rw [e]
    exact ⟨rfl, rfl, rfl⟩
  · rw [e]
    exact ⟨rfl, rfl, rfl⟩

/-- The state of the consumer is that of the connection. -/
structure At (s : Receiving × Nat) (c : HttpConnection) : Prop where
  context : c.context = s.1.1
  served : served c.log = s.2

theorem At.same {s : Receiving × Nat} {c d : HttpConnection} (h : At s c) (hd : Same c d) : At s d :=
  ⟨hd.context.trans h.context, (congrArg _ hd.trace).trans h.served⟩

def Leaves (o : Outcome HttpConnection) (r : Option ((Receiving × Nat) × Bytes)) : Prop :=
  match r with
  | some (s, buf) => ∃ d, o = ok d ∧ At s d ∧ d.inBuffer = buf
  | none => ∃ d, o = stopped d

/-- The callback drains the input buffer. -/
def Drains (srv : HttpServer) (f : Callback HttpContext HttpEvent) (s : Receiving × Nat)
    (c : HttpConnection) : Prop :=
  ∃ es r, Drain srv.consume s c.inBuffer es r ∧ trace (f c).state.log = trace c.log ++ es ∧ Leaves (f c) r

/-- A shutdown drains it already; the rest of the loop has nothing to do. -/
theorem Drains.shutdown {f : Callback HttpContext HttpEvent} {fuel : Nat}
    (hf : ∀ {s c}, At s c → s.1.1.size c.inBuffer < fuel → Drains srv f s c) {s : Receiving × Nat}
    {c : HttpConnection} (hc : At s c) (hn : s.1.1.size c.inBuffer < fuel) :
    Drains srv (fun c => (HttpServer.shutdown f c).andThen f) s c := by
  have hb := same_beginShutdown c
  generalize hb' : (c.record (.note (.shutdown c.inBuffer))).beginShutdown = b at hb
  have he : (HttpServer.shutdown f c).andThen f =
      (if 0 < b.inBuffer.length then f b else ok b).andThen fun d => f d.endShutdown := by
    rw [HttpServer.shutdown, shutdownInLoop_eq, ← hb', andThen_assoc]
    rfl
  have hcb := hc.same hb
  have hbuf := hb.inBuffer
  unfold Drains
  simp only [he]
  rw [← hbuf]
  rw [← hbuf] at hn
  by_cases hl : 0 < b.inBuffer.length
  · rw [if_pos hl]
    obtain ⟨es, r, hd, ht, hr⟩ := hf hcb hn
    rw [hb.trace] at ht
    cases r with
    | none =>
      obtain ⟨d, e⟩ := hr
      rw [e] at ht ⊢
      exact ⟨es, none, hd, ht, d, rfl⟩
    | some r =>
      obtain ⟨s₁, buf₁⟩ := r
      obtain ⟨d, e, hs, rfl⟩ := hr
      rw [e] at ht ⊢
      have hend := same_endShutdown d
      obtain ⟨es₂, r₂, hd₂, ht₂, hr₂⟩ := hf (hs.same hend)
        (by rw [hend.inBuffer]; exact (size_drain hd).trans_lt hn)
      rw [hend.inBuffer] at hd₂
      obtain ⟨rfl, rfl⟩ := hd₂.unique ((consume_stable srv).again hd)
      refine ⟨es, _, hd, ?_, hr₂⟩
      rw [andThen_ok, ht₂, hend.trace, List.append_nil]
      exact ht
  · rw [if_neg hl]
    have hend := same_endShutdown b
    obtain ⟨es, r, hd, ht, hr⟩ := hf (hcb.same hend) (by rw [hend.inBuffer]; exact hn)
    rw [hend.inBuffer] at hd
    rw [hend.trace, hb.trace] at ht
    exact ⟨es, r, hd, ht, hr⟩

/-- With nothing left in the input buffer, a shutdown does not call back. -/
theorem shutdown_of_empty (f : Callback HttpContext HttpEvent) {c : HttpConnection} (h : c.inBuffer = []) :
    ∃ d, HttpServer.shutdown f c = ok d ∧ Same c d := by
  refine ⟨_, ?_, (same_beginShutdown c).trans (same_endShutdown _)⟩
  rw [HttpServer.shutdown, shutdownInLoop_eq, if_neg]
  · rfl
  · show ¬ 0 < c.inBuffer.length
    rw [h]
    decide

theorem trace_answerError (context : HttpContext) (inBuffer : Bytes) (c : HttpConnection) :
    trace (srv.answerError context inBuffer c).log = trace c.log ++ [.error context.respStatu] :=
  (trace_writeReponse ..).trans (trace_append ..)

/-- A response has been sent, and the connection receives the next request. -/
theorem at_answer (srv : HttpServer) (req : HttpRequest) (rsp : HttpResponse) (context : HttpContext) (inBuffer : Bytes)
    (c : HttpConnection) :
    let d := srv.answer req rsp (receive context inBuffer c)
    At (fresh, served c.log + 1) d ∧ d.inBuffer = inBuffer ∧
      trace d.log = trace c.log ++ [.request context.request] := by
  have ht : trace (srv.answer req rsp (receive context inBuffer c)).log =
      trace c.log ++ [.request context.request] :=
    (trace_writeReponse ..).trans (trace_append ..)
  refine ⟨⟨rfl, ?_⟩, (srv.writeReponse_same ..).2.2, ht⟩
  rw [served, ht, List.countP_append]
  rfl

/-! ### One lap -/

section

variable {f g : Callback HttpContext HttpEvent} {s : Receiving × Nat} {c : HttpConnection} {context : HttpContext}
  {inBuffer : Bytes}

theorem Drains.congr (h : Drains srv g s c) (e : f c = g c) : Drains srv f s c := by
  unfold Drains
  rw [e]
  exact h

theorem At.consume_eq (hc : At s c) (srv : HttpServer) :
    srv.consume s c.inBuffer = srv.report s.2 (c.context.recvHttpRequest c.inBuffer) := by
  rw [consume, hc.context]

theorem drains_throws (hc : At s c) (hne : c.inBuffer ≠ []) {err : StolError}
    (e : c.context.recvHttpRequest c.inBuffer = .error err) :
    Drains srv (fun c => stopped (c.record (.note (.parsed (.exception err))))) s c := by
  have hcon := hc.consume_eq srv
  rw [e] at hcon
  exact ⟨_, _, .halt hne hcon, trace_append _ _, _, rfl⟩

theorem drains_answerError (f : Callback HttpContext HttpEvent) (hc : At s c) (hne : c.inBuffer ≠ [])
    (e : c.context.recvHttpRequest c.inBuffer = .ok (context, inBuffer)) (hr : 400 ≤ context.respStatu) :
    Drains srv (fun c => HttpServer.shutdown f (srv.answerError context inBuffer c)) s c := by
  have hcon := hc.consume_eq srv
  rw [e, report_error hr] at hcon
  obtain ⟨d, ed, hd⟩ := shutdown_of_empty f (show (srv.answerError context inBuffer c).inBuffer = [] from rfl)
  have ht := hd.trace.trans (trace_answerError ..)
  have hat : At (fresh, s.2) d := by
    refine ⟨hd.context, ?_⟩
    rw [served, ht, List.countP_append, ← hc.served]
    rfl
  unfold Drains
  simp only [ed]
  exact ⟨_, _, .fail hne hcon, ht, d, rfl, hat, hd.inBuffer⟩

theorem drains_more (hc : At s c) (hne : c.inBuffer ≠ [])
    (e : c.context.recvHttpRequest c.inBuffer = .ok (context, inBuffer)) (hr : context.respStatu < 400)
    (ho : context.recvStatu ≠ .recvHttpOver) : Drains srv (fun c => ok { c with context, inBuffer }) s c := by
  have hcon := hc.consume_eq srv
  rw [e, report_more hr ho] at hcon
  exact ⟨_, _, .more hne hcon, (List.append_nil _).symm, _, rfl, ⟨rfl, hc.served⟩, rfl⟩

/-- `Route` throws. -/
theorem drains_threw (hc : At s c) (hne : c.inBuffer ≠ [])
    (e : c.context.recvHttpRequest c.inBuffer = .ok (context, inBuffer)) (hr : context.respStatu < 400)
    (ho : context.recvStatu = .recvHttpOver)
    (hroute : srv.route (served c.log) context.request (.new context.respStatu) = none) :
    Drains srv (fun c => stopped ((receive context inBuffer c).record (.note .threw))) s c := by
  have hcon := hc.consume_eq srv
  rw [e, report_over hr ho, ← hc.served, if_pos hroute] at hcon
  exact ⟨_, _, .halt hne hcon, (trace_append ..).trans ((List.append_nil _).trans (trace_append ..)), _, rfl⟩

/-- A response is sent, and the loop goes on, behind a shutdown if the
connection is to be closed. -/
theorem drains_answer {fuel : Nat} (hf : ∀ {s c}, At s c → s.1.1.size c.inBuffer < fuel → Drains srv f s c)
    (hc : At s c) (hn : s.1.1.size c.inBuffer < fuel + 1) (hne : c.inBuffer ≠ [])
    (e : c.context.recvHttpRequest c.inBuffer = .ok (context, inBuffer)) (hr : context.respStatu < 400)
    (ho : context.recvStatu = .recvHttpOver) {req : HttpRequest} {rsp : HttpResponse}
    (hroute : srv.route (served c.log) context.request (.new context.respStatu) = some (req, rsp)) :
    Drains srv (fun c =>
      let d := srv.answer req rsp (receive context inBuffer c)
      (if (completeHeaders req rsp).close then HttpServer.shutdown f d else ok d).andThen f) s c := by
  have hcon := hc.consume_eq srv
  rw [e, report_over hr ho, ← hc.served, if_neg (by simp [hroute])] at hcon
  obtain ⟨ha, hb, ht⟩ := srv.at_answer req rsp context inBuffer c
  unfold Drains
  simp only
  generalize srv.answer req rsp (receive context inBuffer c) = d at ha hb ht
  have hlt : (fresh : HttpContext).size d.inBuffer < fuel := by
    have hz := (size_recvHttpRequest e hr).2 ho
    rw [← hb, hc.context] at hz
    exact hz.trans_le (Nat.le_of_lt_succ hn)
  have hd : Drains srv (fun d => (if (completeHeaders req rsp).close then HttpServer.shutdown f d
      else ok d).andThen f) (fresh, served c.log + 1) d := by
    by_cases hclose : (completeHeaders req rsp).close = true
    · simp only [hclose, if_true]
      exact Drains.shutdown hf ha hlt
    · simp only [hclose]
      exact hf ha hlt
  obtain ⟨es, r, hd, hes, hl⟩ := hd
  rw [hb] at hd
  refine ⟨_ :: es, r, .emit hne hcon hd, ?_, hl⟩
  rw [hes, ht, List.append_assoc]
  rfl

end

theorem onMessageLoop_drains (fuel : Nat) : ∀ {s : Receiving × Nat} {c : HttpConnection}, At s c →
    s.1.1.size c.inBuffer < fuel → Drains srv (srv.onMessageLoop fuel) s c := by
  induction fuel with
  | zero => exact fun _ hn => absurd hn (Nat.not_lt_zero _)
  | succ fuel ih =>
    intro s c hc hn
    by_cases h0 : c.inBuffer.length = 0
    · have hnil := List.length_eq_zero_iff.mp h0
      have hidle : Drains srv ok s c := by
        unfold Drains
        rw [hnil]
        exact ⟨[], _, .nil s, (List.append_nil _).symm, c, rfl, hc, hnil⟩
      exact hidle.congr (by rw [onMessageLoop, if_pos h0])
    · have hne : c.inBuffer ≠ [] := fun e => h0 (List.length_eq_zero_iff.mpr e)
      cases e : c.context.recvHttpRequest c.inBuffer with
      | error err => exact (drains_throws hc hne e).congr (by rw [onMessageLoop, if_neg h0, e])
      | ok r =>
        obtain ⟨context, inBuffer⟩ := r
        by_cases hr : 400 ≤ context.respStatu
        · refine (drains_answerError (srv.onMessageLoop fuel) hc hne e hr).congr ?_
          rw [onMessageLoop, if_neg h0, e]
          exact if_pos hr
        · have hr' := Int.not_le.mp hr
          by_cases ho : context.recvStatu = .recvHttpOver
          · cases hroute : srv.route (served c.log) context.request (.new context.respStatu) with
            | none =>
              refine (drains_threw hc hne e hr' ho hroute).congr ?_
              rw [onMessageLoop, if_neg h0, e]
              simp only
              rw [if_neg hr, if_neg (not_not_intro ho), hroute]
            | some r =>
              refine (drains_answer ih hc hn hne e hr' ho hroute).congr ?_
              rw [onMessageLoop, if_neg h0, e]
              simp only
              rw [if_neg hr, if_neg (not_not_intro ho), hroute]
          · refine (drains_more hc hne e hr' ho).congr ?_
            rw [onMessageLoop, if_neg h0, e]
            simp only
            rw [if_neg hr, if_pos ho]

/-! ## Chunks -/

/-- A chunk arrives and `OnMessage` runs; without bytes, it only runs. -/
def arrive (srv : HttpServer) (chunk : Bytes) : Callback HttpContext HttpEvent := fun c =>
  srv.onMessage { c with inBuffer := c.inBuffer ++ chunk }

def feed (srv : HttpServer) (chunks : List Bytes) : Callback HttpContext HttpEvent :=
  runAll srv.arrive chunks

theorem onMessage_drains (srv : HttpServer) {s : Receiving × Nat} {c : HttpConnection} (h : At s c) :
    Drains srv srv.onMessage s c := by
  have hn : s.1.1.size c.inBuffer < c.inBuffer.length + 2 := Nat.lt_succ_of_le (size_le _ _)
  have hd : Drains srv (srv.onMessageLoop (c.inBuffer.length + 2)) s c := onMessageLoop_drains _ h hn
  unfold Drains at hd ⊢
  rw [onMessage]
  exact hd

theorem feed_feeds (srv : HttpServer) (chunks : List Bytes) : ∀ {s : Receiving × Nat} {c : HttpConnection}, At s c →
    ∃ es, Feed srv.consume s c.inBuffer chunks es ∧
      trace (srv.feed chunks c).state.log = trace c.log ++ es := by
  induction chunks with
  | nil => exact fun _ => ⟨[], .nil .., (List.append_nil _).symm⟩
  | cons x chunks ih =>
    intro s c hc
    have hx : At s { c with inBuffer := c.inBuffer ++ x } := ⟨hc.context, hc.served⟩
    obtain ⟨es, r, hd, ht, hl⟩ := srv.onMessage_drains hx
    rw [feed, runAll, arrive]
    cases r with
    | none =>
      obtain ⟨d, e⟩ := hl
      rw [e] at ht ⊢
      exact ⟨es, .halt chunks hd, ht⟩
    | some r =>
      obtain ⟨s', buf'⟩ := r
      obtain ⟨d, e, hs, rfl⟩ := hl
      rw [e] at ht ⊢
      obtain ⟨es', hf, ht'⟩ := ih hs
      refine ⟨es ++ es', .chunk hd hf, ?_⟩
      rw [← List.append_assoc, ← ht]
      exact ht'

/-- A parse error, or a request that closes the connection. -/
def isFinal : Parsed → Bool
  | .request req => req.close
  | .error _ | .exception _ => true

theorem isFinal_of_fail (s : Receiving × Nat) (buf : Bytes) (e : Parsed) (s' : Receiving × Nat)
    (h : srv.consume s buf = .fail e s') : isFinal e = true := by
  unfold consume report at h
  split at h
  · cases h
  · split at h
    · cases h
      rfl
    · split at h
      · cases h
      · split at h <;> cases h

/-- What is parsed on a connection, up to the first error or the first
request that closes it, does not depend on the chunks in which the bytes
arrive, nor on further runs of `OnMessage`. -/
theorem feed_trace_eq (srv : HttpServer) (c : HttpConnection) (hc : c.context = .new)
    (hb : c.inBuffer = []) (xs ys : List Bytes) (h : xs.flatten = ys.flatten) :
    upTo isFinal (trace (srv.feed xs c).state.log) = upTo isFinal (trace (srv.feed ys c).state.log) := by
  have hat : At (fresh, served c.log) c := ⟨hc, rfl⟩
  obtain ⟨es, hx, tx⟩ := srv.feed_feeds xs hat
  obtain ⟨es', hy, ty⟩ := srv.feed_feeds ys hat
  rw [hb] at hx hy
  rw [tx, ty]
  exact upTo_append_congr _ ((consume_stable srv).feed_upTo isFinal_of_fail hx hy h)

/-- A cut in the request line and one between CR and LF, with a run for no
bytes. -/
theorem feed_trace_eq_twoCuts :
    upTo isFinal (trace (noRoutes.feed [str "GET /a HT", str "TP/1.1\r", [], str "\n\r\n"]
      (new 1 true .new none)).state.log) =
    upTo isFinal (trace (noRoutes.feed [str "GET /a HTTP/1.1\r\n\r\n"] (new 1 true .new none)).state.log) :=
  feed_trace_eq noRoutes (new 1 true .new none) rfl rfl _ _ rfl

end HttpServer

end Mudou
