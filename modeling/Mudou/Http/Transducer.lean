import Mudou.Http.Framing
import Mudou.Http.Passes
import Mudou.Net.Progress

/-!
# The server as a transducer

`reply` is what the server makes of the bytes at the front of a stream: the
next response, with the parser and `Route` as they are. It knows nothing of
chunks, of the event loop, of nested calls through `Shutdown` or of what other
threads queue.

`run_transduces`: in every run of a connection whose thread does not end in
it, the responses are those that `reply` gives for the bytes received. Only a
parse error shows where a chunk ended: the rest of the chunk it is in is
dropped, and `reply` starts anew on the next.
-/

namespace Mudou

open Outcome Resumable

namespace HttpContext

open Fifo

variable {ctx ctx' : HttpContext} {buf buf' : Bytes}

/-! ## No bytes -/

theorem recvHttpHead_nil (ctx : HttpContext) : ctx.recvHttpHead [] = (ctx, []) := by
  by_cases h : ctx.recvStatu = .recvHttpHead
  · rw [recvHttpHead_eq h]
    rfl
  · exact recvHttpHead_of_ne h []

theorem recvHttpLine_nil (ctx : HttpContext) : ctx.recvHttpLine [] = (ctx, []) := by
  by_cases h : ctx.recvStatu = .recvHttpLine
  · rw [recvHttpLine_eq h]
    rfl
  · rw [recvHttpLine, if_pos h]

/-- Without bytes a context goes on waiting. -/
theorem Waits.recvHttpRequest_nil (h : ctx.Waits) : ctx.recvHttpRequest [] = .ok (ctx, []) := by
  have hbody : ctx.recvHttpBody [] = .ok (ctx, []) := by
    by_cases hs : ctx.recvStatu = .recvHttpBody
    · obtain ⟨n, hc, hl⟩ := h.resting.body hs
      rw [recvHttpBody_eq hs hc hl.le, if_neg, appendBody_nil]
      show ¬ n - ctx.request.body.length ≤ 0
      omega
    · exact recvHttpBody_of_ne hs []
  cases hs : ctx.recvStatu with
  | recvHttpLine =>
    rw [recvHttpRequest_line hs, recvHttpLine_nil, recvHttpHead_nil]
    exact hbody
  | recvHttpHead =>
    rw [recvHttpRequest_head hs, recvHttpHead_nil]
    exact hbody
  | recvHttpBody =>
    rw [recvHttpRequest_body hs]
    exact hbody
  | recvHttpError | recvHttpOver => rw [recvHttpRequest, hs]

theorem Waits.respStatu (h : ctx.Waits) : ctx.respStatu < 400 := by
  cases h with
  | new => decide
  | more _ _ hr _ => exact hr

/-- The parser needs more than the buffer. -/
def Undecided (ctx : HttpContext) (buf : Bytes) : Prop :=
  ∃ ctx' buf', ctx.recvHttpRequest buf = .ok (ctx', buf') ∧ ctx'.respStatu < 400 ∧
    ctx'.recvStatu ≠ .recvHttpOver

theorem Waits.undecided_nil (h : ctx.Waits) : ctx.Undecided [] :=
  ⟨ctx, [], h.recvHttpRequest_nil, h.respStatu, h.not_over⟩

/-- A context that has taken what it can needs more than the rest. -/
theorem undecided_of_more (h : ctx.respStatu < 400) (e : ctx.recvHttpRequest buf = .ok (ctx', buf'))
    (hr : ctx'.respStatu < 400) (ho : ctx'.recvStatu ≠ .recvHttpOver) : ctx'.Undecided buf' := by
  have hs := recvHttpRequest_append h buf []
  rw [e] at hs
  simp only [if_neg (Int.not_le.mpr hr), if_neg ho, List.append_nil] at hs
  exact ⟨ctx', buf', hs.symm.trans e, hr, ho⟩

/-- The context of a connection between two calls of `OnMessage`. -/
abbrev Listening := { ctx : HttpContext // ctx.Waits }

end HttpContext

namespace HttpServer

open Connection HttpContext

/-! ## The transducer -/

variable (srv : HttpServer)

def listening : Listening := ⟨.new, .new⟩

/-- The response to the `t`-th request of a stream, or to an error in it;
`none` if the parser or `Route` throws. -/
def reply (s : Listening × Nat) (buf : Bytes) : Progress (Listening × Nat) (Option Exchange) Byte :=
  match e : s.1.1.recvHttpRequest buf with
  | .error _ => .halt none
  | .ok (ctx, buf) =>
    if hr : 400 ≤ ctx.respStatu then
      .fail (some (ctx.request, errorHandler (.new ctx.respStatu))) (listening, s.2)
    else if ho : ctx.recvStatu ≠ .recvHttpOver then .more (⟨ctx, s.1.2.more e (Int.not_le.mp hr) ho⟩, s.2) buf
    else
      match srv.route s.2 ctx.request (.new ctx.respStatu) with
      | none => .halt none
      | some exchange => .emit (some exchange) (listening, s.2 + 1) buf

variable {srv : HttpServer} {s : Listening × Nat} {ctx : HttpContext} {buf buf' : Bytes}

theorem reply_exception {err : StolError} (e : s.1.1.recvHttpRequest buf = .error err) :
    srv.reply s buf = .halt none := by
  unfold reply
  split
  · rfl
  · next e' =>
    rw [e] at e'
    cases e'

theorem reply_error (e : s.1.1.recvHttpRequest buf = .ok (ctx, buf')) (hr : 400 ≤ ctx.respStatu) :
    srv.reply s buf = .fail (some (ctx.request, errorHandler (.new ctx.respStatu))) (listening, s.2) := by
  unfold reply
  split
  · next e' =>
    rw [e] at e'
    cases e'
  · next e' =>
    rw [e] at e'
    cases e'
    exact dif_pos hr

theorem reply_more (e : s.1.1.recvHttpRequest buf = .ok (ctx, buf')) (hr : ctx.respStatu < 400)
    (ho : ctx.recvStatu ≠ .recvHttpOver) :
    srv.reply s buf = .more (⟨ctx, s.1.2.more e hr ho⟩, s.2) buf' := by
  unfold reply
  split
  · next e' =>
    rw [e] at e'
    cases e'
  · next e' =>
    rw [e] at e'
    cases e'
    rw [dif_neg (Int.not_le.mpr hr), dif_pos ho]

theorem reply_over (e : s.1.1.recvHttpRequest buf = .ok (ctx, buf')) (hr : ctx.respStatu < 400)
    (ho : ctx.recvStatu = .recvHttpOver) :
    srv.reply s buf = match srv.route s.2 ctx.request (.new ctx.respStatu) with
      | none => .halt none
      | some exchange => .emit (some exchange) (listening, s.2 + 1) buf' := by
  unfold reply
  split
  · next e' =>
    rw [e] at e'
    cases e'
  · next e' =>
    rw [e] at e'
    cases e'
    rw [dif_neg (Int.not_le.mpr hr), dif_neg (not_not_intro ho)]

/-- Only what the parser returns matters. -/
theorem reply_congr {s' : Listening × Nat} (h : s.1.1.recvHttpRequest buf = s'.1.1.recvHttpRequest buf')
    (ht : s.2 = s'.2) : srv.reply s buf = srv.reply s' buf' := by
  cases e : s.1.1.recvHttpRequest buf with
  | error err => rw [reply_exception e, reply_exception (h.symm.trans e)]
  | ok r =>
    obtain ⟨ctx, b⟩ := r
    have e' := h.symm.trans e
    by_cases hr : 400 ≤ ctx.respStatu
    · rw [reply_error e hr, reply_error e' hr, ht]
    · have hr := Int.not_le.mp hr
      by_cases ho : ctx.recvStatu = .recvHttpOver
      · rw [reply_over e hr ho, reply_over e' hr ho, ht]
      · rw [reply_more e hr ho, reply_more e' hr ho, ht]

/-- Later bytes change nothing about a response. -/
theorem reply_append (srv : HttpServer) (s : Listening × Nat) (buf x : Bytes) :
    match srv.reply s buf with
    | .more s' buf' => srv.reply s (buf ++ x) = srv.reply s' (buf' ++ x)
    | .emit e s' buf' => srv.reply s (buf ++ x) = .emit e s' (buf' ++ x)
    | .fail e s' => srv.reply s (buf ++ x) = .fail e s'
    | .halt e => srv.reply s (buf ++ x) = .halt e := by
  have hs := recvHttpRequest_append s.1.2.respStatu buf x
  cases e : s.1.1.recvHttpRequest buf with
  | error err =>
    rw [e] at hs
    rw [reply_exception e]
    exact reply_exception hs
  | ok r =>
    obtain ⟨ctx, buf'⟩ := r
    rw [e] at hs
    simp only at hs
    by_cases hr : 400 ≤ ctx.respStatu
    · rw [if_pos hr] at hs
      obtain ⟨buf'', hs⟩ := hs
      rw [reply_error e hr]
      exact reply_error hs hr
    · rw [if_neg hr] at hs
      have hr := Int.not_le.mp hr
      by_cases ho : ctx.recvStatu = .recvHttpOver
      · rw [if_pos ho] at hs
        rw [reply_over e hr ho, reply_over hs hr ho]
        cases srv.route s.2 ctx.request (.new ctx.respStatu) <;> rfl
      · rw [if_neg ho] at hs
        rw [reply_more e hr ho]
        exact reply_congr hs rfl

theorem reply_stable (srv : HttpServer) : Stable srv.reply where
  more {s _ buf _} x e := by
    have h := srv.reply_append s buf x
    rwa [e] at h
  emit {s _ buf _ _} x e := by
    have h := srv.reply_append s buf x
    rwa [e] at h
  fail {s _ buf _} x e := by
    have h := srv.reply_append s buf x
    rwa [e] at h
  halt {s buf _} x e := by
    have h := srv.reply_append s buf x
    rwa [e] at h

theorem reply_silent (srv : HttpServer) : Silent srv.reply := fun s =>
  ⟨_, _, reply_more s.1.2.recvHttpRequest_nil s.1.2.respStatu s.1.2.not_over⟩

theorem reply_shrinking (srv : HttpServer) : Shrinking srv.reply := by
  intro s buf ex s' buf'' h
  cases e : s.1.1.recvHttpRequest buf with
  | error err =>
    rw [reply_exception e] at h
    cases h
  | ok r =>
    obtain ⟨ctx, buf'⟩ := r
    by_cases hr : 400 ≤ ctx.respStatu
    · rw [reply_error e hr] at h
      cases h
    · have hr := Int.not_le.mp hr
      by_cases ho : ctx.recvStatu = .recvHttpOver
      · rw [reply_over e hr ho] at h
        split at h
        · cases h
        · cases h
          exact s.1.2.length_lt e hr ho
      · rw [reply_more e hr ho] at h
        cases h

/-! ## What is received and sent -/

/-- The chunks that were received. -/
def chunks (log : List (Event HttpEvent)) : List Bytes :=
  log.filterMap fun e => match e with
    | .received data => some data
    | _ => none

/-- What `SendInLoop` has accepted, call by call. -/
def payloads (log : List (Event HttpEvent)) : List Bytes :=
  log.filterMap fun e => match e with
    | .accepted data => some data
    | _ => none

theorem flatten_payloads (log : List (Event HttpEvent)) : (payloads log).flatten = accepted log := by
  induction log with
  | nil => rfl
  | cons e log ih =>
    rw [accepted, List.flatMap_cons, ← accepted, ← ih]
    cases e <;> rfl

/-- Events that say nothing about the stream. -/
structure Unheard (es : List (Event HttpEvent)) : Prop where
  chunks : chunks es = []
  exchanges : exchanges es = []
  served : served es = 0

/-- The connection has come to `d` without a byte or a response. -/
structure Quiet (c d : HttpConnection) : Prop where
  log : ∃ es, d.log = c.log ++ es ∧ Unheard es
  context : d.context = c.context
  inBuffer : d.inBuffer = c.inBuffer
  statu : d.statu = c.statu ∨ d.statu = .disconnecting ∨ d.statu = .disconnected ∧ .releaseInLoop ∈ d.log

variable {c d : HttpConnection}

theorem served_append (log log' : List (Event HttpEvent)) : served (log ++ log') = served log + served log' := by
  rw [served, trace_append, List.countP_append]
  rfl

theorem chunks_append (log log' : List (Event HttpEvent)) : chunks (log ++ log') = chunks log ++ chunks log' :=
  List.filterMap_append

theorem unheard_nil : Unheard [] := ⟨rfl, rfl, rfl⟩

theorem Unheard.append {es es' : List (Event HttpEvent)} (h : Unheard es) (h' : Unheard es') : Unheard (es ++ es') where
  chunks := by rw [chunks_append, h.chunks, h'.chunks, List.nil_append]
  exchanges := by rw [exchanges_append, h.exchanges, h'.exchanges, List.nil_append]
  served := by rw [served_append, h.served, h'.served]

/-- A change of what neither the parser nor the log has. -/
theorem quiet_of_eq (hl : d.log = c.log) (hc : d.context = c.context) (hb : d.inBuffer = c.inBuffer)
    (hs : d.statu = c.statu) : Quiet c d :=
  ⟨⟨[], hl.trans (List.append_nil _).symm, unheard_nil⟩, hc, hb, .inl hs⟩

theorem Quiet.trans {b c d : HttpConnection} (h : Quiet b c) (h' : Quiet c d) : Quiet b d := by
  obtain ⟨es, hl, he⟩ := h.log
  obtain ⟨es', hl', he'⟩ := h'.log
  refine ⟨⟨es ++ es', by rw [hl', hl, List.append_assoc], he.append he'⟩, h'.context.trans h.context,
    h'.inBuffer.trans h.inBuffer, ?_⟩
  rcases h'.statu with hs' | hs'
  · rw [hs']
    refine h.statu.imp_right (Or.imp_right fun hs => ⟨hs.1, ?_⟩)
    rw [hl']
    exact List.mem_append_left _ hs.2
  · exact .inr hs'

theorem quiet_record (c : HttpConnection) {e : Event HttpEvent} (h : Unheard [e]) : Quiet c (c.record e) :=
  ⟨⟨[e], rfl, h⟩, rfl, rfl, .inl rfl⟩

theorem quiet_release (caller : Caller) (c : HttpConnection) : Quiet c (c.release caller) :=
  ⟨⟨[.release caller c.releasing], rfl, ⟨rfl, rfl, rfl⟩⟩, rfl, rfl, .inl rfl⟩

theorem quiet_disableWrite (c : HttpConnection) : Quiet c c.disableWrite := quiet_of_eq rfl rfl rfl rfl

theorem quiet_sendInLoop (data : Bytes) (c : HttpConnection) : Quiet c (c.sendInLoop data) := by
  have ha : Quiet c (c.accept data) := ⟨⟨[.accepted data], rfl, ⟨rfl, rfl, rfl⟩⟩, rfl, rfl, .inl rfl⟩
  rcases sendInLoop_cases c data with ⟨_, e⟩ | ⟨_, e | e⟩
  · rw [e]
    exact quiet_of_eq rfl rfl rfl rfl
  · rw [e]
    exact ha.trans (quiet_of_eq rfl rfl rfl rfl)
  · rw [e]
    exact ha

theorem quiet_beginShutdown (c : HttpConnection) : Quiet c c.beginShutdown :=
  ⟨⟨[.shutdownInLoop], rfl, ⟨rfl, rfl, rfl⟩⟩, rfl, rfl, .inr (.inl rfl)⟩

theorem quiet_endShutdown (c : HttpConnection) : Quiet c c.endShutdown := by
  rcases endShutdown_cases c with ⟨_, e⟩ | ⟨_, e | e⟩
  · rw [e]
    exact quiet_release _ c
  · rw [e]
    exact quiet_of_eq rfl rfl rfl rfl
  · rw [e]
    exact quiet_of_eq rfl rfl rfl rfl

theorem quiet_timerRefresh (c : HttpConnection) : Ensures (Quiet c) c.timerRefresh := by
  intro d e
  obtain ⟨w, ew⟩ := timerRefresh_cases c
  rw [e] at ew
  exact (show d = c.setTimerWheel w from ew) ▸ quiet_of_eq rfl rfl rfl rfl

theorem quiet_enableInactiveReleaseInLoop (c : HttpConnection) (sec : UInt32) :
    Ensures (Quiet c) (c.enableInactiveReleaseInLoop sec) := by
  intro d e
  obtain ⟨w, ew⟩ := enableInactiveReleaseInLoop_cases c sec
  rw [e] at ew
  exact (show d = _ from ew) ▸ quiet_of_eq rfl rfl rfl rfl

theorem quiet_cancelInactiveReleaseInLoop (c : HttpConnection) : Quiet c c.cancelInactiveReleaseInLoop := by
  obtain ⟨w, e⟩ := cancelInactiveReleaseInLoop_cases c
  rw [e]
  exact quiet_of_eq rfl rfl rfl rfl

theorem quiet_onTime (c : HttpConnection) (times : Nat) : Quiet c (c.onTime times) :=
  state_onTime (fun _ => quiet_of_eq rfl rfl rfl rfl) (fun d h => h.trans (quiet_release _ d)) times

theorem quiet_beginRelease (c : HttpConnection) : Quiet c c.beginRelease := by
  obtain ⟨b, w, e⟩ := beginRelease_eq c
  rw [e]
  refine ⟨⟨.releaseInLoop :: if c.socketOpen then [.closed] else [], List.append_assoc .., ?_⟩, rfl, rfl,
    .inr (.inr ⟨rfl, ?_⟩)⟩
  · cases c.socketOpen <;> exact ⟨rfl, rfl, rfl⟩
  · exact List.mem_append_left _ (List.mem_append_right _ List.mem_cons_self)

theorem quiet_removeConnectionInLoop (c : HttpConnection) : Quiet c c.removeConnectionInLoop :=
  state_removeConnectionInLoop (quiet_of_eq rfl rfl rfl rfl)
    ⟨⟨[.erased], rfl, ⟨rfl, rfl, rfl⟩⟩, rfl, rfl, .inl rfl⟩

theorem quiet_removeConnection (c : HttpConnection) : Quiet c c.removeConnection := by
  have hs : Quiet c (c.record .srvClosedCallback) := quiet_record c ⟨rfl, rfl, rfl⟩
  exact state_removeConnection (hs.trans (quiet_removeConnectionInLoop _))
    (hs.trans (quiet_of_eq rfl rfl rfl rfl))

/-! ## The invariant -/

/-- What has been answered on the connection, and sent. -/
structure Transducing (srv : HttpServer) (c : HttpConnection) : Prop where
  established : c.statu ≠ .connecting
  released : c.statu = .disconnected → .releaseInLoop ∈ c.log
  session : ∃ s, Session srv.reply (listening, 0) (chunks c.log) ((exchanges c.log).map some) s c.inBuffer ∧
    c.context = s.1.1 ∧ served c.log = s.2
  sent : .releaseInLoop ∉ c.log → ((exchanges c.log).map srv.text).Sublist (payloads c.log)

/-- Nothing is left to answer. -/
structure Idle (srv : HttpServer) (c : HttpConnection) : Prop extends Transducing srv c where
  undecided : c.context.Undecided c.inBuffer

theorem Transducing.quiet (h : Transducing srv c) (hd : Quiet c d) : Transducing srv d := by
  obtain ⟨es, hl, hu⟩ := hd.log
  have hx : chunks d.log = chunks c.log := by
    rw [hl, chunks_append, hu.chunks, List.append_nil]
  have he : exchanges d.log = exchanges c.log := by
    rw [hl, exchanges_append, hu.exchanges, List.append_nil]
  have hs : served d.log = served c.log := by
    rw [hl, served_append, hu.served, Nat.add_zero]
  refine ⟨?_, ?_, ?_, fun hr => ?_⟩
  · rcases hd.statu with e | e | ⟨e, _⟩
    · exact e.trans_ne h.established
    · exact e.trans_ne (by decide)
    · exact e.trans_ne (by decide)
  · rcases hd.statu with e | e | ⟨_, hm⟩
    · exact fun ed => hl ▸ List.mem_append_left _ (h.released (e.symm.trans ed))
    · exact fun ed => ConnStatu.noConfusion (e.symm.trans ed)
    · exact fun _ => hm
  · rw [hx, he, hs, hd.context, hd.inBuffer]
    exact h.session
  · rw [he, hl, payloads, List.filterMap_append]
    rw [hl] at hr
    exact (h.sent fun hm => hr (List.mem_append_left _ hm)).trans (List.sublist_append_left ..)

theorem Idle.quiet (h : Idle srv c) (hd : Quiet c d) : Idle srv d :=
  ⟨h.toTransducing.quiet hd, by rw [hd.context, hd.inBuffer]; exact h.undecided⟩

theorem Transducing.waits (h : Transducing srv c) : c.context.Waits := by
  obtain ⟨s, _, hc, _⟩ := h.session
  exact hc ▸ s.1.2

theorem Transducing.idle_of_empty (h : Transducing srv c) (hb : c.inBuffer = []) : Idle srv c :=
  ⟨h, by rw [hb]; exact h.waits.undecided_nil⟩

/-- Bytes arrive. -/
theorem Idle.received (h : Idle srv c) (data : Bytes) :
    Transducing srv ({ c with inBuffer := c.inBuffer ++ data }.record (.received data)) := by
  have hx : chunks (c.log ++ [.received data]) = chunks c.log ++ [data] := chunks_append _ _
  have he : exchanges (c.log ++ [.received data]) = exchanges c.log :=
    (exchanges_append _ _).trans (List.append_nil _)
  have hs : served (c.log ++ [.received data]) = served c.log := served_append _ _
  obtain ⟨s, hd, hc, ht⟩ := h.session
  obtain ⟨ctx, buf, e, hr, ho⟩ := h.undecided
  rw [hc] at e
  refine ⟨h.established, fun e => List.mem_append_left _ (h.released e), ⟨s, ?_, hc, ?_⟩, fun hr => ?_⟩
  · rw [log_record, hx, he]
    exact hd.arrive data (reply_more e hr ho)
  · rw [log_record, hs]
    exact ht
  · rw [log_record, he, payloads, List.filterMap_append]
    rw [log_record] at hr
    exact (h.sent fun hm => hr (List.mem_append_left _ hm)).trans (List.sublist_append_left ..)

/-- What is left when the parser needs more. -/
theorem Transducing.more (h : Transducing srv c) (e : c.context.recvHttpRequest c.inBuffer = .ok (ctx, buf))
    (hr : ctx.respStatu < 400) (ho : ctx.recvStatu ≠ .recvHttpOver) :
    Idle srv { c with context := ctx, inBuffer := buf } := by
  have hn := undecided_of_more h.waits.respStatu e hr ho
  obtain ⟨s, hd, hc, ht⟩ := h.session
  rw [hc] at e
  exact ⟨⟨h.established, h.released, ⟨_, hd.more (reply_more e hr ho), rfl, ht⟩, h.sent⟩, hn⟩

/-- The events of a response to what was parsed. -/
def answered (srv : HttpServer) (c : HttpConnection) (p : Parsed) (e : Exchange) : List (Event HttpEvent) :=
  .note (.parsed p) :: .note (.respond e.1 e.2) ::
    if c.statu = .disconnected then [] else [.accepted (srv.text e)]

theorem Transducing.respond (h : Transducing srv c) {p : Parsed} {e : Exchange}
    (hl : d.log = c.log ++ srv.answered c p e) (hs : d.statu = c.statu)
    (hd : ∃ s, Session srv.reply (listening, 0) (chunks c.log) ((exchanges c.log).map some ++ [some e]) s d.inBuffer ∧
      d.context = s.1.1 ∧ served c.log + served [.note (.parsed p)] = s.2) : Transducing srv d := by
  have hx : chunks d.log = chunks c.log := by
    rw [hl, chunks_append, answered]
    split <;> exact List.append_nil _
  have he : exchanges d.log = exchanges c.log ++ [e] := by
    rw [hl, exchanges_append, answered]
    split <;> rfl
  have hv : served d.log = served c.log + served [.note (.parsed p)] := by
    rw [hl, served_append, answered]
    split <;> rfl
  have hm : ∀ {ev}, ev ∈ c.log → ev ∈ d.log := fun hm => hl ▸ List.mem_append_left _ hm
  refine ⟨hs.trans_ne h.established, fun ed => hm (h.released (hs.symm.trans ed)), ?_, fun hr => ?_⟩
  · rw [hx, he, hv, List.map_append]
    exact hd
  · have hr : .releaseInLoop ∉ c.log := fun hc => hr (hm hc)
    have ha : payloads (srv.answered c p e) = [srv.text e] := by
      rw [answered, if_neg fun ed => hr (h.released ed)]
      rfl
    rw [he, List.map_append, hl, payloads, List.filterMap_append, ← payloads, ← payloads, ha]
    exact (h.sent hr).append (.refl _)

theorem Transducing.answerError (h : Transducing srv c)
    (e : c.context.recvHttpRequest c.inBuffer = .ok (ctx, buf)) (hr : 400 ≤ ctx.respStatu) :
    Transducing srv (srv.answerError ctx buf c) := by
  obtain ⟨s, hd, hc, ht⟩ := h.session
  rw [hc] at e
  refine h.respond (p := .error ctx.respStatu) (e := (ctx.request, errorHandler (.new ctx.respStatu))) ?_ ?_
    ⟨_, hd.fail (reply_error e hr), rfl, ht⟩
  · show (srv.writeReponse _ _ _).log = _
    rw [log_writeReponse]
    exact List.append_assoc ..
  · exact (srv.writeReponse_same ..).1

theorem Transducing.answer (h : Transducing srv c) (e : c.context.recvHttpRequest c.inBuffer = .ok (ctx, buf))
    (hr : ctx.respStatu < 400) (ho : ctx.recvStatu = .recvHttpOver) {req : HttpRequest} {rsp : HttpResponse}
    (hs : srv.route (served c.log) ctx.request (.new ctx.respStatu) = some (req, rsp)) :
    Transducing srv (srv.answer req rsp (receive ctx buf c)) := by
  obtain ⟨s, hd, hc, ht⟩ := h.session
  rw [hc] at e
  rw [ht] at hs
  have hp : srv.reply s c.inBuffer = _ := reply_over e hr ho
  rw [hs] at hp
  obtain ⟨hst, _, hb⟩ := srv.writeReponse_same req rsp (receive ctx buf c)
  refine h.respond (p := .request ctx.request) (e := (req, rsp)) ?_ hst
    ⟨(listening, s.2 + 1), ?_, rfl, congrArg (· + 1) ht⟩
  · show (srv.writeReponse _ _ _).log = _
    rw [log_writeReponse]
    exact List.append_assoc ..
  · rw [show (srv.answer req rsp (receive ctx buf c)).inBuffer = buf from hb]
    exact hd.emit hp

/-! ## The message callback -/

/-- What answers all that has arrived. -/
def Answers (srv : HttpServer) (f : Callback HttpContext HttpEvent) : Prop :=
  ∀ c, Transducing srv c → Ensures (Idle srv) (f c)

theorem Answers.ifInput {f : Callback HttpContext HttpEvent} (hf : Answers srv f) (h : Transducing srv c) :
    Ensures (Idle srv) (if 0 < c.inBuffer.length then f c else ok c) :=
  ensures_ite (fun _ => hf c h) fun h0 =>
    ensures_ok (h.idle_of_empty (List.length_eq_zero_iff.mp (Nat.eq_zero_of_not_pos h0)))

theorem Answers.shutdownInLoop {f : Callback HttpContext HttpEvent} (hf : Answers srv f) (h : Transducing srv c) :
    Ensures (Idle srv) (c.shutdownInLoop (some f)) := by
  rw [shutdownInLoop_eq]
  exact (hf.ifInput (h.quiet (quiet_beginShutdown c))).andThen fun d hd => ensures_ok (hd.quiet (quiet_endShutdown d))

theorem Answers.shutdown {f : Callback HttpContext HttpEvent} (hf : Answers srv f) (h : Transducing srv c) :
    Ensures (Idle srv) (HttpServer.shutdown f c) :=
  hf.shutdownInLoop (h.quiet (quiet_record c ⟨rfl, rfl, rfl⟩))

theorem answers_onMessageLoop (srv : HttpServer) (fuel : Nat) : Answers srv (srv.onMessageLoop fuel) := by
  induction fuel with
  | zero => exact fun c _ => ensures_stopped _
  | succ fuel ih =>
    intro c h
    rw [onMessageLoop]
    refine ensures_ite (fun h0 => ensures_ok (h.idle_of_empty (List.length_eq_zero_iff.mp h0))) fun _ => ?_
    cases e : c.context.recvHttpRequest c.inBuffer with
    | error err => exact ensures_stopped _
    | ok r =>
      obtain ⟨ctx, buf⟩ := r
      refine ensures_ite (fun hr => ih.shutdown (h.answerError e hr)) fun hr => ?_
      have hr := Int.not_le.mp hr
      refine ensures_ite (fun ho => ensures_ok (h.more e hr ho)) fun ho => ?_
      have ho := Decidable.not_not.mp ho
      cases hs : srv.route (served c.log) ctx.request (.new ctx.respStatu) with
      | none => exact ensures_stopped _
      | some exchange =>
        obtain ⟨req, rsp⟩ := exchange
        have hd := h.answer e hr ho hs
        refine Ensures.andThen (P := Transducing srv) ?_ ih
        exact ensures_ite (fun _ d ed => (ih.shutdown hd d ed).toTransducing) fun _ => ensures_ok hd

theorem answers_onMessage (srv : HttpServer) : Answers srv srv.onMessage :=
  fun c h => answers_onMessageLoop srv (c.inBuffer.length + 2) c h

/-! ## The handlers -/

theorem idle_readHandler (h : Idle srv c) (revents : REvents) (recv : RecvResult) :
    Ensures (Idle srv) (c.readHandler srv.callbacks revents recv) := by
  refine ensures_ite (fun _ => ?_) fun _ => ensures_ok h
  rw [handleRead]
  cases c.nonBlockRecv recv with
  | none => exact (answers_onMessage srv).shutdownInLoop h.toTransducing
  | some data => exact (answers_onMessage srv).ifInput (h.received data)

theorem idle_flushAndRelease (h : Idle srv c) (caller : Caller) : Ensures (Idle srv)
    ((if 0 < c.inBuffer.length then call srv.callbacks.message c else ok c).andThen fun c => ok (c.release caller)) :=
  ((answers_onMessage srv).ifInput h.toTransducing).andThen fun d hd => ensures_ok (hd.quiet (quiet_release caller d))

theorem idle_handleWrite (h : Idle srv c) (r : SendResult) :
    Ensures (Idle srv) (c.handleWrite srv.callbacks.message r) := by
  rw [handleWrite]
  cases c.nonBlockSend r with
  | none => exact idle_flushAndRelease h .handleWriteError
  | some n =>
    have hn : Quiet c ({ c with outBuffer := c.outBuffer.drop n }.record (.handed (c.outBuffer.take n))) :=
      ⟨⟨[.handed (c.outBuffer.take n)], rfl, ⟨rfl, rfl, rfl⟩⟩, rfl, rfl, .inl rfl⟩
    have hi := h.quiet hn
    refine ensures_ite (fun _ => ensures_ok ?_) fun _ => ensures_ok hi
    have hw := hi.quiet (quiet_disableWrite _)
    split
    · exact hw.quiet (quiet_release _ _)
    · exact hw

theorem idle_writeHandler (h : Idle srv c) (revents : REvents) (send : SendResult) :
    Ensures (Idle srv) (c.writeHandler srv.callbacks revents send) :=
  ensures_ite (fun _ => idle_handleWrite h send) fun _ =>
  ensures_ite (fun _ => idle_flushAndRelease h .handleClose) fun _ =>
  ensures_ite (fun _ => idle_flushAndRelease h .handleClose) fun _ => ensures_ok h

theorem idle_handleEvent (h : Idle srv c) : Ensures (Idle srv) (c.handleEvent srv.callbacks.event) :=
  (ensures_ite (fun _ d e => h.quiet (quiet_timerRefresh c d e)) fun _ => ensures_ok h).andThen
    fun _ hd => ensures_ok hd

theorem idle_runNextTask (h : Idle srv c) : Ensures (Idle srv) (c.runNextTask srv.callbacks) := by
  rw [runNextTask]
  cases c.loop.functor with
  | nil => exact ensures_ok h
  | cons t functor =>
    have hp : Idle srv { c with loop := { c.loop with functor } } := h.quiet (quiet_of_eq rfl rfl rfl rfl)
    cases t with
    | established => exact ensures_ite (fun hs => absurd hs hp.established) fun _ => ensures_stopped _
    | release =>
      have hr := hp.quiet (quiet_beginRelease _)
      exact ensures_ok (hr.quiet (quiet_removeConnection _))
    | shutdown => exact (answers_onMessage srv).shutdownInLoop hp.toTransducing
    | send data => exact ensures_ok (hp.quiet (quiet_sendInLoop data _))
    | enableInactiveRelease sec => exact fun d e => hp.quiet (quiet_enableInactiveReleaseInLoop _ sec d e)
    | cancelInactiveRelease => exact ensures_ok (hp.quiet (quiet_cancelInactiveReleaseInLoop _))

theorem idle_exec {s : Step HttpContext HttpEvent} (hs : s.OfServer srv) (h : Idle srv c) :
    Ensures (Idle srv) (s.exec c) := by
  cases s with
  | handleEvent cbs revents recv send =>
    obtain rfl : cbs = srv.callbacks := hs
    rw [Step.exec, channelHandleEvent_eq]
    exact (idle_readHandler h revents recv).andThen fun _ h =>
      (idle_writeHandler h revents send).andThen fun _ h => idle_handleEvent h
  | onTime times => exact ensures_ok (h.quiet (quiet_onTime c times))
  | callback cb => exact hs.elim
  | queueInLoop t =>
    refine ensures_ok ?_
    show Idle srv (c.queueFromThread t)
    unfold queueFromThread
    split
    · exact h.quiet (quiet_release _ c)
    · exact h.quiet (quiet_of_eq rfl rfl rfl rfl)
  | swapTasks => exact ensures_ok (h.quiet (quiet_of_eq rfl rfl rfl rfl))
  | runTask cbs =>
    obtain rfl : cbs = srv.callbacks := hs
    exact idle_runNextTask h
  | removeConnectionInLoop =>
    refine ensures_ok ?_
    split
    · have hr : Idle srv { c with removals := c.removals - 1 } := h.quiet (quiet_of_eq rfl rfl rfl rfl)
      exact hr.quiet (quiet_removeConnectionInLoop _)
    · exact h

/-! ## Every run -/

theorem idle_firstTasks (srv : HttpServer) (connId : UInt64) (onBaseLoop : Bool) (context : HttpContext)
    (timeout : Option UInt32) : Ensures (Idle srv) (run srv.firstTasks (new connId onBaseLoop context timeout)) := by
  obtain ⟨c, e, hs, hc, hb, _, hl⟩ := run_firstTasks srv connId onBaseLoop context timeout
  rw [e]
  have h : Transducing srv c := by
    refine ⟨by rw [hs]; decide, fun e => ?_, ⟨(listening, 0), ?_, hc, by rw [hl]; rfl⟩, fun _ => ?_⟩
    · rw [hs] at e
      cases e
    · rw [hl, hb]
      exact .start
    · rw [hl]
      exact .refl _
  exact ensures_ok (h.idle_of_empty hb)

theorem ofServer_all {s : Step HttpContext HttpEvent} (hs : s.OfServer srv) : s.All UserCode := by
  have hc : srv.callbacks.All UserCode := by
    intro f hf
    simp only [callbacks, List.mem_cons, Option.some.injEq, List.not_mem_nil, reduceCtorEq, or_false] at hf
    rcases hf with rfl | rfl
    · exact .setContext HttpContext.new
    · exact srv.userCode_onMessage
  cases s with
  | handleEvent cbs _ _ _ | runTask cbs =>
    obtain rfl : cbs = srv.callbacks := hs
    exact hc
  | callback cb => exact hs.elim
  | onTime | queueInLoop | swapTasks | removeConnectionInLoop => trivial

theorem firstTasks_ofServer (srv : HttpServer) : ∀ s ∈ srv.firstTasks, s.OfServer srv := by
  intro s hs
  simp only [firstTasks, List.mem_cons, List.not_mem_nil, or_false] at hs
  rcases hs with rfl | rfl | rfl
  · trivial
  · rfl
  · rfl

theorem idle_run (srv : HttpServer) (connId : UInt64) (onBaseLoop : Bool) (context : HttpContext)
    (timeout : Option UInt32) {steps : List (Step HttpContext HttpEvent)} (hs : ∀ s ∈ steps, s.OfServer srv) :
    Ensures (Idle srv) (run (srv.firstTasks ++ steps) (new connId onBaseLoop context timeout)) := by
  rw [run, Outcome.runAll_append, ← run]
  exact (idle_firstTasks srv connId onBaseLoop context timeout).andThen
    (ensures_runAll fun s hm _ h => idle_exec (hs s hm) h)

theorem Idle.exchanges_eq_restarts (h : Idle srv c) :
    (exchanges c.log).map some = restarts srv.reply (listening, 0) [] (chunks c.log) := by
  obtain ⟨s, hd, hc, -⟩ := h.session
  obtain ⟨ctx, buf, e, hr, ho⟩ := h.undecided
  rw [hc] at e
  exact (reply_stable srv).restarts_eq (reply_shrinking srv) (reply_silent srv) hd (reply_more e hr ho)

theorem flatten_payloads_run (srv : HttpServer) (connId : UInt64) (onBaseLoop : Bool) (context : HttpContext)
    (timeout : Option UInt32) {steps : List (Step HttpContext HttpEvent)} (hs : ∀ s ∈ steps, s.OfServer srv) :
    let c := (run (srv.firstTasks ++ steps) (new connId onBaseLoop context timeout)).state
    (payloads c.log).flatten = handed c.log ++ c.outBuffer := by
  intro c
  have ha : ∀ s ∈ srv.firstTasks ++ steps, s.All UserCode := fun s hm =>
    ofServer_all ((List.mem_append.mp hm).elim (firstTasks_ofServer srv s) (hs s))
  have hb := balanced_preserved.keeps_run ha _ (new_balanced connId onBaseLoop context timeout)
  exact (flatten_payloads c.log).trans hb.order

/-- In every run of a connection in which its thread does not end: the
responses are those that `reply` gives for the chunks received, and as long as
the connection is not released they are sent whole and in order, among what
other threads send on it. -/
theorem run_transduces (srv : HttpServer) (connId : UInt64) (onBaseLoop : Bool) (context : HttpContext)
    (timeout : Option UInt32) (steps : List (Step HttpContext HttpEvent)) (hs : ∀ s ∈ steps, s.OfServer srv)
    {c : HttpConnection} (e : run (srv.firstTasks ++ steps) (new connId onBaseLoop context timeout) = ok c) :
    (exchanges c.log).map some = restarts srv.reply (listening, 0) [] (chunks c.log) ∧
      (payloads c.log).flatten = handed c.log ++ c.outBuffer ∧
      (.releaseInLoop ∉ c.log → ((exchanges c.log).map srv.text).Sublist (payloads c.log)) := by
  have hi := idle_run srv connId onBaseLoop context timeout hs c e
  have hp := flatten_payloads_run srv connId onBaseLoop context timeout hs
  rw [e] at hp
  exact ⟨hi.exchanges_eq_restarts, hp, hi.sent⟩

/-- The poller reports chunks, one after the other. -/
def reads (srv : HttpServer) (xs : List Bytes) : List (Step HttpContext HttpEvent) :=
  xs.map fun x => .handleEvent srv.callbacks { pollIn := true } (.bytes x) (.sent 0)

theorem reads_ofServer (srv : HttpServer) (xs : List Bytes) : ∀ s ∈ srv.reads xs, s.OfServer srv := by
  intro s hs
  obtain ⟨x, _, rfl⟩ := List.mem_map.mp hs
  rfl

/-- A line that is no request line, with what is dropped after it, and two
requests. -/
def dropped : List Bytes := [str "bad\r\nGET /b", getPage, getPage]

set_option maxRecDepth 4000 in
theorem run_dropped :
    let o := run (greeter.firstTasks ++ greeter.reads dropped) (new 1 true .new none)
    o = ok o.state ∧ chunks o.state.log = dropped ∧
      exchanges o.state.log =
        [(HttpRequest.new, errorHandler (.new 400)), (pageRequest, greeting), (pageRequest, greeting)] :=
  ⟨rfl, by decide +kernel, by decide +kernel⟩

theorem run_transduces_dropped : restarts greeter.reply (listening, 0) [] dropped =
    [some (HttpRequest.new, errorHandler (.new 400)), some (pageRequest, greeting), some (pageRequest, greeting)] := by
  obtain ⟨e, hx, he⟩ := run_dropped
  have hr := (run_transduces greeter 1 true .new none _ (greeter.reads_ofServer _) e).1
  rw [hx, he] at hr
  exact hr.symm

end HttpServer

end Mudou
