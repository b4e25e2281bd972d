import Mudou.Buffer
import Mudou.Http.Unparsed

/-!
# Receiving from the buffer itself

`HttpContext` and `OnMessage` of `source/http.hpp` again, this time on the
`Buffer` of `source/server.hpp` with its vector and its offsets, where an
operation can fail an assertion or leave the vector (`none`). Of `OnMessage`
this is what concerns the input buffer and the context; what is sent is left
out.

`feed_simulates`: whatever bytes arrive in whatever chunks, no operation fails,
and the code does what it does on a byte queue. The vector of the input buffer
stays below `maxLine + 2 * 65535` bytes.
-/

namespace Mudou

open Fifo Outcome

namespace HttpContext.OnBuffer

def recvHttpLine (ctx : HttpContext) (buf : Buffer) : Option (HttpContext × Buffer) :=
  if ctx.recvStatu ≠ .recvHttpLine then some (ctx, buf)
  else do
    let (line, buf) ← buf.getLineAndPop
    if line.length = 0 then
      if maxLine < buf.readAbleSize then some (ctx.fail 414, buf) else some (ctx, buf)
    else if maxLine < line.length then some (ctx.fail 414, buf)
    else
      match ctx.parseHttpLine line with
      | (ctx, false) => some (ctx, buf)
      | (ctx, true) => some ({ ctx with recvStatu := .recvHttpHead }, buf)

/-- The loop of `RecvHttpHead`, with fuel for each line. -/
def recvHeadLoop : Nat → HttpContext → Buffer → Option (HttpContext × Buffer)
  | 0, ctx, buf => some (ctx, buf)
  | fuel + 1, ctx, buf => do
    let (line, buf) ← buf.getLineAndPop
    if line.length = 0 then
      if maxLine < buf.readAbleSize then some (ctx.fail 414, buf) else some (ctx, buf)
    else if maxLine < line.length then some (ctx.fail 414, buf)
    else if line = str "\n" ∨ line = str "\r\n" then some ({ ctx with recvStatu := .recvHttpBody }, buf)
    else
      match ctx.parseHttpHead line with
      | (ctx, false) => some (ctx, buf)
      | (ctx, true) => recvHeadLoop fuel ctx buf

def recvHttpHead (ctx : HttpContext) (buf : Buffer) : Option (HttpContext × Buffer) :=
  if ctx.recvStatu ≠ .recvHttpHead then some (ctx, buf) else recvHeadLoop (buf.readAbleSize + 1) ctx buf

/-- `_request._body.append(buf->ReadPosition(), len)` and then
`buf->MoveReadOffset(len)`. -/
def takeBody (ctx : HttpContext) (buf : Buffer) (len : Nat) : Option (HttpContext × Buffer) := do
  let data ← buf.fromReadPosition len
  let buf ← buf.moveReadOffset len
  some (ctx.appendBody data, buf)

def recvHttpBody (ctx : HttpContext) (buf : Buffer) : Option (Except StolError (HttpContext × Buffer)) :=
  if ctx.recvStatu ≠ .recvHttpBody then some (.ok (ctx, buf))
  else
    match ctx.request.contentLength with
    | .error e => some (.error e)
    | .ok contentLength =>
      if contentLength = 0 then some (.ok ({ ctx with recvStatu := .recvHttpOver }, buf))
      else
        let realLen := HttpRequest.sizeT (contentLength - ctx.request.body.length)
        if realLen ≤ buf.readAbleSize then do
          let (ctx, buf) ← takeBody ctx buf realLen
          some (.ok ({ ctx with recvStatu := .recvHttpOver }, buf))
        else do
          let (ctx, buf) ← takeBody ctx buf buf.readAbleSize
          some (.ok (ctx, buf))

def recvHttpRequest (ctx : HttpContext) (buf : Buffer) : Option (Except StolError (HttpContext × Buffer)) :=
  match ctx.recvStatu with
  | .recvHttpLine => do
    let (ctx, buf) ← recvHttpLine ctx buf
    let (ctx, buf) ← recvHttpHead ctx buf
    recvHttpBody ctx buf
  | .recvHttpHead => do
    let (ctx, buf) ← recvHttpHead ctx buf
    recvHttpBody ctx buf
  | .recvHttpBody => recvHttpBody ctx buf
  | .recvHttpError | .recvHttpOver => some (.ok (ctx, buf))

/-! ## The same on a queue -/

/-- The queue is read from the buffer, whose vector stays as it is. -/
structure Reads (buf : Buffer) (q : Bytes) (vector : Bytes) : Prop extends buf.Holds q where
  vector_eq : buf.buffer = vector

variable {buf : Buffer} {q vector : Bytes}

/-- The result is that on the queue. -/
def Does (vector : Bytes) (o : Option (HttpContext × Buffer)) (r : HttpContext × Bytes) : Prop :=
  ∃ buf, o = some (r.1, buf) ∧ Reads buf r.2 vector

theorem moveReadOffset_buffer {b b' : Buffer} {n : Nat} (h : b.moveReadOffset n = some b') : b'.buffer = b.buffer := by
  rw [Buffer.moveReadOffset] at h
  split at h
  · cases h
    rfl
  · split at h
    · cases h
      rfl
    · cases h

theorem Reads.moveReadOffset (h : Reads buf q vector) {n : Nat} (hn : n ≤ q.length) :
    ∃ buf', buf.moveReadOffset n = some buf' ∧ Reads buf' (q.drop n) vector := by
  obtain ⟨buf', e, h'⟩ := Buffer.moveReadOffset_holds h.toHolds hn
  exact ⟨buf', e, h', (moveReadOffset_buffer e).trans h.vector_eq⟩

theorem Reads.getLineAndPop (h : Reads buf q vector) :
    ∃ buf', buf.getLineAndPop = some ((popLine lf q).1, buf') ∧ Reads buf' (popLine lf q).2 vector := by
  obtain ⟨buf', e, h'⟩ := Buffer.getLineAndPop_holds h.toHolds
  refine ⟨buf', e, h', ?_⟩
  simp only [Buffer.getLineAndPop, Buffer.getLine_eq h.toHolds, Option.bind_eq_bind, Option.bind_some,
    Option.bind_eq_some_iff] at e
  obtain ⟨b, hb, e⟩ := e
  obtain ⟨-, rfl⟩ := Prod.mk.inj (Option.some.inj e)
  exact (moveReadOffset_buffer hb).trans h.vector_eq

theorem Reads.recvHttpLine (h : Reads buf q vector) (ctx : HttpContext) :
    Does vector (recvHttpLine ctx buf) (ctx.recvHttpLine q) := by
  unfold OnBuffer.recvHttpLine HttpContext.recvHttpLine
  by_cases hs : ctx.recvStatu ≠ .recvHttpLine
  · rw [if_pos hs, if_pos hs]
    exact ⟨buf, rfl, h⟩
  · obtain ⟨buf', e, h'⟩ := h.getLineAndPop
    rw [if_neg hs, if_neg hs]
    simp only [e, Option.bind_eq_bind, Option.bind_some, ← h'.length]
    split
    · split <;> exact ⟨buf', rfl, h'⟩
    · split
      · exact ⟨buf', rfl, h'⟩
      · rcases ctx.parseHttpLine (popLine lf q).1 with ⟨ctx', _ | _⟩
        · exact ⟨buf', rfl, h'⟩
        · exact ⟨buf', rfl, h'⟩

theorem Reads.recvHeadLoop (fuel : Nat) : ∀ (ctx : HttpContext) {buf : Buffer} {q : Bytes}, Reads buf q vector →
    Does vector (recvHeadLoop fuel ctx buf) (ctx.recvHeadLoop fuel q) := by
  induction fuel with
  | zero => exact fun _ buf _ h => ⟨buf, rfl, h⟩
  | succ fuel ih =>
    intro ctx buf q h
    obtain ⟨buf', e, h'⟩ := h.getLineAndPop
    unfold OnBuffer.recvHeadLoop HttpContext.recvHeadLoop
    simp only [e, Option.bind_eq_bind, Option.bind_some, ← h'.length]
    split
    · split <;> exact ⟨buf', rfl, h'⟩
    · split
      · exact ⟨buf', rfl, h'⟩
      · split
        · exact ⟨buf', rfl, h'⟩
        · rcases ctx.parseHttpHead (popLine lf q).1 with ⟨ctx', _ | _⟩
          · exact ⟨buf', rfl, h'⟩
          · exact ih ctx' h'

theorem Reads.recvHttpHead (h : Reads buf q vector) (ctx : HttpContext) :
    Does vector (recvHttpHead ctx buf) (ctx.recvHttpHead q) := by
  unfold OnBuffer.recvHttpHead HttpContext.recvHttpHead
  split
  · exact ⟨buf, rfl, h⟩
  · rw [← h.length]
    exact Reads.recvHeadLoop _ ctx h

theorem Reads.takeBody (h : Reads buf q vector) (ctx : HttpContext) {n : Nat} (hn : n ≤ q.length) :
    Does vector (takeBody ctx buf n) (ctx.appendBody (q.take n), q.drop n) := by
  obtain ⟨buf', e, h'⟩ := h.moveReadOffset hn
  refine ⟨buf', ?_, h'⟩
  simp only [OnBuffer.takeBody, h.fromReadPosition hn, Option.bind_eq_bind, Option.bind_some, e]

/-- The same, where `std::stol` may throw. -/
def DoesSo (vector : Bytes) (o : Option (Except StolError (HttpContext × Buffer))) :
    Except StolError (HttpContext × Bytes) → Prop
  | .error e => o = some (.error e)
  | .ok r => ∃ buf, o = some (.ok (r.1, buf)) ∧ Reads buf r.2 vector

theorem Reads.recvHttpBody (h : Reads buf q vector) (ctx : HttpContext) :
    DoesSo vector (recvHttpBody ctx buf) (ctx.recvHttpBody q) := by
  unfold OnBuffer.recvHttpBody HttpContext.recvHttpBody
  split
  · exact ⟨buf, rfl, h⟩
  · cases hc : ctx.request.contentLength with
    | error e => rfl
    | ok n =>
      simp only [← h.length]
      split
      · exact ⟨buf, rfl, h⟩
      · split
        · next hn =>
          obtain ⟨buf', e, h'⟩ := h.takeBody ctx hn
          exact ⟨buf', by rw [e]; rfl, h'⟩
        · obtain ⟨buf', e, h'⟩ := h.takeBody ctx (Nat.le_refl _)
          rw [List.drop_length, List.take_length] at h'
          exact ⟨buf', by rw [e, List.take_length]; rfl, h'⟩

theorem Reads.headBody (h : Reads buf q vector) (ctx : HttpContext) :
    DoesSo vector (do let (ctx, buf) ← OnBuffer.recvHttpHead ctx buf; OnBuffer.recvHttpBody ctx buf)
      ((ctx.recvHttpHead q).1.recvHttpBody (ctx.recvHttpHead q).2) := by
  obtain ⟨buf', e, h'⟩ := h.recvHttpHead ctx
  rw [e]
  exact h'.recvHttpBody _

theorem Reads.recvHttpRequest (h : Reads buf q vector) (ctx : HttpContext) :
    DoesSo vector (recvHttpRequest ctx buf) (ctx.recvHttpRequest q) := by
  unfold OnBuffer.recvHttpRequest HttpContext.recvHttpRequest
  cases ctx.recvStatu with
  | recvHttpLine =>
    obtain ⟨buf', e, h'⟩ := h.recvHttpLine ctx
    simp only [e, Option.bind_eq_bind, Option.bind_some]
    exact h'.headBody _
  | recvHttpHead => exact h.headBody ctx
  | recvHttpBody => exact h.recvHttpBody ctx
  | recvHttpError | recvHttpOver => exact ⟨buf, rfl, h⟩

end HttpContext.OnBuffer

/-! ## The message callback -/

/-- A connection, as far as `OnMessage` reads its input buffer. -/
structure Receiver where
  context : HttpContext
  inBuffer : Buffer
  /-- what was parsed -/
  log : List Parsed

namespace Receiver

open HttpContext

/-- The number of requests served. -/
def served (r : Receiver) : Nat :=
  r.log.countP fun p => match p with
    | .request _ => true
    | _ => false

def report (r : Receiver) (p : Parsed) : Receiver := { r with log := r.log ++ [p] }

/-- Code behind code that returned. -/
def andThen (o : Option (Outcome Receiver)) (f : Receiver → Option (Outcome Receiver)) : Option (Outcome Receiver) := do
  match ← o with
  | .ok r => f r
  | .stopped r => some (stopped r)

/-- `conn->Shutdown()`. -/
def shutdown (onMessage : Receiver → Option (Outcome Receiver)) (r : Receiver) : Option (Outcome Receiver) :=
  if 0 < r.inBuffer.readAbleSize then onMessage r else some (ok r)

def onMessageLoop (srv : HttpServer) : Nat → Receiver → Option (Outcome Receiver)
  | 0, r => some (stopped r)
  | fuel + 1, r =>
    if r.inBuffer.readAbleSize = 0 then some (ok r)
    else do
      match ← OnBuffer.recvHttpRequest r.context r.inBuffer with
      | .error e => some (stopped (r.report (.exception e)))
      | .ok (context, inBuffer) =>
        if 400 ≤ context.respStatu then do
          let inBuffer ← inBuffer.moveReadOffset inBuffer.readAbleSize
          shutdown (onMessageLoop srv fuel)
            ({ r with context := context.reSet, inBuffer }.report (.error context.respStatu))
        else if context.recvStatu ≠ .recvHttpOver then some (ok { r with context, inBuffer })
        else
          let received := { r with context, inBuffer }.report (.request context.request)
          match srv.route r.served context.request (.new context.respStatu) with
          | none => some (stopped received)
          | some (req, rsp) =>
            let r := { received with context := context.reSet }
            andThen (if (HttpServer.completeHeaders req rsp).close then shutdown (onMessageLoop srv fuel) r
              else some (ok r)) (onMessageLoop srv fuel)

def onMessage (srv : HttpServer) (r : Receiver) : Option (Outcome Receiver) :=
  onMessageLoop srv (r.inBuffer.readAbleSize + 2) r

/-- `HandleRead` reads no more at once. -/
def recvSize : Nat := 65535

/-- `HandleRead` has read a chunk. -/
def arrive (srv : HttpServer) (chunk : Bytes) (r : Receiver) : Option (Outcome Receiver) := do
  let inBuffer ← r.inBuffer.writeAndPush chunk
  onMessage srv { r with inBuffer }

def feed (srv : HttpServer) : List Bytes → Receiver → Option (Outcome Receiver)
  | [], r => some (ok r)
  | chunk :: chunks, r => andThen (arrive srv chunk r) (feed srv chunks)

/-! ## The connection does the same -/

open HttpServer (trace)

/-- The receiver is in the state of the connection. -/
structure Sim (vector : Bytes) (r : Receiver) (c : HttpConnection) : Prop where
  context : r.context = c.context
  inBuffer : OnBuffer.Reads r.inBuffer c.inBuffer vector
  log : r.log = trace c.log

def Simulates (vector : Bytes) (o : Option (Outcome Receiver)) : Outcome HttpConnection → Prop
  | .ok c => ∃ r, o = some (ok r) ∧ Sim vector r c
  | .stopped c => ∃ r, o = some (stopped r) ∧ Sim vector r c

variable {srv : HttpServer} {r : Receiver} {c d : HttpConnection} {vector : Bytes}

theorem Sim.served (h : Sim vector r c) : r.served = HttpServer.served c.log := by
  rw [Receiver.served, h.log]
  rfl

theorem Sim.same (h : Sim vector r c) (hs : HttpServer.Same c d) : Sim vector r d :=
  ⟨h.context.trans hs.context.symm, hs.inBuffer ▸ h.inBuffer, h.log.trans hs.trace.symm⟩

theorem Simulates.andThen {o : Option (Outcome Receiver)} {o' : Outcome HttpConnection} (h : Simulates vector o o')
    {f : Receiver → Option (Outcome Receiver)} {g : HttpConnection → Outcome HttpConnection}
    (hf : ∀ {r c}, Sim vector r c → Simulates vector (f r) (g c)) :
    Simulates vector (Receiver.andThen o f) (o'.andThen g) := by
  cases o' with
  | ok c =>
    obtain ⟨r, rfl, hr⟩ := h
    exact hf hr
  | stopped c =>
    obtain ⟨r, rfl, hr⟩ := h
    exact ⟨r, rfl, hr⟩

theorem Sim.shutdown (h : Sim vector r c) {f : Receiver → Option (Outcome Receiver)}
    {g : Callback HttpContext HttpEvent} (hf : ∀ {r c}, Sim vector r c → Simulates vector (f r) (g c)) :
    Simulates vector (shutdown f r) (HttpServer.shutdown g c) := by
  rw [HttpServer.shutdown_eq]
  have hc : Sim vector r (HttpServer.closing c) := h.same (HttpServer.same_beginShutdown c)
  have hend : ∀ {o o'}, Simulates vector o o' → Simulates vector o (o'.andThen fun c => ok c.endShutdown) := by
    intro o o' ho
    cases o' with
    | ok c =>
      obtain ⟨r, rfl, hr⟩ := ho
      exact ⟨r, rfl, hr.same (HttpServer.same_endShutdown c)⟩
    | stopped c => exact ho
  refine hend ?_
  rw [Receiver.shutdown, ← hc.inBuffer.length]
  split
  · exact hf hc
  · exact ⟨r, rfl, hc⟩

theorem trace_note (c : HttpConnection) (p : Parsed) :
    trace (c.record (.note (.parsed p))).log = trace c.log ++ [p] := HttpServer.trace_append ..

/-- Something was parsed. -/
theorem Sim.report (h : Sim vector r c) {context : HttpContext} {inBuffer : Buffer} {q : Bytes}
    (hb : OnBuffer.Reads inBuffer q vector) (p : Parsed) :
    Sim vector ({ r with context, inBuffer }.report p)
      (({ c with context, inBuffer := q } : HttpConnection).record (.note (.parsed p))) where
  context := rfl
  inBuffer := hb
  log := (congrArg (· ++ [p]) h.log).trans (trace_note _ p).symm

/-- Nothing that is parsed is written to the log. -/
theorem Sim.log_append (h : Sim vector r c) {event : Event HttpEvent} (he : trace [event] = []) :
    r.log = trace (c.record event).log := by
  rw [Connection.log_record, HttpServer.trace_append, he, List.append_nil]
  exact h.log

theorem Sim.onMessageLoop (fuel : Nat) : ∀ {r : Receiver} {c : HttpConnection}, Sim vector r c →
    Simulates vector (onMessageLoop srv fuel r) (srv.onMessageLoop fuel c) := by
  induction fuel with
  | zero => exact fun h => ⟨_, rfl, h.context, h.inBuffer, h.log_append rfl⟩
  | succ fuel ih =>
    intro r c h
    have hreq := h.inBuffer.recvHttpRequest c.context
    unfold Receiver.onMessageLoop HttpServer.onMessageLoop
    rw [h.inBuffer.length, h.context]
    split
    · exact ⟨r, rfl, h⟩
    cases e : c.context.recvHttpRequest c.inBuffer with
    | error err =>
      rw [e] at hreq
      rw [show OnBuffer.recvHttpRequest _ _ = _ from hreq]
      exact ⟨_, rfl, h.context, h.inBuffer, (congrArg (· ++ _) h.log).trans (trace_note c _).symm⟩
    | ok res =>
      obtain ⟨context, inBuffer⟩ := res
      rw [e] at hreq
      obtain ⟨buf, eb, hbuf⟩ := hreq
      rw [eb]
      simp only [Option.bind_eq_bind, Option.bind_some]
      split
      · obtain ⟨buf', eb', hbuf'⟩ := hbuf.moveReadOffset (Nat.le_refl _)
        rw [List.drop_length] at hbuf'
        rw [← hbuf.length, eb']
        refine Sim.shutdown ⟨rfl, hbuf', ?_⟩ ih
        exact (congrArg (· ++ _) h.log).trans (srv.trace_answerError context inBuffer c).symm
      · split
        · exact ⟨_, rfl, rfl, hbuf, h.log⟩
        · have hrec : Sim vector ({ r with context, inBuffer := buf }.report (.request context.request))
            (HttpServer.receive context inBuffer c) := h.report hbuf _
          rw [h.served]
          cases srv.route (HttpServer.served c.log) context.request (.new context.respStatu) with
          | none => exact ⟨_, rfl, hrec.context, hrec.inBuffer, hrec.log_append rfl⟩
          | some res =>
            obtain ⟨req, rsp⟩ := res
            obtain ⟨hat, hin, ht⟩ := srv.at_answer req rsp context inBuffer c
            have hans : Sim vector
                { { r with context, inBuffer := buf }.report (.request context.request) with context := context.reSet }
                (srv.answer req rsp (HttpServer.receive context inBuffer c)) :=
              ⟨hat.context.symm, by rw [hin]; exact hbuf, (congrArg (· ++ _) h.log).trans ht.symm⟩
            refine Simulates.andThen ?_ ih
            split
            · exact hans.shutdown ih
            · exact ⟨_, rfl, hans⟩

/-! ## The vector -/

/-- Space is made in the vector as it is, or the vector grows. -/
theorem length_ensureWriteSpace {b b' : Buffer} {q : Bytes} (h : b.Holds q) {n : Nat}
    (e : b.ensureWriteSpace n = some b') : b'.buffer.length ≤ max b.buffer.length (q.length + 2 * n) := by
  have hw := h.writer_le
  have hr := h.reader_le
  have hq := h.length
  rw [Buffer.ensureWriteSpace] at e
  by_cases h₁ : n ≤ b.tailIdleSize
  · rw [if_pos h₁] at e
    cases e
    exact Nat.le_max_left ..
  rw [if_neg h₁] at e
  by_cases h₂ : n ≤ b.tailIdleSize + b.headIdleSize
  · rw [if_pos h₂] at e
    have hin : b.readerIdx + b.readAbleSize ≤ b.buffer.length := by rw [Buffer.readAbleSize]; omega
    rw [if_pos hin] at e
    cases e
    have hs : (slice b.buffer b.readerIdx b.readAbleSize).length = b.readAbleSize := by
      rw [length_slice]
      omega
    rw [copyWithin_eq _ b.buffer b.readerIdx 0 (Nat.zero_le _) hin, length_overwrite (by omega)]
    exact Nat.le_max_left ..
  · rw [if_neg h₂] at e
    cases e
    simp only [Buffer.tailIdleSize, Buffer.headIdleSize, Buffer.readAbleSize] at h₁ h₂ hq
    rw [Buffer.length_resize (by omega)]
    omega

theorem length_writeAndPush {b b' : Buffer} {q : Bytes} (h : b.Holds q) {data : Bytes}
    (e : b.writeAndPush data = some b') : b'.buffer.length ≤ max b.buffer.length (q.length + 2 * data.length) := by
  simp only [Buffer.writeAndPush, Option.bind_eq_bind, Option.bind_eq_some_iff] at e
  obtain ⟨b₁, e₁, e⟩ := e
  have hb : b'.buffer = b₁.buffer := by
    rw [Buffer.moveWriteOffset] at e
    split at e
    · cases e
      rfl
    · cases e
  rw [hb]
  rw [Buffer.write] at e₁
  split at e₁
  · cases e₁
    exact Nat.le_max_left ..
  · simp only [Option.bind_eq_bind, Option.bind_eq_some_iff] at e₁
    obtain ⟨b₂, e₂, e₁⟩ := e₁
    have hl := length_ensureWriteSpace h e₂
    split at e₁
    · next hin =>
      cases e₁
      rw [length_overwrite hin]
      exact hl
    · cases e₁

theorem Sim.onMessage (h : Sim vector r c) : Simulates vector (onMessage srv r) (srv.onMessage c) := by
  rw [Receiver.onMessage, HttpServer.onMessage, ← h.inBuffer.length]
  exact h.onMessageLoop _

theorem Sim.arrive (h : Sim vector r c) (chunk : Bytes) :
    ∃ vector', vector'.length ≤ max vector.length (c.inBuffer.length + 2 * chunk.length) ∧
      Simulates vector' (arrive srv chunk r) (srv.arrive chunk c) := by
  obtain ⟨b, e, hb⟩ := Buffer.writeAndPush_holds h.inBuffer.toHolds chunk
  have hl := length_writeAndPush h.inBuffer.toHolds e
  rw [h.inBuffer.vector_eq] at hl
  refine ⟨b.buffer, hl, ?_⟩
  rw [Receiver.arrive, e]
  have hs : Sim b.buffer { r with inBuffer := b } { c with inBuffer := c.inBuffer ++ chunk } :=
    ⟨h.context, ⟨hb, rfl⟩, h.log⟩
  exact hs.onMessage

/-- The bytes of an unfinished line, and twice what is read at once. -/
def vectorBound : Nat := maxLine + 2 * recvSize

/-- By induction on the chunks: each call leaves at most an unfinished line. -/
theorem Sim.feed (chunks : List Bytes) (hx : ∀ x ∈ chunks, x.length ≤ recvSize) :
    ∀ {r : Receiver} {c : HttpConnection} {vector : Bytes}, Sim vector r c → c.context.Waits →
      c.inBuffer.length ≤ maxLine → vector.length ≤ vectorBound →
        ∃ vector', vector'.length ≤ vectorBound ∧ Simulates vector' (feed srv chunks r) (srv.feed chunks c) := by
  induction chunks with
  | nil => exact fun {r _ vector} h _ _ hv => ⟨vector, hv, r, rfl, h⟩
  | cons x chunks ih =>
    intro r c vector h hw hq hv
    obtain ⟨vector₁, hl, hsim⟩ := @Sim.arrive srv r c vector h x
    have hv₁ : vector₁.length ≤ vectorBound := by
      have := hx x List.mem_cons_self
      unfold vectorBound at hv ⊢
      omega
    rw [Receiver.feed, HttpServer.feed, runAll]
    cases e : srv.arrive x c with
    | stopped d =>
      rw [e] at hsim
      obtain ⟨r₁, er, h₁⟩ := hsim
      rw [er]
      exact ⟨vector₁, hv₁, r₁, rfl, h₁⟩
    | ok d =>
      rw [e] at hsim
      obtain ⟨r₁, er, h₁⟩ := hsim
      rw [er]
      have hw' : ({ c with inBuffer := c.inBuffer ++ x } : HttpConnection).context.Waits := hw
      have hr : HttpServer.Runs srv _ (srv.arrive x c) := HttpServer.runs_onMessage srv hw'
      exact ih (fun y hy => hx y (List.mem_cons_of_mem _ hy)) h₁ (hr.left hw' e).1 (hr.unparsed hw' e).length hv₁

/-- Bytes that arrive at a new connection in any chunks: on its input buffer no
assertion fails and nothing outside the vector is read or written, the parser
and the loop of `OnMessage` do what they do on a queue of bytes, and the vector
never has more than `vectorBound` bytes. -/
theorem feed_simulates (srv : HttpServer) (c : HttpConnection) (hc : c.context = .new) (hb : c.inBuffer = [])
    (chunks : List Bytes) (hx : ∀ x ∈ chunks, x.length ≤ recvSize) :
    ∃ vector, vector.length ≤ vectorBound ∧
      Simulates vector (feed srv chunks ⟨.new, .new, trace c.log⟩) (srv.feed chunks c) := by
  have h : Sim Buffer.new.buffer ⟨.new, .new, trace c.log⟩ c := ⟨hc.symm, ⟨hb ▸ Buffer.new_holds, rfl⟩, rfl⟩
  refine h.feed chunks hx (hc ▸ .new) (hb ▸ Nat.zero_le _) ?_
  rw [Buffer.new, List.length_replicate]
  decide

/-- Two requests in three chunks, the second one of them closing. -/
theorem feed_simulates_threeChunks :
    let chunks := [str "GET /a HTTP/1.1\r\nConnection: keep", str "-alive\r\n\r\nGET /b HTTP/1.1\r", str "\n\r\nGET"]
    ∃ vector, vector.length ≤ vectorBound ∧ Simulates vector (feed HttpServer.noRoutes chunks ⟨.new, .new, []⟩)
      (HttpServer.noRoutes.feed chunks (Connection.new 1 true .new none)) :=
  feed_simulates HttpServer.noRoutes (Connection.new 1 true .new none) rfl rfl _ (by decide)

end Receiver

end Mudou
