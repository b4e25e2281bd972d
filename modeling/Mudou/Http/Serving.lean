import Mudou.Http.Server

/-!
# What the message callback does to a connection

`OnMessage` is user code (`userCode_onMessage`). A property with the
obligations of `MessagePreserved` or `RoundPreserved`, one for each way
through the loop, is kept by it, and with those of `LoopPreserved` holds
throughout every run of a connection of the server
(`RoundPreserved.keeps_run`).
-/

namespace Mudou

open Outcome

/-- A step of a connection of the server, which hands its connections to
nobody else. -/
def Connection.Step.OfServer (srv : HttpServer) : Connection.Step HttpContext HttpEvent → Prop
  | .handleEvent cbs _ _ _ | .runTask cbs => cbs = srv.callbacks
  | .callback _ => False
  | _ => True

namespace HttpServer

open Connection

variable (srv : HttpServer)

/-! ## Writing a response -/

/-- The events of a response: it is sent unless the connection is released. -/
theorem log_writeReponse (req : HttpRequest) (rsp : HttpResponse) (c : HttpConnection) :
    (srv.writeReponse req rsp c).log = c.log ++ .note (.respond req rsp) ::
      if c.statu = .disconnected then [] else [.accepted (srv.rspStr req (completeHeaders req rsp))] := by
  rw [writeReponse]
  rcases sendInLoop_cases (c.record (.note (.respond req rsp)))
    (srv.rspStr req (completeHeaders req rsp)) with ⟨hs, e⟩ | ⟨hs, e | e⟩
  · rw [e, if_pos (show c.statu = _ from hs), log_record]
  · rw [e, if_neg (show c.statu ≠ _ from hs)]
    simp [accept, enableWrite]
  · rw [e, if_neg (show c.statu ≠ _ from hs)]
    simp [accept]

/-- A response leaves alone what the parser uses. -/
theorem writeReponse_same (req : HttpRequest) (rsp : HttpResponse) (c : HttpConnection) :
    (srv.writeReponse req rsp c).statu = c.statu ∧ (srv.writeReponse req rsp c).context = c.context ∧
      (srv.writeReponse req rsp c).inBuffer = c.inBuffer := by
  rw [writeReponse]
  rcases sendInLoop_cases (c.record (.note (.respond req rsp)))
    (srv.rspStr req (completeHeaders req rsp)) with ⟨_, e⟩ | ⟨_, e | e⟩
  · rw [e]
    exact ⟨rfl, rfl, rfl⟩
  · rw [e]
    exact ⟨rfl, rfl, rfl⟩
  · rw [e]
    exact ⟨rfl, rfl, rfl⟩

/-! ## What is noted -/

theorem notes_record (c : HttpConnection) (n : HttpEvent) : notes (c.record (.note n)).log = notes c.log ++ [n] := by
  rw [log_record, notes_append]
  rfl

theorem notes_writeReponse (req : HttpRequest) (rsp : HttpResponse) (c : HttpConnection) :
    notes (srv.writeReponse req rsp c).log = notes c.log ++ [.respond req rsp] := by
  rw [log_writeReponse, notes_append]
  split <;> rfl

theorem notes_answerError (context : HttpContext) (inBuffer : Bytes) (c : HttpConnection) :
    notes (srv.answerError context inBuffer c).log = notes c.log ++
      [.parsed (.error context.respStatu), .respond context.request (errorHandler (.new context.respStatu))] := by
  refine (notes_writeReponse ..).trans ?_
  rw [notes_record, List.append_assoc]
  rfl

theorem notes_answer (req : HttpRequest) (rsp : HttpResponse) (context : HttpContext)
    (inBuffer : Bytes) (c : HttpConnection) :
    notes (srv.answer req rsp (receive context inBuffer c)).log =
      notes c.log ++ [.parsed (.request context.request), .respond req rsp] := by
  refine (notes_writeReponse ..).trans ?_
  rw [receive, notes_record, List.append_assoc]
  rfl

/-! ## User code -/

theorem userCode_writeReponse (req : HttpRequest) (rsp : HttpResponse) :
    UserCode fun c => ok (srv.writeReponse req rsp c) :=
  .andThen (.note _) (.send _)

theorem userCode_receive (context : HttpContext) (inBuffer : Bytes) (n : HttpEvent) :
    UserCode fun c : HttpConnection => ok ({ c with context, inBuffer }.record (.note n)) := by
  have h := UserCode.andThen (.setContext context) (.andThen (.setInBuffer inBuffer) (.note n))
  exact h

theorem userCode_answer (req : HttpRequest) (rsp : HttpResponse) :
    UserCode fun c => ok (srv.answer req rsp c) := by
  have h := UserCode.andThen (srv.userCode_writeReponse req rsp) (.setContext HttpContext.new)
  exact h

theorem userCode_answerError (context : HttpContext) (inBuffer : Bytes) :
    UserCode fun c => ok (srv.answerError context inBuffer c) := by
  have h := UserCode.andThen (userCode_receive context inBuffer (.parsed (.error context.respStatu)))
    (.andThen (srv.userCode_answer context.request (errorHandler (.new context.respStatu))) (.setInBuffer []))
  exact h

theorem userCode_shutdown {f : Callback HttpContext HttpEvent} (hf : UserCode f) : UserCode (shutdown f) := by
  have hs : UserCode (shutdownInLoop (some f)) := .shutdown fun g e => by
    cases e
    exact hf
  exact .branch (f := fun d c => (ok (c.record (.note (.shutdown d.inBuffer)))).andThen
    (shutdownInLoop (some f))) fun d => .andThen (.note (HttpEvent.shutdown d.inBuffer)) hs

theorem userCode_onMessageLoop (fuel : Nat) : UserCode (srv.onMessageLoop fuel) := by
  induction fuel with
  | zero => exact .andThen (.note HttpEvent.diverged) .throw
  | succ fuel ih =>
    refine .of_forall fun d => ?_
    rw [onMessageLoop]
    split
    · exact ⟨_, .done, rfl⟩
    · split
      · next e _ =>
        have h := UserCode.andThen (κ := HttpContext) (.note (HttpEvent.parsed (.exception e))) .throw
        exact ⟨_, h, rfl⟩
      · next context inBuffer _ =>
        have hr := userCode_receive context inBuffer (.parsed (.request context.request))
        split
        · have h := UserCode.andThen (srv.userCode_answerError context inBuffer) (userCode_shutdown ih)
          exact ⟨_, h, rfl⟩
        · split
          · have h := UserCode.andThen (ν := HttpEvent) (.setContext context) (.setInBuffer inBuffer)
            exact ⟨_, h, rfl⟩
          · split
            · have h := UserCode.andThen hr (.andThen (.note HttpEvent.threw) .throw)
              exact ⟨_, h, rfl⟩
            · next req rsp _ =>
              have ha := UserCode.andThen hr (srv.userCode_answer req rsp)
              by_cases hc : (completeHeaders req rsp).close = true
              · have h := UserCode.andThen (.andThen ha (userCode_shutdown ih)) ih
                exact ⟨_, h, by simp only [if_pos hc]; rfl⟩
              · have h := UserCode.andThen ha ih
                exact ⟨_, h, by simp only [if_neg hc]; rfl⟩

theorem userCode_onMessage : UserCode srv.onMessage :=
  .branch (f := fun d => srv.onMessageLoop (d.inBuffer.length + 2)) fun _ => srv.userCode_onMessageLoop _

/-! ## Invariants -/

/-- The ways through the loop that give no response, and what a `Shutdown`
does besides calling back. -/
structure LapPreserved (I : HttpConnection → Prop) : Prop where
  more {c context inBuffer} : I c → c.context.recvHttpRequest c.inBuffer = .ok (context, inBuffer) →
    context.respStatu < 400 → context.recvStatu ≠ .recvHttpOver → I { c with context, inBuffer }
  exception {c e} : I c → c.context.recvHttpRequest c.inBuffer = .error e →
    I (c.record (.note (.parsed (.exception e))))
  threw {c context inBuffer} : I c → c.context.recvHttpRequest c.inBuffer = .ok (context, inBuffer) →
    context.respStatu < 400 → context.recvStatu = .recvHttpOver →
    srv.route (served c.log) context.request (.new context.respStatu) = none →
    I ((receive context inBuffer c).record (.note .threw))
  diverged {c} : I c → I (c.record (.note .diverged))
  beginShutdown {c} : I c → I c.beginShutdown
  endShutdown {c} : I c → I c.endShutdown

/-- With the responses, and the calls of `Shutdown` on their own. -/
structure MessagePreserved (I : HttpConnection → Prop) : Prop extends LapPreserved srv I where
  error {c context inBuffer} : I c → c.context.recvHttpRequest c.inBuffer = .ok (context, inBuffer) →
    400 ≤ context.respStatu → I (srv.answerError context inBuffer c)
  answer {c context inBuffer req rsp} : I c →
    c.context.recvHttpRequest c.inBuffer = .ok (context, inBuffer) →
    context.respStatu < 400 → context.recvStatu = .recvHttpOver →
    srv.route (served c.log) context.request (.new context.respStatu) = some (req, rsp) →
    I (srv.answer req rsp (receive context inBuffer c))
  shutdown {c} : I c → c.context = .new → I (c.record (.note (.shutdown c.inBuffer)))

/-- With the responses up to the `Shutdown` behind them, where there is one: a
property that need not hold in between. -/
structure RoundPreserved (I : HttpConnection → Prop) : Prop extends LapPreserved srv I where
  error {c context inBuffer} : I c → c.context.recvHttpRequest c.inBuffer = .ok (context, inBuffer) →
    400 ≤ context.respStatu → I ((srv.answerError context inBuffer c).record (.note (.shutdown [])))
  answer {c context inBuffer req rsp} : I c →
    c.context.recvHttpRequest c.inBuffer = .ok (context, inBuffer) →
    context.respStatu < 400 → context.recvStatu = .recvHttpOver →
    srv.route (served c.log) context.request (.new context.respStatu) = some (req, rsp) →
    let d := srv.answer req rsp (receive context inBuffer c)
    I (if (completeHeaders req rsp).close then d.record (.note (.shutdown d.inBuffer)) else d)

variable {srv} {I : HttpConnection → Prop}

theorem MessagePreserved.rounds (h : MessagePreserved srv I) : RoundPreserved srv I :=
  { h with
    error := fun hc e hr => h.shutdown (h.error hc e hr) rfl
    answer := fun {c context inBuffer req rsp} hc e hr ho hs => by
      have ha := h.answer hc e hr ho hs
      simp only
      split
      · exact h.shutdown ha rfl
      · exact ha }

namespace RoundPreserved

variable (h : RoundPreserved srv I)
include h

theorem state_shutdown {f : Callback HttpContext HttpEvent} (hf : Keeps I f) {c : HttpConnection}
    (hc : I (c.record (.note (.shutdown c.inBuffer)))) : I (HttpServer.shutdown f c).state := by
  refine keeps_shutdownInLoop (fun _ => h.beginShutdown) (fun g e => ?_) (fun _ => h.endShutdown)
    (fun _ hc => hc) _ hc
  cases e
  exact hf

theorem keeps_onMessageLoop (fuel : Nat) : Keeps I (srv.onMessageLoop fuel) := by
  induction fuel with
  | zero => exact fun c hc => h.diverged hc
  | succ fuel ih =>
    intro c hc
    unfold onMessageLoop
    split
    · exact hc
    · split
      · next e he => exact h.exception hc he
      · next context inBuffer he =>
        split
        · next hr => exact h.state_shutdown ih (h.error hc he hr)
        · next hr =>
          have hr : context.respStatu < 400 := Int.not_le.mp hr
          split
          · next ho => exact h.more hc he hr ho
          · next ho =>
            have ho := Decidable.not_not.mp ho
            split
            · next hn => exact h.threw hc he hr ho hn
            · next req rsp hs =>
              have ha := h.answer hc he hr ho hs
              simp only at ha ⊢
              split
              · next hcl =>
                rw [if_pos hcl] at ha
                exact ih.state_andThen (h.state_shutdown ih ha)
              · next hcl =>
                rw [if_neg hcl] at ha
                exact ih _ ha

theorem good : Good I srv.onMessage :=
  ⟨fun c => h.keeps_onMessageLoop _ c, srv.userCode_onMessage.frame⟩

theorem keptBy (hc : ∀ c, I c → c.statu = .connecting →
    I { { c with statu := .connected }.enableRead with context := .new }) : KeptBy I srv.callbacks where
  connected f e c hi hs := by
    cases e
    exact hc c hi hs
  message f e := by
    cases e
    exact h.good
  closed f e := by cases e
  event f e := by cases e

/-- An invariant holds throughout every run of a connection of the server. -/
theorem keeps_run (hl : LoopPreserved I) (hc : ∀ c, I c → c.statu = .connecting →
    I { { c with statu := .connected }.enableRead with context := .new })
    {steps : List (Step HttpContext HttpEvent)} (hs : ∀ s ∈ steps, s.OfServer srv) : Keeps I (run steps) := by
  refine hl.keeps_run fun s hm => ?_
  have ho := hs s hm
  cases s with
  | handleEvent cbs _ _ _ | runTask cbs =>
    obtain rfl : cbs = srv.callbacks := ho
    exact h.keptBy hc
  | callback cb => exact ho.elim
  | onTime | queueInLoop | swapTasks | removeConnectionInLoop => trivial

end RoundPreserved

/-! ## A new connection -/

/-- The tasks that `TcpServer::NewConnection` queues. The poller knows the
channel only when they have run. -/
def firstTasks (srv : HttpServer) : List (Step HttpContext HttpEvent) :=
  [.swapTasks, .runTask srv.callbacks, .runTask srv.callbacks]

/-- A connection of the server, when its first tasks have run. -/
theorem run_firstTasks (srv : HttpServer) (connId : UInt64) (onBaseLoop : Bool) (context : HttpContext)
    (timeout : Option UInt32) : ∃ c, run srv.firstTasks (new connId onBaseLoop context timeout) = ok c ∧
      c.statu = .connected ∧ c.context = .new ∧ c.inBuffer = [] ∧ c.outBuffer = [] ∧ c.log = [] := by
  cases timeout with
  | none => exact ⟨_, rfl, rfl, rfl, rfl, rfl, rfl⟩
  | some sec => exact ⟨_, rfl, rfl, rfl, rfl, rfl, rfl⟩

/-- The poller reports bytes. -/
def oneRead (data : Bytes) : List (Step HttpContext HttpEvent) :=
  [.handleEvent noRoutes.callbacks { pollIn := true } (.bytes data) (.sent 0)]

theorem oneRead_ofServer (data : Bytes) : ∀ s ∈ oneRead data, s.OfServer noRoutes := by
  intro s hs
  obtain rfl := List.mem_singleton.mp hs
  rfl

end HttpServer

end Mudou
