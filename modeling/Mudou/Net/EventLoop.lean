import Mudou.Net.Reactor

/-!
# An iteration of the loop

`EventLoop::Start`: `Poll`, the handler of each active channel, `RunAllTask`.
The handlers are those of a connection, on the loop with all its connections:
callbacks are code that acts on any of them.

With callbacks that act on it as callbacks of `Mudou.Net.Connection` do, they
act on the connection as the handlers and tasks there do (`Acts`).
-/

namespace Mudou

namespace Reactor

variable {ι κ ν : Type}

open Outcome

abbrev Code (ι κ ν : Type) := Reactor ι κ ν → Outcome (Reactor ι κ ν)

structure LoopCallbacks (ι κ ν : Type) where
  connected : Option (Code ι κ ν) := none
  message : Option (Code ι κ ν) := none
  closed : Option (Code ι κ ν) := none
  event : Option (Code ι κ ν) := none

/-- Code that reads the state of a connection. -/
def withConn (i : ι) (f : Connection κ ν → Code ι κ ν) : Code ι κ ν := fun s =>
  (s.conn i).elim ok f s

/-- `if (cb) cb(...)`. -/
def callIfSet : Option (Code ι κ ν) → Code ι κ ν
  | some cb => cb
  | none => ok

/-- `cb(...)`, which throws if `cb` is empty. -/
def call : Option (Code ι κ ν) → Code ι κ ν
  | some cb => cb
  | none => stopped

/-- `cb`, if there is input. -/
def ifInput (i : ι) (cb : Code ι κ ν) : Code ι κ ν :=
  withConn i fun c => if 0 < c.inBuffer.length then cb else ok

section Code

variable [DecidableEq ι]

def perform (i : ι) (op : ConnOp κ ν) : Code ι κ ν := Op.exec (.conn i op)

def shutdownInLoop (i : ι) (message : Option (Code ι κ ν)) : Code ι κ ν := fun s =>
  (perform i .beginShutdown s).andThen fun s =>
  (ifInput i (callIfSet message) s).andThen (perform i .endShutdown)

/-! ## Handlers -/

def handleRead (i : ι) (message : Option (Code ι κ ν)) (r : RecvResult) : Code ι κ ν :=
  withConn i fun c =>
    match c.nonBlockRecv r with
    | none => shutdownInLoop i message
    | some data => fun s => (perform i (.received data) s).andThen (ifInput i (call message))

def handleWrite (i : ι) (message : Option (Code ι κ ν)) (r : SendResult) : Code ι κ ν :=
  withConn i fun c =>
    match c.nonBlockSend r with
    | none => fun s => (ifInput i (call message) s).andThen (perform i (.release .handleWriteError))
    | some n => fun s => (perform i (.handed n) s).andThen
        (withConn i fun c =>
          if c.outBuffer.length = 0 ∧ c.statu = .disconnecting then perform i (.release .handleWriteDrained)
          else ok)

def handleClose (i : ι) (message : Option (Code ι κ ν)) : Code ι κ ν := fun s =>
  (ifInput i (call message) s).andThen (perform i (.release .handleClose))

def handleError (i : ι) (message : Option (Code ι κ ν)) : Code ι κ ν := handleClose i message

/-- `Connection::HandleEvent`. -/
def handleEvent (i : ι) (event : Option (Code ι κ ν)) : Code ι κ ν := fun s =>
  (withConn i (fun c => if c.enableInactiveRelease then perform i .timerRefresh else ok) s).andThen
    (callIfSet event)

/-- `Channel::HandleEvent` of the channel of a connection. -/
def channelHandleEvent (i : ι) (cbs : LoopCallbacks ι κ ν) (revents : REvents) (recv : RecvResult)
    (send : SendResult) : Code ι κ ν := fun s =>
  ((if revents.pollIn || revents.rdHup || revents.pri then handleRead i cbs.message recv else ok) s).andThen
    fun s =>
  ((if revents.pollOut then handleWrite i cbs.message send
    else if revents.err then handleError i cbs.message
    else if revents.hup then handleClose i cbs.message
    else ok) s).andThen (handleEvent i cbs.event)

/-! ## Tasks -/

def establishedInLoop (i : ι) (connected : Option (Code ι κ ν)) : Code ι κ ν := fun s =>
  (perform i .establishedInLoop s).andThen (callIfSet connected)

def releaseInLoop (i : ι) (closed : Option (Code ι κ ν)) : Code ι κ ν := fun s =>
  ((Op.releaseInLoop i).exec s).andThen fun s =>
  ((match closed with
    | none => ok
    | some cb => fun s => (perform i .closedCallback s).andThen cb) s).andThen (perform i .removeConnection)

def task (i : ι) (cbs : LoopCallbacks ι κ ν) : Task → Code ι κ ν
  | .established => establishedInLoop i cbs.connected
  | .release => releaseInLoop i cbs.closed
  | .shutdown => shutdownInLoop i cbs.message
  | .send data => perform i (.sendInLoop data)
  | .enableInactiveRelease sec => perform i (.enableInactiveReleaseInLoop sec)
  | .cancelInactiveRelease => perform i .cancelInactiveReleaseInLoop

/-- The next task of a connection. -/
def runTask (i : ι) (cbs : LoopCallbacks ι κ ν) : Code ι κ ν :=
  withConn i fun c =>
    match c.loop.functor with
    | [] => ok
    | t :: _ => fun s => (perform i .takeTask s).andThen (task i cbs t)

/-- `RunAllTask`: the connections that have tasks, and the tasks in order. -/
def runAllTask (conns : List ι) (tasks : List (ι × LoopCallbacks ι κ ν)) : Code ι κ ν := fun s =>
  (runAll (fun i => perform i .swapTasks) conns s).andThen (runAll (fun t => runTask t.1 t.2) tasks)

/-! ## The channels of the loop itself -/

/-- What an expired slot of the timer wheel holds: timers of connections, and
functions given to `RunAfter`. -/
inductive Expired (ι κ ν : Type) where
  | timers (i : ι) (times : Nat)
  | runAfter (f : Code ι κ ν)

def Expired.run : Expired ι κ ν → Code ι κ ν
  | .timers i times => perform i (.onTime times)
  | .runAfter f => f

inductive OwnEvent (ι κ ν : Type) where
  | readEventfd
  | onTime (expired : List (Expired ι κ ν))
  /-- a connection that another loop gets -/
  | acceptElsewhere (fd : Nat)
  | accept (i : ι) (fd : Nat) (connId : UInt64) (context : κ) (timeout : Option UInt32)
    (connected : Option (Code ι κ ν))

/-- `NewConnection` on the base loop, where the first tasks are run at once. -/
def newConnection (i : ι) (fd : Nat) (connId : UInt64) (context : κ) (timeout : Option UInt32)
    (connected : Option (Code ι κ ν)) : Code ι κ ν := fun s =>
  ((Op.newConnection i fd connId true context timeout).exec s).andThen fun s =>
  (perform i .swapTasks s).andThen fun s =>
  ((match timeout with
    | none => ok
    | some sec => fun s => (perform i .takeTask s).andThen (perform i (.enableInactiveReleaseInLoop sec))) s).andThen
    fun s =>
  (perform i .takeTask s).andThen (establishedInLoop i connected)

def OwnEvent.run : OwnEvent ι κ ν → Code ι κ ν
  | .readEventfd => ok
  | .onTime expired => runAll Expired.run expired
  | .acceptElsewhere fd => Op.exec (.openFile fd)
  | .accept i fd connId context timeout connected => newConnection i fd connId context timeout connected

/-! ## Iterations -/

/-- What goes with an event: what other threads do before its handler is
called, and what the handler meets. -/
structure Ready (ι κ ν : Type) where
  before : List (Op ι κ ν)
  revents : REvents
  recv : RecvResult
  send : SendResult
  cbs : LoopCallbacks ι κ ν
  own : OwnEvent ι κ ν

/-- `Channel::HandleEvent`. -/
def handle (a : Chan ι × Ready ι κ ν) : Code ι κ ν :=
  match a.1 with
  | .conn i => channelHandleEvent i a.2.cbs a.2.revents a.2.recv a.2.send
  | .own _ => a.2.own.run

def meanwhile (a : Chan ι × Ready ι κ ν) : Code ι κ ν := runAll Op.exec a.2.before

def batch (active : List (Chan ι × Ready ι κ ν)) : Code ι κ ν :=
  runAll (fun a s => (meanwhile a s).andThen (handle a)) active

structure Iteration (ι κ ν : Type) where
  /-- what other threads do while `epoll_wait` blocks -/
  before : List (Op ι κ ν)
  events : List (Nat × Ready ι κ ν)
  conns : List ι
  tasks : List (ι × LoopCallbacks ι κ ν)

def Iteration.run (it : Iteration ι κ ν) : Code ι κ ν := fun s =>
  (runAll Op.exec it.before s).andThen fun s =>
  (match s.poller.poll it.events with
    | none => stopped
    | some active => fun s => (batch active s).andThen (runAllTask it.conns it.tasks)) s

/-! ## User code -/

/-- What other threads do. -/
def Op.OfThread : Op ι κ ν → Prop
  | .openFile _ | .closeFile _ | .newConnection .. | .conn _ (.queueInLoop _) | .conn _ .removeConnectionInLoop =>
    True
  | _ => False

/-- What user code does, or other threads do meanwhile. `Shutdown` is its two
halves with the message callback in between. -/
def Op.OfUser : Op ι κ ν → Prop
  | .conn _ .establishedInLoop | .conn _ (.sendInLoop _) | .conn _ .beginShutdown | .conn _ .endShutdown
  | .conn _ (.release .user) | .conn _ (.enableInactiveReleaseInLoop _) | .conn _ .cancelInactiveReleaseInLoop
  | .conn _ (.setInBuffer _) | .conn _ (.setContext _) | .conn _ (.note _) => True
  | op => op.OfThread

def UserCode : Code ι κ ν → Prop := Made Op.exec Op.OfUser

def LoopCallbacks.ByUser (cbs : LoopCallbacks ι κ ν) : Prop :=
  ∀ f, some f ∈ [cbs.connected, cbs.message, cbs.closed, cbs.event] → UserCode f

def OwnEvent.ByUser : OwnEvent ι κ ν → Prop
  | .onTime expired => ∀ f, .runAfter f ∈ expired → UserCode f
  | .accept _ _ _ _ _ connected => ∀ f, connected = some f → UserCode f
  | _ => True

structure Ready.ByUser (r : Ready ι κ ν) : Prop where
  before : ∀ op ∈ r.before, op.OfThread
  cbs : r.cbs.ByUser
  own : r.own.ByUser

structure Iteration.ByUser (it : Iteration ι κ ν) : Prop where
  before : ∀ op ∈ it.before, op.OfThread
  events : ∀ ev ∈ it.events, ev.2.ByUser
  tasks : ∀ t ∈ it.tasks, t.2.ByUser

end Code

/-! ## On one connection -/

section Acts

variable {i : ι} {f f' : Code ι κ ν} {g g' : Callback κ ν}

/-- On the connection, `f` acts as `g`. -/
def Acts (i : ι) (f : Code ι κ ν) (g : Callback κ ν) : Prop :=
  ∀ s c, s.conn i = some c → (f s).map (·.conn i) = (g c).map some

abbrev ActsIfSet (i : ι) : Option (Code ι κ ν) → Option (Callback κ ν) → Prop := Option.Rel (Acts i)

theorem acts_ok : Acts i (ok : Code ι κ ν) ok := fun _ _ h => congrArg ok h
theorem acts_stopped : Acts i (stopped : Code ι κ ν) stopped := fun _ _ h => congrArg stopped h

theorem Acts.andThen (hf : Acts i f g) (hf' : Acts i f' g') :
    Acts i (fun s => (f s).andThen f') fun c => (g c).andThen g' := by
  intro s c hc
  have h := hf s c hc
  cases e : f s with
  | ok s' =>
    cases e' : g c with
    | ok d =>
      rw [e, e'] at h
      simp only [e, e', andThen_ok]
      exact hf' s' d (ok.inj h)
    | stopped d =>
      rw [e, e'] at h
      cases h
  | stopped s' =>
    cases e' : g c with
    | ok d =>
      rw [e, e'] at h
      cases h
    | stopped d =>
      rw [e, e'] at h
      simp only [e, e', andThen_stopped]
      exact h

theorem acts_withConn {f : Connection κ ν → Code ι κ ν}
    (h : ∀ s c, s.conn i = some c → (f c s).map (·.conn i) = (g c).map some) : Acts i (withConn i f) g := by
  intro s c hc
  rw [withConn, hc]
  exact h s c hc

theorem acts_ite {p : Prop} [Decidable p] (hf : Acts i f g) (hf' : Acts i f' g') :
    Acts i (if p then f else f') fun c => if p then g c else g' c := by
  intro s c hc
  split
  · exact hf s c hc
  · exact hf' s c hc

/-- Code that depends on the connection. -/
theorem acts_withConn_ite {p : Connection κ ν → Prop} [∀ c, Decidable (p c)] (hf : Acts i f g)
    (hf' : Acts i f' g') :
    Acts i (withConn i fun c => if p c then f else f') fun c => if p c then g c else g' c :=
  acts_withConn fun s c hc => acts_ite hf hf' s c hc

variable {message event connected closed : Option (Code ι κ ν)}
  {message' event' connected' closed' : Option (Callback κ ν)}

theorem acts_callIfSet (h : ActsIfSet i message message') :
    Acts i (callIfSet message) (Connection.callIfSet message') := by
  cases h with
  | none => exact acts_ok
  | some h => exact h

theorem acts_call (h : ActsIfSet i message message') : Acts i (call message) (Connection.call message') := by
  cases h with
  | none => exact acts_stopped
  | some h => exact h

theorem acts_ifInput (h : Acts i f g) :
    Acts i (ifInput i f) fun c => if 0 < c.inBuffer.length then g c else ok c :=
  acts_withConn_ite h acts_ok

variable [DecidableEq ι]

theorem acts_perform (op : ConnOp κ ν) : Acts i (perform i op : Code ι κ ν) op.run := by
  intro s c hc
  have h : ∀ d, (if op.updates c then (s.setConn i d).update (.conn i) else s.setConn i d).conn i = some d := by
    intro d
    split <;> exact (conn_setConn ..).trans (if_pos rfl)
  rw [perform, Op.exec, hc]
  simp only
  cases op.run c with
  | ok d => exact congrArg ok (h d)
  | stopped d => exact congrArg stopped (h d)

theorem acts_shutdownInLoop (h : ActsIfSet i message message') :
    Acts i (shutdownInLoop i message) (Connection.shutdownInLoop message') :=
  (acts_perform .beginShutdown).andThen ((acts_ifInput (acts_callIfSet h)).andThen (acts_perform .endShutdown))

theorem acts_handleRead (h : ActsIfSet i message message') (r : RecvResult) :
    Acts i (handleRead i message r) (Connection.handleRead message' r) := by
  refine acts_withConn fun s c hc => ?_
  rw [Connection.handleRead]
  cases c.nonBlockRecv r with
  | none => exact acts_shutdownInLoop h s c hc
  | some data => exact (acts_perform (.received data)).andThen (acts_ifInput (acts_call h)) s c hc

theorem acts_handleClose (h : ActsIfSet i message message') :
    Acts i (handleClose i message) (Connection.handleClose message') :=
  (acts_ifInput (acts_call h)).andThen (acts_perform (.release .handleClose))

theorem acts_handleWrite (h : ActsIfSet i message message') (r : SendResult) :
    Acts i (handleWrite i message r) (Connection.handleWrite message' r) := by
  refine acts_withConn fun s c hc => ?_
  rw [Connection.handleWrite]
  cases c.nonBlockSend r with
  | none => exact (acts_ifInput (acts_call h)).andThen (acts_perform (.release .handleWriteError)) s c hc
  | some n =>
    have hd := (acts_perform (.handed n)).andThen (acts_withConn_ite
      (p := fun c : Connection κ ν => c.outBuffer.length = 0 ∧ c.statu = .disconnecting)
      (acts_perform (.release .handleWriteDrained)) acts_ok) s c hc
    refine hd.trans (congrArg _ ?_)
    simp only [ConnOp.run, andThen_ok]
    generalize ({ c with outBuffer := c.outBuffer.drop n }.record (.handed (c.outBuffer.take n))) = d
    by_cases ho : d.outBuffer.length = 0
    · rw [if_pos ho, if_pos ho]
      by_cases hs : d.disableWrite.statu = .disconnecting
      · rw [if_pos hs, if_pos ⟨ho, hs⟩]
      · rw [if_neg hs, if_neg fun h => hs h.2]
    · rw [if_neg ho, if_neg ho, if_neg fun h => ho h.1]

theorem acts_handleEvent (h : ActsIfSet i event event') :
    Acts i (handleEvent i event) (Connection.handleEvent event') :=
  (acts_withConn_ite (acts_perform .timerRefresh) acts_ok).andThen (acts_callIfSet h)

structure CallbacksAct (i : ι) (cbs : LoopCallbacks ι κ ν) (cbs' : Callbacks κ ν) : Prop where
  connected : ActsIfSet i cbs.connected cbs'.connected
  message : ActsIfSet i cbs.message cbs'.message
  closed : ActsIfSet i cbs.closed cbs'.closed
  event : ActsIfSet i cbs.event cbs'.event

variable {cbs : LoopCallbacks ι κ ν} {cbs' : Callbacks κ ν}

/-- The handlers of a connection of the loop are those of the connection. -/
theorem acts_channelHandleEvent (h : CallbacksAct i cbs cbs') (revents : REvents) (recv : RecvResult)
    (send : SendResult) : Acts i (channelHandleEvent i cbs revents recv send)
      (Connection.channelHandleEvent cbs' revents recv send) := by
  refine (acts_ite (acts_handleRead h.message recv) acts_ok).andThen (.andThen ?_ (acts_handleEvent h.event))
  exact acts_ite (acts_handleWrite h.message send) (acts_ite (acts_handleClose h.message)
    (acts_ite (acts_handleClose h.message) acts_ok))

theorem acts_establishedInLoop (h : ActsIfSet i connected connected') :
    Acts i (establishedInLoop i connected) (Connection.establishedInLoop connected') := by
  intro s c hc
  have he := (acts_perform .establishedInLoop).andThen (acts_callIfSet h) s c hc
  refine he.trans (congrArg _ ?_)
  simp only [ConnOp.run, Connection.establishedInLoop]
  split <;> rfl

theorem acts_beginRelease : Acts i (Op.exec (.releaseInLoop i) : Code ι κ ν) fun c => ok c.beginRelease := by
  intro s c hc
  rw [Op.exec, hc]
  simp only
  split <;> exact congrArg ok ((conn_setConn ..).trans (if_pos rfl))

theorem acts_releaseInLoop (h : ActsIfSet i closed closed')
    (hf : ∀ f, closed' = some f → ∀ c, Connection.Frame c (f c).state) :
    Acts i (releaseInLoop i closed) (Connection.releaseInLoop closed') := by
  intro s c hc
  have hb : 0 < Connection.releasesRun c.beginRelease.log := by
    rw [(Connection.counts_beginRelease c).2.1]
    exact Nat.succ_pos _
  cases h with
  | none =>
    refine (acts_beginRelease.andThen (acts_ok.andThen (acts_perform .removeConnection)) s c hc).trans ?_
    simp only [andThen_ok, ConnOp.run, if_pos hb]
    rfl
  | @some a b hab =>
    refine (acts_beginRelease.andThen (((acts_perform .closedCallback).andThen hab).andThen
      (acts_perform .removeConnection)) s c hc).trans (congrArg _ ?_)
    rw [Connection.releaseInLoop_eq]
    simp only [andThen_ok, ConnOp.run]
    have hd := (hf b rfl (c.beginRelease.record .closedCallback)).counts.1
    cases e : b (c.beginRelease.record .closedCallback) with
    | ok d =>
      rw [e, state_ok, Connection.log_record, Connection.releasesRun_concat] at hd
      rw [andThen_ok, andThen_ok, ConnOp.run, if_pos (by omega)]
    | stopped d => rfl

/-- The next task of a connection of the loop is that of the connection. -/
theorem acts_runTask (h : CallbacksAct i cbs cbs')
    (hf : ∀ f, cbs'.closed = some f → ∀ c, Connection.Frame c (f c).state) :
    Acts i (runTask i cbs) (Connection.runNextTask cbs') := by
  refine acts_withConn fun s c hc => ?_
  have ht := acts_perform (i := i) (.takeTask : ConnOp κ ν)
  rw [Connection.runNextTask]
  cases e : c.loop.functor with
  | nil => exact acts_ok s c hc
  | cons t functor =>
    have htake : (ConnOp.takeTask : ConnOp κ ν).run c = ok { c with loop := { c.loop with functor } } := by
      rw [ConnOp.run, e]
      rfl
    suffices hcode : Acts i (task i cbs t) fun c => c.runTask cbs' t by
      refine (ht.andThen hcode s c hc).trans (congrArg _ ?_)
      simp only [htake, andThen_ok]
    cases t with
    | established => exact acts_establishedInLoop h.connected
    | release => exact acts_releaseInLoop h.closed hf
    | shutdown => exact acts_shutdownInLoop h.message
    | send data => exact acts_perform (.sendInLoop data)
    | enableInactiveRelease sec => exact acts_perform (.enableInactiveReleaseInLoop sec)
    | cancelInactiveRelease => exact acts_perform .cancelInactiveReleaseInLoop

end Acts

end Reactor

end Mudou
