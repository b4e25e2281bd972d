import Mudou.Lib.Bytes
import Mudou.Lib.Outcome
import Mudou.Timer.Wheel

/-!
# A connection and its event loop

`Connection`, with `Channel::HandleEvent` and what a connection uses of its
`EventLoop` and of `TcpServer`, of `source/server.hpp`. The handlers run on
the loop's thread; `log` records what they do. The buffers are byte queues
(`Mudou.Buffer`), and the timer wheel holds the connection's own timer.

A callback is any code of the component's user, a `Callback`; `none` is an
empty `std::function`. Code that stops the thread is `stopped`.
-/

namespace Mudou

inductive ConnStatu where
  | disconnected
  | connecting
  | connected
  | disconnecting
  deriving DecidableEq

/-- The events a channel asks for, and whether the poller has it. -/
structure Channel where
  readAble : Bool
  writeAble : Bool
  registered : Bool

/-- The bits of `_revents`. -/
structure REvents where
  pollIn : Bool := false
  rdHup : Bool := false
  pri : Bool := false
  pollOut : Bool := false
  err : Bool := false
  hup : Bool := false

/-- What `recv` returns: bytes, or 0 or less with `retry` if `errno` is then
`EAGAIN` or `EINTR`. -/
inductive RecvResult where
  | bytes (data : Bytes)
  | none (retry : Bool)

/-- What `send` returns: a number of bytes, or less than 0 with `retry` if
`errno` is then `EAGAIN` or `EINTR`. -/
inductive SendResult where
  | sent (n : Nat)
  | fail (retry : Bool)

/-- Who calls `Release`. -/
inductive Caller where
  | shutdownInLoop
  | handleWriteError
  | handleWriteDrained
  | handleClose
  | timer
  | user
  deriving DecidableEq

/-- The callback of a timer of the connection. -/
inductive TaskFunc where
  | release
  deriving DecidableEq

/-- A functor of the task pool that concerns the connection. -/
inductive Task where
  | established
  | release
  | shutdown
  | send (data : Bytes)
  | enableInactiveRelease (sec : UInt32)
  | cancelInactiveRelease
  deriving DecidableEq

/-- What happens to the connection; `note` is for what its user wants to
record. -/
inductive Event (ν : Type) where
  | received (data : Bytes)
  | accepted (data : Bytes)
  | handed (data : Bytes)
  | shutdownInLoop
  /-- a call of `Release`, and whether `ReleaseInLoop` was already queued or
  the socket closed -/
  | release (caller : Caller) (late : Bool)
  | releaseInLoop
  | closed
  | closedCallback
  | srvClosedCallback
  | erased
  | note (n : ν)

structure EventLoop where
  tasks : List Task
  /-- the tasks `RunAllTask` has swapped out and not yet run -/
  functor : List Task
  timerWheel : TimerWheel TaskFunc

structure Connection (κ ν : Type) where
  connId : UInt64
  enableInactiveRelease : Bool
  statu : ConnStatu
  /-- whether the `Socket` still has its descriptor -/
  socketOpen : Bool
  channel : Channel
  inBuffer : Bytes
  outBuffer : Bytes
  context : κ
  loop : EventLoop
  /-- whether the loop is the server's base loop -/
  onBaseLoop : Bool
  /-- whether `TcpServer::_conns` has the connection -/
  inConns : Bool
  /-- the `RemoveConnectionInLoop` calls queued on the base loop -/
  removals : Nat
  log : List (Event ν)

abbrev Callback (κ ν : Type) := Connection κ ν → Outcome (Connection κ ν)

structure Callbacks (κ ν : Type) where
  connected : Option (Callback κ ν)
  message : Option (Callback κ ν)
  closed : Option (Callback κ ν)
  event : Option (Callback κ ν)

namespace Connection

variable {κ ν : Type}

open Outcome (ok stopped)

/-- `if (cb) cb(...)`. -/
def callIfSet : Option (Callback κ ν) → Callback κ ν
  | some cb => cb
  | none => ok

/-- `cb(...)`, which throws if `cb` is empty. -/
def call : Option (Callback κ ν) → Callback κ ν
  | some cb => cb
  | none => stopped

def record (c : Connection κ ν) (e : Event ν) : Connection κ ν := { c with log := c.log ++ [e] }

@[simp] theorem log_record (c : Connection κ ν) (e : Event ν) : (c.record e).log = c.log ++ [e] := rfl
@[simp] theorem loop_record (c : Connection κ ν) (e : Event ν) : (c.record e).loop = c.loop := rfl
@[simp] theorem socketOpen_record (c : Connection κ ν) (e : Event ν) :
    (c.record e).socketOpen = c.socketOpen := rfl
@[simp] theorem removals_record (c : Connection κ ν) (e : Event ν) :
    (c.record e).removals = c.removals := rfl

def enableRead (c : Connection κ ν) : Connection κ ν :=
  { c with channel := { c.channel with readAble := true, registered := true } }

def enableWrite (c : Connection κ ν) : Connection κ ν :=
  { c with channel := { c.channel with writeAble := true, registered := true } }

def disableWrite (c : Connection κ ν) : Connection κ ν :=
  { c with channel := { c.channel with writeAble := false, registered := true } }

def remove (c : Connection κ ν) : Connection κ ν :=
  { c with channel := { c.channel with registered := false } }

def queueInLoop (c : Connection κ ν) (t : Task) : Connection κ ν :=
  { c with loop := { c.loop with tasks := c.loop.tasks ++ [t] } }

/-- Whether a `ReleaseInLoop` is queued or the socket closed. -/
def releasing (c : Connection κ ν) : Bool :=
  decide (Task.release ∈ c.loop.functor ++ c.loop.tasks) || !c.socketOpen

def release (caller : Caller) (c : Connection κ ν) : Connection κ ν :=
  (c.record (.release caller c.releasing)).queueInLoop .release

def sendInLoop (data : Bytes) (c : Connection κ ν) : Connection κ ν :=
  if c.statu = .disconnected then c
  else
    let c := { c with outBuffer := c.outBuffer ++ data }.record (.accepted data)
    if c.channel.writeAble = false then c.enableWrite else c

def shutdownInLoop (message : Option (Callback κ ν)) (c : Connection κ ν) : Outcome (Connection κ ν) :=
  let c := { c with statu := .disconnecting }.record .shutdownInLoop
  (if 0 < c.inBuffer.length then callIfSet message c else ok c).andThen fun c =>
  let c := if 0 < c.outBuffer.length ∧ c.channel.writeAble = false then c.enableWrite else c
  ok (if c.outBuffer.length = 0 then c.release .shutdownInLoop else c)

def setTimerWheel (c : Connection κ ν) (w : TimerWheel TaskFunc) : Connection κ ν :=
  { c with loop := { c.loop with timerWheel := w } }

def timerRefresh (c : Connection κ ν) : Outcome (Connection κ ν) :=
  match c.loop.timerWheel.timerRefreshInLoop c.connId with
  | none => stopped c
  | some w => ok (c.setTimerWheel w)

def enableInactiveReleaseInLoop (sec : UInt32) (c : Connection κ ν) : Outcome (Connection κ ν) :=
  let c := { c with enableInactiveRelease := true }
  if c.loop.timerWheel.hasTimer c.connId then c.timerRefresh
  else ok (c.setTimerWheel (c.loop.timerWheel.timerAddInLoop c.connId sec .release))

def cancelInactiveReleaseInLoop (c : Connection κ ν) : Connection κ ν :=
  let c := { c with enableInactiveRelease := false }
  if c.loop.timerWheel.hasTimer c.connId then
    c.setTimerWheel (c.loop.timerWheel.timerCancelInLoop c.connId)
  else c

/-! ## Release -/

/-- `TcpServer::RemoveConnectionInLoop`. -/
def removeConnectionInLoop (c : Connection κ ν) : Connection κ ν :=
  if c.inConns then { c with inConns := false }.record .erased else c

/-- `TcpServer::RemoveConnection`, the server-closed callback. -/
def removeConnection (c : Connection κ ν) : Connection κ ν :=
  let c := c.record .srvClosedCallback
  if c.onBaseLoop then c.removeConnectionInLoop else { c with removals := c.removals + 1 }

/-- `Socket::Close`. -/
def close (c : Connection κ ν) : Connection κ ν :=
  if c.socketOpen then { c with socketOpen := false }.record .closed else c

def releaseInLoop (closed : Option (Callback κ ν)) (c : Connection κ ν) : Outcome (Connection κ ν) :=
  let c := ({ c with statu := .disconnected }.record .releaseInLoop).remove.close
  let c := if c.loop.timerWheel.hasTimer c.connId then c.cancelInactiveReleaseInLoop else c
  (match closed with
    | none => ok c
    | some cb => cb (c.record .closedCallback)).andThen fun c =>
  ok c.removeConnection

/-! ## Events -/

/-- `Socket::NonBlockRecv`: `none` for -1. A closed socket fails with `EBADF`. -/
def nonBlockRecv (c : Connection κ ν) (r : RecvResult) : Option Bytes :=
  match r with
  | .bytes data => if c.socketOpen then some data else none
  | .none retry => if c.socketOpen && retry then some [] else none

/-- `Socket::NonBlockSend` of the output buffer: `none` for -1. -/
def nonBlockSend (c : Connection κ ν) (r : SendResult) : Option Nat :=
  if c.outBuffer.length = 0 then some 0
  else
    match r with
    | .sent n => if c.socketOpen then some (min n c.outBuffer.length) else none
    | .fail retry => if c.socketOpen && retry then some 0 else none

def handleRead (message : Option (Callback κ ν)) (r : RecvResult) (c : Connection κ ν) :
    Outcome (Connection κ ν) :=
  match c.nonBlockRecv r with
  | none => c.shutdownInLoop message
  | some data =>
    let c := { c with inBuffer := c.inBuffer ++ data }.record (.received data)
    if 0 < c.inBuffer.length then call message c else ok c

def handleWrite (message : Option (Callback κ ν)) (r : SendResult) (c : Connection κ ν) :
    Outcome (Connection κ ν) :=
  match c.nonBlockSend r with
  | none =>
    (if 0 < c.inBuffer.length then call message c else ok c).andThen fun c =>
    ok (c.release .handleWriteError)
  | some n =>
    let c := { c with outBuffer := c.outBuffer.drop n }.record (.handed (c.outBuffer.take n))
    if c.outBuffer.length = 0 then
      let c := c.disableWrite
      ok (if c.statu = .disconnecting then c.release .handleWriteDrained else c)
    else ok c

def handleClose (message : Option (Callback κ ν)) (c : Connection κ ν) : Outcome (Connection κ ν) :=
  (if 0 < c.inBuffer.length then call message c else ok c).andThen fun c =>
  ok (c.release .handleClose)

def handleError (message : Option (Callback κ ν)) (c : Connection κ ν) : Outcome (Connection κ ν) :=
  c.handleClose message

/-- `Connection::HandleEvent`. -/
def handleEvent (event : Option (Callback κ ν)) (c : Connection κ ν) : Outcome (Connection κ ν) :=
  (if c.enableInactiveRelease then c.timerRefresh else ok c).andThen (callIfSet event)

/-- `Channel::HandleEvent` of the connection's channel. -/
def channelHandleEvent (cbs : Callbacks κ ν) (revents : REvents) (recv : RecvResult)
    (send : SendResult) (c : Connection κ ν) : Outcome (Connection κ ν) :=
  (if revents.pollIn || revents.rdHup || revents.pri then c.handleRead cbs.message recv
    else ok c).andThen fun c =>
  (if revents.pollOut then c.handleWrite cbs.message send
    else if revents.err then c.handleError cbs.message
    else if revents.hup then c.handleClose cbs.message
    else ok c).andThen fun c =>
  c.handleEvent cbs.event

def establishedInLoop (connected : Option (Callback κ ν)) (c : Connection κ ν) :
    Outcome (Connection κ ν) :=
  if c.statu = .connecting then callIfSet connected { c with statu := .connected }.enableRead
  else stopped c

/-- `TimerWheel::OnTime`, when the timerfd has expired `times` times. -/
def onTime (times : Nat) (c : Connection κ ν) : Connection κ ν :=
  let (w, ran) := c.loop.timerWheel.onTime times
  ran.foldl (fun c t => match t.taskCb with | .release => c.release .timer) (c.setTimerWheel w)

/-! ## The loop -/

def runTask (cbs : Callbacks κ ν) (t : Task) (c : Connection κ ν) : Outcome (Connection κ ν) :=
  match t with
  | .established => c.establishedInLoop cbs.connected
  | .release => c.releaseInLoop cbs.closed
  | .shutdown => c.shutdownInLoop cbs.message
  | .send data => ok (c.sendInLoop data)
  | .enableInactiveRelease sec => c.enableInactiveReleaseInLoop sec
  | .cancelInactiveRelease => ok c.cancelInactiveReleaseInLoop

/-- What can happen next: the steps of the loop in any order, user code that
the loop runs for another channel or timer, tasks that other threads queue,
and the base loop's `RemoveConnectionInLoop`. -/
inductive Step (κ ν : Type) where
  | handleEvent (cbs : Callbacks κ ν) (revents : REvents) (recv : RecvResult) (send : SendResult)
  | onTime (times : Nat)
  | callback (cb : Callback κ ν)
  | queueInLoop (t : Task)
  | swapTasks
  | runTask (cbs : Callbacks κ ν)
  | removeConnectionInLoop

/-- The user's `Release` on another thread records itself like any other. -/
def queueFromThread (t : Task) (c : Connection κ ν) : Connection κ ν :=
  match t with
  | .release => c.release .user
  | t => c.queueInLoop t

def swapTasks (c : Connection κ ν) : Connection κ ν :=
  { c with loop := { c.loop with tasks := [], functor := c.loop.functor ++ c.loop.tasks } }

def runNextTask (cbs : Callbacks κ ν) (c : Connection κ ν) : Outcome (Connection κ ν) :=
  match c.loop.functor with
  | [] => ok c
  | t :: functor => { c with loop := { c.loop with functor } }.runTask cbs t

def Step.exec : Step κ ν → Connection κ ν → Outcome (Connection κ ν)
  | .handleEvent cbs revents recv send, c => c.channelHandleEvent cbs revents recv send
  | .onTime times, c => ok (c.onTime times)
  | .callback cb, c => cb c
  | .queueInLoop t, c => ok (c.queueFromThread t)
  | .swapTasks, c => ok c.swapTasks
  | .runTask cbs, c => c.runNextTask cbs
  | .removeConnectionInLoop, c =>
    ok (if 0 < c.removals then { c with removals := c.removals - 1 }.removeConnectionInLoop else c)

def run (steps : List (Step κ ν)) (c : Connection κ ν) : Outcome (Connection κ ν) :=
  Outcome.runAll Step.exec steps c

/-- The connection that `TcpServer::NewConnection` makes. -/
def new (connId : UInt64) (onBaseLoop : Bool) (context : κ) (timeout : Option UInt32) :
    Connection κ ν where
  connId := connId
  enableInactiveRelease := false
  statu := .connecting
  socketOpen := true
  channel := ⟨false, false, false⟩
  inBuffer := []
  outBuffer := []
  context := context
  loop := ⟨(timeout.map .enableInactiveRelease).toList ++ [.established], [], TimerWheel.new⟩
  onBaseLoop := onBaseLoop
  inConns := true
  removals := 0
  log := []

end Connection

end Mudou
