import Mudou.Lib.Epoll
import Mudou.Net.Release

/-!
# The connections of a loop and its poller

`Poller` of `source/server.hpp`, its epoll instance and the descriptors of the
process, with any number of connections on one loop. A descriptor that
`Socket::Close` has closed may come back as another connection's.

A channel belongs to a connection (`Chan.conn`) or to the loop itself: the
event and the timer channel, and the acceptor's (`Chan.own`). What is no
descriptor of a channel is an `other` file.
-/

namespace Mudou

open Outcome (ok stopped)

/-- `_events`: `EPOLLIN` is 1 and `EPOLLOUT` is 4. -/
def Channel.events (ch : Channel) : UInt32 :=
  (if ch.readAble then 1 else 0) ||| (if ch.writeAble then 4 else 0)

inductive ChannelOp where
  | enableRead
  | enableWrite
  | disableRead
  | disableWrite
  | disableAll

inductive Chan (ι : Type) where
  | conn (i : ι)
  | own (fd : Nat)
  deriving DecidableEq

inductive File (ι : Type) where
  | channel (ch : Chan ι)
  | other
  deriving DecidableEq

/-! ## The poller -/

structure Poller (ι : Type) where
  channels : Nat → Option (Chan ι)
  /-- what the epoll instance watches -/
  interest : Nat → Option UInt32

namespace Poller

variable {ι : Type}

/-- `epoll_ctl`; an error is only logged. -/
def update (op : Epoll.Op) (isOpen : Bool) (fd : Nat) (events : UInt32) (p : Poller ι) : Poller ι :=
  { p with interest := (Epoll.ctl op isOpen fd events p.interest).getD p.interest }

def hasChannel (fd : Nat) (p : Poller ι) : Bool := (p.channels fd).isSome

def updateEvent (isOpen : Bool) (fd : Nat) (ch : Chan ι) (events : UInt32) (p : Poller ι) : Poller ι :=
  if p.hasChannel fd = false then
    { p with channels := Function.update p.channels fd (some ch) }.update .add isOpen fd events
  else p.update .mod isOpen fd events

def removeEvent (isOpen : Bool) (fd : Nat) (events : UInt32) (p : Poller ι) : Poller ι :=
  { p with channels := Function.update p.channels fd none }.update .del isOpen fd events

/-- The active channels, from the events of `epoll_wait`; `none` is a failed
assertion. -/
def poll {α : Type} (p : Poller ι) (evs : List (Nat × α)) : Option (List (Chan ι × α)) :=
  evs.mapM fun ev => (p.channels ev.1).map fun ch => (ch, ev.2)

/-- What a close leaves. -/
def forget (fd : Nat) (p : Poller ι) : Poller ι :=
  { p with interest := Function.update p.interest fd none }

variable {p : Poller ι} {fd : Nat}

theorem updateEvent_absent (h : p.channels fd = none) (isOpen : Bool) (ch : Chan ι) (e : UInt32) :
    p.updateEvent isOpen fd ch e =
      { p with channels := Function.update p.channels fd (some ch) }.update .add isOpen fd e :=
  if_pos (Option.isSome_eq_false_iff.mpr (Option.isNone_iff_eq_none.mpr h))

theorem updateEvent_add (h : p.channels fd = none) (hi : p.interest fd = none) (ch : Chan ι) (e : UInt32) :
    p.updateEvent true fd ch e =
      ⟨Function.update p.channels fd (some ch), Function.update p.interest fd (some e)⟩ := by
  rw [updateEvent_absent h, update, Epoll.ctl_add hi]
  rfl

theorem updateEvent_mod (h : p.channels fd ≠ none) (hi : p.interest fd ≠ none) (isOpen : Bool) (ch : Chan ι)
    (e : UInt32) : p.updateEvent isOpen fd ch e = ⟨p.channels, Function.update p.interest fd (some e)⟩ := by
  have hc : p.hasChannel fd = true := Option.isSome_iff_ne_none.mpr h
  rw [updateEvent, hc, if_neg Bool.noConfusion, update, Epoll.ctl_mod hi]
  rfl

/-- What an `updateEvent` puts into the table. -/
theorem of_channels_updateEvent {isOpen : Bool} {fd' : Nat} {ch ch' : Chan ι} {e : UInt32}
    (h : (p.updateEvent isOpen fd ch e).channels fd' = some ch') : ch' = ch ∨ p.channels fd' = some ch' := by
  cases hk : p.channels fd with
  | none =>
    rw [updateEvent_absent hk] at h
    change Function.update p.channels fd (some ch) fd' = some ch' at h
    by_cases hfd : fd' = fd
    · rw [hfd, Function.update_self] at h
      exact .inl (Option.some.inj h).symm
    · rw [Function.update_of_ne hfd] at h
      exact .inr h
  | some _ =>
    rw [updateEvent, hasChannel, hk] at h
    exact .inr h

theorem removeEvent_eq (isOpen : Bool) (fd : Nat) (e : UInt32) (p : Poller ι) :
    p.removeEvent isOpen fd e = ⟨Function.update p.channels fd none, Function.update p.interest fd none⟩ := by
  rw [removeEvent, update, Epoll.ctl_del_getD]

theorem mem_of_poll {α : Type} {evs : List (Nat × α)} :
    ∀ {active}, p.poll evs = some active → ∀ a ∈ active, ∃ ev ∈ evs, p.channels ev.1 = some a.1 ∧ a.2 = ev.2 := by
  induction evs with
  | nil =>
    intro active e a ha
    obtain rfl := Option.some.inj e
    cases ha
  | cons ev evs ih =>
    intro active e a ha
    rw [Poller.poll, List.mapM_cons] at e
    cases hc : p.channels ev.1 with
    | none =>
      rw [hc] at e
      cases e
    | some ch =>
      rw [hc] at e
      cases hr : evs.mapM fun ev => (p.channels ev.1).map fun ch => (ch, ev.2) with
      | none =>
        rw [hr] at e
        cases e
      | some rest =>
        rw [hr] at e
        obtain rfl := Option.some.inj e
        rcases List.mem_cons.mp ha with rfl | ha
        · exact ⟨ev, List.mem_cons_self, hc, rfl⟩
        · obtain ⟨ev', hm, h⟩ := ih hr a ha
          exact ⟨ev', List.mem_cons_of_mem _ hm, h⟩

end Poller

/-! ## The connections -/

structure Reactor (ι κ ν : Type) where
  conn : ι → Option (Connection κ ν)
  /-- the `_fd` of a connection's channel -/
  fd : ι → Nat
  /-- the open descriptors -/
  files : Nat → Option (File ι)
  poller : Poller ι

/-- What happens to one connection. -/
inductive ConnOp (κ ν : Type) where
  | channel (op : ChannelOp)
  /-- `EstablishedInLoop` up to the connected callback -/
  | establishedInLoop
  /-- `HandleRead` after `recv` -/
  | received (data : Bytes)
  /-- `HandleWrite` after `send` -/
  | handed (n : Nat)
  | sendInLoop (data : Bytes)
  /-- `ShutdownInLoop` up to the message callback, and after it -/
  | beginShutdown
  | endShutdown
  | release (caller : Caller)
  | enableInactiveReleaseInLoop (sec : UInt32)
  | cancelInactiveReleaseInLoop
  | timerRefresh
  | onTime (times : Nat)
  | setInBuffer (q : Bytes)
  | setContext (x : κ)
  | note (n : ν)
  | closedCallback
  | removeConnection
  | removeConnectionInLoop
  | queueInLoop (t : Task)
  | swapTasks
  | takeTask

namespace Connection

variable {κ ν : Type}

def disableRead (c : Connection κ ν) : Connection κ ν :=
  { c with channel := { c.channel with readAble := false, registered := true } }

def disableAll (c : Connection κ ν) : Connection κ ν :=
  { c with channel := { readAble := false, writeAble := false, registered := true } }

end Connection

def ChannelOp.run {κ ν : Type} : ChannelOp → Connection κ ν → Connection κ ν
  | .enableRead, c => c.enableRead
  | .enableWrite, c => c.enableWrite
  | .disableRead, c => c.disableRead
  | .disableWrite, c => c.disableWrite
  | .disableAll, c => c.disableAll

namespace ConnOp

variable {κ ν : Type}

def run : ConnOp κ ν → Connection κ ν → Outcome (Connection κ ν)
  | .channel op, c => ok (op.run c)
  | .establishedInLoop, c => c.establishedInLoop none
  | .received data, c => ok ({ c with inBuffer := c.inBuffer ++ data }.record (.received data))
  | .handed n, c =>
    let c := { c with outBuffer := c.outBuffer.drop n }.record (.handed (c.outBuffer.take n))
    ok (if c.outBuffer.length = 0 then c.disableWrite else c)
  | .sendInLoop data, c => ok (c.sendInLoop data)
  | .beginShutdown, c => ok c.beginShutdown
  | .endShutdown, c => ok c.endShutdown
  | .release caller, c => ok (c.release caller)
  | .enableInactiveReleaseInLoop sec, c => c.enableInactiveReleaseInLoop sec
  | .cancelInactiveReleaseInLoop, c => ok c.cancelInactiveReleaseInLoop
  | .timerRefresh, c => c.timerRefresh
  | .onTime times, c => ok (c.onTime times)
  | .setInBuffer q, c => ok { c with inBuffer := q }
  | .setContext x, c => ok { c with context := x }
  | .note n, c => ok (c.record (.note n))
  | .closedCallback, c => ok (c.record .closedCallback)
  -- only `ReleaseInLoop` calls it
  | .removeConnection, c => ok (if 0 < Connection.releasesRun c.log then c.removeConnection else c)
  | .removeConnectionInLoop, c => Connection.Step.removeConnectionInLoop.exec c
  | .queueInLoop t, c => ok (c.queueFromThread t)
  | .swapTasks, c => ok c.swapTasks
  | .takeTask, c => ok { c with loop := { c.loop with functor := c.loop.functor.tail } }

/-- Whether the channel's events are changed, with a `Channel::Update`. -/
def updates : ConnOp κ ν → Connection κ ν → Bool
  | .channel _, _ => true
  | .establishedInLoop, c => c.statu = .connecting
  | .handed n, c => c.outBuffer.length ≤ n
  | .sendInLoop _, c => c.statu ≠ .disconnected && !c.channel.writeAble
  | .endShutdown, c => 0 < c.outBuffer.length && !c.channel.writeAble
  | _, _ => false

end ConnOp

namespace Reactor

variable {ι κ ν : Type} [DecidableEq ι]

def new : Reactor ι κ ν where
  conn _ := none
  fd _ := 0
  files _ := none
  poller := ⟨fun _ => none, fun _ => none⟩

def events (s : Reactor ι κ ν) : Chan ι → UInt32
  | .conn i => (s.conn i).elim 0 (·.channel.events)
  | .own _ => 1

def chanFd (s : Reactor ι κ ν) : Chan ι → Nat
  | .conn i => s.fd i
  | .own fd => fd

def isOpen (fd : Nat) (s : Reactor ι κ ν) : Bool := (s.files fd).isSome

/-- `Channel::Update`. -/
def update (ch : Chan ι) (s : Reactor ι κ ν) : Reactor ι κ ν :=
  { s with poller := s.poller.updateEvent (s.isOpen (s.chanFd ch)) (s.chanFd ch) ch (s.events ch) }

/-- `Channel::Remove`. -/
def remove (ch : Chan ι) (s : Reactor ι κ ν) : Reactor ι κ ν :=
  { s with poller := s.poller.removeEvent (s.isOpen (s.chanFd ch)) (s.chanFd ch) (s.events ch) }

def setConn (i : ι) (c : Connection κ ν) (s : Reactor ι κ ν) : Reactor ι κ ν :=
  { s with conn := Function.update s.conn i (some c) }

def openFile (fd : Nat) (f : File ι) (s : Reactor ι κ ν) : Reactor ι κ ν :=
  { s with files := Function.update s.files fd (some f) }

/-- `close`, which drops the registration. -/
def closeFile (fd : Nat) (s : Reactor ι κ ν) : Reactor ι κ ν :=
  { s with files := Function.update s.files fd none, poller := s.poller.forget fd }

inductive Op (ι κ ν : Type) where
  /-- the process opens and closes files of its own -/
  | openFile (fd : Nat)
  | closeFile (fd : Nat)
  /-- a channel of the loop itself -/
  | ownChannel (fd : Nat)
  | newConnection (i : ι) (fd : Nat) (connId : UInt64) (onBaseLoop : Bool) (context : κ)
    (timeout : Option UInt32)
  | conn (i : ι) (op : ConnOp κ ν)
  /-- `ReleaseInLoop` up to the closed callback -/
  | releaseInLoop (i : ι)

/-- A descriptor that is opened was not open. -/
def Op.exec : Op ι κ ν → Reactor ι κ ν → Outcome (Reactor ι κ ν)
  | .openFile fd, s => ok (if s.files fd = none then s.openFile fd .other else s)
  | .closeFile fd, s => ok (if s.files fd = some .other then s.closeFile fd else s)
  | .ownChannel fd, s =>
    ok (if s.files fd = none then (s.openFile fd (.channel (.own fd))).update (.own fd) else s)
  | .newConnection i fd connId onBaseLoop context timeout, s =>
    ok (if s.conn i = none ∧ s.files fd = none then
      { s.openFile fd (.channel (.conn i)) with fd := Function.update s.fd i fd }.setConn i
        (.new connId onBaseLoop context timeout)
    else s)
  | .conn i op, s =>
    match s.conn i with
    | none => ok s
    | some c =>
      (op.run c).map fun d => if op.updates c then (s.setConn i d).update (.conn i) else s.setConn i d
  | .releaseInLoop i, s =>
    match s.conn i with
    | none => ok s
    | some c =>
      let s := (s.remove (.conn i)).setConn i c.beginRelease
      ok (if c.socketOpen then s.closeFile (s.fd i) else s)

/-! ## One connection -/

end Reactor

namespace Connection

variable {κ ν : Type} {b c d : Connection κ ν}

/-- What only `ReleaseInLoop`, and what follows it, changes. -/
structure Carried (c d : Connection κ ν) : Prop where
  socketOpen : d.socketOpen = c.socketOpen
  released : releasesRun d.log = releasesRun c.log
  listed : releasesRun c.log = 0 → c.removals = 0 → d.inConns = c.inConns ∧ d.removals = 0

theorem Carried.trans (h : Carried b c) (h' : Carried c d) : Carried b d := by
  refine ⟨h'.socketOpen.trans h.socketOpen, h'.released.trans h.released, fun hr hm => ?_⟩
  obtain ⟨hi, hm⟩ := h.listed hr hm
  obtain ⟨hi', hm⟩ := h'.listed (h.released.trans hr) hm
  exact ⟨hi'.trans hi, hm⟩

theorem Frame.carried (h : Frame c d) : Carried c d :=
  ⟨h.socketOpen, h.counts.1, fun _ hm => ⟨h.inConns, h.removals.trans hm⟩⟩

theorem carried_of_eq (hs : d.socketOpen = c.socketOpen) (hl : d.log = c.log) (hi : d.inConns = c.inConns)
    (hm : d.removals = c.removals) : Carried c d :=
  ⟨hs, by rw [hl], fun _ h => ⟨hi, hm.trans h⟩⟩

theorem Carried.record (h : Carried b c) {e : Event ν} (he : e.isReleaseInLoop = false) :
    Carried b (c.record e) := by
  refine ⟨h.socketOpen, ?_, h.listed⟩
  rw [log_record, releasesRun_concat, he]
  exact h.released

theorem Carried.release (h : Carried b c) (caller : Caller) : Carried b (c.release caller) :=
  (h.record rfl).trans (carried_of_eq rfl rfl rfl rfl)

theorem carried_timer (c : Connection κ ν) (b : Bool) (w : TimerWheel TaskFunc) :
    Carried c ({ c with enableInactiveRelease := b }.setTimerWheel w) :=
  (frame_timer c b w).carried

/-- `RemoveConnectionInLoop` erases a connection that was released, or one
with a call queued. -/
theorem carried_removeConnectionInLoop (hs : c.socketOpen = b.socketOpen) (hl : c.log = b.log)
    (h : releasesRun b.log = 0 → b.removals ≠ 0) : Carried b c.removeConnectionInLoop := by
  refine state_removeConnectionInLoop ⟨hs, by rw [hl], fun hr hm => absurd hm (h hr)⟩
    ⟨hs, ?_, fun hr hm => absurd hm (h hr)⟩
  rw [log_record, releasesRun_concat, hl]
  rfl

theorem counts_beginRelease (c : Connection κ ν) : c.beginRelease.socketOpen = false ∧
    releasesRun c.beginRelease.log = releasesRun c.log + 1 ∧ c.beginRelease.channel.events = c.channel.events := by
  obtain ⟨b, w, e⟩ := beginRelease_eq c
  rw [e]
  refine ⟨rfl, ?_, rfl⟩
  show releasesRun ((c.log ++ [.releaseInLoop]) ++ if c.socketOpen then [.closed] else []) = _
  split
  · rw [releasesRun_concat, releasesRun_concat]
    rfl
  · rw [List.append_nil, releasesRun_concat]
    rfl

end Connection

namespace ConnOp

open Connection

variable {κ ν : Type} {c : Connection κ ν}

theorem carried_run (op : ConnOp κ ν) (c : Connection κ ν) : Carried c (op.run c).state := by
  have h : Carried c c := carried_of_eq rfl rfl rfl rfl
  cases op with
  | channel op => cases op <;> exact carried_of_eq rfl rfl rfl rfl
  | establishedInLoop =>
    show Carried c (c.establishedInLoop none).state
    rw [Connection.establishedInLoop]
    split <;> exact carried_of_eq rfl rfl rfl rfl
  | received data =>
    have hb : Carried c { c with inBuffer := c.inBuffer ++ data } := carried_of_eq rfl rfl rfl rfl
    exact hb.record rfl
  | handed n =>
    have hb : Carried c { c with outBuffer := c.outBuffer.drop n } := carried_of_eq rfl rfl rfl rfl
    have hb := hb.record (e := .handed (c.outBuffer.take n)) rfl
    simp only [run, Outcome.state_ok]
    split
    · exact hb.trans (carried_of_eq rfl rfl rfl rfl)
    · exact hb
  | sendInLoop data => exact (frame_sendInLoop c data).carried
  | beginShutdown => exact (frame_beginShutdown c).carried
  | endShutdown => exact (frame_endShutdown c).carried
  | release caller => exact h.release caller
  | enableInactiveReleaseInLoop sec =>
    obtain ⟨w, e⟩ := enableInactiveReleaseInLoop_cases c sec
    show Carried c (c.enableInactiveReleaseInLoop sec).state
    exact e ▸ carried_timer c true w
  | cancelInactiveReleaseInLoop =>
    obtain ⟨w, e⟩ := cancelInactiveReleaseInLoop_cases c
    show Carried c c.cancelInactiveReleaseInLoop
    exact e ▸ carried_timer c false w
  | timerRefresh =>
    obtain ⟨w, e⟩ := timerRefresh_cases c
    show Carried c c.timerRefresh.state
    exact e ▸ carried_timer c c.enableInactiveRelease w
  | onTime times =>
    exact state_onTime (carried_timer c c.enableInactiveRelease) (fun d h => h.release .timer) times
  | setInBuffer | setContext | swapTasks | takeTask => exact carried_of_eq rfl rfl rfl rfl
  | note | closedCallback => exact h.record rfl
  | removeConnection =>
    simp only [run, Outcome.state_ok]
    split
    · next hr =>
      have h' : Carried c (c.record .srvClosedCallback) := h.record rfl
      have h0 : releasesRun (c.record .srvClosedCallback).log ≠ 0 := by
        rw [h'.released]
        omega
      exact h'.trans (state_removeConnection (carried_removeConnectionInLoop rfl rfl fun e => absurd e h0)
        ⟨rfl, rfl, fun e => absurd e h0⟩)
    · exact h
  | removeConnectionInLoop =>
    show Carried c (if 0 < c.removals then _ else c)
    split
    · exact carried_removeConnectionInLoop rfl rfl fun _ => by omega
    · exact h
  | queueInLoop t =>
    show Carried c (c.queueFromThread t)
    unfold queueFromThread
    split
    · exact h.release _
    · exact carried_of_eq rfl rfl rfl rfl

/-- The events of a channel change with an `Update` only. -/
theorem channel_handed {n : Nat} (h : n < c.outBuffer.length) :
    ((handed n : ConnOp κ ν).run c).state.channel = c.channel := by
  have hn : ¬ (c.outBuffer.drop n).length = 0 := by
    rw [List.length_drop]
    omega
  simp only [run, Outcome.state_ok]
  show Connection.channel (if (c.outBuffer.drop n).length = 0 then _ else _) = _
  rw [if_neg hn]
  rfl

theorem channel_sendInLoop {data : Bytes} (h : (sendInLoop data : ConnOp κ ν).updates c = false) :
    (c.sendInLoop data).channel = c.channel := by
  unfold Connection.sendInLoop
  split
  · rfl
  · next hs =>
    have hw : c.channel.writeAble = true := by simpa [updates, hs] using h
    simp [hw, Connection.record]

theorem channel_endShutdown (h : (endShutdown : ConnOp κ ν).updates c = false) :
    c.endShutdown.channel = c.channel := by
  have hn : ¬ (0 < c.outBuffer.length ∧ c.channel.writeAble = false) := by simpa [updates] using h
  unfold Connection.endShutdown
  rw [if_neg hn]
  simp only
  split <;> rfl

theorem channel_removeConnection : ((removeConnection : ConnOp κ ν).run c).state.channel = c.channel := by
  simp only [run, Outcome.state_ok]
  split
  · exact state_removeConnection (I := fun d => d.channel = c.channel)
      (state_removeConnectionInLoop (I := fun d => d.channel = c.channel) rfl rfl) rfl
  · rfl

/-- The timer's functions change the wheel and the flag. -/
theorem channel_timer {b c d : Connection κ ν} (h : ∃ w, d = b.setTimerWheel w) (hb : b.channel = c.channel) :
    d.channel = c.channel := by
  obtain ⟨w, rfl⟩ := h
  exact hb

theorem channel_run {op : ConnOp κ ν} (h : op.updates c = false) : (op.run c).state.channel = c.channel := by
  cases op with
  | channel op => cases h
  | establishedInLoop =>
    show (c.establishedInLoop none).state.channel = _
    rw [Connection.establishedInLoop, if_neg (of_decide_eq_false h)]
    rfl
  | received | release | setInBuffer | setContext | swapTasks | takeTask | note | closedCallback
  | beginShutdown => rfl
  | handed n => exact channel_handed (Nat.lt_of_not_le (of_decide_eq_false h))
  | sendInLoop data => exact channel_sendInLoop h
  | endShutdown => exact channel_endShutdown h
  | enableInactiveReleaseInLoop sec => exact channel_timer (enableInactiveReleaseInLoop_cases c sec) rfl
  | cancelInactiveReleaseInLoop => exact channel_timer (cancelInactiveReleaseInLoop_cases c) rfl
  | timerRefresh => exact channel_timer (timerRefresh_cases c) rfl
  | onTime times =>
    have ht : Connection.channel (c.onTime times) = c.channel :=
      state_onTime (I := fun d => d.channel = c.channel) (fun w => rfl) (fun d hd => hd) times
    exact ht
  | removeConnection => exact channel_removeConnection
  | removeConnectionInLoop =>
    show Connection.channel (if 0 < c.removals then _ else c) = _
    split
    · exact state_removeConnectionInLoop (I := fun d => d.channel = c.channel) rfl rfl
    · rfl
  | queueInLoop t =>
    show (c.queueFromThread t).channel = _
    unfold queueFromThread
    split <;> rfl

end ConnOp

namespace Reactor

variable {ι κ ν : Type} [DecidableEq ι] {s t : Reactor ι κ ν}

open Connection (Carried)

theorem conn_setConn (i j : ι) (c : Connection κ ν) (s : Reactor ι κ ν) :
    (s.setConn i c).conn j = if j = i then some c else s.conn j := Function.update_apply ..

/-- What an operation makes of one of the connections. -/
inductive Becomes (op : Op ι κ ν) (i : ι) : Option (Connection κ ν) → Option (Connection κ ν) → Prop where
  | same (o) : Becomes op i o o
  | carried {c d} : Carried c d → Becomes op i (some c) (some d)
  | accepted (connId onBaseLoop context timeout) :
    Becomes op i none (some (.new connId onBaseLoop context timeout))
  | released (c) : op = .releaseInLoop i → Becomes op i (some c) (some c.beginRelease)

theorem becomes_exec (op : Op ι κ ν) (s : Reactor ι κ ν) (i : ι) :
    Becomes op i (s.conn i) ((op.exec s).state.conn i) := by
  cases op with
  | openFile fd | closeFile fd | ownChannel fd =>
    show Becomes _ i (s.conn i) ((if _ then _ else s).conn i)
    split <;> exact .same _
  | newConnection j fd connId onBaseLoop context timeout =>
    show Becomes _ i (s.conn i) ((if _ then _ else s).conn i)
    split
    · next h =>
      rw [conn_setConn]
      split
      · next e =>
        rw [e, h.1]
        exact .accepted ..
      · exact .same _
    · exact .same _
  | conn j op =>
    rw [Op.exec]
    split
    · exact .same _
    · next c hc =>
      rw [Outcome.state_map]
      have h : ((if op.updates c then (s.setConn j (op.run c).state).update (.conn j)
          else s.setConn j (op.run c).state).conn i) = if i = j then some (op.run c).state else s.conn i := by
        split <;> exact conn_setConn ..
      rw [h]
      split
      · next e =>
        rw [e, hc]
        exact .carried (op.carried_run c)
      · exact .same _
  | releaseInLoop j =>
    rw [Op.exec]
    split
    · exact .same _
    · next c hc =>
      have h : ((if c.socketOpen then ((s.remove (.conn j)).setConn j c.beginRelease).closeFile (s.fd j)
          else (s.remove (.conn j)).setConn j c.beginRelease).conn i) =
            if i = j then some c.beginRelease else s.conn i := by
        split <;> exact conn_setConn ..
      refine h ▸ ?_
      split
      · next e =>
        rw [e, hc]
        exact .released c rfl
      · exact .same _

end Reactor

end Mudou
