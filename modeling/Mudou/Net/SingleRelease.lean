import Mudou.Lib.Run
import Mudou.Net.Progress
import Mudou.Net.Release

/-!
# When a connection is released once

Who calls `Release` in a step can be told from the state before it, from what
the poller, `recv` and `send` report, and from what the callbacks call. The
read handler calls it when `recv` fails with nothing left to send; the write
handler when `send` fails, or when it has sent the rest of a connection that
is shutting down; the error and close handlers always; the timer when its task
comes up. A `Shutdown` nested in another counts with the message callback it
is called in. `Step.CallsAtMost` adds these up, and `releases_exec` says that
a step makes no more calls.

`singleRelease_of_fits`: a connection is released at most once in every run in
which a step that may call `Release` is one that calls it at most once, and
finds no `ReleaseInLoop` in the task pool and the socket open (`Fits`).
-/

namespace Mudou

/-- The events that the read handler is called for. -/
def REvents.reads (revents : REvents) : Bool := revents.pollIn || revents.rdHup || revents.pri

namespace Connection

variable {κ ν : Type} {c d : Connection κ ν}

open Outcome

/-- On a connection that is `DISCONNECTED` only if `P`, the callback makes at
most `n` calls of `Release`, those of the `Shutdown`s it calls among them. It
calls no `Shutdown` unless `shuts`. -/
def CallsAtMost (P : Prop) (n : Nat) (shuts : Bool) (cb : Option (Callback κ ν)) : Prop :=
  ∀ f, cb = some f → ∀ c, (c.statu = .disconnected → P) →
    releases (f c).state.log ≤ releases c.log + n ∧ (shuts = false → (f c).state.statu = c.statu)

/-- The calls of `ShutdownInLoop`, where the message callback makes `n`. -/
def shutdownCalls (n : Nat) (c : Connection κ ν) : Nat :=
  (if 0 < c.inBuffer.length then n else 0) + if c.outBuffer.length = 0 then 1 else 0

/-- The calls of the read handler. -/
def readCalls (n : Nat) (revents : REvents) (recv : RecvResult) (c : Connection κ ν) : Nat :=
  if revents.reads then
    match c.nonBlockRecv recv with
    | none => shutdownCalls n c
    | some data => if 0 < (c.inBuffer ++ data).length then n else 0
  else 0

/-- What `HandleClose` calls, after the read handler. -/
def closeCalls (n : Nat) (revents : REvents) (c : Connection κ ν) : Nat :=
  (if 0 < c.inBuffer.length ∨ revents.reads then n else 0) + 1

/-- `send` fails, if there is anything to send. -/
def sendFails (c : Connection κ ν) : SendResult → Bool
  | .sent _ => !c.socketOpen
  | .fail retry => !(c.socketOpen && retry)

/-- `send` takes all there is to send. -/
def drains (c : Connection κ ν) : SendResult → Bool
  | .sent n => c.outBuffer.length ≤ n
  | .fail _ => c.outBuffer.length = 0

/-- The calls of the write, error or close handler, after the read handler. -/
def writeCalls (n : Nat) (shuts : Bool) (revents : REvents) (recv : RecvResult) (send : SendResult)
    (c : Connection κ ν) : Nat :=
  if revents.pollOut then
    if c.sendFails send ∧ (0 < c.outBuffer.length ∨ revents.reads) then closeCalls n revents c
    else if c.drains send ∧ (c.statu = .disconnecting ∨ revents.reads ∧ (c.nonBlockRecv recv = none ∨ shuts)) then 1
    else 0
  else if revents.err || revents.hup then closeCalls n revents c
  else 0

/-- From the state before the step and what comes from outside: a step with at
most `k` calls of `Release`. -/
def Step.CallsAtMost (c : Connection κ ν) (k : Nat) : Step κ ν → Prop
  | .handleEvent cbs revents recv send => ∃ n shuts m,
      Connection.CallsAtMost (c.statu = .disconnected) n shuts cbs.message ∧
        Connection.CallsAtMost (c.statu = .disconnected) m true cbs.event ∧
        c.readCalls n revents recv + c.writeCalls n shuts revents recv send + m ≤ k
  | .onTime times => (c.loop.timerWheel.onTime times).2.length ≤ k
  | .callback cb => Connection.CallsAtMost (c.statu = .disconnected) k true (some cb)
  | .queueInLoop t => t = .release → 1 ≤ k
  | .runTask cbs =>
    match c.loop.functor.head? with
    | some .established => c.statu = .connecting → Connection.CallsAtMost False k true cbs.connected
    | some .release => Connection.CallsAtMost True k true cbs.closed
    | some .shutdown => ∃ n, Connection.CallsAtMost False n true cbs.message ∧ c.shutdownCalls n ≤ k
    | _ => True
  | .swapTasks | .removeConnectionInLoop => True

/-- No `ReleaseInLoop` is in the task pool, and the socket is open. -/
def Unreleased (c : Connection κ ν) : Prop := .release ∉ c.loop.functor ++ c.loop.tasks ∧ c.socketOpen = true

def Fits (c : Connection κ ν) (s : Step κ ν) : Prop := s.CallsAtMost c 0 ∨ c.Unreleased ∧ s.CallsAtMost c 1

/-! ## What user code changes -/

/-- What was to be sent still is, and nothing was released. -/
structure Onward (c d : Connection κ ν) : Prop where
  outBuffer : c.outBuffer.length ≤ d.outBuffer.length
  statu : d.statu = .disconnected → c.statu = .disconnected
  socketOpen : d.socketOpen = c.socketOpen

theorem Onward.refl (c : Connection κ ν) : Onward c c := ⟨Nat.le_refl _, id, rfl⟩

theorem onward_preserved (b : Connection κ ν) : CodePreserved (Onward b) where
  setTimer _ _ h := ⟨h.outBuffer, h.statu, h.socketOpen⟩
  send {c} data h := by
    have he : Onward b (c.accept data) := by
      refine ⟨h.outBuffer.trans ?_, h.statu, h.socketOpen⟩
      show _ ≤ (c.outBuffer ++ data).length
      rw [List.length_append]
      exact Nat.le_add_right ..
    rcases sendInLoop_cases c data with ⟨_, e⟩ | ⟨_, e | e⟩
    · rw [e]
      exact h
    · rw [e]
      exact ⟨he.outBuffer, he.statu, he.socketOpen⟩
    · rw [e]
      exact he
  beginShutdown h := ⟨h.outBuffer, ConnStatu.noConfusion, h.socketOpen⟩
  endShutdown {c} h _ := by
    rcases endShutdown_cases c with ⟨_, e⟩ | ⟨_, e | e⟩
    · rw [e]
      exact ⟨h.outBuffer, h.statu, h.socketOpen⟩
    · rw [e]
      exact ⟨h.outBuffer, h.statu, h.socketOpen⟩
    · rw [e]
      exact h
  release h _ _ := ⟨h.outBuffer, h.statu, h.socketOpen⟩
  setInBuffer _ h := ⟨h.outBuffer, h.statu, h.socketOpen⟩
  setContext _ h := ⟨h.outBuffer, h.statu, h.socketOpen⟩
  note _ h := ⟨h.outBuffer, h.statu, h.socketOpen⟩

theorem UserCode.onward {f : Callback κ ν} (h : UserCode f) (c : Connection κ ν) : Onward c (f c).state :=
  ((onward_preserved c).good h).keeps c (.refl c)

theorem onward_call {cb : Option (Callback κ ν)} (hu : ∀ f, cb = some f → UserCode f) (c : Connection κ ν) :
    Onward c (call cb c).state :=
  keeps_call (fun f e => ((onward_preserved c).good (hu f e)).keeps) c (.refl c)

theorem onward_callIfSet {cb : Option (Callback κ ν)} (hu : ∀ f, cb = some f → UserCode f) (c : Connection κ ν) :
    Onward c (callIfSet cb c).state :=
  keeps_callIfSet (fun f e => ((onward_preserved c).good (hu f e)).keeps) c (.refl c)

/-- The handlers of events disconnect nothing. -/
theorem connected_preserved (P : Prop) :
    EventPreserved UserCode fun c : Connection κ ν => c.statu = .disconnected → P where
  call hf c hc hd := hc ((hf.onward c).statu hd)
  shutdown hm c hc hd := hc (((UserCode.shutdown hm).onward c).statu hd)
  timerRefresh c hc := by
    obtain ⟨w, e⟩ := timerRefresh_cases c
    rw [e]
    exact hc
  drained hc _ _ := hc
  release hc _ _ := hc
  received _ hc := hc
  handed _ hc := hc
  disableWrite hc _ := hc

theorem connected_writeHandler (P : Prop) {cbs : Callbacks κ ν} (hm : ∀ f, cbs.message = some f → UserCode f)
    (revents : REvents) (send : SendResult) :
    Keeps (fun c => c.statu = .disconnected → P) (writeHandler cbs revents send) :=
  keeps_ite ((connected_preserved P).keeps_handleWrite hm send)
    (keeps_ite ((connected_preserved P).keeps_handleClose hm)
      (keeps_ite ((connected_preserved P).keeps_handleClose hm) keeps_ok))

/-! ## The calls of one handler -/

variable {P Q : Prop} {n k : Nat} {shuts : Bool} {cb : Option (Callback κ ν)} {cbs : Callbacks κ ν}
  {revents : REvents} {recv : RecvResult} {send : SendResult}

theorem CallsAtMost.mono (h : CallsAtMost P n shuts cb) (hp : Q → P) : CallsAtMost Q n shuts cb :=
  fun f e c hc => h f e c fun hd => hp (hc hd)

theorem CallsAtMost.call (h : CallsAtMost P n shuts cb) (hc : c.statu = .disconnected → P) :
    releases (call cb c).state.log ≤ releases c.log + n := by
  cases cb with
  | none => exact Nat.le_add_right ..
  | some f => exact (h f rfl c hc).1

theorem CallsAtMost.callIfSet (h : CallsAtMost P n shuts cb) (hc : c.statu = .disconnected → P) :
    releases (callIfSet cb c).state.log ≤ releases c.log + n := by
  cases cb with
  | none => exact Nat.le_add_right ..
  | some f => exact (h f rfl c hc).1

theorem releases_release (c : Connection κ ν) (caller : Caller) :
    releases (c.release caller).log = releases c.log + 1 := releases_concat c.log _

theorem releases_endShutdown (c : Connection κ ν) :
    releases c.endShutdown.log = releases c.log + if c.outBuffer.length = 0 then 1 else 0 := by
  rcases endShutdown_cases c with ⟨h, e⟩ | ⟨h, e | e⟩
  · rw [e, if_pos h, releases_release]
  · rw [e, if_neg h]
    rfl
  · rw [e, if_neg h]
    rfl

/-- Code that calls at most `n` times, and then code that calls at most `k`
times. -/
theorem releases_andThen {o : Outcome (Connection κ ν)} {g : Callback κ ν} {m : Nat}
    (ho : releases o.state.log ≤ m + n) (hg : ∀ d, o = ok d → releases (g d).state.log ≤ releases d.log + k) :
    releases (o.andThen g).state.log ≤ m + (n + k) := by
  cases o with
  | ok d =>
    have hd := hg d rfl
    have ho : releases d.log ≤ m + n := ho
    show releases (g d).state.log ≤ _
    omega
  | stopped d =>
    have ho : releases d.log ≤ m + n := ho
    show releases d.log ≤ _
    omega

theorem releases_shutdownInLoop (h : CallsAtMost False n shuts cb) (hu : ∀ f, cb = some f → UserCode f)
    (c : Connection κ ν) : releases (c.shutdownInLoop cb).state.log ≤ releases c.log + c.shutdownCalls n := by
  have hb : releases c.beginShutdown.log = releases c.log := releases_concat c.log _
  rw [shutdownInLoop_eq]
  refine releases_andThen ?_ fun d e => ?_
  · split
    · exact hb ▸ h.callIfSet ConnStatu.noConfusion
    · exact hb.le
  · have ho : Onward c.beginShutdown d := by
      have hd := onward_callIfSet hu c.beginShutdown
      split at e
      · rwa [e] at hd
      · exact ok.inj e ▸ .refl _
    have hlen : c.outBuffer.length ≤ d.outBuffer.length := ho.outBuffer
    show releases d.endShutdown.log ≤ _
    rw [releases_endShutdown]
    refine Nat.add_le_add_left ?_ _
    split
    · next h0 => rw [if_pos (by omega)]
    · exact Nat.zero_le _

/-! ### The read handler -/

/-- What the read handler leaves to the next. -/
structure AfterRead (shuts : Bool) (revents : REvents) (recv : RecvResult) (c d : Connection κ ν) : Prop
    extends Onward c d where
  same : revents.reads = false → d = c
  shutting : d.statu = .disconnecting →
    c.statu = .disconnecting ∨ revents.reads ∧ (c.nonBlockRecv recv = none ∨ shuts)

theorem releases_readHandler (h : CallsAtMost (c.statu = .disconnected) n shuts cbs.message)
    (hu : ∀ f, cbs.message = some f → UserCode f) :
    releases (c.readHandler cbs revents recv).state.log ≤ releases c.log + c.readCalls n revents recv := by
  show releases (if revents.reads then c.handleRead cbs.message recv else ok c).state.log ≤ _
  rw [readCalls]
  split
  · rw [handleRead]
    cases c.nonBlockRecv recv with
    | none => exact releases_shutdownInLoop (h.mono False.elim) hu c
    | some data =>
      have hr : releases ({ c with inBuffer := c.inBuffer ++ data }.record (.received data)).log = releases c.log :=
        releases_concat c.log _
      show releases (if 0 < (c.inBuffer ++ data).length then _ else _ : Outcome (Connection κ ν)).state.log ≤
        releases c.log + if 0 < (c.inBuffer ++ data).length then n else 0
      split
      · exact hr ▸ h.call id
      · exact hr.le
  · exact Nat.le_refl _

theorem afterRead (h : CallsAtMost (c.statu = .disconnected) n shuts cbs.message)
    (hu : ∀ f, cbs.message = some f → UserCode f) (e : c.readHandler cbs revents recv = ok d) :
    AfterRead shuts revents recv c d := by
  change (if revents.reads then c.handleRead cbs.message recv else ok c) = ok d at e
  cases hr : revents.reads with
  | false =>
    rw [hr, if_neg Bool.false_ne_true] at e
    obtain rfl := ok.inj e
    exact ⟨.refl c, fun _ => rfl, .inl⟩
  | true =>
    rw [hr, if_pos rfl, handleRead] at e
    cases hn : c.nonBlockRecv recv with
    | none =>
      rw [hn] at e
      have hs := (UserCode.shutdown hu).onward c
      rw [show c.shutdownInLoop cbs.message = ok d from e] at hs
      exact ⟨hs, fun hf => Bool.noConfusion (hr.symm.trans hf), fun _ => .inr ⟨hr, .inl hn⟩⟩
    | some data =>
      rw [hn] at e
      have hd : Onward c d ∧ (shuts = false → d.statu = c.statu) := by
        simp only at e
        split at e
        · have hc := onward_call hu ({ c with inBuffer := c.inBuffer ++ data }.record (.received data))
          rw [e] at hc
          refine ⟨⟨hc.outBuffer, hc.statu, hc.socketOpen⟩, fun hf => ?_⟩
          cases em : cbs.message with
          | none =>
            rw [em] at e
            cases e
          | some f =>
            have hs := (h f em ({ c with inBuffer := c.inBuffer ++ data }.record (.received data)) id).2 hf
            rw [em] at e
            change f _ = ok d at e
            rwa [e] at hs
        · obtain rfl := ok.inj e
          exact ⟨⟨Nat.le_refl _, id, rfl⟩, fun _ => rfl⟩
      refine ⟨hd.1, fun hf => Bool.noConfusion (hr.symm.trans hf), fun hs => ?_⟩
      cases shuts with
      | false => exact .inl ((hd.2 rfl).symm.trans hs)
      | true => exact .inr ⟨hr, .inr rfl⟩

/-! ### The other handlers -/

theorem AfterRead.releases_flush (ha : AfterRead shuts revents recv c d)
    (h : CallsAtMost (c.statu = .disconnected) n shuts cb) (caller : Caller) :
    releases ((if 0 < d.inBuffer.length then Connection.call cb d else ok d).andThen
      fun d => ok (d.release caller)).state.log ≤ releases d.log + c.closeCalls n revents := by
  refine releases_andThen ?_ fun d' _ => (releases_release d' caller).le
  by_cases hin : 0 < d.inBuffer.length
  · have hc : 0 < c.inBuffer.length ∨ revents.reads := by
      cases hr : revents.reads with
      | false => exact .inl (ha.same hr ▸ hin)
      | true => exact .inr rfl
    rw [if_pos hin, if_pos hc]
    exact h.call ha.statu
  · rw [if_neg hin]
    exact Nat.le_add_right ..

theorem AfterRead.sendFails (ha : AfterRead shuts revents recv c d) (hn : d.nonBlockSend send = none) :
    c.sendFails send ∧ (0 < c.outBuffer.length ∨ revents.reads) := by
  unfold nonBlockSend at hn
  split at hn
  · cases hn
  · next h0 =>
    refine ⟨?_, ?_⟩
    · rw [← Bool.not_eq_false, Connection.sendFails.eq_def, ← ha.socketOpen]
      cases send with
      | sent n => simp_all
      | fail retry => simp_all
    · cases hr : revents.reads with
      | false => exact .inl (ha.same hr ▸ Nat.pos_of_ne_zero h0)
      | true => exact .inr rfl

/-- All is sent. -/
theorem AfterRead.drains (ha : AfterRead shuts revents recv c d) {m : Nat} (hn : d.nonBlockSend send = some m)
    (h0 : (d.outBuffer.drop m).length = 0) : c.drains send := by
  have hle := ha.outBuffer
  rw [List.length_drop] at h0
  by_cases hz : d.outBuffer.length = 0
  · have hc : c.outBuffer.length = 0 := by omega
    cases send with
    | sent l => exact decide_eq_true (by omega)
    | fail retry => exact decide_eq_true hc
  · unfold nonBlockSend at hn
    rw [if_neg hz] at hn
    cases send with
    | sent l =>
      simp only at hn
      split at hn
      · have hm := Option.some.inj hn
        exact decide_eq_true (by omega)
      · cases hn
    | fail retry =>
      simp only at hn
      split at hn
      · have hm := Option.some.inj hn
        omega
      · cases hn

/-- Only what has sent the rest of a connection that is shutting down calls. -/
theorem releases_sent {m : Nat} (hn : d.nonBlockSend send = some m) (message : Option (Callback κ ν)) :
    releases (d.handleWrite message send).state.log = releases d.log +
      if (d.outBuffer.drop m).length = 0 ∧ d.statu = .disconnecting then 1 else 0 := by
  have hm : releases ({ d with outBuffer := d.outBuffer.drop m }.record (.handed (d.outBuffer.take m))).log =
      releases d.log := releases_concat d.log _
  rw [handleWrite, hn]
  show releases (if (d.outBuffer.drop m).length = 0 then ok (if d.statu = .disconnecting then _ else _) else ok _ :
    Outcome (Connection κ ν)).state.log = _
  by_cases h0 : (d.outBuffer.drop m).length = 0
  · rw [if_pos h0]
    by_cases hs : d.statu = .disconnecting
    · rw [if_pos hs, if_pos ⟨h0, hs⟩, ← hm]
      exact releases_release _ _
    · rw [if_neg hs, if_neg fun h => hs h.2]
      exact hm
  · rw [if_neg h0, if_neg fun h => h0 h.1]
    exact hm

theorem AfterRead.releases_handleWrite (ha : AfterRead shuts revents recv c d)
    (h : CallsAtMost (c.statu = .disconnected) n shuts cb) (ho : revents.pollOut = true) :
    releases (d.handleWrite cb send).state.log ≤ releases d.log + c.writeCalls n shuts revents recv send := by
  rw [writeCalls, if_pos ho]
  cases hn : d.nonBlockSend send with
  | none =>
    rw [if_pos (ha.sendFails hn), handleWrite, hn]
    exact ha.releases_flush h .handleWriteError
  | some m =>
    rw [releases_sent hn]
    refine Nat.add_le_add_left ?_ _
    by_cases hd : (d.outBuffer.drop m).length = 0 ∧ d.statu = .disconnecting
    · rw [if_pos hd]
      split
      · exact Nat.le_add_left ..
      · rw [if_pos ⟨ha.drains hn hd.1, ha.shutting hd.2⟩]
    · rw [if_neg hd]
      exact Nat.zero_le _

theorem AfterRead.releases_writeHandler (ha : AfterRead shuts revents recv c d)
    (h : CallsAtMost (c.statu = .disconnected) n shuts cbs.message) :
    releases (d.writeHandler cbs revents send).state.log ≤
      releases d.log + c.writeCalls n shuts revents recv send := by
  rw [writeHandler]
  by_cases ho : revents.pollOut = true
  · rw [if_pos ho]
    exact ha.releases_handleWrite h ho
  · rw [if_neg ho, writeCalls, if_neg ho]
    cases he : revents.err with
    | true => exact ha.releases_flush h .handleClose
    | false =>
      cases hh : revents.hup with
      | true => exact ha.releases_flush h .handleClose
      | false => exact Nat.le_add_right ..

theorem releases_handleEvent (h : CallsAtMost P n shuts cb) (hc : c.statu = .disconnected → P) :
    releases (c.handleEvent cb).state.log ≤ releases c.log + n := by
  have ht : releases c.timerRefresh.state.log = releases c.log ∧ c.timerRefresh.state.statu = c.statu := by
    obtain ⟨w, e⟩ := timerRefresh_cases c
    rw [e]
    exact ⟨rfl, rfl⟩
  rw [handleEvent, ← Nat.zero_add n]
  refine releases_andThen ?_ fun d e => h.callIfSet fun hd => hc ?_
  · split
    · exact ht.1.le
    · exact Nat.le_refl _
  · split at e
    · rw [e] at ht
      exact ht.2 ▸ hd
    · exact ok.inj e ▸ hd

theorem releases_channelHandleEvent {m : Nat} (hu : cbs.All UserCode)
    (h : CallsAtMost (c.statu = .disconnected) n shuts cbs.message)
    (he : CallsAtMost (c.statu = .disconnected) m true cbs.event) :
    releases (c.channelHandleEvent cbs revents recv send).state.log ≤
      releases c.log + (c.readCalls n revents recv + (c.writeCalls n shuts revents recv send + m)) := by
  have hm : ∀ f, cbs.message = some f → UserCode f := fun f e => hu f (by simp [e])
  rw [channelHandleEvent_eq]
  refine releases_andThen (releases_readHandler h hm) fun d e => ?_
  have ha := afterRead h hm e
  refine releases_andThen (ha.releases_writeHandler h) fun d' e' => releases_handleEvent he ?_
  have hd := connected_writeHandler (c.statu = .disconnected) hm revents send d ha.statu
  rwa [e'] at hd

/-! ## The calls of one step -/

theorem releases_onTime (times : Nat) (c : Connection κ ν) :
    releases (c.onTime times).log = releases c.log + (c.loop.timerWheel.onTime times).2.length := by
  rw [Connection.onTime]
  generalize c.loop.timerWheel.onTime times = r
  have hw : releases (c.setTimerWheel r.1).log = releases c.log := rfl
  simp only
  generalize c.setTimerWheel r.1 = d at hw
  rw [← hw]
  clear hw
  induction r.2 generalizing d with
  | nil => rfl
  | cons t ran ih =>
    have hd := ih (d.release .timer)
    rw [releases_release] at hd
    rw [List.length_cons, Nat.add_comm ran.length, ← Nat.add_assoc]
    exact hd

theorem releases_beginRelease (c : Connection κ ν) : releases c.beginRelease.log = releases c.log := by
  obtain ⟨b, w, e⟩ := beginRelease_eq c
  rw [e]
  cases c.socketOpen <;> simp [releases, Event.isRelease]

theorem releases_removeConnection (c : Connection κ ν) : releases c.removeConnection.log = releases c.log := by
  have hs : releases (c.record .srvClosedCallback).log = releases c.log := releases_concat c.log _
  refine state_removeConnection (I := fun d => releases d.log = releases c.log) ?_ hs
  exact state_removeConnectionInLoop (I := fun d => releases d.log = releases c.log) hs
    ((releases_concat (c.record .srvClosedCallback).log _).trans hs)

/-- Only the closed callback calls `Release` in `ReleaseInLoop`. -/
theorem releases_releaseInLoop (h : CallsAtMost True n shuts cb) (c : Connection κ ν) :
    releases (c.releaseInLoop cb).state.log ≤ releases c.log + n := by
  rw [releaseInLoop_eq]
  refine releases_andThen (k := 0) ?_ fun d _ => (releases_removeConnection d).le
  rw [← releases_beginRelease c]
  cases cb with
  | none => exact Nat.le_add_right ..
  | some f =>
    have hc : releases (c.beginRelease.record .closedCallback).log = releases c.beginRelease.log :=
      releases_concat c.beginRelease.log _
    exact hc ▸ (h f rfl _ fun _ => trivial).1

theorem releases_establishedInLoop (h : c.statu = .connecting → CallsAtMost False n shuts cb) :
    releases (c.establishedInLoop cb).state.log ≤ releases c.log + n := by
  rw [establishedInLoop]
  split
  · next hs =>
    have hc : releases { c with statu := .connected }.enableRead.log = releases c.log := rfl
    exact hc ▸ (h hs).callIfSet ConnStatu.noConfusion
  · exact Nat.le_add_right ..

theorem releases_sendInLoop (data : Bytes) (c : Connection κ ν) :
    releases (c.sendInLoop data).log = releases c.log := by
  rcases sendInLoop_cases c data with ⟨_, e⟩ | ⟨_, e | e⟩
  · rw [e]
  · rw [e]
    exact releases_concat c.log _
  · rw [e]
    exact releases_concat c.log _

theorem releases_runNextTask (hu : cbs.All UserCode) (h : (Step.runTask cbs).CallsAtMost c k) :
    releases (c.runNextTask cbs).state.log ≤ releases c.log + k := by
  rw [Step.CallsAtMost] at h
  rw [runNextTask]
  cases e : c.loop.functor with
  | nil => exact Nat.le_add_right ..
  | cons t functor =>
    rw [e, List.head?_cons] at h
    cases t with
    | established => exact releases_establishedInLoop (c := { c with loop := { c.loop with functor } }) h
    | release => exact releases_releaseInLoop h { c with loop := { c.loop with functor } }
    | shutdown =>
      obtain ⟨n, hm, hn⟩ := h
      refine (releases_shutdownInLoop hm (fun f e => hu f (by simp [e])) _).trans ?_
      exact Nat.add_le_add_left hn _
    | send data => exact (releases_sendInLoop data _).le.trans (Nat.le_add_right ..)
    | enableInactiveRelease sec =>
      obtain ⟨w, ew⟩ := enableInactiveReleaseInLoop_cases { c with loop := { c.loop with functor } } sec
      show releases (enableInactiveReleaseInLoop sec _).state.log ≤ _
      rw [ew]
      exact Nat.le_add_right ..
    | cancelInactiveRelease =>
      obtain ⟨w, ew⟩ := cancelInactiveReleaseInLoop_cases { c with loop := { c.loop with functor } }
      show releases (cancelInactiveReleaseInLoop _).log ≤ _
      rw [ew]
      exact Nat.le_add_right ..

/-- A step makes no more calls than its inputs and the state before it say. -/
theorem releases_exec {s : Step κ ν} (hu : s.All UserCode) (h : s.CallsAtMost c k) :
    releases (s.exec c).state.log ≤ releases c.log + k := by
  cases s with
  | handleEvent cbs revents recv send =>
    obtain ⟨n, shuts, m, hm, he, hk⟩ := h
    refine (releases_channelHandleEvent hu hm he).trans (Nat.add_le_add_left ?_ _)
    rwa [← Nat.add_assoc]
  | onTime times => exact (releases_onTime times c).le.trans (Nat.add_le_add_left h _)
  | callback cb => exact (h cb rfl c id).1
  | queueInLoop t =>
    show releases (c.queueFromThread t).log ≤ _
    unfold queueFromThread
    split
    · rw [releases_release]
      exact Nat.add_le_add_left (h rfl) _
    · exact Nat.le_add_right ..
  | swapTasks => exact Nat.le_add_right ..
  | runTask cbs => exact releases_runNextTask hu h
  | removeConnectionInLoop =>
    refine Nat.le_trans (Nat.le_of_eq ?_) (Nat.le_add_right ..)
    show releases (if 0 < c.removals then _ else _ : Connection κ ν).log = _
    split
    · exact state_removeConnectionInLoop (I := fun d => releases d.log = releases c.log) rfl (releases_concat c.log _)
    · rfl

/-! ## Runs -/

def Step.next (c : Connection κ ν) (s : Step κ ν) (d : Connection κ ν) : Prop := d = (s.exec c).state

/-- `Release` was called at most once, and it is accounted for. -/
def ReleasedOnce (c : Connection κ ν) : Prop := Ledger c ∧ releases c.log ≤ 1

theorem Ledger.unreleased_iff (h : Ledger c) : c.Unreleased ↔ releases c.log = 0 := by
  rw [← Nat.le_zero, ← not_lt, ← h.releasing_iff, Bool.not_eq_true, releasing, Bool.or_eq_false_iff,
    decide_eq_false_iff_not, Bool.not_eq_false', Unreleased]

theorem ReleasedOnce.singleRelease (h : ReleasedOnce c) : SingleRelease c.log := by
  refine h.1.singleRelease ?_
  have hb := h.1.balance
  have := h.2
  omega

theorem ReleasedOnce.next (h : ReleasedOnce c) {s : Step κ ν} (hn : s.next c d) (hs : s.All UserCode ∧ Fits c s) :
    ReleasedOnce d := by
  subst hn
  refine ⟨ledger_preserved.keeps_exec (ledger_preserved.stepKeeps hs.1) c h.1, ?_⟩
  rcases hs.2 with hk | ⟨hu, hk⟩
  · exact (releases_exec hs.1 hk).trans h.2
  · exact (releases_exec hs.1 hk).trans (h.1.unreleased_iff.mp hu ▸ Nat.le_refl 1)

/-- In every run of a connection whose steps all fit, it is released at most
once, at all times. -/
theorem singleRelease_of_fits (connId : UInt64) (onBaseLoop : Bool) (context : κ) (timeout : Option UInt32)
    (steps : List (Step κ ν)) (hs : ∀ s ∈ steps, s.All UserCode)
    (hf : Run.Meets Step.next Fits steps (new connId onBaseLoop context timeout)) :
    Run.Throughout Step.next (fun c => SingleRelease c.log) steps (new connId onBaseLoop context timeout) := by
  refine Run.throughout_of_meets (I := ReleasedOnce) (C := fun c s => s.All UserCode ∧ Fits c s)
    (fun _ h => h.singleRelease) (fun _ _ _ h hn hc => h.next hn hc) steps _
    ⟨new_ledger connId onBaseLoop context timeout, Nat.zero_le 1⟩ (hf.and_mem hs)

/-- A message callback that sends back what was received. -/
def echo : Callback Unit Unit := fun c => ok ({ c with inBuffer := [] }.sendInLoop c.inBuffer)

def echoCallbacks : Callbacks Unit Unit := ⟨none, some echo, none, none⟩

theorem echoCallbacks_userCode : echoCallbacks.All UserCode := by
  intro f hf
  obtain rfl : f = echo := by simpa [echoCallbacks] using hf
  have hd := UserCode.branch (κ := Unit) (ν := Unit) fun d => .andThen (.setInBuffer []) (.send d.inBuffer)
  exact hd

theorem echo_callsAtMost (P : Prop) : CallsAtMost P 0 false (some echo) := by
  intro f hf c _
  obtain rfl := Option.some.inj hf
  refine ⟨(releases_sendInLoop c.inBuffer { c with inBuffer := [] }).le, fun _ => ?_⟩
  show ({ c with inBuffer := [] }.sendInLoop c.inBuffer).statu = c.statu
  rcases sendInLoop_cases { c with inBuffer := [] } c.inBuffer with ⟨_, e⟩ | ⟨_, e | e⟩
  · rw [e]
  · rw [e]
    rfl
  · rw [e]
    rfl

theorem none_callsAtMost (P : Prop) (n : Nat) (shuts : Bool) :
    CallsAtMost P n shuts (none : Option (Callback κ ν)) := fun _ e => by cases e

/-- A byte is received and sent back; then the poller reports `revents`, with
`recv` failing, and the queued tasks run. -/
def oneEcho (revents : REvents) : List (Step Unit Unit) :=
  [.swapTasks, .runTask echoCallbacks, .handleEvent echoCallbacks { pollIn := true } (.bytes [104]) (.sent 0),
    .handleEvent echoCallbacks { pollOut := true } (.none true) (.sent 1),
    .handleEvent echoCallbacks revents (.none false) (.sent 0), .swapTasks, .runTask echoCallbacks,
    .runTask echoCallbacks]

theorem oneEcho_userCode (revents : REvents) : ∀ s ∈ oneEcho revents, s.All UserCode := by
  intro s hs
  simp only [oneEcho, List.mem_cons, List.not_mem_nil, or_false] at hs
  rcases hs with rfl | rfl | rfl | rfl | rfl | rfl | rfl | rfl
  · trivial
  · exact echoCallbacks_userCode
  · exact echoCallbacks_userCode
  · exact echoCallbacks_userCode
  · exact echoCallbacks_userCode
  · trivial
  · exact echoCallbacks_userCode
  · exact echoCallbacks_userCode

/-- The callbacks of `echoCallbacks` call nothing. -/
theorem fits_handleEvent {c : Connection Unit Unit} {revents : REvents} {recv : RecvResult} {send : SendResult}
    (h : c.readCalls 0 revents recv + c.writeCalls 0 false revents recv send = 0 ∨
      c.Unreleased ∧ c.readCalls 0 revents recv + c.writeCalls 0 false revents recv send ≤ 1) :
    Fits c (.handleEvent echoCallbacks revents recv send) := by
  have hm := echo_callsAtMost (c.statu = .disconnected)
  have he := none_callsAtMost (κ := Unit) (ν := Unit) (c.statu = .disconnected) 0 true
  exact h.imp (fun h => ⟨0, false, 0, hm, he, h.le⟩) fun h => ⟨h.1, 0, false, 0, hm, he, h.2⟩

theorem singleRelease_of_fits_hup :
    Run.Throughout Step.next (fun c => SingleRelease c.log) (oneEcho { hup := true }) (new 1 true () none) := by
  refine singleRelease_of_fits 1 true () none _ (oneEcho_userCode _) ?_
  rintro _ rfl
  refine ⟨.inl trivial, ?_⟩
  rintro _ rfl
  refine ⟨.inl fun _ => none_callsAtMost _ _ _, ?_⟩
  rintro _ rfl
  refine ⟨fits_handleEvent (.inl rfl), ?_⟩
  rintro _ rfl
  refine ⟨fits_handleEvent (.inl rfl), ?_⟩
  rintro _ rfl
  refine ⟨fits_handleEvent (.inr ⟨⟨by decide, rfl⟩, by decide⟩), ?_⟩
  rintro _ rfl
  refine ⟨.inl trivial, ?_⟩
  rintro _ rfl
  refine ⟨.inl (none_callsAtMost _ _ _), ?_⟩
  rintro _ rfl
  exact ⟨.inl trivial, trivial⟩

/-- On a reset `EPOLLERR` comes with `EPOLLIN`: the read handler releases, as
`recv` fails, and then the error handler. The second `ReleaseInLoop` runs after
the erasure. -/
theorem batch_releases_twice : ¬ ∀ steps : List (Step Unit Unit), (∀ s ∈ steps, s.All UserCode) →
    SingleRelease (run steps (new 1 true () none)).state.log := by
  intro h
  have hr := (h (oneEcho { pollIn := true, err := true }) (oneEcho_userCode _)).releaseInLoop
  revert hr
  decide

end Connection

end Mudou
