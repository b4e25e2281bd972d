import Mudou.Net.Connection

/-!
# User code and the invariants of a run

`UserCode cb`: the callback does nothing to the connection but what its
public functions and the input buffer's allow. `Frame` is what no user code
can do otherwise (`UserCode.frame`).

A property `I` with the obligations of `UserPreserved`, one for each primitive
change, holds throughout every run (`keeps_run`). The handlers of events are
taken apart here once (`EventPreserved`), and not again for each invariant.
Without the obligation about `EstablishedInLoop` (`HandlerPreserved`), the same
goes for every step but one that runs or queues it (`state_exec`).
-/

namespace Mudou

/-- What user code can make happen. -/
def Event.OfUser {ν : Type} : Event ν → Prop
  | .accepted _ | .shutdownInLoop | .release .shutdownInLoop _ | .release .user _ | .note _ => True
  | _ => False

def Callbacks.All {κ ν : Type} (P : Callback κ ν → Prop) (cbs : Callbacks κ ν) : Prop :=
  ∀ f, some f ∈ [cbs.connected, cbs.message, cbs.closed, cbs.event] → P f

namespace Connection

variable {κ ν : Type}

open Outcome

/-- Code of the component's user, as it acts on one connection on the loop's
thread. A `Shutdown` calls the message callback, which is user code again. -/
inductive UserCode : Callback κ ν → Prop where
  | done : UserCode ok
  | throw : UserCode stopped
  | andThen {f g : Callback κ ν} : UserCode f → UserCode g → UserCode fun c => (f c).andThen g
  | branch {f : Connection κ ν → Callback κ ν} : (∀ d, UserCode (f d)) → UserCode fun c => f c c
  | setInBuffer (q : Bytes) : UserCode fun c => ok { c with inBuffer := q }
  | setContext (x : κ) : UserCode fun c => ok { c with context := x }
  | note (n : ν) : UserCode fun c => ok (c.record (.note n))
  | send (data : Bytes) : UserCode fun c => ok (c.sendInLoop data)
  | shutdown {message : Option (Callback κ ν)} : (∀ f, message = some f → UserCode f) →
      UserCode (shutdownInLoop message)
  | release : UserCode fun c => ok (c.release .user)
  | enableInactiveRelease (sec : UInt32) : UserCode (enableInactiveReleaseInLoop sec)
  | cancelInactiveRelease : UserCode fun c => ok c.cancelInactiveReleaseInLoop

/-- Code that on each connection acts as some user code does. -/
theorem UserCode.of_forall {f : Callback κ ν} (h : ∀ d, ∃ g, UserCode g ∧ g d = f d) : UserCode f := by
  choose g hg he using h
  have hb := UserCode.branch hg
  rwa [funext he] at hb

/-! ## What user code leaves alone -/

structure Frame (c d : Connection κ ν) : Prop where
  functor : d.loop.functor = c.loop.functor
  socketOpen : d.socketOpen = c.socketOpen
  onBaseLoop : d.onBaseLoop = c.onBaseLoop
  inConns : d.inConns = c.inConns
  removals : d.removals = c.removals
  log : ∃ es, d.log = c.log ++ es ∧ ∀ e ∈ es, e.OfUser

theorem Frame.refl (c : Connection κ ν) : Frame c c := ⟨rfl, rfl, rfl, rfl, rfl, [], by simp⟩

theorem Frame.trans {b c d : Connection κ ν} (h : Frame b c) (h' : Frame c d) : Frame b d := by
  obtain ⟨es, he, hu⟩ := h.log
  obtain ⟨es', he', hu'⟩ := h'.log
  refine ⟨h'.functor.trans h.functor, h'.socketOpen.trans h.socketOpen,
    h'.onBaseLoop.trans h.onBaseLoop, h'.inConns.trans h.inConns, h'.removals.trans h.removals,
    es ++ es', by rw [he', he, List.append_assoc], fun e hm => ?_⟩
  rcases List.mem_append.mp hm with hm | hm
  · exact hu e hm
  · exact hu' e hm

theorem frame_record (c : Connection κ ν) {e : Event ν} (h : e.OfUser) : Frame c (c.record e) :=
  ⟨rfl, rfl, rfl, rfl, rfl, [e], rfl, by simpa using h⟩

theorem frame_enableWrite (c : Connection κ ν) : Frame c c.enableWrite :=
  ⟨rfl, rfl, rfl, rfl, rfl, [], by simp [enableWrite]⟩

theorem frame_release (c : Connection κ ν) {caller : Caller}
    (h : (Event.release caller c.releasing : Event ν).OfUser) : Frame c (c.release caller) :=
  (frame_record c h).trans ⟨rfl, rfl, rfl, rfl, rfl, [], by simp [release, queueInLoop]⟩

/-- The first half of `SendInLoop`. -/
def accept (c : Connection κ ν) (data : Bytes) : Connection κ ν :=
  { c with outBuffer := c.outBuffer ++ data }.record (.accepted data)

theorem sendInLoop_cases (c : Connection κ ν) (data : Bytes) :
    c.statu = .disconnected ∧ c.sendInLoop data = c ∨
      c.statu ≠ .disconnected ∧ (c.sendInLoop data = (c.accept data).enableWrite ∨
        c.sendInLoop data = c.accept data) := by
  unfold sendInLoop accept
  by_cases hs : c.statu = .disconnected
  · exact .inl ⟨hs, if_pos hs⟩
  · rw [if_neg hs]
    by_cases hw : c.channel.writeAble = false
    · exact .inr ⟨hs, .inl (if_pos hw)⟩
    · exact .inr ⟨hs, .inr (if_neg hw)⟩

theorem frame_sendInLoop (c : Connection κ ν) (data : Bytes) : Frame c (c.sendInLoop data) := by
  have h : Frame c (c.accept data) := ⟨rfl, rfl, rfl, rfl, rfl, [.accepted data], rfl, by simp [Event.OfUser]⟩
  rcases sendInLoop_cases c data with ⟨_, e⟩ | ⟨_, e | e⟩
  · rw [e]
    exact .refl c
  · rw [e]
    exact h.trans (frame_enableWrite _)
  · rw [e]
    exact h

theorem frame_timer (c : Connection κ ν) (b : Bool) (w : TimerWheel TaskFunc) :
    Frame c ({ c with enableInactiveRelease := b }.setTimerWheel w) :=
  ⟨rfl, rfl, rfl, rfl, rfl, [], by simp [setTimerWheel]⟩

/-- The functions that only work on the timer. -/
theorem timerRefresh_cases (c : Connection κ ν) :
    ∃ w, c.timerRefresh.state = c.setTimerWheel w := by
  rw [timerRefresh]
  split
  · exact ⟨c.loop.timerWheel, rfl⟩
  · exact ⟨_, rfl⟩

theorem enableInactiveReleaseInLoop_cases (c : Connection κ ν) (sec : UInt32) :
    ∃ w, (c.enableInactiveReleaseInLoop sec).state =
      { c with enableInactiveRelease := true }.setTimerWheel w := by
  rw [enableInactiveReleaseInLoop]
  simp only
  split
  · exact timerRefresh_cases _
  · exact ⟨_, rfl⟩

theorem cancelInactiveReleaseInLoop_cases (c : Connection κ ν) :
    ∃ w, c.cancelInactiveReleaseInLoop =
      { c with enableInactiveRelease := false }.setTimerWheel w := by
  rw [cancelInactiveReleaseInLoop]
  simp only
  split
  · exact ⟨_, rfl⟩
  · exact ⟨c.loop.timerWheel, rfl⟩

theorem state_onTime {I : Connection κ ν → Prop} {c : Connection κ ν} (hw : ∀ w, I (c.setTimerWheel w))
    (hr : ∀ c, I c → I (c.release .timer)) (times : Nat) : I (c.onTime times) := by
  rw [Connection.onTime]
  generalize c.loop.timerWheel.onTime times = r
  have hc := hw r.1
  simp only
  generalize c.setTimerWheel r.1 = c at hc
  induction r.2 generalizing c with
  | nil => exact hc
  | cons t ran ih =>
    rw [List.foldl_cons]
    exact ih _ (hr c hc)

/-! ## Shutdown around the message callback -/

/-- `ShutdownInLoop` up to the message callback. -/
def beginShutdown (c : Connection κ ν) : Connection κ ν :=
  { c with statu := .disconnecting }.record .shutdownInLoop

/-- `ShutdownInLoop` after the message callback. -/
def endShutdown (c : Connection κ ν) : Connection κ ν :=
  let c := if 0 < c.outBuffer.length ∧ c.channel.writeAble = false then c.enableWrite else c
  if c.outBuffer.length = 0 then c.release .shutdownInLoop else c

theorem endShutdown_cases (c : Connection κ ν) :
    c.outBuffer.length = 0 ∧ c.endShutdown = c.release .shutdownInLoop ∨
      c.outBuffer.length ≠ 0 ∧ (c.endShutdown = c.enableWrite ∨ c.endShutdown = c) := by
  by_cases ho : c.outBuffer.length = 0
  · refine .inl ⟨ho, ?_⟩
    simp [endShutdown, ho]
  · refine .inr ⟨ho, ?_⟩
    by_cases hw : c.channel.writeAble = false
    · exact .inl (by simp [endShutdown, Nat.pos_of_ne_zero ho, hw, enableWrite, List.length_eq_zero_iff.not.mp ho])
    · exact .inr (by simp [endShutdown, hw, List.length_eq_zero_iff.not.mp ho])

theorem shutdownInLoop_eq (message : Option (Callback κ ν)) (c : Connection κ ν) :
    c.shutdownInLoop message =
      (if 0 < c.inBuffer.length then callIfSet message c.beginShutdown else ok c.beginShutdown).andThen
        fun c => ok c.endShutdown := rfl

/-- A shutdown keeps `I` if its two halves do, with `J` in between. -/
theorem keeps_shutdownInLoop {I J : Connection κ ν → Prop} {message : Option (Callback κ ν)}
    (hb : ∀ c, I c → J c.beginShutdown) (hm : ∀ f, message = some f → Keeps J f)
    (he : ∀ c, J c → I c.endShutdown) (hw : ∀ c, J c → I c) : Keeps I (shutdownInLoop message) := by
  intro c hc
  have h := hb c hc
  rw [shutdownInLoop_eq]
  split
  · cases message with
    | none => exact he _ h
    | some f =>
      have h' := hm f rfl _ h
      rw [callIfSet]
      cases e : f c.beginShutdown with
      | ok d =>
        rw [e] at h'
        exact he d h'
      | stopped d =>
        rw [e] at h'
        exact hw d h'
  · exact he _ h

theorem frame_beginShutdown (c : Connection κ ν) : Frame c c.beginShutdown :=
  ⟨rfl, rfl, rfl, rfl, rfl, [.shutdownInLoop], rfl, by simp [Event.OfUser]⟩

theorem frame_endShutdown (c : Connection κ ν) : Frame c c.endShutdown := by
  rcases endShutdown_cases c with ⟨_, e⟩ | ⟨_, e | e⟩
  · rw [e]
    exact frame_release c trivial
  · rw [e]
    exact frame_enableWrite c
  · rw [e]
    exact .refl c

theorem UserCode.keeps_frame {f : Callback κ ν} (h : UserCode f) (b : Connection κ ν) :
    Keeps (Frame b) f := by
  induction h with
  | done => exact keeps_ok
  | throw => exact keeps_stopped
  | andThen _ _ hf hg => exact hf.andThen hg
  | branch _ ih => exact .branch ih
  | setInBuffer q => exact fun c h => h.trans ⟨rfl, rfl, rfl, rfl, rfl, [], by simp⟩
  | setContext x => exact fun c h => h.trans ⟨rfl, rfl, rfl, rfl, rfl, [], by simp⟩
  | note n => exact fun c h => h.trans (frame_record c trivial)
  | send data => exact fun c h => h.trans (frame_sendInLoop c data)
  | shutdown _ ih =>
    exact keeps_shutdownInLoop (fun c h => h.trans (frame_beginShutdown c)) ih
      (fun c h => h.trans (frame_endShutdown c)) fun _ h => h
  | release => exact fun c h => h.trans (frame_release c trivial)
  | enableInactiveRelease sec =>
    intro c h
    obtain ⟨w, e⟩ := enableInactiveReleaseInLoop_cases c sec
    rw [e]
    exact h.trans (frame_timer c true w)
  | cancelInactiveRelease =>
    intro c h
    obtain ⟨w, e⟩ := cancelInactiveReleaseInLoop_cases c
    show Frame b c.cancelInactiveReleaseInLoop
    rw [e]
    exact h.trans (frame_timer c false w)

theorem UserCode.frame {f : Callback κ ν} (h : UserCode f) (c : Connection κ ν) : Frame c (f c).state :=
  h.keeps_frame c c (.refl c)

/-! ## Release around the closed callback -/

/-- `ReleaseInLoop` up to the closed callback. -/
def beginRelease (c : Connection κ ν) : Connection κ ν :=
  let c := ({ c with statu := .disconnected }.record .releaseInLoop).remove.close
  if c.loop.timerWheel.hasTimer c.connId then c.cancelInactiveReleaseInLoop else c

theorem beginRelease_eq (c : Connection κ ν) : ∃ b w, c.beginRelease =
    { c with
      statu := .disconnected
      socketOpen := false
      channel := { c.channel with registered := false }
      enableInactiveRelease := b
      loop := { c.loop with timerWheel := w }
      log := (c.log ++ [.releaseInLoop]) ++ if c.socketOpen then [.closed] else [] } := by
  have hc : ({ c with statu := .disconnected }.record .releaseInLoop).remove.close =
      { c with
        statu := .disconnected
        socketOpen := false
        channel := { c.channel with registered := false }
        log := (c.log ++ [.releaseInLoop]) ++ if c.socketOpen then [.closed] else [] } := by
    unfold close
    cases c.socketOpen <;> simp [record, remove]
  unfold beginRelease
  rw [hc]
  simp only
  split
  · obtain ⟨w, e⟩ := cancelInactiveReleaseInLoop_cases
      { c with
        statu := .disconnected
        socketOpen := false
        channel := { c.channel with registered := false }
        log := (c.log ++ [.releaseInLoop]) ++ if c.socketOpen then [.closed] else [] }
    exact ⟨false, w, e⟩
  · exact ⟨c.enableInactiveRelease, c.loop.timerWheel, rfl⟩

theorem releaseInLoop_eq (closed : Option (Callback κ ν)) (c : Connection κ ν) :
    c.releaseInLoop closed =
      (match closed with
        | none => ok c.beginRelease
        | some cb => cb (c.beginRelease.record .closedCallback)).andThen
        fun c => ok c.removeConnection := rfl

theorem state_releaseInLoop {I : Connection κ ν → Prop} {closed : Option (Callback κ ν)}
    {c : Connection κ ν} (hb : I c.beginRelease) (hcc : ∀ c, I c → I (c.record .closedCallback))
    (hc : ∀ f, closed = some f → Keeps I f) (hr : ∀ c, I c → I c.removeConnection) :
    I (c.releaseInLoop closed).state := by
  rw [releaseInLoop_eq]
  cases closed with
  | none => exact hr _ hb
  | some f =>
    have h := hc f rfl _ (hcc _ hb)
    simp only
    cases e : f (c.beginRelease.record .closedCallback) with
    | ok d =>
      rw [e] at h
      exact hr d h
    | stopped d =>
      rw [e] at h
      exact h

theorem state_removeConnectionInLoop {I : Connection κ ν → Prop} {c : Connection κ ν} (h : I c)
    (he : I ({ c with inConns := false }.record .erased)) : I c.removeConnectionInLoop := by
  unfold removeConnectionInLoop
  split
  · exact he
  · exact h

theorem state_removeConnection {I : Connection κ ν → Prop} {c : Connection κ ν}
    (hi : I (c.record .srvClosedCallback).removeConnectionInLoop)
    (hq : I { c.record .srvClosedCallback with removals := c.removals + 1 }) : I c.removeConnection := by
  unfold removeConnection
  simp only
  split
  · exact hi
  · exact hq

/-! ## Invariants -/

structure Good (I : Connection κ ν → Prop) (f : Callback κ ν) : Prop where
  keeps : Keeps I f
  frame : ∀ c, Frame c (f c).state

/-- What the public functions do to `I`, callbacks apart. -/
structure CallPreserved (I : Connection κ ν → Prop) : Prop where
  setTimer {c} (b w) : I c → I ({ c with enableInactiveRelease := b }.setTimerWheel w)
  send {c} (data) : I c → I (c.sendInLoop data)
  beginShutdown {c} : I c → I c.beginShutdown
  endShutdown {c} : I c → .shutdownInLoop ∈ c.log → I c.endShutdown
  release {c caller} : I c → caller ≠ .shutdownInLoop → caller ≠ .handleWriteDrained →
    I (c.release caller)

/-- What user code does to `I`. -/
structure CodePreserved (I : Connection κ ν → Prop) : Prop extends CallPreserved I where
  setInBuffer {c} (q) : I c → I { c with inBuffer := q }
  setContext {c} (x) : I c → I { c with context := x }
  note {c} (n) : I c → I (c.record (.note n))

/-- What the handlers and the loop do to `I`, callbacks and `EstablishedInLoop`
apart, where the tasks but `ReleaseInLoop` have `T`. -/
structure HandlerPreserved (T : Task → Prop) (I : Connection κ ν → Prop) : Prop extends CallPreserved I where
  drained {c} : I c → c.outBuffer.length = 0 → c.statu = .disconnecting →
    I (c.release .handleWriteDrained)
  received {c} (data) : I c → I ({ c with inBuffer := c.inBuffer ++ data }.record (.received data))
  handed {c} (n) : I c →
    I ({ c with outBuffer := c.outBuffer.drop n }.record (.handed (c.outBuffer.take n)))
  disableWrite {c} : I c → c.outBuffer.length = 0 → I c.disableWrite
  runTask {c t functor} : I c → c.loop.functor = t :: functor → T t →
    I { c with loop := { c.loop with functor } }
  releaseInLoop {c functor closed} : I c → c.loop.functor = .release :: functor →
    (∀ f, closed = some f → Good I f) →
    I ({ c with loop := { c.loop with functor } }.releaseInLoop closed).state
  removeConnectionInLoop {c} : I c → 0 < c.removals →
    I { c with removals := c.removals - 1 }.removeConnectionInLoop
  swapTasks {c} : I c → I c.swapTasks
  queueInLoop {c t} : I c → T t → I (c.queueInLoop t)

/-- What they do with `EstablishedInLoop`. -/
structure LoopPreserved (I : Connection κ ν → Prop) : Prop extends HandlerPreserved (· ≠ .release) I where
  established {c} : I c → c.statu = .connecting → I { c with statu := .connected }.enableRead

/-- What the loop and user code do to `I`. -/
structure UserPreserved (I : Connection κ ν → Prop) : Prop extends LoopPreserved I, CodePreserved I

variable {I : Connection κ ν → Prop}

theorem CallPreserved.keeps_shutdownInLoop (h : CallPreserved I) {message : Option (Callback κ ν)}
    (hm : ∀ f, message = some f → Good I f) : Keeps I (shutdownInLoop message) := by
  refine Connection.keeps_shutdownInLoop (J := fun c => I c ∧ Event.shutdownInLoop ∈ c.log)
    (fun c hc => ⟨h.beginShutdown hc, List.mem_append_right _ List.mem_cons_self⟩) (fun f e c hc => ?_)
    (fun c hc => h.endShutdown hc.1 hc.2) fun _ hc => hc.1
  obtain ⟨es, el, _⟩ := ((hm f e).frame c).log
  exact ⟨(hm f e).keeps c hc.1, el ▸ List.mem_append_left _ hc.2⟩

theorem CallPreserved.keeps_enableInactiveReleaseInLoop (h : CallPreserved I) (sec : UInt32) :
    Keeps I (enableInactiveReleaseInLoop sec) := by
  intro c hc
  obtain ⟨w, e⟩ := enableInactiveReleaseInLoop_cases c sec
  rw [e]
  exact h.setTimer true w hc

theorem CallPreserved.cancelInactiveReleaseInLoop (h : CallPreserved I) {c : Connection κ ν}
    (hc : I c) : I c.cancelInactiveReleaseInLoop := by
  obtain ⟨w, e⟩ := cancelInactiveReleaseInLoop_cases c
  rw [e]
  exact h.setTimer false w hc

theorem CodePreserved.good (h : CodePreserved I) {f : Callback κ ν} (hf : UserCode f) : Good I f := by
  refine ⟨?_, hf.frame⟩
  induction hf with
  | done => exact keeps_ok
  | throw => exact keeps_stopped
  | andThen _ _ hf hg => exact hf.andThen hg
  | branch _ ih => exact .branch ih
  | setInBuffer q => exact fun c => h.setInBuffer q
  | setContext x => exact fun c => h.setContext x
  | note n => exact fun c => h.note n
  | send data => exact fun c => h.send data
  | shutdown hu ih => exact h.keeps_shutdownInLoop fun f e => ⟨ih f e, (hu f e).frame⟩
  | release => exact fun c hc => h.release hc Caller.noConfusion Caller.noConfusion
  | enableInactiveRelease sec => exact h.keeps_enableInactiveReleaseInLoop sec
  | cancelInactiveRelease => exact fun c => h.cancelInactiveReleaseInLoop

/-! ## Runs -/

/-- The callbacks of a step. -/
def Step.All (P : Callback κ ν → Prop) : Step κ ν → Prop
  | .handleEvent cbs _ _ _ | .runTask cbs => cbs.All P
  | .callback cb => P cb
  | _ => True

/-- The callbacks that run inside the handlers and `ReleaseInLoop`. -/
structure HandledBy (I : Connection κ ν → Prop) (cbs : Callbacks κ ν) : Prop where
  message : ∀ f, cbs.message = some f → Good I f
  closed : ∀ f, cbs.closed = some f → Good I f
  event : ∀ f, cbs.event = some f → Good I f

/-- The connected callback runs on a connection that was connecting, and on
no other. -/
structure KeptBy (I : Connection κ ν → Prop) (cbs : Callbacks κ ν) : Prop extends HandledBy I cbs where
  connected : ∀ f, cbs.connected = some f → ∀ c, I c → c.statu = .connecting →
    I (f { c with statu := .connected }.enableRead).state

def Step.Keeps (I : Connection κ ν → Prop) : Step κ ν → Prop
  | .handleEvent cbs _ _ _ | .runTask cbs => KeptBy I cbs
  | .callback cb => Good I cb
  | _ => True


def Step.Handles (I : Connection κ ν → Prop) : Step κ ν → Prop
  | .handleEvent cbs _ _ _ | .runTask cbs => HandledBy I cbs
  | .callback cb => Good I cb
  | _ => True

theorem Step.Keeps.handles {s : Step κ ν} (h : s.Keeps I) : s.Handles I := by
  cases s with
  | handleEvent cbs _ _ _ => exact KeptBy.toHandledBy h
  | callback cb => exact h
  | runTask cbs => exact KeptBy.toHandledBy h
  | onTime | queueInLoop | swapTasks | removeConnectionInLoop => trivial

theorem CodePreserved.handledBy (h : CodePreserved I) {cbs : Callbacks κ ν} (hc : cbs.All UserCode) :
    HandledBy I cbs where
  message f e := h.good (hc f (by simp [e]))
  closed f e := h.good (hc f (by simp [e]))
  event f e := h.good (hc f (by simp [e]))

theorem CodePreserved.stepHandles (h : CodePreserved I) {s : Step κ ν} (hs : s.All UserCode) :
    s.Handles I := by
  cases s with
  | handleEvent cbs _ _ _ => exact h.handledBy hs
  | callback cb => exact h.good hs
  | runTask cbs => exact h.handledBy hs
  | onTime | queueInLoop | swapTasks | removeConnectionInLoop => trivial

theorem UserPreserved.keptBy (h : UserPreserved I) {cbs : Callbacks κ ν} (hc : cbs.All UserCode) :
    KeptBy I cbs where
  toHandledBy := h.handledBy hc
  connected f e _ hi hs := (h.good (hc f (by simp [e]))).keeps _ (h.established hi hs)

theorem UserPreserved.stepKeeps (h : UserPreserved I) {s : Step κ ν} (hs : s.All UserCode) : s.Keeps I := by
  cases s with
  | handleEvent cbs _ _ _ => exact h.keptBy hs
  | callback cb => exact h.good hs
  | runTask cbs => exact h.keptBy hs
  | onTime | queueInLoop | swapTasks | removeConnectionInLoop => trivial

theorem keeps_call {cb : Option (Callback κ ν)} (h : ∀ f, cb = some f → Keeps I f) : Keeps I (call cb) := by
  cases cb with
  | none => exact keeps_stopped
  | some f => exact h f rfl

theorem keeps_callIfSet {cb : Option (Callback κ ν)} (h : ∀ f, cb = some f → Keeps I f) :
    Keeps I (callIfSet cb) := by
  cases cb with
  | none => exact keeps_ok
  | some f => exact h f rfl

theorem keeps_ite {p : Connection κ ν → Prop} [∀ c, Decidable (p c)] {f g : Callback κ ν}
    (hf : Keeps I f) (hg : Keeps I g) : Keeps I fun c => if p c then f c else g c := by
  intro c hc
  show I (if p c then f c else g c).state
  split
  · exact hf c hc
  · exact hg c hc

/-- What the handlers of events do to `I`, with callbacks that have `A`. -/
structure EventPreserved (A : Callback κ ν → Prop) (I : Connection κ ν → Prop) : Prop where
  call {f} : A f → Keeps I f
  shutdown {message} : (∀ f, message = some f → A f) → Keeps I (shutdownInLoop message)
  timerRefresh : Keeps I timerRefresh
  drained {c} : I c → c.outBuffer.length = 0 → c.statu = .disconnecting →
    I (c.release .handleWriteDrained)
  release {c caller} : I c → caller ≠ .shutdownInLoop → caller ≠ .handleWriteDrained →
    I (c.release caller)
  received {c} (data) : I c → I ({ c with inBuffer := c.inBuffer ++ data }.record (.received data))
  handed {c} (n) : I c →
    I ({ c with outBuffer := c.outBuffer.drop n }.record (.handed (c.outBuffer.take n)))
  disableWrite {c} : I c → c.outBuffer.length = 0 → I c.disableWrite

namespace EventPreserved

variable {A : Callback κ ν → Prop} (h : EventPreserved A I) {message event : Option (Callback κ ν)}
include h

theorem keeps_handleRead (hm : ∀ f, message = some f → A f) (r : RecvResult) :
    Keeps I (handleRead message r) := by
  intro c hc
  rw [handleRead]
  split
  · exact h.shutdown hm c hc
  · next data _ =>
    exact keeps_ite (p := fun c => 0 < c.inBuffer.length) (keeps_call fun f e => h.call (hm f e)) keeps_ok
      _ (h.received data hc)

/-- The input that is left goes to the message callback, then the connection
is released. -/
theorem keeps_flushAndRelease (hm : ∀ f, message = some f → A f) {caller : Caller}
    (h₁ : caller ≠ .shutdownInLoop) (h₂ : caller ≠ .handleWriteDrained) :
    Keeps I fun c : Connection κ ν =>
      (if 0 < c.inBuffer.length then Connection.call message c else ok c).andThen fun c => ok (c.release caller) :=
  (keeps_ite (keeps_call fun f e => h.call (hm f e)) keeps_ok).andThen fun _ hc => h.release hc h₁ h₂

theorem keeps_handleWrite (hm : ∀ f, message = some f → A f) (r : SendResult) :
    Keeps I (handleWrite message r) := by
  intro c hc
  rw [handleWrite]
  split
  · exact h.keeps_flushAndRelease hm Caller.noConfusion Caller.noConfusion c hc
  · next n _ =>
    have hn := h.handed n hc
    simp only
    split
    · next h0 =>
      have hw := h.disableWrite hn h0
      show I (if _ then _ else _)
      split
      · next hs => exact h.drained hw h0 hs
      · exact hw
    · exact hn

theorem keeps_handleClose (hm : ∀ f, message = some f → A f) : Keeps I (handleClose message) :=
  h.keeps_flushAndRelease hm Caller.noConfusion Caller.noConfusion

theorem keeps_handleEvent (he : ∀ f, event = some f → A f) : Keeps I (handleEvent event) :=
  (keeps_ite h.timerRefresh keeps_ok).andThen (keeps_callIfSet fun f e => h.call (he f e))

theorem keeps_channelHandleEvent {cbs : Callbacks κ ν} (hm : ∀ f, cbs.message = some f → A f)
    (he : ∀ f, cbs.event = some f → A f) (revents : REvents) (recv : RecvResult) (send : SendResult) :
    Keeps I (channelHandleEvent cbs revents recv send) := by
  refine (keeps_ite (h.keeps_handleRead hm recv) keeps_ok).andThen (.andThen ?_ (h.keeps_handleEvent he))
  exact keeps_ite (h.keeps_handleWrite hm send) (keeps_ite (h.keeps_handleClose hm)
    (keeps_ite (h.keeps_handleClose hm) keeps_ok))

end EventPreserved

namespace HandlerPreserved

variable {T : Task → Prop} (h : HandlerPreserved T I)
include h

theorem keeps_timerRefresh : Keeps I timerRefresh := by
  intro c hc
  obtain ⟨w, e⟩ := timerRefresh_cases c
  rw [e]
  exact h.setTimer c.enableInactiveRelease w hc

theorem events : EventPreserved (Good I) I :=
  { h with
    call := Good.keeps
    shutdown := h.keeps_shutdownInLoop
    timerRefresh := h.keeps_timerRefresh }

theorem onTime {c : Connection κ ν} (hc : I c) (times : Nat) : I (c.onTime times) :=
  state_onTime (fun w => h.setTimer c.enableInactiveRelease w hc)
    (fun _ hc => h.release hc Caller.noConfusion Caller.noConfusion) times

theorem state_runTask {cbs : Callbacks κ ν} (hc : HandledBy I cbs) {c : Connection κ ν} (hi : I c) {t : Task}
    (h₁ : t ≠ .release) (h₂ : t ≠ .established) : I (c.runTask cbs t).state := by
  cases t with
  | release => exact absurd rfl h₁
  | established => exact absurd rfl h₂
  | shutdown => exact h.keeps_shutdownInLoop hc.message _ hi
  | send data => exact h.send data hi
  | enableInactiveRelease sec => exact h.keeps_enableInactiveReleaseInLoop sec _ hi
  | cancelInactiveRelease => exact h.cancelInactiveReleaseInLoop hi

theorem state_runNextTask (hT : ∀ t, t ≠ .release → t ≠ .established → T t) {cbs : Callbacks κ ν}
    (hc : HandledBy I cbs) {c : Connection κ ν} (hi : I c) (hn : c.loop.functor.head? ≠ some .established) :
    I (c.runNextTask cbs).state := by
  rw [runNextTask]
  split
  · exact hi
  · next t functor e =>
    have ht : t ≠ .established := fun ht => hn (by rw [e, ht]; rfl)
    by_cases hr : t = .release
    · subst hr
      exact h.releaseInLoop hi e hc.closed
    · exact h.state_runTask hc (h.runTask hi e (hT t hr ht)) hr ht

/-- A step that neither runs nor queues `EstablishedInLoop`. -/
theorem state_exec (hT : ∀ t, t ≠ .release → t ≠ .established → T t) {s : Step κ ν} (hs : s.Handles I) {c : Connection κ ν} (hi : I c)
    (hr : ∀ cbs, s = .runTask cbs → c.loop.functor.head? ≠ some .established)
    (hq : s ≠ .queueInLoop .established) : I (s.exec c).state := by
  cases s with
  | handleEvent cbs revents recv send =>
    have hs : HandledBy I cbs := hs
    exact h.events.keeps_channelHandleEvent hs.message hs.event revents recv send c hi
  | onTime times => exact h.onTime hi times
  | callback cb => exact Good.keeps hs c hi
  | queueInLoop t =>
    show I (c.queueFromThread t)
    unfold queueFromThread
    split
    · exact h.release hi Caller.noConfusion Caller.noConfusion
    · next ht => exact h.queueInLoop hi (hT t ht fun e => hq (by rw [e]))
  | swapTasks => exact h.swapTasks hi
  | runTask cbs => exact h.state_runNextTask hT hs hi (hr cbs rfl)
  | removeConnectionInLoop =>
    show I (if _ then _ else _)
    split
    · next hr => exact h.removeConnectionInLoop hi hr
    · exact hi

end HandlerPreserved

theorem keeps_establishedInLoop {connected : Option (Callback κ ν)} (h : ∀ c, I c → c.statu = .connecting →
    I (callIfSet connected { c with statu := .connected }.enableRead).state) :
    Keeps I (establishedInLoop connected) := by
  intro c hi
  rw [establishedInLoop]
  split
  · next hs => exact h c hi hs
  · exact hi

namespace LoopPreserved

variable (h : LoopPreserved I) {connected : Option (Callback κ ν)}
include h

theorem keeps_establishedInLoop (hc : ∀ f, connected = some f → ∀ c, I c → c.statu = .connecting →
    I (f { c with statu := .connected }.enableRead).state) : Keeps I (establishedInLoop connected) := by
  refine Connection.keeps_establishedInLoop fun c hi hs => ?_
  cases connected with
  | none => exact h.established hi hs
  | some f => exact hc f rfl c hi hs

theorem keeps_runNextTask {cbs : Callbacks κ ν} (hc : KeptBy I cbs) : Keeps I (runNextTask cbs) := by
  intro c hi
  by_cases hn : c.loop.functor.head? = some .established
  · obtain ⟨functor, e⟩ := List.head?_eq_some_iff.mp hn
    rw [runNextTask, e]
    exact h.keeps_establishedInLoop hc.connected _ (h.runTask hi e Task.noConfusion)
  · exact h.state_runNextTask (fun _ ht _ => ht) hc.toHandledBy hi hn

theorem keeps_exec {s : Step κ ν} (hs : s.Keeps I) : Keeps I s.exec := by
  intro c hi
  by_cases hq : s = .queueInLoop .established
  · subst hq
    exact h.queueInLoop hi Task.noConfusion
  · by_cases hr : ∃ cbs, s = .runTask cbs
    · obtain ⟨cbs, rfl⟩ := hr
      exact h.keeps_runNextTask hs c hi
    · exact h.state_exec (fun _ ht _ => ht) hs.handles hi (fun cbs e => absurd ⟨cbs, e⟩ hr) hq

theorem keeps_run {steps : List (Step κ ν)} (hs : ∀ s ∈ steps, s.Keeps I) : Keeps I (run steps) :=
  keeps_runAll fun s hm => h.keeps_exec (hs s hm)

end LoopPreserved

/-- An invariant holds throughout every run with user code as callbacks. -/
theorem UserPreserved.keeps_run (h : UserPreserved I) {steps : List (Step κ ν)}
    (hs : ∀ s ∈ steps, s.All UserCode) : Keeps I (run steps) :=
  h.toLoopPreserved.keeps_run fun s hm => h.stepKeeps (hs s hm)

/-! ## Notes -/

/-- What user code has noted. -/
def notes (log : List (Event ν)) : List ν :=
  log.filterMap fun e => match e with
    | .note n => some n
    | _ => none

theorem notes_append (log log' : List (Event ν)) : notes (log ++ log') = notes log ++ notes log' :=
  List.filterMap_append

/-- The context is the same, and nothing was noted. -/
structure Unnoted (c d : Connection κ ν) : Prop where
  context : d.context = c.context
  notes : Connection.notes d.log = Connection.notes c.log

theorem Unnoted.of_log {c d : Connection κ ν} (es : List (Event ν)) (hc : d.context = c.context)
    (hl : d.log = c.log ++ es) (he : Connection.notes es = []) : Unnoted c d :=
  ⟨hc, by rw [hl, notes_append, he, List.append_nil]⟩

theorem Unnoted.of_eq {c d : Connection κ ν} (hc : d.context = c.context) (hl : d.log = c.log) : Unnoted c d :=
  ⟨hc, congrArg Connection.notes hl⟩

theorem Unnoted.of {P : κ → List ν → Prop} {c d : Connection κ ν} (h : Unnoted c d)
    (hc : P c.context (Connection.notes c.log)) : P d.context (Connection.notes d.log) := by
  rw [h.context, h.notes]
  exact hc

theorem unnoted_sendInLoop (c : Connection κ ν) (data : Bytes) : Unnoted c (c.sendInLoop data) := by
  rcases sendInLoop_cases c data with ⟨_, e⟩ | ⟨_, e | e⟩
  · rw [e]
    exact .of_eq rfl rfl
  · rw [e]
    exact .of_log [.accepted data] rfl rfl rfl
  · rw [e]
    exact .of_log [.accepted data] rfl rfl rfl

theorem unnoted_beginShutdown (c : Connection κ ν) : Unnoted c c.beginShutdown :=
  .of_log [.shutdownInLoop] rfl rfl rfl

theorem unnoted_release (c : Connection κ ν) (caller : Caller) : Unnoted c (c.release caller) :=
  .of_log [.release caller c.releasing] rfl rfl rfl

theorem unnoted_endShutdown (c : Connection κ ν) : Unnoted c c.endShutdown := by
  rcases endShutdown_cases c with ⟨_, e⟩ | ⟨_, e | e⟩
  · rw [e]
    exact unnoted_release c _
  · rw [e]
    exact .of_eq rfl rfl
  · rw [e]
    exact .of_eq rfl rfl

theorem unnoted_beginRelease (c : Connection κ ν) : Unnoted c c.beginRelease := by
  obtain ⟨b, w, e⟩ := beginRelease_eq c
  rw [e]
  refine .of_log (.releaseInLoop :: if c.socketOpen then [.closed] else []) rfl ?_ ?_
  · exact List.append_assoc ..
  · cases c.socketOpen <;> rfl

/-- Only user code changes the context or makes a note. -/
theorem loopPreserved_notes (P : κ → List ν → Prop) :
    LoopPreserved fun c : Connection κ ν => P c.context (notes c.log) where
  setTimer b w h := h
  send {c} data h := (unnoted_sendInLoop c data).of h
  beginShutdown {c} h := (unnoted_beginShutdown c).of h
  endShutdown {c} h _ := (unnoted_endShutdown c).of h
  drained {c} h _ _ := (unnoted_release c _).of h
  release {c caller} h _ _ := (unnoted_release c caller).of h
  received {c} data h := by
    have hd : Unnoted c ({ c with inBuffer := c.inBuffer ++ data }.record (.received data)) :=
      .of_log [.received data] rfl rfl rfl
    exact hd.of h
  handed {c} n h := by
    have hd : Unnoted c ({ c with outBuffer := c.outBuffer.drop n }.record (.handed (c.outBuffer.take n))) :=
      .of_log [.handed (c.outBuffer.take n)] rfl rfl rfl
    exact hd.of h
  disableWrite h _ := h
  established h _ := h
  runTask h _ _ := h
  releaseInLoop {c functor closed} h _ hc := by
    have hb := unnoted_beginRelease { c with loop := { c.loop with functor } }
    refine state_releaseInLoop (hb.of h) (fun c h => ?_) (fun f e => (hc f e).keeps) fun c h => ?_
    · have hd : Unnoted c (c.record .closedCallback) := .of_log [.closedCallback] rfl rfl rfl
      exact hd.of h
    · have hd : Unnoted c (c.record .srvClosedCallback) := .of_log [.srvClosedCallback] rfl rfl rfl
      have he : Unnoted c ({ c.record .srvClosedCallback with inConns := false }.record .erased) :=
        .of_log [.srvClosedCallback, .erased] rfl (List.append_assoc ..) rfl
      refine state_removeConnection (I := fun c => P c.context (notes c.log)) ?_ ?_
      · refine state_removeConnectionInLoop (I := fun c => P c.context (notes c.log)) ?_ ?_
        · exact hd.of h
        · exact he.of h
      · exact hd.of h
  removeConnectionInLoop {c} h _ := by
    have he : Unnoted c ({ c with removals := c.removals - 1, inConns := false }.record .erased) :=
      .of_log [.erased] rfl rfl rfl
    refine state_removeConnectionInLoop (I := fun c => P c.context (notes c.log)) h ?_
    exact he.of h
  swapTasks h := h
  queueInLoop h _ := h

end Connection

end Mudou
