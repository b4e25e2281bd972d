import Mudou.Net.UserCode

/-!
# No connection gets stuck

Up to its first `ReleaseInLoop`, a connection that waits is one that something
wakes: with outgoing bytes it monitors `EPOLLOUT` (`Monitored`), and if it is
shutting down it has outgoing bytes or a queued `ReleaseInLoop` (`Settled`).

The first holds at all times. The second does not inside `ShutdownInLoop`,
around the message callback; it holds whenever a handler or a task returns
(`Ensures`). `moving_between` is the result over every run.
-/

namespace Mudou

namespace Connection

variable {κ ν : Type} {c d : Connection κ ν}

open Outcome

/-- The read handler of `Channel::HandleEvent`. -/
def readHandler (cbs : Callbacks κ ν) (revents : REvents) (recv : RecvResult) (c : Connection κ ν) :
    Outcome (Connection κ ν) :=
  if revents.pollIn || revents.rdHup || revents.pri then c.handleRead cbs.message recv else ok c

/-- The write, error or close handler of `Channel::HandleEvent`. -/
def writeHandler (cbs : Callbacks κ ν) (revents : REvents) (send : SendResult) (c : Connection κ ν) :
    Outcome (Connection κ ν) :=
  if revents.pollOut then c.handleWrite cbs.message send
  else if revents.err then c.handleError cbs.message
  else if revents.hup then c.handleClose cbs.message
  else ok c

theorem channelHandleEvent_eq (cbs : Callbacks κ ν) (revents : REvents) (recv : RecvResult)
    (send : SendResult) (c : Connection κ ν) : c.channelHandleEvent cbs revents recv send =
      (c.readHandler cbs revents recv).andThen fun c =>
      (c.writeHandler cbs revents send).andThen fun c => c.handleEvent cbs.event := rfl

/-- `c` stands between two handlers or tasks of a run from `b`. -/
inductive Between (b : Connection κ ν) : Connection κ ν → Prop where
  | steps {steps c} : (∀ s ∈ steps, s.All UserCode) → run steps b = ok c → Between b c
  | afterRead {c d cbs revents recv} : Between b c → cbs.All UserCode →
      c.readHandler cbs revents recv = ok d → Between b d
  | afterWrite {c d cbs revents send} : Between b c → cbs.All UserCode →
      c.writeHandler cbs revents send = ok d → Between b d

structure Moving (c : Connection κ ν) : Prop where
  monitored : c.outBuffer ≠ [] → c.channel.writeAble = true ∧ c.channel.registered = true
  settled : c.statu = .disconnecting → c.outBuffer ≠ [] ∨ .release ∈ c.loop.functor ++ c.loop.tasks

/-! ## Outgoing bytes are monitored -/

def Monitored (c : Connection κ ν) : Prop :=
  .releaseInLoop ∉ c.log →
    (c.channel.writeAble = true → c.channel.registered = true) ∧
      (c.outBuffer ≠ [] → c.channel.writeAble = true)

theorem Monitored.same (h : Monitored c) (hl : c.log <+: d.log) (hc : d.channel = c.channel)
    (ho : d.outBuffer = c.outBuffer) : Monitored d := by
  intro hr
  rw [hc, ho]
  exact h fun hm => hr (hl.subset hm)

theorem Monitored.record (h : Monitored c) (e : Event ν) : Monitored (c.record e) :=
  h.same (List.prefix_append ..) rfl rfl

theorem monitored_of_released (h : .releaseInLoop ∈ c.log) : Monitored c := fun hr => absurd h hr

theorem monitored_enableWrite (c : Connection κ ν) : Monitored c.enableWrite :=
  fun _ => ⟨fun _ => rfl, fun _ => rfl⟩

theorem Monitored.release (h : Monitored c) (caller : Caller) : Monitored (c.release caller) :=
  (h.record _).same (List.prefix_refl _) rfl rfl

theorem Monitored.sendInLoop (h : Monitored c) (data : Bytes) : Monitored (c.sendInLoop data) := by
  unfold Connection.sendInLoop
  by_cases hs : c.statu = .disconnected
  · rw [if_pos hs]
    exact h
  · rw [if_neg hs]
    simp only
    split
    · exact monitored_enableWrite _
    · next hw =>
      intro hr
      refine ⟨(h fun hm => hr (List.mem_append_left _ hm)).1, fun _ => ?_⟩
      exact (Bool.not_eq_false _).mp hw

theorem Monitored.endShutdown (h : Monitored c) : Monitored c.endShutdown := by
  rcases endShutdown_cases c with ⟨_, e⟩ | ⟨_, e | e⟩
  · rw [e]
    exact h.release _
  · rw [e]
    exact monitored_enableWrite c
  · rw [e]
    exact h

/-- `ReleaseInLoop` has run, whatever follows. -/
theorem released_removeConnection (h : .releaseInLoop ∈ c.log) : .releaseInLoop ∈ c.removeConnection.log := by
  have hr : .releaseInLoop ∈ (c.record .srvClosedCallback).log := List.mem_append_left _ h
  exact state_removeConnection (I := fun c => Event.releaseInLoop ∈ c.log)
    (state_removeConnectionInLoop (I := fun c => Event.releaseInLoop ∈ c.log) hr (List.mem_append_left _ hr)) hr

theorem released_beginRelease (c : Connection κ ν) : .releaseInLoop ∈ c.beginRelease.log := by
  obtain ⟨b, w, e⟩ := beginRelease_eq c
  rw [e]
  exact List.mem_append_left _ (List.mem_append_right _ List.mem_cons_self)

theorem released_releaseInLoop {closed : Option (Callback κ ν)}
    (hc : ∀ f, closed = some f → ∀ c, Frame c (f c).state) :
    .releaseInLoop ∈ (c.releaseInLoop closed).state.log := by
  refine state_releaseInLoop (I := fun c => Event.releaseInLoop ∈ c.log) (released_beginRelease c)
    (fun _ h => List.mem_append_left _ h) (fun f e c h => ?_) fun _ h => released_removeConnection h
  obtain ⟨es, el, _⟩ := (hc f e c).log
  exact el ▸ List.mem_append_left _ h

theorem monitored_preserved : UserPreserved (Monitored : Connection κ ν → Prop) where
  setTimer b w h := h.same (List.prefix_refl _) rfl rfl
  send data h := h.sendInLoop data
  beginShutdown h := h.same (List.prefix_append ..) rfl rfl
  endShutdown h _ := h.endShutdown
  drained h _ _ := h.release _
  release h _ _ := h.release _
  received data h := h.same (List.prefix_append ..) rfl rfl
  handed n h := by
    intro hr
    obtain ⟨h₁, h₂⟩ := h fun hm => hr (List.mem_append_left _ hm)
    refine ⟨h₁, fun ho => h₂ fun hc => ho ?_⟩
    show List.drop n _ = []
    rw [hc, List.drop_nil]
  disableWrite h ho := fun _ => ⟨Bool.noConfusion, fun hc => absurd (List.length_eq_zero_iff.mp ho) hc⟩
  established h _ := fun hr => ⟨fun _ => rfl, (h hr).2⟩
  runTask h _ _ := h.same (List.prefix_refl _) rfl rfl
  releaseInLoop h _ hc := monitored_of_released (released_releaseInLoop fun f e => (hc f e).frame)
  removeConnectionInLoop {c} h _ := by
    have h' : Monitored { c with removals := c.removals - 1 } := h
    exact state_removeConnectionInLoop h' (h'.same (List.prefix_append ..) rfl rfl)
  swapTasks h := h
  queueInLoop h _ := h
  setInBuffer q h := h
  setContext x h := h
  note n h := h.record _

/-! ## A shutdown goes on -/

def Settled (c : Connection κ ν) : Prop :=
  .releaseInLoop ∉ c.log → c.statu = .disconnecting →
    c.outBuffer ≠ [] ∨ .release ∈ c.loop.functor ++ c.loop.tasks

/-- Nothing changes but what makes it easier. -/
theorem Settled.same (h : Settled c) (hl : c.log <+: d.log) (hs : d.statu = c.statu)
    (ho : c.outBuffer ≠ [] → d.outBuffer ≠ [])
    (hq : .release ∈ c.loop.functor ++ c.loop.tasks → .release ∈ d.loop.functor ++ d.loop.tasks) :
    Settled d := by
  intro hr hd
  exact (h (fun hm => hr (hl.subset hm)) (hs.symm.trans hd)).imp ho hq

theorem settled_of_released (h : .releaseInLoop ∈ c.log) : Settled c := fun hr => absurd h hr

theorem settled_release (caller : Caller) (c : Connection κ ν) : Settled (c.release caller) :=
  fun _ _ => .inr (List.mem_append_right _ (List.mem_append_right _ List.mem_cons_self))

theorem settled_of_ne (h : c.statu ≠ .disconnecting) : Settled c := fun _ hs => absurd hs h

theorem Settled.setTimer (h : Settled c) (b : Bool) (w : TimerWheel TaskFunc) :
    Settled ({ c with enableInactiveRelease := b }.setTimerWheel w) :=
  h.same (List.prefix_refl _) rfl id id

theorem Settled.sendInLoop (h : Settled c) (data : Bytes) : Settled (c.sendInLoop data) := by
  have he : Settled (c.accept data) :=
    h.same (List.prefix_append ..) rfl (fun ho => List.append_ne_nil_of_left_ne_nil ho data) id
  rcases sendInLoop_cases c data with ⟨_, e⟩ | ⟨_, e | e⟩
  · rw [e]
    exact h
  · rw [e]
    exact he.same (List.prefix_refl _) rfl id id
  · rw [e]
    exact he

/-- `ShutdownInLoop` ends with a release or with outgoing bytes, whatever its
message callback did. -/
theorem settled_shutdownInLoop (message : Option (Callback κ ν)) (c : Connection κ ν) :
    Ensures Settled (c.shutdownInLoop message) := by
  rw [shutdownInLoop_eq]
  refine Ensures.andThen (P := fun _ => True) (fun _ _ => trivial) fun d _ => ensures_ok ?_
  rcases endShutdown_cases d with ⟨_, e⟩ | ⟨ho, e | e⟩
  · rw [e]
    exact settled_release _ d
  · rw [e]
    exact fun _ _ => .inl (List.length_eq_zero_iff.not.mp ho)
  · rw [e]
    exact fun _ _ => .inl (List.length_eq_zero_iff.not.mp ho)

theorem settled_timerRefresh (h : Settled c) : Ensures Settled c.timerRefresh := by
  intro d e
  obtain ⟨w, ew⟩ := timerRefresh_cases c
  rw [e] at ew
  exact (show d = c.setTimerWheel w from ew) ▸ h.setTimer c.enableInactiveRelease w

theorem settled_enableInactiveReleaseInLoop (h : Settled c) (sec : UInt32) :
    Ensures Settled (c.enableInactiveReleaseInLoop sec) := by
  intro d e
  obtain ⟨w, ew⟩ := enableInactiveReleaseInLoop_cases c sec
  rw [e] at ew
  exact (show d = _ from ew) ▸ h.setTimer true w

theorem Settled.cancelInactiveReleaseInLoop (h : Settled c) : Settled c.cancelInactiveReleaseInLoop := by
  obtain ⟨w, e⟩ := cancelInactiveReleaseInLoop_cases c
  rw [e]
  exact h.setTimer false w

theorem UserCode.settled {f : Callback κ ν} (hf : UserCode f) : ∀ {c}, Settled c → Ensures Settled (f c) := by
  induction hf with
  | done => exact fun h => ensures_ok h
  | throw => exact fun _ => ensures_stopped _
  | andThen _ _ hf hg => exact fun h => (hf h).andThen fun _ h => hg h
  | branch _ ih => exact fun {c} h => ih c h
  | setInBuffer q => exact fun h => ensures_ok (h.same (List.prefix_refl _) rfl id id)
  | setContext x => exact fun h => ensures_ok (h.same (List.prefix_refl _) rfl id id)
  | note n => exact fun h => ensures_ok (h.same (List.prefix_append ..) rfl id id)
  | send data => exact fun h => ensures_ok (h.sendInLoop data)
  | shutdown _ _ => exact fun {c} _ => settled_shutdownInLoop _ c
  | release => exact fun {c} _ => ensures_ok (settled_release _ c)
  | enableInactiveRelease sec => exact fun h => settled_enableInactiveReleaseInLoop h sec
  | cancelInactiveRelease => exact fun h => ensures_ok h.cancelInactiveReleaseInLoop

/-! ### The handlers -/

variable {cbs : Callbacks κ ν} {cb : Option (Callback κ ν)}

theorem settled_call (hm : ∀ f, cb = some f → UserCode f) (h : Settled c) : Ensures Settled (call cb c) := by
  cases cb with
  | none => exact ensures_stopped c
  | some f => exact (hm f rfl).settled h

theorem settled_callIfSet (hm : ∀ f, cb = some f → UserCode f) (h : Settled c) :
    Ensures Settled (callIfSet cb c) := by
  cases cb with
  | none => exact ensures_ok h
  | some f => exact (hm f rfl).settled h

theorem ensures_ite {P : Connection κ ν → Prop} {p : Prop} [Decidable p] {o o' : Outcome (Connection κ ν)}
    (h : p → Ensures P o) (h' : ¬ p → Ensures P o') : Ensures P (if p then o else o') := by
  split
  · next hp => exact h hp
  · next hp => exact h' hp

/-- The input that is left goes to the message callback, then the connection
is released. -/
theorem settled_flushAndRelease (c : Connection κ ν) (caller : Caller) : Ensures Settled
    ((if 0 < c.inBuffer.length then call cb c else ok c).andThen fun c => ok (c.release caller)) :=
  Ensures.andThen (P := fun _ => True) (fun _ _ => trivial) fun d _ => ensures_ok (settled_release caller d)

theorem settled_readHandler (hc : cbs.All UserCode) (revents : REvents) (recv : RecvResult) (h : Settled c) :
    Ensures Settled (c.readHandler cbs revents recv) := by
  refine ensures_ite (fun _ => ?_) fun _ => ensures_ok h
  rw [handleRead]
  cases c.nonBlockRecv recv with
  | none => exact settled_shutdownInLoop cbs.message c
  | some data =>
    have hr : Settled ({ c with inBuffer := c.inBuffer ++ data }.record (.received data)) :=
      h.same (List.prefix_append ..) rfl id id
    exact ensures_ite (fun _ => settled_call (fun f e => hc f (by simp [e])) hr) fun _ => ensures_ok hr

/-- A shutdown that waited for the last bytes releases when they are handed. -/
theorem settled_handleWrite (message : Option (Callback κ ν)) (r : SendResult) (c : Connection κ ν) :
    Ensures Settled (c.handleWrite message r) := by
  rw [handleWrite]
  cases c.nonBlockSend r with
  | none => exact settled_flushAndRelease c .handleWriteError
  | some n =>
    refine ensures_ite (fun _ => ensures_ok ?_) fun ho => ensures_ok ?_
    · split
      · exact settled_release _ _
      · next hs => exact settled_of_ne hs
    · exact fun _ _ => .inl (List.length_eq_zero_iff.not.mp ho)

theorem settled_writeHandler (cbs : Callbacks κ ν) (revents : REvents) (send : SendResult) (h : Settled c) :
    Ensures Settled (c.writeHandler cbs revents send) :=
  ensures_ite (fun _ => settled_handleWrite cbs.message send c) fun _ =>
  ensures_ite (fun _ => settled_flushAndRelease c .handleClose) fun _ =>
  ensures_ite (fun _ => settled_flushAndRelease c .handleClose) fun _ => ensures_ok h

theorem settled_handleEvent (he : ∀ f, cb = some f → UserCode f) (h : Settled c) :
    Ensures Settled (c.handleEvent cb) :=
  (ensures_ite (fun _ => settled_timerRefresh h) fun _ => ensures_ok h).andThen fun _ => settled_callIfSet he

theorem settled_establishedInLoop (hc : ∀ f, cb = some f → UserCode f) (c : Connection κ ν) :
    Ensures Settled (c.establishedInLoop cb) :=
  ensures_ite (fun _ => settled_callIfSet hc (settled_of_ne ConnStatu.noConfusion)) fun _ => ensures_stopped c

theorem Settled.onTime (h : Settled c) (times : Nat) : Settled (c.onTime times) :=
  state_onTime (fun w => h.setTimer c.enableInactiveRelease w) (fun c _ => settled_release _ c) times

/-! ## Runs -/

theorem settled_runNextTask (hc : cbs.All UserCode) (h : Settled c) : Ensures Settled (c.runNextTask cbs) := by
  rw [runNextTask]
  cases e : c.loop.functor with
  | nil => exact ensures_ok h
  | cons t functor =>
    have hp : t ≠ .release → Settled { c with loop := { c.loop with functor } } := fun ht =>
      h.same (List.prefix_refl _) rfl id fun hm => by simpa [e, ht.symm] using hm
    cases t with
    | established => exact settled_establishedInLoop (fun f e => hc f (by simp [e])) _
    | release =>
      intro d ed
      have hr : Event.releaseInLoop ∈ d.log := by
        have hf : .releaseInLoop ∈ ({ c with loop := { c.loop with functor } }.releaseInLoop cbs.closed).state.log :=
          released_releaseInLoop fun f e => (hc f (by simp [e])).frame
        rwa [show releaseInLoop cbs.closed _ = ok d from ed] at hf
      exact settled_of_released hr
    | shutdown => exact settled_shutdownInLoop cbs.message _
    | send data => exact ensures_ok ((hp Task.noConfusion).sendInLoop data)
    | enableInactiveRelease sec => exact settled_enableInactiveReleaseInLoop (hp Task.noConfusion) sec
    | cancelInactiveRelease => exact ensures_ok (hp Task.noConfusion).cancelInactiveReleaseInLoop

theorem settled_exec {s : Step κ ν} (hs : s.All UserCode) (h : Settled c) : Ensures Settled (s.exec c) := by
  cases s with
  | handleEvent cbs revents recv send =>
    rw [Step.exec, channelHandleEvent_eq]
    exact (settled_readHandler hs revents recv h).andThen fun _ h =>
      (settled_writeHandler cbs revents send h).andThen fun _ h =>
      settled_handleEvent (fun f e => hs f (by simp [e])) h
  | onTime times => exact ensures_ok (h.onTime times)
  | callback cb => exact UserCode.settled hs h
  | queueInLoop t =>
    refine ensures_ok ?_
    show Settled (c.queueFromThread t)
    unfold queueFromThread
    split
    · exact settled_release _ c
    · exact h.same (List.prefix_refl _) rfl id fun hm => by
        rw [queueInLoop, ← List.append_assoc]
        exact List.mem_append_left _ hm
  | swapTasks => exact ensures_ok (h.same (List.prefix_refl _) rfl id fun hm => by simpa [swapTasks] using hm)
  | runTask cbs => exact settled_runNextTask hs h
  | removeConnectionInLoop =>
    refine ensures_ok ?_
    split
    · exact state_removeConnectionInLoop (h.same (List.prefix_refl _) rfl id id)
        (h.same (List.prefix_append ..) rfl id id)
    · exact h

theorem monitored_readHandler (hc : cbs.All UserCode) (revents : REvents) (recv : RecvResult) :
    Keeps Monitored (readHandler cbs revents recv) := by
  have hm : ∀ f, cbs.message = some f → Good Monitored f := fun f e =>
    monitored_preserved.good (hc f (by simp [e]))
  exact keeps_ite (monitored_preserved.events.keeps_handleRead hm recv) keeps_ok

theorem monitored_writeHandler (hc : cbs.All UserCode) (revents : REvents) (send : SendResult) :
    Keeps Monitored (writeHandler cbs revents send) := by
  have hm : ∀ f, cbs.message = some f → Good Monitored f := fun f e =>
    monitored_preserved.good (hc f (by simp [e]))
  exact keeps_ite (monitored_preserved.events.keeps_handleWrite hm send)
    (keeps_ite (monitored_preserved.events.keeps_handleClose hm)
      (keeps_ite (monitored_preserved.events.keeps_handleClose hm) keeps_ok))

/-- Between any two handlers and tasks of every run up to its first
`ReleaseInLoop`, the connection is not stuck. -/
theorem moving_between (connId : UInt64) (onBaseLoop : Bool) (context : κ) (timeout : Option UInt32)
    (hb : Between (new connId onBaseLoop context timeout) c) (hr : .releaseInLoop ∉ c.log) : Moving c := by
  suffices h : Monitored c ∧ Settled c from by
    obtain ⟨h₁, h₂⟩ := h.1 hr
    exact ⟨fun ho => ⟨h₂ ho, h₁ (h₂ ho)⟩, h.2 hr⟩
  clear hr
  induction hb with
  | steps hs e =>
    have hm := monitored_preserved.keeps_run hs (new connId onBaseLoop context timeout)
      fun _ => ⟨Bool.noConfusion, fun ho => absurd rfl ho⟩
    rw [e] at hm
    refine ⟨hm, ?_⟩
    exact ensures_runAll (fun s hm _ h => settled_exec (hs s hm) h) _ (settled_of_ne ConnStatu.noConfusion) _ e
  | @afterRead c d cbs revents recv _ hc e ih =>
    have hm := monitored_readHandler hc revents recv c ih.1
    rw [e] at hm
    exact ⟨hm, settled_readHandler hc revents recv ih.2 d e⟩
  | @afterWrite c d cbs revents send _ hc e ih =>
    have hm := monitored_writeHandler hc revents send c ih.1
    rw [e] at hm
    exact ⟨hm, settled_writeHandler cbs revents send ih.2 d e⟩

/-- A connection with outgoing bytes is shut down. -/
def halfClosed : List (Step Unit Unit) :=
  [.swapTasks, .runTask ⟨none, none, none, none⟩, .callback fun c => ok (c.sendInLoop [104, 105]),
    .callback (shutdownInLoop none)]

theorem halfClosed_userCode : ∀ s ∈ halfClosed, s.All UserCode := by
  have hn : (⟨none, none, none, none⟩ : Callbacks Unit Unit).All UserCode := fun f hf => by simp at hf
  intro s hs
  simp only [halfClosed, List.mem_cons, List.not_mem_nil, or_false] at hs
  rcases hs with rfl | rfl | rfl | rfl
  · trivial
  · exact hn
  · exact .send _
  · exact .shutdown fun f hf => absurd hf (Option.some_ne_none f).symm

/-- It goes on to monitor `EPOLLOUT`. -/
theorem moving_between_halfClosed : Moving (run halfClosed (new 1 true () none)).state := by
  have hb : Between (new 1 true () none) (run halfClosed (new 1 true () none)).state :=
    .steps halfClosed_userCode rfl
  have hl : (run halfClosed (new 1 true () none)).state.log = [.accepted [104, 105], .shutdownInLoop] := rfl
  exact moving_between 1 true () none hb (by rw [hl]; simp)

end Connection

end Mudou
