import Mathlib.Data.List.GetD
import Mathlib.Order.Monotone.Basic
import Mudou.Lib.Endless
import Mudou.Net.Output
import Mudou.Net.Progress
import Mudou.Net.Release
import Mudou.Net.Status

/-!
# A connection gets done

`Fair` is what a connection needs of the poller, of the loop's thread and of
the base loop: `EPOLLOUT` comes while the channel asks for it, with room for a
byte or an error, and queued tasks are run. In every such run without end, with
any user code and any other events in between, what was accepted is handed to
the socket, unless the connection is closed first (`handed_of_fair`); and a
connection that is released, or shut down by a user who sends finitely many
bytes, is closed and erased from `_conns` (`closed_of_fair`), where its id is
one that `RemoveConnectionInLoop` finds (`ConnTable`).

`Step.Moves` says once what a step does to the tasks, the socket and the table.
`Lossless`: only an abrupt release loses what was accepted before any release.
-/

namespace Mudou

/-- The socket takes a byte or fails. -/
def SendResult.Moving : SendResult → Prop
  | .sent n => 0 < n
  | .fail retry => retry = false

namespace Connection

variable {κ ν : Type} {b c d : Connection κ ν}

open Outcome Endless History

/-! ## What a step does -/

/-- The tasks swapped out, the socket and the table are as before. -/
structure Steady (c d : Connection κ ν) : Prop where
  functor : d.loop.functor = c.loop.functor
  socketOpen : d.socketOpen = c.socketOpen
  inConns : d.inConns = c.inConns
  removals : d.removals = c.removals
  log : c.log <+: d.log

theorem Steady.refl (c : Connection κ ν) : Steady c c := ⟨rfl, rfl, rfl, rfl, List.prefix_refl _⟩

theorem Steady.trans (h : Steady b c) (h' : Steady c d) : Steady b d :=
  ⟨h'.functor.trans h.functor, h'.socketOpen.trans h.socketOpen, h'.inConns.trans h.inConns,
    h'.removals.trans h.removals, h.log.trans h'.log⟩

theorem Frame.steady (h : Frame c d) : Steady c d := by
  obtain ⟨es, e, _⟩ := h.log
  exact ⟨h.functor, h.socketOpen, h.inConns, h.removals, e ▸ List.prefix_append ..⟩

theorem steady_release (c : Connection κ ν) (caller : Caller) : Steady c (c.release caller) :=
  ⟨rfl, rfl, rfl, rfl, List.prefix_append ..⟩

theorem UserCode.keeps_steady {f : Callback κ ν} (h : UserCode f) : Keeps (Steady b) f :=
  fun c hc => hc.trans (h.frame c).steady

variable {cbs : Callbacks κ ν} {cb : Option (Callback κ ν)}

theorem steady_preserved : EventPreserved UserCode (Steady b) where
  call hf := hf.keeps_steady
  shutdown hm := (UserCode.shutdown hm).keeps_steady
  timerRefresh c hc := by
    obtain ⟨w, e⟩ := timerRefresh_cases c
    rw [e]
    exact hc.trans (frame_timer c c.enableInactiveRelease w).steady
  drained hc _ _ := hc.trans (steady_release _ _)
  release hc _ _ := hc.trans (steady_release _ _)
  received data hc := hc.trans ⟨rfl, rfl, rfl, rfl, List.prefix_append ..⟩
  handed n hc := hc.trans ⟨rfl, rfl, rfl, rfl, List.prefix_append ..⟩
  disableWrite hc _ := hc.trans ⟨rfl, rfl, rfl, rfl, List.prefix_refl _⟩

theorem steady_establishedInLoop (hc : ∀ f, cb = some f → UserCode f) : Keeps (Steady b) (establishedInLoop cb) :=
  keeps_establishedInLoop fun _ hi _ => keeps_callIfSet (fun f e => (hc f e).keeps_steady) _
    (hi.trans ⟨rfl, rfl, rfl, rfl, List.prefix_refl _⟩)

/-- `ReleaseInLoop` has run: the socket is closed, and the connection is
erased or its `RemoveConnectionInLoop` queued. -/
structure Released (c d : Connection κ ν) : Prop where
  functor : d.loop.functor = c.loop.functor
  socketOpen : d.socketOpen = false
  inConns : c.inConns = false → d.inConns = false
  removal : d.inConns = false ∨ 0 < d.removals
  log : c.log <+: d.log

theorem released_removeConnection_of (c : Connection κ ν) (h : c.socketOpen = false) :
    Released c c.removeConnection := by
  unfold removeConnection
  simp only
  split
  · unfold removeConnectionInLoop
    split
    · exact ⟨rfl, h, fun _ => rfl, .inl rfl, (List.prefix_append ..).trans (List.prefix_append ..)⟩
    · next hi => exact ⟨rfl, h, id, .inl (Bool.eq_false_iff.mpr hi), List.prefix_append ..⟩
  · exact ⟨rfl, h, id, .inr (Nat.succ_pos _), List.prefix_append ..⟩

theorem released_releaseInLoop_of (hc : ∀ f, cb = some f → UserCode f) (e : c.releaseInLoop cb = ok d) :
    Released c d := by
  obtain ⟨b, w, eb⟩ := beginRelease_eq c
  have hlog : c.log <+: c.beginRelease.log := by
    rw [eb]
    exact (List.prefix_append ..).trans (List.prefix_append ..)
  have hbegin : c.beginRelease.loop.functor = c.loop.functor ∧ c.beginRelease.socketOpen = false ∧
      c.beginRelease.inConns = c.inConns := by
    rw [eb]
    exact ⟨rfl, rfl, rfl⟩
  rw [releaseInLoop_eq] at e
  cases cb with
  | none =>
    have hr := released_removeConnection_of c.beginRelease hbegin.2.1
    rw [ok.inj e] at hr
    exact ⟨hr.functor.trans hbegin.1, hr.socketOpen, fun hi => hr.inConns (hbegin.2.2.trans hi), hr.removal,
      hlog.trans hr.log⟩
  | some f =>
    have hf := ((hc f rfl).frame (c.beginRelease.record .closedCallback)).steady
    cases ef : f (c.beginRelease.record .closedCallback) with
    | stopped c' =>
      simp only [ef] at e
      cases e
    | ok c' =>
      simp only [ef] at e
      rw [ef] at hf
      have hr := released_removeConnection_of c' (hf.socketOpen.trans hbegin.2.1)
      rw [show c'.removeConnection = d from ok.inj e] at hr
      exact ⟨hr.functor.trans (hf.functor.trans hbegin.1), hr.socketOpen,
        fun hi => hr.inConns (hf.inConns.trans (hbegin.2.2.trans hi)), hr.removal,
        hlog.trans ((List.prefix_append ..).trans (hf.log.trans hr.log))⟩

/-- What a step that returned has done. -/
def Step.Moves (c d : Connection κ ν) : Step κ ν → Prop
  | .swapTasks => d = c.swapTasks
  | .runTask _ =>
    match c.loop.functor with
    | [] => d = c
    | .release :: functor => Released { c with loop := { c.loop with functor } } d
    | _ :: functor => Steady { c with loop := { c.loop with functor } } d
  | .removeConnectionInLoop =>
    d = if 0 < c.removals then { c with removals := c.removals - 1 }.removeConnectionInLoop else c
  | .handleEvent .. | .onTime _ | .callback _ | .queueInLoop _ => Steady c d

theorem moves_runTask (hc : cbs.All UserCode) (e : c.runNextTask cbs = ok d) :
    (Step.runTask cbs).Moves c d := by
  have hk {f : Callback κ ν} {c : Connection κ ν} (hf : Keeps (Steady c) f) (e : f c = ok d) : Steady c d := by
    have h := hf c (Steady.refl c)
    rwa [e] at h
  rw [runNextTask] at e
  rw [Step.Moves]
  cases ef : c.loop.functor with
  | nil =>
    rw [ef] at e
    exact (ok.inj e).symm
  | cons t functor =>
    rw [ef] at e
    cases t with
    | release => exact released_releaseInLoop_of (fun f e => hc f (by simp [e])) e
    | shutdown => exact hk (UserCode.shutdown fun f e => hc f (by simp [e])).keeps_steady e
    | send data => exact hk (UserCode.send data).keeps_steady e
    | enableInactiveRelease sec => exact hk (UserCode.enableInactiveRelease sec).keeps_steady e
    | cancelInactiveRelease => exact hk UserCode.cancelInactiveRelease.keeps_steady e
    | established => exact hk (steady_establishedInLoop fun f e => hc f (by simp [e])) e

theorem exec_moves {s : Step κ ν} (hs : s.All UserCode) (e : s.exec c = ok d) : s.Moves c d := by
  cases s with
  | handleEvent cbs revents recv send =>
    have hm : ∀ f, cbs.message = some f → UserCode f := fun f e => hs f (by simp [e])
    have he : ∀ f, cbs.event = some f → UserCode f := fun f e => hs f (by simp [e])
    have h := steady_preserved.keeps_channelHandleEvent hm he revents recv send c (Steady.refl c)
    rwa [show channelHandleEvent cbs revents recv send c = ok d from e] at h
  | onTime times =>
    rw [← show c.onTime times = d from ok.inj e]
    exact state_onTime (I := Steady c) (fun w => (frame_timer c c.enableInactiveRelease w).steady)
      (fun c' h => h.trans (steady_release c' .timer)) times
  | callback f =>
    have h := (UserCode.frame hs c).steady
    rwa [show f c = ok d from e] at h
  | queueInLoop t =>
    rw [← show c.queueFromThread t = d from ok.inj e]
    show Steady c (c.queueFromThread t)
    unfold queueFromThread
    split
    · exact steady_release c .user
    · exact ⟨rfl, rfl, rfl, rfl, List.prefix_refl _⟩
  | swapTasks => exact (ok.inj e).symm
  | runTask cbs => exact moves_runTask hs e
  | removeConnectionInLoop => exact (ok.inj e).symm

theorem exec_log {s : Step κ ν} (h : s.Moves c d) : c.log <+: d.log := by
  cases s with
  | handleEvent | onTime | callback | queueInLoop => exact Steady.log h
  | swapTasks =>
    obtain rfl : d = c.swapTasks := h
    exact List.prefix_refl _
  | runTask cbs =>
    rw [Step.Moves] at h
    split at h
    · exact h ▸ List.prefix_refl _
    · exact h.log
    · exact h.log
  | removeConnectionInLoop =>
    obtain rfl : d = _ := h
    split
    · exact state_removeConnectionInLoop (I := fun d => c.log <+: d.log) (List.prefix_refl _) (List.prefix_append ..)
    · exact List.prefix_refl _

theorem exec_inConns {s : Step κ ν} (h : s.Moves c d) (hi : c.inConns = false) : d.inConns = false := by
  cases s with
  | handleEvent | onTime | callback | queueInLoop => exact (Steady.inConns h).trans hi
  | swapTasks =>
    obtain rfl : d = c.swapTasks := h
    exact hi
  | runTask cbs =>
    rw [Step.Moves] at h
    split at h
    · exact h ▸ hi
    · exact h.inConns hi
    · exact h.inConns.trans hi
  | removeConnectionInLoop =>
    obtain rfl : d = _ := h
    split
    · exact state_removeConnectionInLoop (I := fun d => d.inConns = false) hi rfl
    · exact hi

/-! ## What holds between steps -/

/-- A closed connection is erased, or is to be. -/
def Leaving (c : Connection κ ν) : Prop := c.socketOpen = false → c.inConns = false ∨ 0 < c.removals

theorem Leaving.steady (h : Leaving c) (hs : Steady c d) : Leaving d := by
  intro ho
  rw [hs.inConns, hs.removals]
  exact h (hs.socketOpen.symm.trans ho)

theorem Leaving.moves (h : Leaving c) {s : Step κ ν} (hs : s.Moves c d) : Leaving d := by
  cases s with
  | handleEvent | onTime | callback | queueInLoop => exact h.steady hs
  | swapTasks =>
    obtain rfl : d = c.swapTasks := hs
    exact h
  | runTask cbs =>
    rw [Step.Moves] at hs
    split at hs
    · exact hs ▸ h
    · exact fun _ => hs.removal
    · next functor _ _ =>
      have hp : Leaving { c with loop := { c.loop with functor } } := h
      exact hp.steady hs
  | removeConnectionInLoop =>
    obtain rfl : d = _ := hs
    split
    · intro _
      unfold removeConnectionInLoop
      split
      · exact .inl rfl
      · next hi => exact .inl (Bool.eq_false_iff.mpr hi)
    · exact h

/-- The invariants of the other modules and `Leaving`. -/
structure Accounted (c : Connection κ ν) : Prop where
  told : Told c
  balanced : Balanced c
  ledger : Ledger c
  monitored : Monitored c
  settled : Settled c
  leaving : Leaving c

theorem new_accounted (connId : UInt64) (onBaseLoop : Bool) (context : κ) (timeout : Option UInt32) :
    Accounted (new connId onBaseLoop context timeout : Connection κ ν) where
  told := rfl
  balanced := new_balanced connId onBaseLoop context timeout
  ledger := new_ledger connId onBaseLoop context timeout
  monitored _ := ⟨Bool.noConfusion, fun ho => absurd rfl ho⟩
  settled := settled_of_ne ConnStatu.noConfusion
  leaving := Bool.noConfusion

theorem Accounted.exec (h : Accounted c) {s : Step κ ν} (hs : s.All UserCode) (e : s.exec c = ok d) :
    Accounted d := by
  have hk {I : Connection κ ν → Prop} (hI : UserPreserved I) (hc : I c) : I d := by
    have hd := hI.keeps_exec (hI.stepKeeps hs) c hc
    rwa [e] at hd
  exact ⟨hk told_preserved h.told, hk balanced_preserved h.balanced, hk ledger_preserved h.ledger,
    hk monitored_preserved h.monitored,
    settled_exec hs h.settled d e, h.leaving.moves (exec_moves hs e)⟩

theorem Ledger.notMem_releaseInLoop (h : Ledger c) (ho : c.socketOpen = true) : .releaseInLoop ∉ c.log := by
  intro hm
  have hr : 0 < releasesRun c.log := List.countP_pos_iff.mpr ⟨_, hm, rfl⟩
  rw [h.socket.mpr hr] at ho
  cases ho

/-- A `Release` that has been called is queued or has closed the socket. -/
theorem Ledger.queued_of_releases (h : Ledger c) (hr : 0 < releases c.log) :
    c.socketOpen = false ∨ .release ∈ c.loop.functor ++ c.loop.tasks := by
  rw [h.socket, ← List.count_pos_iff]
  show _ ∨ 0 < c.releasesQueued
  have := h.balance
  omega

theorem Ledger.releases_of_queued (h : Ledger c)
    (hr : c.socketOpen = false ∨ .release ∈ c.loop.functor ++ c.loop.tasks) : 0 < releases c.log := by
  rw [h.socket, ← List.count_pos_iff] at hr
  change _ ∨ 0 < c.releasesQueued at hr
  have := h.balance
  omega

/-- A connection that has begun to shut down keeps on until it is released. -/
theorem Told.disconnecting (h : Told c) (hs : .shutdownInLoop ∈ c.log) (hr : .releaseInLoop ∉ c.log) :
    c.statu = .disconnecting := by
  have hd : .disconnecting ∈ written c.log := List.mem_filterMap.mpr ⟨_, hs, rfl⟩
  have he : (written c.log).getLast? = some ((written c.log).getLast (List.ne_nil_of_mem hd)) :=
    List.getLast?_eq_some_getLast _
  rw [h, he]
  obtain ⟨e, hm, hl⟩ := List.mem_filterMap.mp (List.getLast_mem (List.ne_nil_of_mem hd))
  cases e with
  | shutdownInLoop => exact (Option.some.inj hl).symm
  | releaseInLoop => exact absurd hm hr
  | _ => cases hl

/-! ## A byte is handed -/

theorem handed_mono {log log' : List (Event ν)} (h : log <+: log') : handed log <+: handed log' := by
  obtain ⟨es, rfl⟩ := h
  rw [handed, handed, List.flatMap_append]
  exact List.prefix_append ..

theorem accepted_mono {log log' : List (Event ν)} (h : log <+: log') : accepted log <+: accepted log' := by
  obtain ⟨es, rfl⟩ := h
  rw [accepted, accepted, List.flatMap_append]
  exact List.prefix_append ..

theorem releases_le {log log' : List (Event ν)} (h : log <+: log') : releases log ≤ releases log' :=
  h.sublist.countP_le

/-- More than `n` bytes are handed, or a `Release` was called. -/
def Wrote (n : Nat) (c : Connection κ ν) : Prop := n < (handed c.log).length ∨ 0 < releases c.log

theorem Wrote.log {n : Nat} (h : Wrote n c) (hl : c.log <+: d.log) : Wrote n d :=
  h.imp (fun h => h.trans_le (handed_mono hl).length_le) fun h => h.trans_le (releases_le hl)

theorem wrote_release (n : Nat) (caller : Caller) (c : Connection κ ν) : Wrote n (c.release caller) := by
  refine .inr ?_
  show 0 < releases (c.log ++ [.release caller c.releasing])
  rw [releases_concat]
  exact Nat.succ_pos _

theorem wrote_handleWrite (hs : c.socketOpen = true) (ho : c.outBuffer ≠ []) {r : SendResult} (hr : r.Moving) :
    Ensures (Wrote (handed c.log).length) (c.handleWrite cb r) := by
  have hlen := List.length_pos_iff.mpr ho
  rw [handleWrite]
  cases r with
  | fail retry =>
    obtain rfl : retry = false := hr
    rw [nonBlockSend, if_neg hlen.ne', hs]
    exact Ensures.andThen (P := fun _ => True) (fun _ _ => trivial) fun d _ => ensures_ok (wrote_release _ _ d)
  | sent n =>
    have hn : 0 < min n c.outBuffer.length := Nat.lt_min.mpr ⟨hr, hlen⟩
    have hw : Wrote (handed c.log).length ({ c with outBuffer := c.outBuffer.drop (min n c.outBuffer.length) }.record
        (.handed (c.outBuffer.take (min n c.outBuffer.length)))) := by
      refine .inl ?_
      rw [log_record, handed_concat, List.length_append]
      show (handed c.log).length < (handed c.log).length + (c.outBuffer.take _).length
      rw [List.length_take]
      omega
    rw [nonBlockSend, if_neg hlen.ne', hs]
    simp only [if_true]
    split
    · split
      · exact ensures_ok (wrote_release ..)
      · exact ensures_ok hw
    · exact ensures_ok hw

/-- `EPOLLOUT`, and what `send` then returns counts. -/
def Step.Writes : Step κ ν → Prop
  | .handleEvent _ revents _ send => revents.pollOut = true ∧ send.Moving
  | _ => False

/-- The read handler, before the write handler of the same event. -/
theorem balanced_readHandler (hm : ∀ f, cbs.message = some f → UserCode f) {revents : REvents} {recv : RecvResult}
    (e : c.readHandler cbs revents recv = ok d) (h : Balanced c) : Balanced d ∧ Steady c d := by
  have hb : Keeps Balanced (handleRead cbs.message recv) :=
    balanced_preserved.events.keeps_handleRead (fun f e => balanced_preserved.good (hm f e)) recv
  rw [readHandler] at e
  split at e
  · have hd := hb c h
    have hs := steady_preserved.keeps_handleRead hm recv c (Steady.refl c)
    rw [e] at hd hs
    exact ⟨hd, hs⟩
  · rw [← ok.inj e]
    exact ⟨h, Steady.refl c⟩

/-- With bytes left to be handed, writing hands one or fails. -/
theorem Accounted.writes (h : Accounted c) {s : Step κ ν} (hs : s.All UserCode) (hw : s.Writes)
    (e : s.exec c = ok d) (ho : c.socketOpen = true)
    (hlt : (handed c.log).length < (accepted c.log).length) : Wrote (handed c.log).length d := by
  cases s with
  | handleEvent cbs revents recv send =>
    have hm : ∀ f, cbs.message = some f → UserCode f := fun f e => hs f (by simp [e])
    have hevent : ∀ f, cbs.event = some f → UserCode f := fun f e => hs f (by simp [e])
    rw [Step.exec, channelHandleEvent_eq] at e
    obtain ⟨c₁, e₁, e⟩ := eq_ok_of_andThen e
    obtain ⟨c₂, e₂, e⟩ := eq_ok_of_andThen e
    obtain ⟨hb, hr⟩ := balanced_readHandler hm e₁ h.balanced
    have hend : c₂.log <+: d.log := by
      have hd := steady_preserved.keeps_handleEvent hevent c₂ (Steady.refl c₂)
      rw [show c₂.handleEvent cbs.event = ok d from e] at hd
      exact hd.log
    have hwrite : c₁.handleWrite cbs.message send = ok c₂ := by
      rwa [writeHandler, if_pos hw.1] at e₂
    refine Wrote.log ?_ hend
    by_cases hn : c₁.outBuffer = []
    · have hall : accepted c₁.log = handed c₁.log := by rw [hb.order, hn, List.append_nil]
      have hlog := steady_preserved.keeps_handleWrite hm send c₁ (Steady.refl c₁)
      rw [hwrite] at hlog
      refine Wrote.log (.inl ?_) hlog.log
      rw [← hall]
      exact hlt.trans_le (accepted_mono hr.log).length_le
    · have hd := wrote_handleWrite (hr.socketOpen.trans ho) hn hw.2 c₂ hwrite
      exact hd.imp_left (handed_mono hr.log).length_le.trans_lt
  | onTime | callback | queueInLoop | swapTasks | runTask | removeConnectionInLoop => exact False.elim hw

/-! ## Nothing is lost but by an abrupt release -/

/-- A release that is not abrupt finds nothing left to be handed. -/
def Drained (pre : List (Event ν)) (e : Event ν) : Prop :=
  e.isRelease = true → ¬ e.Abrupt → accepted pre = handed pre

structure Lossless (c : Connection κ ν) : Prop where
  order : accepted c.log = handed c.log ++ c.outBuffer
  drained : Always Drained c.log

theorem drained_of_not {pre : List (Event ν)} {e : Event ν} (he : e.isRelease = false) : Drained pre e := by
  intro hr
  rw [he] at hr
  cases hr

theorem Lossless.event (h : Lossless c) {e : Event ν} (hl : d.log = c.log ++ [e])
    (ho : handed c.log ++ c.outBuffer ++ e.acceptedBytes = handed c.log ++ e.handedBytes ++ d.outBuffer)
    (he : Drained c.log e) : Lossless d := by
  refine ⟨?_, ?_⟩
  · rw [hl, accepted_concat, handed_concat, h.order, ho]
  · rw [hl]
    exact h.drained.concat he

theorem Lossless.record (h : Lossless c) {e : Event ν} (ha : e.acceptedBytes = []) (hh : e.handedBytes = [])
    (he : Drained c.log e) : Lossless (c.record e) :=
  h.event rfl (by rw [ha, hh, List.append_nil, List.append_nil]; rfl) he

theorem Lossless.release (h : Lossless c) {caller : Caller}
    (hc : Drained c.log (.release caller c.releasing)) : Lossless (c.release caller) := by
  have hr : Lossless (c.record (.release caller c.releasing)) := h.record rfl rfl hc
  exact ⟨hr.order, hr.drained⟩

theorem Lossless.drained_of_empty (h : Lossless c) (ho : c.outBuffer.length = 0) (e : Event ν) : Drained c.log e := by
  intro _ _
  rw [h.order, List.length_eq_zero_iff.mp ho, List.append_nil]

theorem Lossless.removeConnectionInLoop (h : Lossless c) : Lossless c.removeConnectionInLoop := by
  apply state_removeConnectionInLoop h
  exact Lossless.event h rfl (by simp [Event.acceptedBytes, Event.handedBytes, Connection.record])
    (drained_of_not rfl)

theorem Lossless.beginRelease (h : Lossless c) : Lossless c.beginRelease := by
  have hr : Lossless ({ c with statu := .disconnected }.record .releaseInLoop) :=
    h.event rfl (by simp [Event.acceptedBytes, Event.handedBytes, Connection.record]) (drained_of_not rfl)
  obtain ⟨b, w, e⟩ := beginRelease_eq c
  rw [e]
  cases c.socketOpen with
  | true =>
    exact hr.event rfl (by simp [Event.acceptedBytes, Event.handedBytes, Connection.record]) (drained_of_not rfl)
  | false =>
    rw [if_neg Bool.false_ne_true, List.append_nil]
    exact ⟨hr.order, hr.drained⟩

theorem lossless_preserved : UserPreserved (Lossless : Connection κ ν → Prop) where
  setTimer b w h := ⟨h.order, h.drained⟩
  send {c} data h := by
    have he : Lossless (c.accept data) :=
      h.event rfl (by simp [Event.acceptedBytes, Event.handedBytes, accept, Connection.record]) (drained_of_not rfl)
    rcases sendInLoop_cases c data with ⟨_, e⟩ | ⟨_, e | e⟩
    · rw [e]
      exact h
    · rw [e]
      exact ⟨he.order, he.drained⟩
    · rw [e]
      exact he
  beginShutdown h :=
    h.event rfl (by simp [Event.acceptedBytes, Event.handedBytes, beginShutdown, Connection.record])
      (drained_of_not rfl)
  endShutdown {c} h _ := by
    rcases endShutdown_cases c with ⟨ho, e⟩ | ⟨_, e | e⟩
    · rw [e]
      exact h.release (h.drained_of_empty ho _)
    · rw [e]
      exact ⟨h.order, h.drained⟩
    · rw [e]
      exact h
  drained h ho _ := h.release (h.drained_of_empty ho _)
  release {c caller} h h₁ h₂ := by
    refine h.release fun _ ha => absurd ?_ ha
    cases caller with
    | shutdownInLoop => exact absurd rfl h₁
    | handleWriteDrained => exact absurd rfl h₂
    | handleWriteError | handleClose | timer | user => trivial
  received data h :=
    Lossless.event h rfl (by simp [Event.acceptedBytes, Event.handedBytes, Connection.record]) (drained_of_not rfl)
  handed {c} n h :=
    Lossless.event h rfl (by simp [Event.acceptedBytes, Event.handedBytes, Connection.record]) (drained_of_not rfl)
  disableWrite h _ := ⟨h.order, h.drained⟩
  established h _ := ⟨h.order, h.drained⟩
  runTask h _ _ := ⟨h.order, h.drained⟩
  releaseInLoop {c functor closed} h _ hc := by
    have hp : Lossless { c with loop := { c.loop with functor } } := ⟨h.order, h.drained⟩
    refine state_releaseInLoop hp.beginRelease (fun c h => h.record rfl rfl (drained_of_not rfl))
      (fun f e => (hc f e).keeps) fun c h => ?_
    have hr : Lossless (c.record .srvClosedCallback) := h.record rfl rfl (drained_of_not rfl)
    exact state_removeConnection hr.removeConnectionInLoop ⟨hr.order, hr.drained⟩
  removeConnectionInLoop {c} h _ :=
    have h : Lossless { c with removals := c.removals - 1 } := ⟨h.order, h.drained⟩
    h.removeConnectionInLoop
  swapTasks h := ⟨h.order, h.drained⟩
  queueInLoop h _ := ⟨h.order, h.drained⟩
  setInBuffer q h := ⟨h.order, h.drained⟩
  setContext x h := ⟨h.order, h.drained⟩
  note n h := h.record rfl rfl (drained_of_not rfl)

/-- What had been accepted before any release has been handed after one that
was not abrupt. -/
theorem Lossless.handed_of_releases (h : Lossless c) {log : List (Event ν)} (hl : log <+: c.log)
    (h₀ : releases log = 0) (hr : 0 < releases c.log) (ha : ∀ e ∈ c.log, ¬ e.Abrupt) :
    accepted log <+: handed c.log := by
  obtain ⟨e, hm, he⟩ := List.countP_pos_iff.mp hr
  obtain ⟨pre, post, hs⟩ := List.append_of_mem hm
  have hpre : pre ++ [e] <+: c.log := ⟨post, by rw [hs, List.append_assoc]; rfl⟩
  have hall : accepted pre = handed pre := h.drained pre e hpre he (ha e hm)
  have hbefore : log <+: pre := by
    have hno : ¬ pre ++ [e] <+: log := fun hp => by
      have hle := releases_le hp
      rw [releases_concat, if_pos he, h₀] at hle
      exact absurd hle (Nat.not_succ_le_zero _)
    rcases List.prefix_or_prefix_of_prefix hl hpre with hp | hp
    · exact (List.prefix_concat_iff.mp hp).resolve_left fun e => hno (e ▸ List.prefix_refl _)
    · exact absurd hp hno
  exact (accepted_mono hbefore).trans (hall ▸ handed_mono ((List.prefix_append pre [e]).trans hpre))

/-! ## Fair runs -/

/-- A run from `NewConnection` on, without end and with no thread ending in a
step. -/
structure Fair (steps : Nat → Step κ ν) (r : Nat → Connection κ ν) : Prop where
  start : ∃ connId onBaseLoop context timeout, r 0 = new connId onBaseLoop context timeout
  userCode (n : Nat) : (steps n).All UserCode
  exec (n : Nat) : (steps n).exec (r n) = ok (r (n + 1))
  writes : Fairly r steps (fun c => c.channel.writeAble = true ∧ c.channel.registered = true) Step.Writes
  swaps : Fairly r steps (fun c => c.loop.tasks ≠ []) (· = .swapTasks)
  runs : Fairly r steps (fun c => c.loop.functor ≠ []) fun s => ∃ cbs, s = .runTask cbs
  removes : Fairly r steps (fun c => 0 < c.removals) (· = .removeConnectionInLoop)

/-- A `ReleaseInLoop` is among the next `k` tasks, or has run. -/
def Closing (k : Nat) (c : Connection κ ν) : Prop :=
  c.socketOpen = false ∨ .release ∈ c.loop.functor.take k

theorem Closing.succ {k : Nat} (h : Closing k c) : Closing (k + 1) c :=
  h.imp_right fun h => List.take_subset_take_left _ (Nat.le_succ k) h

theorem Closing.runTask {k : Nat} (h : Closing (k + 1) c) {cbs : Callbacks κ ν}
    (hs : (Step.runTask cbs).Moves c d) (hc : c.socketOpen = false → d.socketOpen = false) : Closing k d := by
  rcases h with h | h
  · exact .inl (hc h)
  · rw [Step.Moves] at hs
    split at hs
    · next e => simp [e] at h
    · exact .inl hs.socketOpen
    · next t functor ht e =>
      refine .inr ?_
      rw [hs.functor]
      rw [e, List.take_succ_cons] at h
      exact List.mem_of_ne_of_mem (fun e => ht e.symm) h

theorem Closing.moves {k : Nat} (h : Closing k c) {s : Step κ ν} (hs : s.Moves c d)
    (hc : c.socketOpen = false → d.socketOpen = false) : Closing k d := by
  have hsteady : Steady c d → Closing k d := fun hd =>
    h.imp hc fun h => by rwa [hd.functor]
  cases s with
  | handleEvent | onTime | callback | queueInLoop => exact hsteady hs
  | runTask cbs =>
    cases k with
    | zero => exact h.imp hc fun h => by simp at h
    | succ k => exact (h.runTask hs hc).succ
  | swapTasks =>
    obtain rfl : d = c.swapTasks := hs
    refine h.imp_right fun h => ?_
    show _ ∈ (c.loop.functor ++ c.loop.tasks).take k
    rw [List.take_append]
    exact List.mem_append_left _ h
  | removeConnectionInLoop =>
    obtain rfl : d = _ := hs
    split
    · exact state_removeConnectionInLoop (I := Closing k) h h
    · exact h

/-- `L` bytes were accepted and all but `k` of them are handed, or a `Release`
was called. -/
def Handing (L k : Nat) (c : Connection κ ν) : Prop :=
  0 < releases c.log ∨ L ≤ (accepted c.log).length ∧ L ≤ (handed c.log).length + k

theorem Handing.log {L k : Nat} (h : Handing L k c) (hl : c.log <+: d.log) : Handing L k d :=
  h.imp (fun h => h.trans_le (releases_le hl)) fun h =>
    ⟨h.1.trans (accepted_mono hl).length_le,
      h.2.trans (Nat.add_le_add_right (handed_mono hl).length_le k)⟩

/-- With bytes left to be handed, `EPOLLOUT` is asked for. -/
theorem Accounted.monitors (h : Accounted c) (ho : c.socketOpen = true)
    (hlt : (handed c.log).length < (accepted c.log).length) :
    c.channel.writeAble = true ∧ c.channel.registered = true := by
  have hout : c.outBuffer ≠ [] := fun e => by
    rw [h.balanced.order, e, List.append_nil] at hlt
    exact Nat.lt_irrefl _ hlt
  obtain ⟨hreg, hw⟩ := h.monitored (h.ledger.notMem_releaseInLoop ho)
  exact ⟨hw hout, hreg (hw hout)⟩

namespace Fair

variable {steps : Nat → Step κ ν} {r : Nat → Connection κ ν} (h : Fair steps r)
include h

theorem accounted (n : Nat) : Accounted (r n) := by
  induction n with
  | zero =>
    obtain ⟨connId, onBaseLoop, context, timeout, e⟩ := h.start
    rw [e]
    exact new_accounted ..
  | succ n ih => exact ih.exec (h.userCode n) (h.exec n)

theorem moves (n : Nat) : (steps n).Moves (r n) (r (n + 1)) := exec_moves (h.userCode n) (h.exec n)

theorem log {n m : Nat} (hm : n ≤ m) : (r n).log <+: (r m).log := by
  induction m, hm using Nat.le_induction with
  | base => exact List.prefix_refl _
  | succ m _ ih => exact ih.trans (exec_log (h.moves m))

theorem closed {n m : Nat} (hm : n ≤ m) (hc : (r n).socketOpen = false) : (r m).socketOpen = false := by
  rw [(h.accounted _).ledger.socket] at hc ⊢
  exact hc.trans_le (h.log hm).sublist.countP_le

/-! ### To the release -/

/-- The loop comes nearer to a `ReleaseInLoop` with each task. -/
theorem nearer (k : Nat) : LeadsTo r (Closing (k + 1)) (Closing k) := by
  refine leadsTo_of_fairly h.runs (fun n hp => ?_) (fun n hp => ?_) fun n hp ha => ?_
  · exact .inl (hp.moves (h.moves n) (h.closed (Nat.le_succ n)))
  · rcases hp with hp | hp
    · exact .inr (.inl hp)
    · exact .inl (List.ne_nil_of_mem (List.mem_of_mem_take hp))
  · obtain ⟨cbs, e⟩ := ha
    exact hp.runTask (e ▸ h.moves n) (h.closed (Nat.le_succ n))

theorem swapped : LeadsTo r (fun c => 0 < releases c.log) fun c => ∃ k, Closing k c := by
  have hmem : ∀ {c : Connection κ ν}, .release ∈ c.loop.functor → ∃ k, Closing k c := fun {c} hc =>
    ⟨c.loop.functor.length, .inr (by rwa [List.take_length])⟩
  refine leadsTo_of_fairly h.swaps (fun n hp => ?_) (fun n hp => ?_) fun n hp ha => ?_
  · exact .inl (hp.trans_le (releases_le (h.log (Nat.le_succ n))))
  · rcases (h.accounted n).ledger.queued_of_releases hp with hc | hq
    · exact .inr ⟨0, .inl hc⟩
    · rcases List.mem_append.mp hq with hf | ht
      · exact .inr (hmem hf)
      · exact .inl (List.ne_nil_of_mem ht)
  · have hswap := h.moves n
    rw [ha] at hswap
    have hs : r (n + 1) = (r n).swapTasks := hswap
    rcases (h.accounted n).ledger.queued_of_releases hp with hc | hq
    · exact ⟨0, .inl (h.closed (Nat.le_succ n) hc)⟩
    · exact hmem (by rwa [hs])

/-- Every `Release` is followed by the close of the socket. -/
theorem closes : LeadsTo r (fun c => 0 < releases c.log) fun c => c.socketOpen = false := by
  refine h.swapped.trans (.exists fun k => (LeadsTo.descend h.nearer k).trans ?_)
  exact .of_imp fun c hc => hc.resolve_right fun hm => by simp at hm

/-- A closed connection leaves the table. -/
theorem erases : LeadsTo r (fun c => c.socketOpen = false) fun c => c.socketOpen = false ∧ c.inConns = false := by
  refine leadsTo_of_fairly h.removes (fun n hp => ?_) (fun n hp => ?_) fun n hp ha => ?_
  · exact .inl (h.closed (Nat.le_succ n) hp)
  · rcases (h.accounted n).leaving hp with hi | hr
    · exact .inr ⟨hp, hi⟩
    · exact .inl hr
  · refine ⟨h.closed (Nat.le_succ n) hp, ?_⟩
    have hm := h.moves n
    rw [ha] at hm
    have he : r (n + 1) = if 0 < (r n).removals then
      { r n with removals := (r n).removals - 1 }.removeConnectionInLoop else r n := hm
    rw [he]
    split
    · unfold removeConnectionInLoop
      split
      · rfl
      · next hi => exact Bool.eq_false_iff.mpr hi
    · next hr => exact ((h.accounted n).leaving hp).resolve_right hr

theorem erased {n m : Nat} (hm : n ≤ m) (hi : (r n).inConns = false) : (r m).inConns = false := by
  induction m, hm using Nat.le_induction with
  | base => exact hi
  | succ m _ ih => exact exec_inConns (h.moves m) ih

/-! ### To the last byte -/

theorem hands (L k : Nat) : LeadsTo r (Handing L (k + 1)) (Handing L k) := by
  have hcases : ∀ n, Handing L (k + 1) (r n) → Handing L k (r n) ∨ (r n).socketOpen = true ∧
      (handed (r n).log).length < L ∧ L ≤ (accepted (r n).log).length ∧ L ≤ (handed (r n).log).length + (k + 1) := by
    intro n hp
    rcases hp with hp | ⟨ha, hh⟩
    · exact .inl (.inl hp)
    · by_cases hle : L ≤ (handed (r n).log).length
      · exact .inl (.inr ⟨ha, Nat.le_add_right_of_le hle⟩)
      · cases ho : (r n).socketOpen with
        | false => exact .inl (.inl ((h.accounted n).ledger.releases_of_queued (.inl ho)))
        | true => exact .inr ⟨rfl, Nat.not_le.mp hle, ha, hh⟩
  refine leadsTo_of_fairly h.writes (fun n hp => ?_) (fun n hp => ?_) fun n hp hw => ?_
  · exact .inl (hp.log (h.log (Nat.le_succ n)))
  · rcases hcases n hp with hq | ⟨ho, hlt, ha, _⟩
    · exact .inr hq
    · exact .inl ((h.accounted n).monitors ho (hlt.trans_le ha))
  · rcases hcases n hp with hq | ⟨ho, hlt, ha, hh⟩
    · exact hq.log (h.log (Nat.le_succ n))
    · rcases (h.accounted n).writes (h.userCode n) hw (h.exec n) ho (hlt.trans_le ha) with hn | hr
      · exact .inr ⟨ha.trans (accepted_mono (h.log (Nat.le_succ n))).length_le, by omega⟩
      · exact .inl hr

/-- All that is accepted is handed, unless a `Release` is called. -/
theorem flushes (n : Nat) :
    ∃ m, n ≤ m ∧ (0 < releases (r m).log ∨ accepted (r n).log <+: handed (r m).log) := by
  obtain ⟨m, hm, hr | ⟨_, hh⟩⟩ := LeadsTo.descend (h.hands (accepted (r n).log).length)
    (accepted (r n).log).length n (.inr ⟨Nat.le_refl _, Nat.le_add_left ..⟩)
  · exact ⟨m, hm, .inl hr⟩
  · have hall : handed (r m).log <+: accepted (r m).log :=
      (h.accounted m).balanced.order ▸ List.prefix_append ..
    exact ⟨m, hm, .inr (List.prefix_of_prefix_length_le (accepted_mono (h.log hm)) hall hh)⟩

theorem lossless (n : Nat) : Lossless (r n) := by
  induction n with
  | zero =>
    obtain ⟨connId, onBaseLoop, context, timeout, e⟩ := h.start
    rw [e]
    exact ⟨rfl, always_nil⟩
  | succ n ih =>
    have hd := lossless_preserved.keeps_exec (lossless_preserved.stepKeeps (h.userCode n)) (r n) ih
    rwa [h.exec n] at hd

/-- All that is accepted before any release is handed, unless a release is
abrupt. -/
theorem delivers {n : Nat} (hn : releases (r n).log = 0) :
    ∃ m, n ≤ m ∧ ((∃ e ∈ (r m).log, e.Abrupt) ∨ accepted (r n).log <+: handed (r m).log) := by
  obtain ⟨m, hm, hr | hh⟩ := h.flushes n
  · refine ⟨m, hm, or_iff_not_imp_left.mpr fun ha => ?_⟩
    exact (h.lossless m).handed_of_releases (h.log hm) hn hr fun e he hab => ha ⟨e, he, hab⟩
  · exact ⟨m, hm, .inr hh⟩

/-- A shutdown ends with a `Release`, once nothing more is accepted: what is
still to be handed then would have been accepted since. -/
theorem shuts {n N : Nat} (hs : .shutdownInLoop ∈ (r n).log) (hN : ∀ m, (accepted (r m).log).length ≤ N) :
    ∃ m, n ≤ m ∧ 0 < releases (r m).log := by
  have hmono : Monotone fun m => (accepted (r m).log).length := fun m m' hm =>
    (accepted_mono (h.log hm)).length_le
  obtain ⟨L, n₀, hL⟩ := converges_of_monotone_of_bounded hmono hN
  obtain ⟨m, hm, hr | hh⟩ := h.flushes (max n n₀)
  · exact ⟨m, (Nat.le_max_left n n₀).trans hm, hr⟩
  · have hnm := (Nat.le_max_left n n₀).trans hm
    have ha := h.accounted m
    refine ⟨m, hnm, ha.ledger.releases_of_queued ?_⟩
    by_contra hno
    rw [not_or, Bool.not_eq_false] at hno
    have hlog := ha.ledger.notMem_releaseInLoop hno.1
    have hd := ha.told.disconnecting ((h.log hnm).subset hs) hlog
    have hout : (r m).outBuffer ≠ [] := (ha.settled hlog hd).resolve_right hno.2
    have hlen := List.length_pos_iff.mpr hout
    have horder := congrArg List.length ha.balanced.order
    rw [List.length_append] at horder
    have hle := hh.length_le
    have h₁ := hL m ((Nat.le_max_right n n₀).trans hm)
    have h₂ := hL (max n n₀) (Nat.le_max_right n n₀)
    omega

end Fair

/-! ## Runs that come to rest -/

/-- The steps `ss`, and then one that does nothing, for ever. -/
def thenIdle (ss : List (Step κ ν)) (n : Nat) : Step κ ν := ss.getD n .removeConnectionInLoop

def statesOf (ss : List (Step κ ν)) (c : Connection κ ν) (n : Nat) : Connection κ ν := (run (ss.take n) c).state

structure Resting (c : Connection κ ν) : Prop where
  tasks : c.loop.tasks = []
  functor : c.loop.functor = []
  removals : c.removals = 0
  silent : ¬ (c.channel.writeAble = true ∧ c.channel.registered = true)

theorem statesOf_of_le {ss : List (Step κ ν)} {n : Nat} (hn : ss.length ≤ n) :
    statesOf ss c n = (run ss c).state := by
  rw [statesOf, List.take_of_length_le hn]

/-- It takes one step after the other. -/
theorem exec_thenIdle {ss : List (Step κ ν)} (e : run ss c = ok d) (hd : d.removals = 0) (n : Nat) :
    (thenIdle ss n).exec (statesOf ss c n) = ok (statesOf ss c (n + 1)) := by
  by_cases hn : n < ss.length
  · have hrun : run (ss.take n ++ ss.drop n) c = ok d := by rwa [List.take_append_drop]
    rw [run, runAll_append] at hrun
    obtain ⟨c', e', hrun⟩ := eq_ok_of_andThen hrun
    rw [List.drop_eq_getElem_cons hn, runAll] at hrun
    obtain ⟨d', ed, -⟩ := eq_ok_of_andThen hrun
    have hstate : statesOf ss c n = c' := congrArg Outcome.state e'
    have hnext : statesOf ss c (n + 1) = d' := by
      rw [statesOf, List.take_succ_eq_append_getElem hn, run, runAll_append, e', andThen_ok, runAll, ed]
      rfl
    rw [thenIdle, List.getD_eq_getElem _ _ hn, hstate, hnext, ed]
  · have hn := Nat.not_lt.mp hn
    rw [thenIdle, List.getD_eq_default _ _ hn, statesOf_of_le hn, statesOf_of_le (Nat.le_succ_of_le hn), e]
    show ok (if 0 < d.removals then _ else d) = ok d
    rw [hd]
    rfl

/-- A run that comes to rest is fair. -/
theorem fair_of_resting {ss : List (Step κ ν)} {connId : UInt64} {onBaseLoop : Bool} {context : κ}
    {timeout : Option UInt32} (hs : ∀ s ∈ ss, s.All UserCode)
    (e : run ss (new connId onBaseLoop context timeout) = ok d)
    (hd : Resting d) : Fair (thenIdle ss) (statesOf ss (new connId onBaseLoop context timeout)) := by
  have hlast : ∀ n, n ≤ n + ss.length ∧ statesOf ss (new connId onBaseLoop context timeout) (n + ss.length) = d :=
    fun n => ⟨Nat.le_add_right .., by rw [statesOf_of_le (Nat.le_add_left ..), e]; rfl⟩
  refine ⟨⟨connId, onBaseLoop, context, timeout, ?_⟩, fun n => ?_, exec_thenIdle e hd.removals, ?_, ?_, ?_, ?_⟩
  · rw [statesOf, List.take_zero]
    rfl
  · by_cases hn : n < ss.length
    · rw [thenIdle, List.getD_eq_getElem _ _ hn]
      exact hs _ (List.getElem_mem hn)
    · rw [thenIdle, List.getD_eq_default _ _ (Nat.not_lt.mp hn)]
      trivial
  · exact fun n _ => ⟨_, (hlast n).1, .inr (by rw [(hlast n).2]; exact hd.silent)⟩
  · exact fun n _ => ⟨_, (hlast n).1, .inr (by rw [(hlast n).2]; exact fun hn => hn hd.tasks)⟩
  · exact fun n _ => ⟨_, (hlast n).1, .inr (by rw [(hlast n).2]; exact fun hn => hn hd.functor)⟩
  · exact fun n _ => ⟨_, (hlast n).1, .inr (by rw [(hlast n).2]; exact fun hn => hn.ne' hd.removals)⟩

/-! ## Every fair run -/

/-- In every fair run, with any user code, what was accepted at any moment has
later been handed to the socket, in order, or the socket is closed. -/
theorem handed_of_fair {steps : Nat → Step κ ν} {r : Nat → Connection κ ν} (h : Fair steps r) (n : Nat) :
    ∃ m, n ≤ m ∧ (accepted (r n).log <+: handed (r m).log ∨ (r m).socketOpen = false) := by
  obtain ⟨m, hm, hr | hh⟩ := h.flushes n
  · obtain ⟨k, hk, hc⟩ := h.closes m hr
    exact ⟨k, hm.trans hk, .inr hc⟩
  · exact ⟨m, hm, .inl hh⟩

/-- Two bytes are sent, one at a time, the second after the shutdown. -/
def lastBytes : List (Step Unit Unit) :=
  let cbs : Callbacks Unit Unit := ⟨none, none, none, none⟩
  [.swapTasks, .runTask cbs, .callback fun c => ok (c.sendInLoop (str "hi")),
    .handleEvent cbs { pollOut := true } (.none true) (.sent 1), .callback (shutdownInLoop none),
    .handleEvent cbs { pollOut := true } (.none true) (.sent 1), .swapTasks, .runTask cbs]

theorem userCode_none : (⟨none, none, none, none⟩ : Callbacks κ ν).All UserCode := fun f hf => by simp at hf

theorem lastBytes_userCode : ∀ s ∈ lastBytes, s.All UserCode := by
  have hn : (⟨none, none, none, none⟩ : Callbacks Unit Unit).All UserCode := userCode_none
  intro s hs
  simp only [lastBytes, List.mem_cons, List.not_mem_nil, or_false] at hs
  rcases hs with rfl | rfl | rfl | rfl | rfl | rfl | rfl | rfl
  · trivial
  · exact hn
  · exact .send _
  · exact hn
  · exact .shutdown fun f hf => absurd hf (Option.some_ne_none f).symm
  · exact hn
  · trivial
  · exact hn

def lastRun : Nat → Connection Unit Unit := statesOf lastBytes (new 1 true () none)

theorem lastRun_fair : Fair (thenIdle lastBytes) lastRun :=
  fair_of_resting lastBytes_userCode rfl ⟨rfl, rfl, rfl, fun hw => Bool.noConfusion hw.1⟩

theorem handed_of_fair_lastRun :
    ∃ m, 3 ≤ m ∧ (accepted (lastRun 3).log <+: handed (lastRun m).log ∨ (lastRun m).socketOpen = false) :=
  handed_of_fair lastRun_fair 3

/-- In every fair run, a connection that is released, or shut down by a user
who sends finitely many bytes, is closed and out of the table from some moment
on. A user who sends for ever can keep it open, if `HandleWrite` never leaves
the output buffer empty. -/
theorem closed_of_fair {steps : Nat → Step κ ν} {r : Nat → Connection κ ν} (h : Fair steps r) {n : Nat}
    (hn : (∃ caller late, .release caller late ∈ (r n).log) ∨
      .shutdownInLoop ∈ (r n).log ∧ ∃ N, ∀ m, (accepted (r m).log).length ≤ N) :
    ∃ m, n ≤ m ∧ ∀ k, m ≤ k → (r k).socketOpen = false ∧ (r k).inConns = false := by
  have hrel : ∃ m, n ≤ m ∧ 0 < releases (r m).log := by
    rcases hn with ⟨caller, late, hm⟩ | ⟨hs, N, hN⟩
    · exact ⟨n, Nat.le_refl n, List.countP_pos_iff.mpr ⟨_, hm, rfl⟩⟩
    · exact h.shuts hs hN
  obtain ⟨m, hm, hr⟩ := hrel
  obtain ⟨k, hk, hc, hi⟩ := (h.closes.trans h.erases) m hr
  exact ⟨k, hm.trans hk, fun j hj => ⟨h.closed hj hc, h.erased hj hi⟩⟩

theorem closed_of_fair_lastRun :
    ∃ m, 5 ≤ m ∧ ∀ k, m ≤ k → (lastRun k).socketOpen = false ∧ (lastRun k).inConns = false := by
  refine closed_of_fair lastRun_fair (.inr ⟨?_, 2, fun m => ?_⟩)
  · have hl : (lastRun 5).log = [.accepted (str "hi"), .handed (str "h"), .shutdownInLoop] := rfl
    rw [hl]
    simp
  · have hlen := (accepted_mono (lastRun_fair.log (Nat.le_add_right m 8))).length_le
    rw [show lastRun (m + 8) = _ from statesOf_of_le (Nat.le_add_left 8 m)] at hlen
    exact hlen

end Connection

end Mudou
