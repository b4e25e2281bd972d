import Mudou.Net.EventLoop
import Mudou.Net.PollerTable

/-!
# No connection dies in a batch

`Release` only queues, so no `ReleaseInLoop` runs before the handlers of a
batch have returned, and a connection that was not released when `Poll`
returned is in `_conns` and has its descriptor when its handler is called
(`managed_iff_not_released`). `released_polled`: one that was released may be
in the batch, if its channel was inserted again.
-/

namespace Mudou

namespace Reactor

variable {ι κ ν : Type} [DecidableEq ι]

open Outcome

def Op.Defers : Op ι κ ν → Prop
  | .releaseInLoop _ => False
  | _ => True

abbrev Deferring : Code ι κ ν → Prop := Made Op.exec Op.Defers

omit [DecidableEq ι] in
theorem Op.OfThread.defers {op : Op ι κ ν} (h : op.OfThread) : op.Defers := by
  cases op with
  | releaseInLoop => exact h
  | openFile | closeFile | ownChannel | newConnection | conn => trivial

omit [DecidableEq ι] in
theorem Op.OfUser.defers {op : Op ι κ ν} (h : op.OfUser) : op.Defers := by
  cases op with
  | releaseInLoop => exact h
  | openFile | closeFile | ownChannel | newConnection | conn => trivial

theorem UserCode.deferring {f : Code ι κ ν} (h : UserCode f) : Deferring f := h.mono fun _ ha => ha.defers

section Handlers

variable {A : Op ι κ ν → Prop} {i : ι} {message event connected : Option (Code ι κ ν)} {f g : Code ι κ ν}

theorem made_withConn {f : Connection κ ν → Code ι κ ν} (h : ∀ c, Made Op.exec A (f c)) :
    Made Op.exec A (withConn i f) := by
  refine .branch (f := fun d : Reactor ι κ ν => (d.conn i).elim ok f) fun d => ?_
  cases d.conn i with
  | none => exact .done
  | some c => exact h c

theorem made_ite {p : Prop} [Decidable p] (hf : Made Op.exec A f) (hg : Made Op.exec A g) :
    Made Op.exec A (if p then f else g) := by
  split
  · exact hf
  · exact hg

theorem made_callIfSet (h : ∀ f, message = some f → Made Op.exec A f) : Made Op.exec A (callIfSet message) := by
  cases message with
  | none => exact .done
  | some f => exact h f rfl

theorem made_call (h : ∀ f, message = some f → Made Op.exec A f) : Made Op.exec A (call message) := by
  cases message with
  | none => exact .stop
  | some f => exact h f rfl

theorem made_ifInput (h : Made Op.exec A f) : Made Op.exec A (ifInput i f) :=
  made_withConn fun _ => made_ite h .done

theorem made_shutdownInLoop (hb : A (.conn i .beginShutdown)) (he : A (.conn i .endShutdown))
    (h : ∀ f, message = some f → Made Op.exec A f) : Made Op.exec A (shutdownInLoop i message) :=
  (Made.one hb).andThen ((made_ifInput (made_callIfSet h)).andThen (.one he))

/-- `Shutdown` on any connection is user code. -/
theorem userCode_shutdownInLoop (h : ∀ f, message = some f → UserCode f) : UserCode (shutdownInLoop i message) :=
  made_shutdownInLoop trivial trivial h

theorem deferring_perform (op : ConnOp κ ν) : Deferring (perform i op) := .one trivial

theorem deferring_handleRead (h : ∀ f, message = some f → UserCode f) (r : RecvResult) :
    Deferring (handleRead i message r) := by
  refine made_withConn fun c => ?_
  split
  · exact (userCode_shutdownInLoop h).deferring
  · exact (deferring_perform _).andThen (made_ifInput (made_call fun f e => (h f e).deferring))

theorem deferring_handleClose (h : ∀ f, message = some f → UserCode f) : Deferring (handleClose i message) :=
  (made_ifInput (made_call fun f e => (h f e).deferring)).andThen (deferring_perform _)

theorem deferring_handleWrite (h : ∀ f, message = some f → UserCode f) (r : SendResult) :
    Deferring (handleWrite i message r) := by
  refine made_withConn fun c => ?_
  split
  · exact (made_ifInput (made_call fun f e => (h f e).deferring)).andThen (deferring_perform _)
  · exact (deferring_perform _).andThen (made_withConn fun _ => made_ite (deferring_perform _) .done)

theorem deferring_handleEvent (h : ∀ f, event = some f → UserCode f) : Deferring (handleEvent i event) :=
  (made_withConn fun _ => made_ite (deferring_perform _) .done).andThen
    (made_callIfSet fun f e => (h f e).deferring)

theorem deferring_channelHandleEvent {cbs : LoopCallbacks ι κ ν} (h : cbs.ByUser) (revents : REvents)
    (recv : RecvResult) (send : SendResult) : Deferring (channelHandleEvent i cbs revents recv send) := by
  have hm : ∀ f, cbs.message = some f → UserCode f := fun f e => h f (by simp [e])
  refine (made_ite (deferring_handleRead hm recv) .done).andThen (.andThen ?_ ?_)
  · exact made_ite (deferring_handleWrite hm send) (made_ite (deferring_handleClose hm)
      (made_ite (deferring_handleClose hm) .done))
  · exact deferring_handleEvent fun f e => h f (by simp [e])

theorem deferring_establishedInLoop (h : ∀ f, connected = some f → UserCode f) :
    Deferring (establishedInLoop i connected) :=
  (deferring_perform _).andThen (made_callIfSet fun f e => (h f e).deferring)

theorem OwnEvent.ByUser.deferring {e : OwnEvent ι κ ν} (h : e.ByUser) : Deferring e.run := by
  cases e with
  | readEventfd => exact .done
  | onTime expired =>
    refine .runAll_of fun x hx => ?_
    cases x with
    | timers i times => exact deferring_perform _
    | runAfter f => exact (h f hx).deferring
  | acceptElsewhere fd => exact .one (a := Op.openFile fd) trivial
  | accept i fd connId context timeout connected =>
    have hn : Deferring (Op.exec (.newConnection i fd connId true context timeout) : Code ι κ ν) := .one trivial
    have he : Deferring (establishedInLoop i connected) := deferring_establishedInLoop h
    refine hn.andThen ((deferring_perform _).andThen (.andThen ?_ ((deferring_perform _).andThen he)))
    cases timeout with
    | none => exact .done
    | some sec => exact (deferring_perform _).andThen (deferring_perform _)

end Handlers

theorem deferring_meanwhile {a : Chan ι × Ready ι κ ν} (h : a.2.ByUser) : Deferring (meanwhile a) :=
  .runAll fun op hm => (h.before op hm).defers

theorem deferring_handle {a : Chan ι × Ready ι κ ν} (h : a.2.ByUser) : Deferring (handle a) := by
  rw [handle]
  split
  · exact deferring_channelHandleEvent h.cbs ..
  · exact h.own.deferring

theorem deferring_batch {active : List (Chan ι × Ready ι κ ν)} (h : ∀ a ∈ active, a.2.ByUser) :
    Deferring (batch active) :=
  .runAll_of fun a ha => (deferring_meanwhile (h a ha)).andThen (deferring_handle (h a ha))

/-! ## What holds in every reachable state -/

section Reachable

variable {s t : Reactor ι κ ν}

open Connection (Carried)

def Reachable (s : Reactor ι κ ν) : Prop := ∃ ops, runAll Op.exec ops new = ok s

/-- How often `ReleaseInLoop` has run on a connection. -/
def releasesRun (s : Reactor ι κ ν) (i : ι) : Nat := (s.conn i).elim 0 fun c => Connection.releasesRun c.log

/-- A connection is in `_conns` and has its descriptor. -/
def Managed (s : Reactor ι κ ν) (i : ι) : Prop :=
  ∃ c, s.conn i = some c ∧ c.inConns = true ∧ c.socketOpen = true ∧
    s.files (s.fd i) = some (.channel (.conn i))

structure Standing (s : Reactor ι κ ν) : Prop extends Sound s where
  listed {i c} : s.conn i = some c → Connection.releasesRun c.log = 0 → c.inConns = true ∧ c.removals = 0
  known {fd i} : s.poller.channels fd = some (.conn i) → s.conn i ≠ none

omit [DecidableEq ι] in
theorem new_standing : Standing (new : Reactor ι κ ν) :=
  ⟨new_sound, fun h => (Option.some_ne_none _ h.symm).elim, fun h => (Option.some_ne_none _ h.symm).elim⟩

theorem releasesRun_exec {op : Op ι κ ν} (h : op.Defers) (s : Reactor ι κ ν) :
    (op.exec s).state.releasesRun = s.releasesRun := by
  funext i
  have hb := becomes_exec op s i
  rw [releasesRun, releasesRun]
  generalize s.conn i = o at hb
  generalize (op.exec s).state.conn i = o' at hb
  cases hb with
  | same => rfl
  | carried hc => exact hc.released
  | accepted => rfl
  | released c e =>
    subst e
    exact h.elim

theorem ne_none_exec (op : Op ι κ ν) {i : ι} (h : s.conn i ≠ none) : (op.exec s).state.conn i ≠ none := by
  have hb := becomes_exec op s i
  generalize s.conn i = o at h hb
  generalize (op.exec s).state.conn i = o' at hb
  cases hb with
  | same => exact h
  | carried | accepted | released => exact Option.some_ne_none _

theorem Standing.listed_exec (h : Standing s) (op : Op ι κ ν) {i : ι} {d : Connection κ ν}
    (hd : (op.exec s).state.conn i = some d) (hr : Connection.releasesRun d.log = 0) :
    d.inConns = true ∧ d.removals = 0 := by
  have hb := becomes_exec op s i
  rw [hd] at hb
  cases hc : s.conn i with
  | none =>
    rw [hc] at hb
    cases hb
    exact ⟨rfl, rfl⟩
  | some c =>
    rw [hc] at hb
    cases hb with
    | same => exact h.listed hc hr
    | carried hcar =>
      rw [hcar.released] at hr
      obtain ⟨hi, hm⟩ := h.listed hc hr
      obtain ⟨hi', hm'⟩ := hcar.listed hr hm
      exact ⟨hi'.trans hi, hm'⟩
    | released _ e =>
      rw [(Connection.counts_beginRelease c).2.1] at hr
      cases hr

/-- Only connections of the loop get into the table. -/
theorem Standing.known_exec (h : Standing s) (op : Op ι κ ν) {fd : Nat} {i : ι}
    (hk : (op.exec s).state.poller.channels fd = some (.conn i)) : (op.exec s).state.conn i ≠ none := by
  have hs : s.poller.channels fd = some (.conn i) → (op.exec s).state.conn i ≠ none :=
    fun hk => ne_none_exec op (h.known hk)
  cases op with
  | openFile fd' | closeFile fd' | newConnection j fd' connId onBaseLoop context timeout =>
    refine hs (Eq.trans ?_ hk)
    show s.poller.channels fd = (if _ then _ else s).poller.channels fd
    split <;> rfl
  | ownChannel fd' =>
    change (if _ then _ else s).poller.channels fd = some (.conn i) at hk
    split at hk
    · rcases Poller.of_channels_updateEvent hk with e | hk
      · cases e
      · exact hs hk
    · exact hs hk
  | conn j op =>
    cases hc : s.conn j with
    | none =>
      rw [Op.exec, hc] at hk
      exact hs hk
    | some c =>
      rw [Op.exec, hc] at hk
      simp only [state_map] at hk
      split at hk
      · rcases Poller.of_channels_updateEvent hk with e | hk
        · obtain rfl := Chan.conn.inj e
          exact ne_none_exec _ (by rw [hc]; exact Option.some_ne_none _)
        · exact hs hk
      · exact hs hk
  | releaseInLoop j =>
    cases hc : s.conn j with
    | none =>
      rw [Op.exec, hc] at hk
      exact hs hk
    | some c =>
      have he : (s.remove (.conn j)).poller.channels fd = some (.conn i) := by
        rw [Op.exec, hc] at hk
        simp only [state_ok] at hk
        split at hk <;> exact hk
      rw [show (s.remove (.conn j)).poller = _ from Poller.removeEvent_eq ..] at he
      by_cases hfd : fd = s.fd j
      · rw [hfd] at he
        exact (Option.some_ne_none _ (he.symm.trans (Function.update_self ..))).elim
      · exact hs ((Function.update_of_ne hfd ..).symm.trans he)

theorem keeps_standing (op : Op ι κ ν) : Keeps Standing op.exec := fun _ h =>
  ⟨h.toSound.exec op, h.listed_exec op, h.known_exec op⟩

theorem Reachable.standing (h : Reachable s) : Standing s := by
  obtain ⟨ops, hr⟩ := h
  have hk : Keeps (Standing : Reactor ι κ ν → Prop) (runAll Op.exec ops) :=
    keeps_runAll fun op _ => keeps_standing op
  have h := hk new new_standing
  rw [hr] at h
  exact h

omit [DecidableEq ι] in
theorem Standing.managed_iff (h : Standing s) {i : ι} (hi : s.conn i ≠ none) :
    s.Managed i ↔ s.releasesRun i = 0 := by
  obtain ⟨c, hc⟩ := Option.ne_none_iff_exists'.mp hi
  have hr : s.releasesRun i = Connection.releasesRun c.log := by
    rw [releasesRun, hc]
    rfl
  rw [hr]
  constructor
  · rintro ⟨d, hd, _, ho, _⟩
    rw [hc] at hd
    obtain rfl := Option.some.inj hd
    exact (h.closed hc).mp ho
  · intro h0
    have ho := (h.closed hc).mpr h0
    exact ⟨c, hc, (h.listed hc h0).1, ho, h.held hc ho⟩

end Reachable

/-! ## Iterations -/

section Iterations

variable {s t : Reactor ι κ ν} {i : ι} {closed : Option (Code ι κ ν)}

/-- Code made of any operations. -/
abbrev Anything : Code ι κ ν → Prop := Made Op.exec fun _ => True

theorem Deferring.anything {f : Code ι κ ν} (h : Deferring f) : Anything f := h.mono fun _ _ => trivial

theorem anything_releaseInLoop (h : ∀ f, closed = some f → UserCode f) : Anything (releaseInLoop i closed) := by
  refine (Made.one trivial).andThen (.andThen ?_ (.one trivial))
  cases closed with
  | none => exact .done
  | some f => exact (Made.one trivial).andThen (h f rfl).deferring.anything

theorem anything_runTask {cbs : LoopCallbacks ι κ ν} (h : cbs.ByUser) : Anything (runTask i cbs) := by
  refine made_withConn fun c => ?_
  split
  · exact .done
  · next t _ _ =>
    refine (Made.one trivial).andThen ?_
    cases t with
    | established => exact (deferring_establishedInLoop fun f e => h f (by simp [e])).anything
    | release => exact anything_releaseInLoop fun f e => h f (by simp [e])
    | shutdown => exact (userCode_shutdownInLoop fun f e => h f (by simp [e])).deferring.anything
    | send | enableInactiveRelease | cancelInactiveRelease => exact (deferring_perform _).anything

theorem anything_iteration {it : Iteration ι κ ν} (h : it.ByUser) : Anything it.run := by
  refine (Made.runAll fun _ _ => trivial).andThen (.branch fun d => ?_)
  cases hp : d.poller.poll it.events with
  | none => exact .stop
  | some active =>
    have hb : ∀ a ∈ active, a.2.ByUser := by
      intro a ha
      obtain ⟨ev, hm, _, e⟩ := Poller.mem_of_poll hp a ha
      exact e ▸ h.events ev hm
    exact (deferring_batch hb).anything.andThen ((Made.runAll_of fun i _ => .one trivial).andThen
      (.runAll_of fun t hm => anything_runTask (h.tasks t hm)))

/-- Iterations of the loop stay in reachable states. -/
theorem Reachable.start (h : Reachable s) {its : List (Iteration ι κ ν)} (hu : ∀ it ∈ its, it.ByUser)
    (hr : runAll Iteration.run its s = ok t) : Reachable t := by
  obtain ⟨ops, hs⟩ := h
  have hm : Anything (runAll Iteration.run its : Code ι κ ν) := .runAll_of fun it hit => anything_iteration (hu it hit)
  obtain ⟨ops', _, ht⟩ := hm.run s t hr
  exact ⟨ops ++ ops', by rw [runAll_append, hs]; exact ht⟩

end Iterations

/-! ## Batches -/

section Batches

variable {s t : Reactor ι κ ν} {active : List (Chan ι × Ready ι κ ν)}

/-- In the batch, the handler of a connection is called, and finds `t`. -/
def Called (active : List (Chan ι × Ready ι κ ν)) (s : Reactor ι κ ν) (i : ι) (t : Reactor ι κ ν) : Prop :=
  ∃ pre a post s', active = pre ++ a :: post ∧ a.1 = .conn i ∧ batch pre s = ok s' ∧ meanwhile a s' = ok t

theorem Deferring.releasesRun {f : Code ι κ ν} (h : Deferring f) (s : Reactor ι κ ν) :
    (f s).state.releasesRun = s.releasesRun := by
  have hk : Keeps (fun t => t.releasesRun = s.releasesRun) f :=
    h.keeps fun op ho t ht => (releasesRun_exec ho t).trans ht
  exact hk s rfl

theorem Deferring.standing {f : Code ι κ ν} (h : Deferring f) (hs : Standing s) : Standing (f s).state :=
  h.keeps (fun op _ => keeps_standing op) s hs

theorem Deferring.ne_none {f : Code ι κ ν} (h : Deferring f) {i : ι} (hi : s.conn i ≠ none) :
    (f s).state.conn i ≠ none := by
  have hk : Keeps (fun t => t.conn i ≠ none) f := h.keeps fun op _ _ ht => ne_none_exec op ht
  exact hk s hi

/-- In every state in which `Poll` may return: no `ReleaseInLoop` runs before
the handlers of the batch have returned; and a connection whose handler is
called is in `_conns` and has its descriptor if and only if it had not been
released when `Poll` returned. -/
theorem managed_iff_not_released (h : Reachable s) {evs : List (Nat × Ready ι κ ν)}
    (hu : ∀ ev ∈ evs, ev.2.ByUser) (hp : s.poller.poll evs = some active) :
    (∀ pre, pre <+: active → (batch pre s).state.releasesRun = s.releasesRun) ∧
      ∀ i t, Called active s i t → (t.Managed i ↔ s.releasesRun i = 0) := by
  have hb : ∀ a ∈ active, a.2.ByUser := by
    intro a ha
    obtain ⟨ev, hm, _, e⟩ := Poller.mem_of_poll hp a ha
    exact e ▸ hu ev hm
  refine ⟨fun pre hpre => (deferring_batch fun a ha => hb a (hpre.subset ha)).releasesRun s, ?_⟩
  rintro i t ⟨pre, a, post, s', rfl, ha, hs', ht⟩
  have ham : a ∈ pre ++ a :: post := List.mem_append_right _ List.mem_cons_self
  obtain ⟨ev, _, hk, _⟩ := Poller.mem_of_poll hp a ham
  have hf : Deferring fun s => (batch pre s).andThen (meanwhile a) :=
    (deferring_batch fun b hm => hb b (List.mem_append_left _ hm)).andThen (deferring_meanwhile (hb a ham))
  have hft : (batch pre s).andThen (meanwhile a) = ok t := by rw [hs']; exact ht
  have hr := hf.releasesRun s
  have hst := hf.standing h.standing
  have hne := hf.ne_none (h.standing.known (ha ▸ hk))
  simp only [hft, state_ok] at hr hst hne
  rw [hst.managed_iff hne, hr]

/-- The first connection's callback releases the second, whose handler comes
after that of the timer channel. -/
def releasing : List (Chan Nat × Ready Nat Unit Unit) :=
  [(.conn 0, ⟨[], { pollIn := true }, .bytes (str "x"), .sent 0,
      { message := some (perform 1 (.release .user)) }, .readEventfd⟩),
    (.own 3, ⟨[], { pollIn := true }, .none true, .sent 0, {}, .onTime [.timers 0 1, .timers 1 1]⟩),
    (.conn 1, ⟨[], { hup := true }, .none true, .sent 0, {}, .readEventfd⟩)]

def twoConnections : List (Op Nat Unit Unit) :=
  [.ownChannel 3, .newConnection 0 5 1 false () none, .conn 0 .establishedInLoop,
    .newConnection 1 6 2 false () none, .conn 1 .establishedInLoop]

theorem releasing_byUser : ∀ a ∈ releasing, a.2.ByUser := by
  intro a ha
  simp only [releasing, List.mem_cons, List.not_mem_nil, or_false] at ha
  rcases ha with rfl | rfl | rfl
  · refine ⟨fun _ hm => absurd hm List.not_mem_nil, fun f hf => ?_, trivial⟩
    obtain rfl : f = perform 1 (.release .user) := by simpa using hf
    exact .one trivial
  · exact ⟨fun _ hm => absurd hm List.not_mem_nil, fun f hf => by simp at hf, fun f hf => by simp at hf⟩
  · exact ⟨fun _ hm => absurd hm List.not_mem_nil, fun f hf => by simp at hf, trivial⟩

theorem managed_iff_not_released_releasing : ∃ s : Reactor Nat Unit Unit, Reachable s ∧
    (batch releasing s).state.releasesRun = s.releasesRun ∧ ∃ t, Called releasing s 1 t ∧ t.Managed 1 := by
  have hu : ∀ ev ∈ [5, 3, 6].zip (releasing.map Prod.snd), ev.2.ByUser := by
    intro ev hm
    obtain ⟨a, ha, e⟩ := List.mem_map.mp (List.of_mem_zip hm).2
    exact e ▸ releasing_byUser a ha
  have hr : Reachable (runAll Op.exec twoConnections new).state := ⟨twoConnections, rfl⟩
  have hp : (runAll Op.exec twoConnections new).state.poller.poll ([5, 3, 6].zip (releasing.map Prod.snd)) =
      some releasing := rfl
  have h := managed_iff_not_released hr hu hp
  have hc : Called releasing (runAll Op.exec twoConnections new).state 1 _ :=
    ⟨releasing.take 2, _, [], _, rfl, rfl, rfl, rfl⟩
  exact ⟨_, hr, h.1 releasing (List.prefix_refl _), _, hc, (h.2 1 _ hc).mpr rfl⟩

/-! ### A released connection in a batch -/

/-- As `sendAfterShutdown`, with another connection's socket under the
descriptor when `SendInLoop` runs. -/
def sendAfterReuse : List (Op Nat Unit Unit) :=
  [.newConnection 0 5 1 false () none, .conn 0 .establishedInLoop, .releaseInLoop 0,
    .conn 0 .removeConnection, .conn 0 .removeConnectionInLoop, .newConnection 1 5 2 false () none,
    .conn 0 .beginShutdown, .conn 0 .endShutdown, .conn 0 (.sendInLoop (str "x"))]

def writable : Ready Nat Unit Unit :=
  ⟨[], { pollOut := true }, .none true, .sent 1, {}, .readEventfd⟩

theorem released_polled : ¬ ∀ (s : Reactor Nat Unit Unit) (evs : List (Nat × Ready Nat Unit Unit)) active,
    Reachable s → (∀ ev ∈ evs, ev.2.ByUser ∧ s.poller.interest ev.1 ≠ none) → s.poller.poll evs = some active →
      ∀ i t, Called active s i t → t.Managed i := by
  intro h
  have hu : writable.ByUser := ⟨fun _ hm => absurd hm List.not_mem_nil, fun f hm => by simp [writable] at hm, trivial⟩
  have hi : (runAll Op.exec sendAfterReuse new).state.poller.interest 5 ≠ none := by decide
  obtain ⟨c, hc, _, ho, _⟩ := h (runAll Op.exec sendAfterReuse new).state [(5, writable)] [(.conn 0, writable)]
    ⟨sendAfterReuse, rfl⟩ (fun ev hm => List.mem_singleton.mp hm ▸ ⟨hu, hi⟩) rfl 0 _
    ⟨[], (.conn 0, writable), [], _, rfl, rfl, rfl, rfl⟩
  have hs : ((runAll Op.exec sendAfterReuse new).state.conn 0).map (·.socketOpen) = some false := rfl
  rw [hc] at hs
  rw [Option.map_some, ho] at hs
  cases hs

end Batches

end Reactor

end Mudou
