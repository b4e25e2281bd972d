import Mudou.Net.UserCode

/-!
# The course of `_statu`

`NewConnection` on the base loop, call by call, while the connection's own
loop runs (`Accepting`). `_statu` is written in three functions: by
`EstablishedInLoop`, which enables reading, and by `ShutdownInLoop` and
`ReleaseInLoop`, which the log records. `Told` says that its value is the last
one written.

`ShutdownInLoop` and `ReleaseInLoop` do not look at it. So it goes back in the
runs with a `ShutdownInLoop` after a `ReleaseInLoop`, and in no other
(`statu_forward_iff`).
-/

namespace Mudou

/-- The place of a value in the course. -/
def ConnStatu.rank : ConnStatu → Nat
  | .connecting => 0
  | .connected => 1
  | .disconnecting => 2
  | .disconnected => 3

/-- The value an event's function writes to `_statu`. -/
def Event.statu {ν : Type} : Event ν → Option ConnStatu
  | .shutdownInLoop => some .disconnecting
  | .releaseInLoop => some .disconnected
  | _ => none

namespace Connection

variable {κ ν : Type} {c d : Connection κ ν}

open Outcome

/-- The values `ShutdownInLoop` and `ReleaseInLoop` have written. -/
def written (log : List (Event ν)) : List ConnStatu := log.filterMap Event.statu

/-- The values `_statu` has had. -/
def statuses (c : Connection κ ν) : List ConnStatu :=
  .connecting :: ((if c.channel.readAble then [.connected] else []) ++ written c.log)

def Forward (c : Connection κ ν) : Prop := c.statuses.Pairwise fun a b => a.rank ≤ b.rank

def NoShutdownAfterRelease (log : List (Event ν)) : Prop :=
  log.Pairwise fun e e' => e = .releaseInLoop → e' ≠ .shutdownInLoop

/-- A connection while `NewConnection` has calls of `RunInLoop` left. -/
structure Accepting (κ ν : Type) where
  conn : Connection κ ν
  pending : List Task

/-- Before the first call. -/
def Accepting.new (connId : UInt64) (onBaseLoop : Bool) (context : κ) (timeout : Option UInt32) :
    Accepting κ ν where
  conn := { Connection.new connId onBaseLoop context none with loop := ⟨[], [], TimerWheel.new⟩ }
  pending := (timeout.map .enableInactiveRelease).toList ++ [.established]

/-- `EventLoop::RunInLoop` of the connection's loop, called on the base loop. -/
def runInLoop (cbs : Callbacks κ ν) (t : Task) (c : Connection κ ν) : Outcome (Connection κ ν) :=
  if c.onBaseLoop then c.runTask cbs t else ok (c.queueInLoop t)

/-- The next call of `NewConnection`, or a step of the connection's own loop
or of a thread that queues a task. -/
inductive AcceptStep (κ ν : Type) where
  | newConnection (cbs : Callbacks κ ν)
  | own (s : Step κ ν)

def AcceptStep.exec : AcceptStep κ ν → Accepting κ ν → Outcome (Accepting κ ν)
  | .newConnection cbs, a =>
    match a.pending with
    | [] => ok a
    | t :: pending => (a.conn.runInLoop cbs t).map fun conn => ⟨conn, pending⟩
  | .own s, a => (s.exec a.conn).map fun conn => { a with conn }

/-- User code, which does not call `Established`. -/
def AcceptStep.Allowed : AcceptStep κ ν → Prop
  | .newConnection cbs => cbs.All UserCode
  | .own s => s.All UserCode ∧ s ≠ .queueInLoop .established

/-- `EstablishedInLoop` is what the own loop, or `NewConnection` on it, runs
next. -/
def Accepting.EstablishedNext (a : Accepting κ ν) : Prop :=
  a.conn.loop.functor.head? = some .established ∨
    a.conn.onBaseLoop = true ∧ a.pending.head? = some .established

/-! ## The last value written -/

def Told (c : Connection κ ν) : Prop :=
  c.statu = (written c.log).getLast?.getD (if c.channel.readAble then .connected else .connecting)

theorem written_append (log es : List (Event ν)) : written (log ++ es) = written log ++ written es :=
  List.filterMap_append

theorem written_concat_silent (log : List (Event ν)) {e : Event ν} (he : e.statu = none) :
    written (log ++ [e]) = written log := by
  rw [written_append, written, written, List.filterMap_cons_none he, List.filterMap_nil, List.append_nil]

theorem Told.same (h : Told c) (hw : written d.log = written c.log) (hs : d.statu = c.statu)
    (hr : d.channel.readAble = c.channel.readAble) : Told d := by
  rw [Told, hw, hs, hr]
  exact h

theorem Told.record (h : Told c) {e : Event ν} (he : e.statu = none) : Told (c.record e) :=
  h.same (written_concat_silent c.log he) rfl rfl

theorem ne_connecting_of_written {log : List (Event ν)} {s : ConnStatu} (h : s ∈ written log) :
    s = .disconnecting ∨ s = .disconnected := by
  obtain ⟨e, _, he⟩ := List.mem_filterMap.mp h
  cases e with
  | shutdownInLoop => exact .inl (Option.some.inj he).symm
  | releaseInLoop => exact .inr (Option.some.inj he).symm
  | _ => cases he

/-- A connection is connecting until a first value is written. -/
theorem Told.connecting_iff (h : Told c) :
    c.statu = .connecting ↔ c.channel.readAble = false ∧ written c.log = [] := by
  rw [h]
  cases e : (written c.log).getLast? with
  | none =>
    rw [List.getLast?_eq_none_iff] at e
    cases c.channel.readAble <;> simp [e]
  | some s =>
    have hm := ne_connecting_of_written (List.mem_of_getLast? e)
    have hn : written c.log ≠ [] := fun hn => by simp [hn] at e
    refine ⟨fun hc => ?_, fun hc => absurd hc.2 hn⟩
    obtain rfl : s = .connecting := hc
    exact hm.elim ConnStatu.noConfusion ConnStatu.noConfusion

theorem Told.last (h : Told c) : c.statuses.getLast? = some c.statu := by
  rw [h, statuses]
  obtain e | ⟨ws, w, e⟩ := List.eq_nil_or_concat' (written c.log)
  · rw [e]
    cases c.channel.readAble <;> rfl
  · rw [e, ← List.append_assoc, ← List.cons_append, List.getLast?_concat, List.getLast?_concat]
    rfl

theorem told_of_concat {log es : List (Event ν)} (hl : c.log = log ++ es) (hw : written es = [c.statu]) :
    Told c := by
  rw [Told, hl, written_append, hw, List.getLast?_concat]
  rfl

theorem written_eq_nil_iff (log : List (Event ν)) :
    written log = [] ↔ .shutdownInLoop ∉ log ∧ .releaseInLoop ∉ log := by
  rw [written, List.filterMap_eq_nil_iff]
  refine ⟨fun h => ⟨fun hm => Option.some_ne_none _ (h _ hm), fun hm => Option.some_ne_none _ (h _ hm)⟩,
    fun ⟨hs, hr⟩ e he => ?_⟩
  cases e with
  | shutdownInLoop => exact absurd he hs
  | releaseInLoop => exact absurd he hr
  | _ => rfl

theorem told_beginRelease (c : Connection κ ν) : Told c.beginRelease := by
  obtain ⟨b, w, e⟩ := beginRelease_eq c
  rw [e]
  refine told_of_concat (List.append_assoc ..) ?_
  cases c.socketOpen <;> rfl

theorem Told.removeConnectionInLoop (h : Told c) : Told c.removeConnectionInLoop :=
  state_removeConnectionInLoop h (h.same (written_concat_silent c.log rfl) rfl rfl)

theorem told_preserved : UserPreserved (Told : Connection κ ν → Prop) where
  setTimer b w h := h
  send {c} data h := by
    have he : Told (c.accept data) := h.record rfl
    rcases sendInLoop_cases c data with ⟨_, e⟩ | ⟨_, e | e⟩
    · rw [e]
      exact h
    · rw [e]
      exact he
    · rw [e]
      exact he
  beginShutdown {c} _ := @told_of_concat _ _ _ c.log [.shutdownInLoop] rfl rfl
  endShutdown {c} h _ := by
    rcases endShutdown_cases c with ⟨_, e⟩ | ⟨_, e | e⟩
    · rw [e]
      exact h.record rfl
    · rw [e]
      exact h
    · rw [e]
      exact h
  drained h _ _ := h.record rfl
  release h _ _ := h.record rfl
  received data h := h.record rfl
  handed n h := h.record rfl
  disableWrite h _ := h
  established {c} h hs := by
    obtain ⟨_, hw⟩ := h.connecting_iff.mp hs
    show _ = (written c.log).getLast?.getD _
    rw [hw]
    rfl
  runTask h _ _ := h
  releaseInLoop {c functor closed} _ _ hc := by
    refine state_releaseInLoop (told_beginRelease _) (fun _ h => h.record rfl) (fun f e => (hc f e).keeps)
      fun c h => ?_
    have hr : Told (c.record .srvClosedCallback) := h.record rfl
    exact state_removeConnection hr.removeConnectionInLoop hr
  removeConnectionInLoop {c} h _ := Told.removeConnectionInLoop (show Told { c with removals := _ } from h)
  swapTasks h := h
  queueInLoop h _ := h
  setInBuffer q h := h
  setContext x h := h
  note n h := h.record rfl

/-! ## Established once -/

/-- The `EstablishedInLoop`s in the task pool, and whether one has passed. -/
structure Due (k : Nat) (b : Bool) (c : Connection κ ν) : Prop where
  queued : (c.loop.functor ++ c.loop.tasks).count .established = k
  passed : c.channel.readAble = b

variable {k : Nat} {b : Bool}

theorem Due.same (h : Due k b c) (hf : d.loop.functor = c.loop.functor) (ht : d.loop.tasks = c.loop.tasks)
    (hr : d.channel.readAble = c.channel.readAble) : Due k b d :=
  ⟨by rw [hf, ht]; exact h.queued, hr.trans h.passed⟩

theorem Due.queueInLoop (h : Due k b c) {t : Task} (ht : t ≠ .established) : Due k b (c.queueInLoop t) := by
  refine ⟨?_, h.passed⟩
  show (c.loop.functor ++ (c.loop.tasks ++ [t])).count .established = k
  rw [← List.append_assoc, List.count_append, h.queued, List.count_singleton, if_neg (by simpa using ht)]
  rfl

theorem Due.release (h : Due k b c) (caller : Caller) : Due k b (c.release caller) := by
  have hr : Due k b (c.record (.release caller c.releasing)) := h.same rfl rfl rfl
  exact hr.queueInLoop Task.noConfusion

theorem Due.runTask (h : Due k b c) {t : Task} {functor : List Task} (e : c.loop.functor = t :: functor)
    (ht : t ≠ .established) : Due k b { c with loop := { c.loop with functor } } := by
  refine ⟨?_, h.passed⟩
  have hq := h.queued
  rwa [e, List.cons_append, List.count_cons_of_ne ht] at hq

/-- A task that neither releases nor establishes. -/
def Plain (t : Task) : Prop := t ≠ .release ∧ t ≠ .established

structure DuePreserved (I : Connection κ ν → Prop) : Prop extends HandlerPreserved Plain I, CodePreserved I

theorem due_preserved (k : Nat) (b : Bool) : DuePreserved (Due k b : Connection κ ν → Prop) where
  setTimer _ w h := h.same rfl rfl rfl
  send {c} data h := by
    have he : Due k b (c.accept data) := h.same rfl rfl rfl
    rcases sendInLoop_cases c data with ⟨_, e⟩ | ⟨_, e | e⟩
    · rw [e]
      exact h
    · rw [e]
      exact he.same rfl rfl rfl
    · rw [e]
      exact he
  beginShutdown h := h.same rfl rfl rfl
  endShutdown {c} h _ := by
    rcases endShutdown_cases c with ⟨_, e⟩ | ⟨_, e | e⟩
    · rw [e]
      exact h.release _
    · rw [e]
      exact h.same rfl rfl rfl
    · rw [e]
      exact h
  drained h _ _ := h.release _
  release h _ _ := h.release _
  received data h := h.same rfl rfl rfl
  handed n h := h.same rfl rfl rfl
  disableWrite h _ := h.same rfl rfl rfl
  runTask h e ht := h.runTask e ht.2
  releaseInLoop {c functor closed} h e hc := by
    have hp := h.runTask e Task.noConfusion
    refine state_releaseInLoop ?_ (fun _ h => h.same rfl rfl rfl) (fun f e => (hc f e).keeps) fun c h => ?_
    · obtain ⟨_, w, eb⟩ := beginRelease_eq { c with loop := { c.loop with functor } }
      rw [eb]
      exact hp.same rfl rfl rfl
    · exact state_removeConnection
        (state_removeConnectionInLoop (h.same rfl rfl rfl) (h.same rfl rfl rfl)) (h.same rfl rfl rfl)
  removeConnectionInLoop {c} h _ :=
    state_removeConnectionInLoop (h.same rfl rfl rfl) (h.same rfl rfl rfl)
  swapTasks {c} h := by
    refine ⟨?_, h.passed⟩
    show ((c.loop.functor ++ c.loop.tasks) ++ []).count Task.established = k
    rw [List.append_nil]
    exact h.queued
  queueInLoop h ht := h.queueInLoop ht.2
  setInBuffer q h := h.same rfl rfl rfl
  setContext x h := h.same rfl rfl rfl
  note n h := h.same rfl rfl rfl

/-- `EstablishedInLoop` passes once, or stops the thread. -/
theorem due_establishedInLoop (h : Due k b c) (cb : Option (Callback κ ν))
    (hc : ∀ f, cb = some f → UserCode f) :
    Due k b (c.establishedInLoop cb).state ∨ Due k true (c.establishedInLoop cb).state := by
  rw [establishedInLoop]
  split
  · have he : Due k true ({ c with statu := .connected }.enableRead) := ⟨h.queued, rfl⟩
    refine .inr ?_
    exact keeps_callIfSet (fun f e => ((due_preserved k true).good (hc f e)).keeps) _ he
  · exact .inl h

/-! ## Runs -/

structure Accepted (a : Accepting κ ν) : Prop where
  told : Told a.conn
  once : ∃ k b, Due k b a.conn ∧ a.pending.count Task.established + k + b.toNat ≤ 1
  pending : ∀ t ∈ a.pending, t ≠ .release

theorem new_accepted (connId : UInt64) (onBaseLoop : Bool) (context : κ) (timeout : Option UInt32) :
    Accepted (Accepting.new connId onBaseLoop context timeout : Accepting κ ν) where
  told := rfl
  once := ⟨0, false, ⟨rfl, rfl⟩, by cases timeout <;> exact Nat.le_refl 1⟩
  pending t ht e := by
    subst e
    cases timeout <;> simp [Accepting.new] at ht

theorem Accepted.own {a : Accepting κ ν} (h : Accepted a) {s : Step κ ν} (hs : s.All UserCode)
    (hq : s ≠ .queueInLoop .established) : Accepted ((s.exec a.conn).map fun conn => { a with conn }).state := by
  rw [state_map]
  obtain ⟨k, b, hd, hle⟩ := h.once
  have ht : Told (s.exec a.conn).state := told_preserved.keeps_exec (told_preserved.stepKeeps hs) _ h.told
  suffices ho : ∃ k' b', Due k' b' (s.exec a.conn).state ∧
      a.pending.count Task.established + k' + b'.toNat ≤ 1 from ⟨ht, ho, h.pending⟩
  by_cases hr : ∃ cbs, s = .runTask cbs ∧ a.conn.loop.functor.head? = some .established
  · obtain ⟨cbs, rfl, he⟩ := hr
    obtain ⟨functor, e⟩ := List.head?_eq_some_iff.mp he
    have hk : (functor ++ a.conn.loop.tasks).count Task.established + 1 = k := by
      have hq := hd.queued
      rwa [e, List.cons_append, List.count_cons_self] at hq
    have hp : Due ((functor ++ a.conn.loop.tasks).count Task.established) b
      { a.conn with loop := { a.conn.loop with functor } } := ⟨rfl, hd.passed⟩
    rw [Step.exec, runNextTask, e]
    rcases due_establishedInLoop hp cbs.connected (fun f e => hs f (by simp [e])) with hp | hp
    · exact ⟨_, b, hp, by omega⟩
    · exact ⟨_, true, hp, by rw [Bool.toNat_true]; omega⟩
  · refine ⟨k, b, ?_, hle⟩
    exact (due_preserved k b).state_exec (fun _ => .intro) ((due_preserved k b).stepHandles hs) hd
      (fun cbs e he => hr ⟨cbs, e, he⟩) hq

theorem Accepted.newConnection {a : Accepting κ ν} (h : Accepted a) {cbs : Callbacks κ ν} (hc : cbs.All UserCode)
    {t : Task} {pending : List Task} (e : a.pending = t :: pending) :
    Accepted ((a.conn.runInLoop cbs t).map fun conn => (⟨conn, pending⟩ : Accepting κ ν)).state := by
  rw [state_map]
  obtain ⟨k, b, hd, hle⟩ := h.once
  have ht : t ≠ .release := h.pending t (by rw [e]; exact List.mem_cons_self)
  have hp : ∀ u ∈ pending, u ≠ .release := fun u hu => h.pending u (by rw [e]; exact List.mem_cons_of_mem _ hu)
  rw [e, List.count_cons] at hle
  suffices hs : Told (a.conn.runInLoop cbs t).state ∧ ∃ k' b', Due k' b' (a.conn.runInLoop cbs t).state ∧
      pending.count Task.established + k' + b'.toNat ≤ 1 from ⟨hs.1, hs.2, hp⟩
  rw [runInLoop]
  by_cases hb : a.conn.onBaseLoop = true
  · rw [if_pos hb]
    by_cases he : t = .established
    · subst he
      rw [beq_self_eq_true, if_pos rfl] at hle
      refine ⟨told_preserved.keeps_establishedInLoop (told_preserved.keptBy hc).connected _ h.told, ?_⟩
      rcases due_establishedInLoop hd cbs.connected (fun f e => hc f (by simp [e])) with hd | hd
      · exact ⟨k, b, hd, by omega⟩
      · exact ⟨k, true, hd, by rw [Bool.toNat_true]; omega⟩
    · refine ⟨told_preserved.state_runTask (told_preserved.handledBy hc) h.told ht he, k, b, ?_, by omega⟩
      exact (due_preserved k b).state_runTask ((due_preserved k b).handledBy hc) hd ht he
  · rw [if_neg hb]
    refine ⟨told_preserved.queueInLoop h.told ht, ?_⟩
    by_cases he : t = .established
    · subst he
      rw [beq_self_eq_true, if_pos rfl] at hle
      refine ⟨k + 1, b, ⟨?_, hd.passed⟩, by omega⟩
      show (a.conn.loop.functor ++ (a.conn.loop.tasks ++ [Task.established])).count Task.established = k + 1
      rw [← List.append_assoc, List.count_append, hd.queued]
      rfl
    · exact ⟨k, b, hd.queueInLoop he, by omega⟩

theorem Accepted.exec {a : Accepting κ ν} (h : Accepted a) {s : AcceptStep κ ν} (hs : s.Allowed) :
    Accepted (s.exec a).state := by
  cases s with
  | newConnection cbs =>
    rw [AcceptStep.exec]
    split
    · exact h
    · next t pending e => exact h.newConnection hs e
  | own s => exact h.own hs.1 hs.2

theorem run_accepted {steps : List (AcceptStep κ ν)} (hs : ∀ s ∈ steps, s.Allowed) :
    Keeps Accepted (runAll AcceptStep.exec steps) := keeps_runAll fun s hm _ h => h.exec (hs s hm)

/-- While `EstablishedInLoop` waits for its turn, it has not passed. -/
theorem Accepted.not_passed {a : Accepting κ ν} (h : Accepted a) (hn : a.EstablishedNext) :
    a.conn.channel.readAble = false := by
  obtain ⟨k, b, hd, hle⟩ := h.once
  have hp : 1 ≤ a.pending.count Task.established + k := by
    rcases hn with hn | ⟨-, hn⟩
    · obtain ⟨functor, e⟩ := List.head?_eq_some_iff.mp hn
      have hq := hd.queued
      rw [e, List.cons_append, List.count_cons_self] at hq
      omega
    · obtain ⟨pending, e⟩ := List.head?_eq_some_iff.mp hn
      rw [e, List.count_cons_self]
      omega
  rw [hd.passed]
  cases b with
  | false => rfl
  | true =>
    rw [Bool.toNat_true] at hle
    omega

theorem Accepted.connecting_iff {a : Accepting κ ν} (h : Accepted a) (hn : a.EstablishedNext) :
    a.conn.statu = .connecting ↔ .shutdownInLoop ∉ a.conn.log ∧ .releaseInLoop ∉ a.conn.log := by
  rw [h.told.connecting_iff, and_iff_right (h.not_passed hn), written_eq_nil_iff]

theorem rank_le_iff (e e' : Event ν) :
    (∀ s, e.statu = some s → ∀ s', e'.statu = some s' → s.rank ≤ s'.rank) ↔
      (e = .releaseInLoop → e' ≠ .shutdownInLoop) := by
  constructor
  · rintro h rfl rfl
    exact absurd (h _ rfl _ rfl) (by decide)
  · intro h s hs s' hs'
    have hr : 2 ≤ s'.rank := by
      cases e' with
      | shutdownInLoop => exact Option.some.inj hs' ▸ Nat.le_refl 2
      | releaseInLoop => exact Option.some.inj hs' ▸ Nat.le_succ 2
      | _ => cases hs'
    cases e with
    | shutdownInLoop => exact Option.some.inj hs ▸ hr
    | releaseInLoop =>
      cases e' with
      | shutdownInLoop => exact absurd rfl (h rfl)
      | releaseInLoop => exact (Option.some.inj (hs.symm.trans hs')) ▸ Nat.le_refl _
      | _ => cases hs'
    | _ => cases hs

/-- The course goes back exactly at a `ShutdownInLoop` after a `ReleaseInLoop`. -/
theorem forward_iff (c : Connection κ ν) : Forward c ↔ NoShutdownAfterRelease c.log := by
  have hrank : ∀ s ∈ written c.log, ConnStatu.rank .connected ≤ s.rank := by
    intro s hs
    rcases ne_connecting_of_written hs with rfl | rfl
    · decide
    · decide
  have hzero : ∀ s : ConnStatu, ConnStatu.rank .connecting ≤ s.rank := fun s => Nat.zero_le s.rank
  rw [Forward, statuses, List.pairwise_cons, and_iff_right fun s _ => hzero s, NoShutdownAfterRelease,
    ← List.Pairwise.iff rank_le_iff, ← List.pairwise_filterMap]
  show _ ↔ (written c.log).Pairwise _
  cases c.channel.readAble with
  | false => exact Iff.rfl
  | true => exact List.pairwise_cons.trans (and_iff_right hrank)

/-- In every run of a connection from `NewConnection` on: `_statu` is the last
of its values; they only go forward, with the assertion of
`EstablishedInLoop` true when its turn comes, if and only if no
`ShutdownInLoop` has run after a `ReleaseInLoop`, and neither has run then. -/
theorem statu_forward_iff (connId : UInt64) (onBaseLoop : Bool) (context : κ) (timeout : Option UInt32)
    (steps : List (AcceptStep κ ν)) (hs : ∀ s ∈ steps, s.Allowed) :
    let a := (runAll AcceptStep.exec steps (Accepting.new connId onBaseLoop context timeout)).state
    a.conn.statuses.getLast? = some a.conn.statu ∧
      (Forward a.conn ∧ (a.EstablishedNext → a.conn.statu = .connecting) ↔
        NoShutdownAfterRelease a.conn.log ∧
          (a.EstablishedNext → .shutdownInLoop ∉ a.conn.log ∧ .releaseInLoop ∉ a.conn.log)) := by
  intro a
  have h : Accepted a := run_accepted hs _ (new_accepted connId onBaseLoop context timeout)
  refine ⟨h.told.last, ?_⟩
  rw [forward_iff]
  exact and_congr_right fun _ => forall_congr' fun hn => h.connecting_iff hn

def noCallback : Callbacks Unit Unit := ⟨none, none, none, none⟩

/-- A connection is established; a `Release` and then a `Shutdown` are queued
by other threads, and run. -/
def shutdownLast : List (AcceptStep Unit Unit) :=
  [.newConnection noCallback, .own .swapTasks, .own (.runTask noCallback), .own (.queueInLoop .release),
    .own (.queueInLoop .shutdown), .own .swapTasks, .own (.runTask noCallback), .own (.runTask noCallback)]

theorem shutdownLast_allowed : ∀ s ∈ shutdownLast, s.Allowed := by
  have hn : noCallback.All UserCode := fun f hf => by simp [noCallback] at hf
  intro s hs
  simp only [shutdownLast, List.mem_cons, List.not_mem_nil, or_false] at hs
  rcases hs with rfl | rfl | rfl | rfl | rfl | rfl | rfl | rfl
  · exact hn
  · exact ⟨trivial, fun h => by cases h⟩
  · exact ⟨hn, fun h => by cases h⟩
  · exact ⟨trivial, by simp⟩
  · exact ⟨trivial, by simp⟩
  · exact ⟨trivial, fun h => by cases h⟩
  · exact ⟨hn, fun h => by cases h⟩
  · exact ⟨hn, fun h => by cases h⟩

/-- Before the last task. -/
theorem statu_forward_iff_released :
    Forward (runAll AcceptStep.exec (shutdownLast.take 7) (Accepting.new 1 false () none)).state.conn := by
  have h := statu_forward_iff 1 false () none (shutdownLast.take 7) fun s hs =>
    shutdownLast_allowed s (List.mem_of_mem_take hs)
  refine (h.2.mpr ⟨?_, fun hn => ?_⟩).1
  · have hl : (runAll AcceptStep.exec (shutdownLast.take 7) (Accepting.new 1 false () none)).state.conn.log =
        [.release .user false, .releaseInLoop, .closed, .srvClosedCallback] := rfl
    rw [hl]
    simp [NoShutdownAfterRelease]
  · rcases hn with hn | ⟨hb, _⟩
    · have hn : some Task.shutdown = some .established := hn
      simp at hn
    · have hb : false = true := hb
      simp at hb

/-- From `DISCONNECTED` back to `DISCONNECTING`. -/
theorem shutdownLast_goes_back : ¬ ∀ steps : List (AcceptStep Unit Unit), (∀ s ∈ steps, s.Allowed) →
    let a := (runAll AcceptStep.exec steps (Accepting.new 1 false () none)).state
    Forward a.conn ∧ (a.EstablishedNext → a.conn.statu = .connecting) := by
  intro h
  obtain ⟨h, -⟩ := h shutdownLast shutdownLast_allowed
  have hs : (runAll AcceptStep.exec shutdownLast (Accepting.new 1 false () none)).state.conn.statuses =
      [.connecting, .connected, .disconnected, .disconnecting] := rfl
  rw [Forward, hs] at h
  exact absurd h (by decide)

end Connection

end Mudou
