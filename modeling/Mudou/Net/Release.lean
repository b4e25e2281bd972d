import Mudou.Lib.History
import Mudou.Net.UserCode

/-!
# How often a connection is released

Each call of `Release` queues one `ReleaseInLoop`, and nothing checks whether
one is queued or has run. `Ledger.balance`: the calls are the `ReleaseInLoop`s
that ran and those still queued. A call is late if another came before it
(`Ledger.late`).

`Ledger.singleRelease`: if `ReleaseInLoop` ran at most once, the closed
callbacks ran at most once, and no `ReleaseInLoop` ran after the erasure.
-/

namespace Mudou

namespace Event

variable {ν : Type}

def isRelease : Event ν → Bool
  | .release _ _ => true
  | _ => false

def isLate : Event ν → Bool
  | .release _ late => late
  | _ => false

def isReleaseInLoop : Event ν → Bool
  | .releaseInLoop => true
  | _ => false

def isClosedCallback : Event ν → Bool
  | .closedCallback => true
  | _ => false

def isSrvClosedCallback : Event ν → Bool
  | .srvClosedCallback => true
  | _ => false

def isErased : Event ν → Bool
  | .erased => true
  | _ => false

/-- An event that the accounts below do not count. -/
def Uncounted (e : Event ν) : Prop :=
  e.isRelease = false ∧ e.isLate = false ∧ e.isReleaseInLoop = false ∧ e.isClosedCallback = false ∧
    e.isSrvClosedCallback = false ∧ e.isErased = false

end Event

namespace Connection

variable {κ ν : Type} {c d : Connection κ ν} {log : List (Event ν)}

open Outcome History

def releases (log : List (Event ν)) : Nat := log.countP Event.isRelease
def releasesRun (log : List (Event ν)) : Nat := log.countP Event.isReleaseInLoop
def closedCallbacks (log : List (Event ν)) : Nat := log.countP Event.isClosedCallback
def srvClosedCallbacks (log : List (Event ν)) : Nat := log.countP Event.isSrvClosedCallback

/-- The `ReleaseInLoop`s in the task pool. -/
def releasesQueued (c : Connection κ ν) : Nat := (c.loop.functor ++ c.loop.tasks).count .release

/-- `ReleaseInLoop` and the closed callbacks run at most once, and no
`ReleaseInLoop` after the connection was erased from `_conns`. -/
structure SingleRelease (log : List (Event ν)) : Prop where
  releaseInLoop : releasesRun log ≤ 1
  closedCallback : closedCallbacks log ≤ 1
  srvClosedCallback : srvClosedCallbacks log ≤ 1
  erased : ∀ pre, pre ++ [.releaseInLoop] <+: log → .erased ∉ pre

/-- No `Release` is called while a `ReleaseInLoop` is queued or after the
socket was closed. -/
def NoLateRelease (log : List (Event ν)) : Prop := ∀ caller, .release caller true ∉ log

/-! ## The accounts -/

structure Ledger (c : Connection κ ν) : Prop where
  balance : releases c.log = releasesRun c.log + c.releasesQueued
  socket : c.socketOpen = false ↔ 0 < releasesRun c.log
  late : 1 < releases c.log ↔ ∃ e ∈ c.log, e.isLate = true
  closedCallbacks : closedCallbacks c.log ≤ releasesRun c.log
  srvClosedCallbacks : srvClosedCallbacks c.log ≤ releasesRun c.log
  removals : 0 < c.removals → 0 < releasesRun c.log
  erased : Always (fun pre e => e.isErased = true → 0 < releasesRun pre) c.log

@[simp] theorem releases_concat (log : List (Event ν)) (e : Event ν) :
    releases (log ++ [e]) = releases log + if e.isRelease then 1 else 0 := by
  simp [releases, List.countP_append, List.countP_singleton]
@[simp] theorem releasesRun_concat (log : List (Event ν)) (e : Event ν) :
    releasesRun (log ++ [e]) = releasesRun log + if e.isReleaseInLoop then 1 else 0 := by
  simp [releasesRun, List.countP_append, List.countP_singleton]
@[simp] theorem closedCallbacks_concat (log : List (Event ν)) (e : Event ν) :
    Connection.closedCallbacks (log ++ [e]) =
      Connection.closedCallbacks log + if e.isClosedCallback then 1 else 0 := by
  simp [Connection.closedCallbacks, List.countP_append, List.countP_singleton]
@[simp] theorem srvClosedCallbacks_concat (log : List (Event ν)) (e : Event ν) :
    Connection.srvClosedCallbacks (log ++ [e]) =
      Connection.srvClosedCallbacks log + if e.isSrvClosedCallback then 1 else 0 := by
  simp [Connection.srvClosedCallbacks, List.countP_append, List.countP_singleton]
theorem late_concat (log : List (Event ν)) (e : Event ν) :
    (∃ e' ∈ log ++ [e], e'.isLate = true) ↔ (∃ e' ∈ log, e'.isLate = true) ∨ e.isLate = true := by
  simp only [List.mem_append, List.mem_singleton, or_and_right, exists_or, exists_eq_left]

/-- Nothing happened that is counted. -/
theorem Ledger.same (h : Ledger c) (hl : d.log = c.log) (hs : d.socketOpen = c.socketOpen)
    (hr : d.removals = c.removals) (hq : d.releasesQueued = c.releasesQueued) : Ledger d :=
  ⟨by rw [hl, hq]; exact h.balance, by rw [hl, hs]; exact h.socket, by rw [hl]; exact h.late,
    by rw [hl]; exact h.closedCallbacks, by rw [hl]; exact h.srvClosedCallbacks,
    by rw [hl, hr]; exact h.removals, by rw [hl]; exact h.erased⟩

/-- An event other than a call of `Release` or a `ReleaseInLoop`. -/
theorem Ledger.record (h : Ledger c) {e : Event ν} (hr : e.isRelease = false) (hl : e.isLate = false)
    (hn : e.isReleaseInLoop = false)
    (hc : e.isClosedCallback = false ∨ Connection.closedCallbacks c.log < releasesRun c.log)
    (hs : e.isSrvClosedCallback = false ∨ Connection.srvClosedCallbacks c.log < releasesRun c.log)
    (he : e.isErased = false ∨ 0 < releasesRun c.log) : Ledger (c.record e) := by
  have h₁ := h.closedCallbacks
  have h₂ := h.srvClosedCallbacks
  refine ⟨?_, ?_, ?_, ?_, ?_, ?_, h.erased.concat fun h' => ?_⟩
  · rw [log_record, releases_concat, releasesRun_concat, hr, hn]
    exact h.balance
  · rw [log_record, releasesRun_concat, hn]
    exact h.socket
  · rw [log_record, late_concat, releases_concat, hr, hl]
    simpa using h.late
  · rw [log_record, closedCallbacks_concat, releasesRun_concat, hn]
    rcases hc with hc | hc
    · rw [hc]
      exact h₁
    · split <;> omega
  · rw [log_record, srvClosedCallbacks_concat, releasesRun_concat, hn]
    rcases hs with hs | hs
    · rw [hs]
      exact h₂
    · split <;> omega
  · rw [log_record, releasesRun_concat, hn]
    exact h.removals
  · rcases he with he | he
    · rw [he] at h'
      cases h'
    · exact he

theorem Ledger.uncounted (h : Ledger c) {e : Event ν} (he : e.Uncounted) (hl : d.log = c.log ++ [e])
    (hs : d.socketOpen = c.socketOpen) (hr : d.removals = c.removals)
    (hq : d.releasesQueued = c.releasesQueued) : Ledger d := by
  obtain ⟨h₁, h₂, h₃, h₄, h₅, h₆⟩ := he
  exact (h.record h₁ h₂ h₃ (.inl h₄) (.inl h₅) (.inl h₆)).same hl hs hr hq

/-- A call is late exactly if it is not the first. -/
theorem Ledger.releasing_iff (h : Ledger c) : c.releasing = true ↔ 0 < releases c.log := by
  rw [releasing, Bool.or_eq_true, decide_eq_true_eq, Bool.not_eq_true', h.socket, h.balance,
    ← List.count_pos_iff]
  show 0 < c.releasesQueued ∨ _ ↔ _
  omega

theorem Ledger.release (h : Ledger c) (caller : Caller) : Ledger (c.release caller) := by
  have hq : (c.release caller).releasesQueued = c.releasesQueued + 1 := by
    simp [releasesQueued, Connection.release, Connection.record, queueInLoop, ← Nat.add_assoc]
  have hl : (c.release caller).log = c.log ++ [.release caller c.releasing] := rfl
  have hlate := h.late
  have hrel := h.releasing_iff
  have hb := h.balance
  refine ⟨?_, ?_, ?_, ?_, ?_, ?_, ?_⟩
  · simp only [hl, hq, releases_concat, releasesRun_concat, Event.isRelease, Event.isReleaseInLoop]
    simp only [if_true, Bool.false_eq_true, if_false]
    omega
  · show c.socketOpen = false ↔ _
    simpa [hl, Event.isReleaseInLoop] using h.socket
  · rw [hl, late_concat, ← hlate, releases_concat]
    simp only [Event.isRelease, Event.isLate, if_true, hrel]
    omega
  · simpa [hl, Event.isReleaseInLoop, Event.isClosedCallback] using h.closedCallbacks
  · simpa [hl, Event.isReleaseInLoop, Event.isSrvClosedCallback] using h.srvClosedCallbacks
  · show 0 < c.removals → _
    simpa [hl, Event.isReleaseInLoop] using h.removals
  · rw [hl]
    exact h.erased.concat fun he => Bool.noConfusion he

/-- `ReleaseInLoop` takes its task and closes the socket. -/
theorem Ledger.beginRelease (h : Ledger c) {functor : List Task} (e : c.loop.functor = .release :: functor) :
    let d := { c with loop := { c.loop with functor } }.beginRelease
    Ledger d ∧ Connection.closedCallbacks d.log < releasesRun d.log ∧
      Connection.srvClosedCallbacks d.log < releasesRun d.log := by
  intro d
  obtain ⟨b, w, ed⟩ := beginRelease_eq { c with loop := { c.loop with functor } }
  have hq : c.releasesQueued = d.releasesQueued + 1 := by simp [d, ed, releasesQueued, e]
  have hs : d.socketOpen = false := by simp [d, ed]
  have hl : d.log = (c.log ++ [.releaseInLoop]) ++ if c.socketOpen then [.closed] else [] := by
    simp only [d, ed]
  have hrun : releasesRun d.log = releasesRun c.log + 1 := by
    rw [hl]
    cases c.socketOpen <;> simp [releasesRun, List.countP_cons, Event.isReleaseInLoop]
  have hrel : releases d.log = releases c.log := by
    rw [hl]
    cases c.socketOpen <;> simp [releases, Event.isRelease]
  have hcc : Connection.closedCallbacks d.log = Connection.closedCallbacks c.log := by
    rw [hl]
    cases c.socketOpen <;> simp [Connection.closedCallbacks, Event.isClosedCallback]
  have hsc : Connection.srvClosedCallbacks d.log = Connection.srvClosedCallbacks c.log := by
    rw [hl]
    cases c.socketOpen <;> simp [Connection.srvClosedCallbacks, Event.isSrvClosedCallback]
  have hb := h.balance
  have h₁ := h.closedCallbacks
  have h₂ := h.srvClosedCallbacks
  refine ⟨⟨by omega, by rw [hs, hrun]; simp, ?_, by omega, by omega, fun _ => by omega, ?_⟩, by omega, by omega⟩
  · rw [hrel, h.late, hl]
    have hr : (∃ e ∈ c.log ++ [.releaseInLoop], e.isLate = true) ↔ ∃ e ∈ c.log, e.isLate = true := by
      rw [late_concat]
      exact or_iff_left Bool.false_ne_true
    cases c.socketOpen with
    | true =>
      rw [if_pos rfl, late_concat, hr]
      exact (or_iff_left Bool.false_ne_true).symm
    | false => rw [if_neg Bool.false_ne_true, List.append_nil, hr]
  · have hr : Always (fun pre e => e.isErased = true → 0 < releasesRun pre) (c.log ++ [.releaseInLoop]) :=
      h.erased.concat fun he => Bool.noConfusion he
    rw [hl]
    cases c.socketOpen with
    | true => exact hr.concat fun he => Bool.noConfusion he
    | false =>
      rw [if_neg Bool.false_ne_true, List.append_nil]
      exact hr

theorem Ledger.removeConnectionInLoop (h : Ledger c) (hr : 0 < releasesRun c.log) :
    Ledger c.removeConnectionInLoop := by
  have h' : Ledger { c with inConns := false } := h.same rfl rfl rfl rfl
  exact state_removeConnectionInLoop h (h'.record rfl rfl rfl (.inl rfl) (.inl rfl) (.inr hr))

theorem Ledger.removeConnection (h : Ledger c)
    (hs : Connection.srvClosedCallbacks c.log < releasesRun c.log) : Ledger c.removeConnection := by
  have h' : Ledger (c.record .srvClosedCallback) :=
    h.record rfl rfl rfl (.inl rfl) (.inr hs) (.inl rfl)
  have hr : 0 < releasesRun (c.record .srvClosedCallback).log := by
    rw [log_record, releasesRun_concat]
    omega
  show Ledger (if _ then _ else _)
  split
  · exact h'.removeConnectionInLoop hr
  · exact ⟨h'.balance, h'.socket, h'.late, h'.closedCallbacks, h'.srvClosedCallbacks, fun _ => hr, h'.erased⟩

/-- User code runs no `ReleaseInLoop` and no server-closed callback. -/
theorem Frame.counts {c d : Connection κ ν} (h : Frame c d) :
    releasesRun d.log = releasesRun c.log ∧
      Connection.srvClosedCallbacks d.log = Connection.srvClosedCallbacks c.log := by
  obtain ⟨es, e, hu⟩ := h.log
  have h₁ : es.countP Event.isReleaseInLoop = 0 := by
    refine List.countP_eq_zero.mpr fun e he => ?_
    have := hu e he
    cases e <;> simp_all [Event.OfUser, Event.isReleaseInLoop]
  have h₂ : es.countP Event.isSrvClosedCallback = 0 := by
    refine List.countP_eq_zero.mpr fun e he => ?_
    have := hu e he
    cases e <;> simp_all [Event.OfUser, Event.isSrvClosedCallback]
  rw [e, releasesRun, releasesRun, Connection.srvClosedCallbacks, Connection.srvClosedCallbacks,
    List.countP_append, List.countP_append, h₁, h₂]
  exact ⟨rfl, rfl⟩

theorem Ledger.releaseInLoop (h : Ledger c) {functor : List Task} {closed : Option (Callback κ ν)}
    (e : c.loop.functor = .release :: functor) (hc : ∀ f, closed = some f → Good Ledger f) :
    Ledger ({ c with loop := { c.loop with functor } }.releaseInLoop closed).state := by
  obtain ⟨hb, hcc, hsc⟩ := h.beginRelease e
  rw [releaseInLoop_eq]
  cases closed with
  | none => exact hb.removeConnection hsc
  | some f =>
    have hb := hb.record (e := .closedCallback) rfl rfl rfl (.inr hcc) (.inl rfl) (.inl rfl)
    have hk := (hc f rfl).keeps _ hb
    obtain ⟨hr, hs⟩ := ((hc f rfl).frame
      ({ c with loop := { c.loop with functor } }.beginRelease.record .closedCallback)).counts
    rw [log_record, releasesRun_concat] at hr
    rw [log_record, srvClosedCallbacks_concat] at hs
    simp only
    cases ef : f ({ c with loop := { c.loop with functor } }.beginRelease.record .closedCallback) with
    | ok d =>
      rw [ef] at hk hr hs
      exact hk.removeConnection (hs.trans_lt (hsc.trans_eq hr.symm))
    | stopped d =>
      rw [ef] at hk
      exact hk

theorem ledger_preserved : UserPreserved (Ledger : Connection κ ν → Prop) where
  setTimer b w h := h.same rfl rfl rfl rfl
  send {c} data h := by
    have he : Ledger (c.accept data) :=
      h.uncounted ⟨rfl, rfl, rfl, rfl, rfl, rfl⟩ rfl rfl rfl rfl
    rcases sendInLoop_cases c data with ⟨_, e⟩ | ⟨_, e | e⟩
    · rw [e]
      exact h
    · rw [e]
      exact he.same rfl rfl rfl rfl
    · rw [e]
      exact he
  beginShutdown h := h.uncounted ⟨rfl, rfl, rfl, rfl, rfl, rfl⟩ rfl rfl rfl rfl
  endShutdown {c} h _ := by
    rcases endShutdown_cases c with ⟨_, e⟩ | ⟨_, e | e⟩
    · rw [e]
      exact h.release _
    · rw [e]
      exact h.same rfl rfl rfl rfl
    · rw [e]
      exact h
  drained h _ _ := h.release _
  release h _ _ := h.release _
  received data h := h.uncounted ⟨rfl, rfl, rfl, rfl, rfl, rfl⟩ rfl rfl rfl rfl
  handed n h := h.uncounted ⟨rfl, rfl, rfl, rfl, rfl, rfl⟩ rfl rfl rfl rfl
  disableWrite h _ := h.same rfl rfl rfl rfl
  established h _ := h.same rfl rfl rfl rfl
  runTask h e ht := h.same rfl rfl rfl (by simp [releasesQueued, e, ht])
  releaseInLoop h e hc := h.releaseInLoop e hc
  removeConnectionInLoop {c} h hr := by
    have h' : Ledger { c with removals := c.removals - 1 } :=
      ⟨h.balance, h.socket, h.late, h.closedCallbacks, h.srvClosedCallbacks, fun _ => h.removals hr, h.erased⟩
    exact h'.removeConnectionInLoop (h.removals hr)
  swapTasks h := h.same rfl rfl rfl (by simp [releasesQueued, swapTasks])
  queueInLoop h ht := h.same rfl rfl rfl (by
    simp [releasesQueued, queueInLoop, ht])
  setInBuffer q h := h.same rfl rfl rfl rfl
  setContext x h := h.same rfl rfl rfl rfl
  note n h := h.uncounted ⟨rfl, rfl, rfl, rfl, rfl, rfl⟩ rfl rfl rfl rfl

theorem new_ledger (connId : UInt64) (onBaseLoop : Bool) (context : κ) (timeout : Option UInt32) :
    Ledger (new connId onBaseLoop context timeout : Connection κ ν) where
  balance := by cases timeout <;> rfl
  socket := by simp [new, releasesRun]
  late := by simp [new, releases]
  closedCallbacks := Nat.le_refl 0
  srvClosedCallbacks := Nat.le_refl 0
  removals h := absurd h (Nat.lt_irrefl 0)
  erased := always_nil

/-! ## At most once -/

theorem Ledger.noLateRelease_iff (h : Ledger c) : NoLateRelease c.log ↔ releases c.log ≤ 1 := by
  rw [← not_lt, h.late]
  refine ⟨fun hn ⟨e, he, hl⟩ => ?_, fun hn caller he => hn ⟨_, he, rfl⟩⟩
  cases e with
  | release caller late =>
    have : late = true := hl
    exact hn caller (this ▸ he)
  | _ => exact Bool.false_ne_true hl

theorem Ledger.singleRelease (h : Ledger c) (hr : releasesRun c.log ≤ 1) : SingleRelease c.log where
  releaseInLoop := hr
  closedCallback := h.closedCallbacks.trans hr
  srvClosedCallback := h.srvClosedCallbacks.trans hr
  erased pre hp he := by
    obtain ⟨a, b, rfl⟩ := List.append_of_mem he
    have ha : 0 < releasesRun a := by
      refine h.erased a .erased (List.IsPrefix.trans ?_ hp) rfl
      exact ⟨b ++ [.releaseInLoop], by simp⟩
    have hle := hp.sublist.countP_le (p := Event.isReleaseInLoop)
    have hab : releasesRun a ≤ releasesRun (a ++ .erased :: b) :=
      (List.prefix_append ..).sublist.countP_le
    have hc := releasesRun_concat (a ++ .erased :: b) .releaseInLoop
    simp only [Event.isReleaseInLoop, if_true] at hc
    rw [← releasesRun, ← releasesRun] at hle
    omega

/-- With no `ReleaseInLoop` left in the task pool, the connection was released
at most once exactly if no call was late. -/
theorem Ledger.singleRelease_iff (h : Ledger c) (hq : c.releasesQueued = 0) :
    SingleRelease c.log ↔ NoLateRelease c.log := by
  have hb := h.balance
  rw [h.noLateRelease_iff]
  constructor
  · intro hr
    have := hr.releaseInLoop
    omega
  · intro hn
    exact h.singleRelease (by omega)

end Connection

end Mudou
