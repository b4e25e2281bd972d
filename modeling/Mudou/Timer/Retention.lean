import Mudou.Lib.Calendar
import Mudou.Timer.Denotes

/-!
# What the wheel holds

`TimerRefreshInLoop` pushes one more reference and takes none back: a
connection that is refreshed at each of its events costs a reference for each
of them. The wheel is a calendar whose log is these pushes, so they are
dropped within a turn: over every run, the references are at most the calls
of `TimerAddInLoop` and `TimerRefreshInLoop` of the last 60 ticks, and after
60 ticks without one nothing is left, in the slots or in `_timers`
(`throughout_bounded`).
-/

namespace Mudou.TimerWheel

open Calendar

variable {τ : Type}

/-- The references in the slots, one after the other. -/
def references (w : TimerWheel τ) : List Nat := slots w.capacity w.wheel

structure Logged (τ : Type) where
  wheel : TimerWheel τ
  /-- the number of ticks so far -/
  now : Nat
  /-- for each call of an add or a refresh, the number of ticks before it -/
  calls : List Nat

def Logged.new : Logged τ := ⟨TimerWheel.new, 0, []⟩

def Op.calls (s : Logged τ) : Op τ → List Nat
  | .timerAdd _ _ _ | .timerRefresh _ => s.calls ++ [s.now]
  | _ => s.calls

def Op.ticks (now : Nat) : Op τ → Nat
  | .runTimerTask => now + 1
  | _ => now

def Logged.next (s : Logged τ) (op : Op τ) (s' : Logged τ) : Prop :=
  (∃ ran, op.exec s.wheel = some (s'.wheel, ran)) ∧ s'.now = op.ticks s.now ∧ s'.calls = op.calls s

structure Logged.Bounded (s : Logged τ) : Prop where
  references : s.wheel.references.length ≤ s.calls.countP fun t => decide (s.now < t + 60)
  tasks {ps : List Nat} : ps.Nodup → (∀ p ∈ ps, s.wheel.heap p ≠ none) → ps.length ≤ s.wheel.references.length
  registered {ids : List UInt64} : ids.Nodup → (∀ id ∈ ids, s.wheel.hasTimer id = true) →
    ids.length ≤ s.wheel.references.length
  silent : (∀ t ∈ s.calls, t + 60 ≤ s.now) →
    (∀ i, s.wheel.wheel i = []) ∧ (∀ p, s.wheel.heap p = none) ∧ ∀ id, s.wheel.hasTimer id = false

theorem mem_references {w : TimerWheel τ} {p : Nat} : p ∈ w.references ↔ w.held p = true := by
  simp [references, slots, held_iff]

namespace Logged

/-! ## The invariant -/

/-- The slots are those of a calendar, whose log has an entry for some of the
calls. -/
structure Inv (s : Logged τ) : Prop where
  sound : ∃ newest, (Noted.mk s.wheel newest).Sound
  tick : s.wheel.tick = s.now % 60
  log : ∃ log : List (Entry Nat), (∀ e ∈ log, e.slot < 60) ∧ (∀ e ∈ log, e.time ≤ s.now) ∧
    (∀ i, s.wheel.wheel i = slotAt 60 s.now log i) ∧ (log.map Entry.time).Sublist s.calls

theorem new_inv : (new : Logged τ).Inv where
  sound := ⟨fun _ => none, Noted.new_sound⟩
  tick := rfl
  log := ⟨[], fun _ h => absurd h List.not_mem_nil, fun _ h => absurd h List.not_mem_nil, fun _ => rfl, .slnil⟩

variable {s s' : Logged τ}

theorem Inv.capacity (h : s.Inv) : s.wheel.capacity = 60 := by
  obtain ⟨_, hs⟩ := h.sound
  exact hs.capacity

theorem Inv.mem_references (h : s.Inv) {p : Nat} (hp : s.wheel.heap p ≠ none) : p ∈ s.wheel.references := by
  obtain ⟨_, hs⟩ := h.sound
  exact TimerWheel.mem_references.mpr (hs.alive hp).2

theorem Inv.references (h : s.Inv) :
    s.wheel.references.length ≤ s.calls.countP fun t => decide (s.now < t + 60) := by
  obtain ⟨log, hs, -, hw, hc⟩ := h.log
  rw [TimerWheel.references, h.capacity, show s.wheel.wheel = slotAt 60 s.now log from funext hw]
  exact Nat.le_trans (length_slots_le hs) hc.countP_le

theorem Inv.tasks (h : s.Inv) {ps : List Nat} (hd : ps.Nodup) (ha : ∀ p ∈ ps, s.wheel.heap p ≠ none) :
    ps.length ≤ s.wheel.references.length :=
  (List.subperm_of_subset hd fun p hp => h.mem_references (ha p hp)).length_le

/-- Two ids have two tasks. -/
theorem Inv.registered (h : s.Inv) {ids : List UInt64} (hd : ids.Nodup)
    (hr : ∀ id ∈ ids, s.wheel.hasTimer id = true) : ids.length ≤ s.wheel.references.length := by
  obtain ⟨_, hs⟩ := h.sound
  have ht : ∀ id ∈ ids, ∃ p pt, s.wheel.timers id = some p ∧ s.wheel.heap p = some pt ∧ pt.id = id := by
    intro id hm
    obtain ⟨p, hp⟩ := Option.isSome_iff_exists.mp (hr id hm)
    obtain ⟨-, pt, hpt, e⟩ := hs.registered hp
    exact ⟨p, pt, hp, hpt, e⟩
  rw [← List.length_map (f := fun id => (s.wheel.timers id).getD 0)]
  refine h.tasks (List.Nodup.map_on ?_ hd) fun p hp => ?_
  · intro id hm id' hm' e
    obtain ⟨p, pt, hp, hpt, rfl⟩ := ht id hm
    obtain ⟨p', pt', hp', hpt', rfl⟩ := ht id' hm'
    rw [hp, hp'] at e
    obtain rfl : p = p' := e
    rw [Option.some.inj (hpt.symm.trans hpt')]
  · obtain ⟨id, hm, rfl⟩ := List.mem_map.mp hp
    obtain ⟨p, pt, hp, hpt, -⟩ := ht id hm
    rw [hp]
    exact Option.ne_none_iff_exists'.mpr ⟨pt, hpt⟩

theorem Inv.silent (h : s.Inv) (hq : ∀ t ∈ s.calls, t + 60 ≤ s.now) :
    (∀ i, s.wheel.wheel i = []) ∧ (∀ p, s.wheel.heap p = none) ∧ ∀ id, s.wheel.hasTimer id = false := by
  obtain ⟨_, hs⟩ := h.sound
  have hn : s.wheel.references = [] := by
    have hz : (s.calls.countP fun t => decide (s.now < t + 60)) = 0 :=
      List.countP_eq_zero.mpr fun t ht => by simpa using hq t ht
    exact List.length_eq_zero_iff.mp (Nat.le_zero.mp (hz ▸ h.references))
  have hh : ∀ p, s.wheel.heap p = none := by
    intro p
    by_contra hp
    exact absurd (hn ▸ h.mem_references hp) List.not_mem_nil
  refine ⟨fun i => List.eq_nil_iff_forall_not_mem.mpr fun p hp => (hs.refs hp).2 (hh p), hh, fun id => ?_⟩
  rw [TimerWheel.hasTimer, Option.isSome_eq_false_iff, Option.isNone_iff_eq_none]
  cases hid : s.wheel.timers id with
  | none => rfl
  | some p =>
    obtain ⟨-, pt, hpt, -⟩ := hs.registered hid
    exact absurd (hpt.symm.trans (hh p)) (Option.some_ne_none _)

theorem Inv.bounded (h : s.Inv) : s.Bounded := ⟨h.references, h.tasks, h.registered, h.silent⟩

/-! ## One operation -/

/-- A push is an entry of the log. -/
theorem Inv.push (h : s.Inv) {w : TimerWheel τ} {pos p : Nat} (hpos : pos < 60)
    (hs : ∃ newest, (Noted.mk w newest).Sound) (ht : w.tick = s.wheel.tick)
    (hw : w.wheel = (s.wheel.pushRef pos p).wheel) : Inv ⟨w, s.now, s.calls ++ [s.now]⟩ := by
  obtain ⟨log, hl, hn, hc, hcalls⟩ := h.log
  refine ⟨hs, ht.trans h.tick, log ++ [⟨s.now, pos, p⟩], ?_, ?_, fun i => ?_, ?_⟩
  · intro e he
    rcases List.mem_append.mp he with he | he
    · exact hl e he
    · rw [List.mem_singleton.mp he]
      exact hpos
  · intro e he
    rcases List.mem_append.mp he with he | he
    · exact hn e he
    · rw [List.mem_singleton.mp he]
  · rw [slotAt_concat, hw, wheel_pushRef, ← hc]
    by_cases hi : pos = i
    · subst hi
      rw [Function.update_self, if_pos rfl]
    · rw [Function.update_of_ne (Ne.symm hi), if_neg hi, List.append_nil]
  · rw [List.map_append]
    exact hcalls.append (List.Sublist.refl _)

/-- A call without a push. -/
theorem Inv.call (h : s.Inv) : Inv ⟨s.wheel, s.now, s.calls ++ [s.now]⟩ := by
  obtain ⟨log, hl, hn, hc, hcalls⟩ := h.log
  exact ⟨h.sound, h.tick, log, hl, hn, hc, hcalls.trans (List.sublist_append_left _ _)⟩

theorem Inv.timerAdd (h : s.Inv) (id : UInt64) (delay : UInt32) (cb : τ) :
    Inv ⟨s.wheel.timerAddInLoop id delay cb, s.now, s.calls ++ [s.now]⟩ := by
  obtain ⟨_, hs⟩ := h.sound
  exact h.push (Noted.addPos_lt h.capacity delay) ⟨_, hs.timerAdd id delay cb⟩ rfl rfl

theorem Inv.timerRefresh (h : s.Inv) {id : UInt64} {w : TimerWheel τ}
    (e : s.wheel.timerRefreshInLoop id = some w) : Inv ⟨w, s.now, s.calls ++ [s.now]⟩ := by
  obtain ⟨_, hs⟩ := h.sound
  have hs' := hs.timerRefresh e
  rcases Noted.timerRefresh_cases e with rfl | ⟨p, pt, pos, -, -, hpos, rfl⟩
  · exact h.call
  · exact h.push (Noted.refreshPos_lt h.capacity hpos) ⟨_, hs'⟩ rfl rfl

theorem Inv.timerCancel (h : s.Inv) (id : UInt64) : Inv ⟨s.wheel.timerCancelInLoop id, s.now, s.calls⟩ := by
  obtain ⟨_, hs⟩ := h.sound
  obtain ⟨log, hl, hn, hc, hcalls⟩ := h.log
  have ht : (s.wheel.timerCancelInLoop id).tick = s.wheel.tick := by
    rcases Noted.timerCancel_cases s.wheel id with e | ⟨p, pt, -, -, e⟩ <;> rw [e]
  refine ⟨⟨_, hs.timerCancel id⟩, ht.trans h.tick, log, hl, hn, fun i => ?_, hcalls⟩
  rw [← hc, (Noted.sameTasks_timerCancel s.wheel id).wheel]

theorem Inv.runTimerTask (h : s.Inv) : Inv ⟨s.wheel.runTimerTask.1, s.now + 1, s.calls⟩ := by
  obtain ⟨_, hs⟩ := h.sound
  obtain ⟨log, hl, hn, hc, hcalls⟩ := h.log
  have hf := frame_destroyAll s.wheel.due s.wheel.advanced
  rw [← runTimerTask_destroyAll] at hf
  obtain ⟨hw, -, -, ht⟩ := hf
  have htick : (s.wheel.tick + 1) % s.wheel.capacity = (s.now + 1) % 60 := by
    rw [h.capacity, h.tick]
    omega
  refine ⟨⟨_, hs.runTimerTask⟩, ht.trans htick, log, hl, fun e he => Nat.le_succ_of_le (hn e he),
    fun i => ?_, hcalls⟩
  rw [slotAt_succ hl hn, hw, ← hc]
  show Function.update s.wheel.wheel ((s.wheel.tick + 1) % s.wheel.capacity) [] i = _
  rw [htick, Function.update_apply]

theorem Inv.next (h : s.Inv) {op : Op τ} (hn : s.next op s') : s'.Inv := by
  obtain ⟨⟨ran, e⟩, en, ec⟩ := hn
  obtain ⟨w', now', calls'⟩ := s'
  obtain rfl : now' = op.ticks s.now := en
  obtain rfl : calls' = op.calls s := ec
  have hw := Op.exec_cases e
  cases op with
  | timerAdd id delay cb =>
    obtain rfl : s.wheel.timerAddInLoop id delay cb = w' := hw
    exact h.timerAdd id delay cb
  | timerRefresh id => exact h.timerRefresh hw
  | timerCancel id =>
    obtain rfl : s.wheel.timerCancelInLoop id = w' := hw
    exact h.timerCancel id
  | runTimerTask =>
    obtain rfl : s.wheel.runTimerTask.1 = w' := hw
    exact h.runTimerTask

/-! ## Runs -/

/-- Over every run, with any ids and delays. -/
theorem throughout_bounded (ops : List (Op τ)) : Run.Throughout next Bounded ops new := by
  have hI : ∀ s : Logged τ, s.Inv → s.Bounded := fun _ h => h.bounded
  have hn : ∀ (s : Logged τ) (op : Op τ) (s' : Logged τ), s.Inv → s.next op s' → s'.Inv :=
    fun _ _ _ h hn => h.next hn
  exact Run.throughout_of_inv hI hn ops new new_inv

/-- One timer, refreshed at two events of one tick. -/
example : (do
    let w ← ((TimerWheel.new : TimerWheel Unit).timerAddInLoop 7 10 ()).timerRefreshInLoop 7
    let w ← w.timerRefreshInLoop 7
    some w.references) = some [0, 0, 0] := by decide +kernel

end Logged

end Mudou.TimerWheel
