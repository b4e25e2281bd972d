import Mathlib.Data.List.Perm.Basic
import Mathlib.Data.List.Forall2
import Mudou.Timer.Wheel

/-!
# When timers fire

A `Registry` is what the wheel is for: timers with the tick of their last add
or refresh, each due `delay` ticks later, when it leaves the registry and its
callback runs unless it was cancelled. `timerWheel_exact`: the wheel does
exactly that over every run.

`Stands` relates a timer to its task: the slot of the deadline holds a
reference, and every other slot that does is visited before the deadline. The
references that refreshes leave behind are therefore dropped without
destroying the task.
-/

namespace Mudou.TimerWheel

variable {τ : Type}

structure Timer (τ : Type) where
  id : UInt64
  delay : UInt32
  /-- the number of ticks before its last add or refresh -/
  armed : Nat
  canceled : Bool
  cb : τ

def Timer.deadline (t : Timer τ) : Nat := t.armed + t.delay.toNat

structure Registry (τ : Type) where
  /-- the number of ticks so far -/
  now : Nat
  timers : List (Timer τ)

inductive Op (τ : Type) where
  | timerAdd (id : UInt64) (delay : UInt32) (cb : τ)
  | timerRefresh (id : UInt64)
  | timerCancel (id : UInt64)
  | runTimerTask

/-- An operation on the wheel, with the callbacks it runs. -/
def Op.exec (w : TimerWheel τ) : Op τ → Option (TimerWheel τ × List (UInt64 × τ))
  | .timerAdd id delay cb => some (w.timerAddInLoop id delay cb, [])
  | .timerRefresh id => (w.timerRefreshInLoop id).map fun w => (w, [])
  | .timerCancel id => some (w.timerCancelInLoop id, [])
  | .runTimerTask =>
    let (w, ran) := w.runTimerTask
    some (w, ran.map fun t => (t.id, t.taskCb))

/-- `S` with the timer under `id` changed by `f`. -/
def Registry.modify (S : Registry τ) (id : UInt64) (f : Timer τ → Timer τ) : Registry τ :=
  { S with timers := S.timers.map fun t => if t.id = id then f t else t }

/-- The same operation on the registry, with the callbacks that are due. -/
def Op.spec (S : Registry τ) : Op τ → Registry τ × List (UInt64 × τ)
  | .timerAdd id delay cb => ({ S with timers := ⟨id, delay, S.now, false, cb⟩ :: S.timers }, [])
  | .timerRefresh id => (S.modify id fun t => { t with armed := S.now }, [])
  | .timerCancel id => (S.modify id fun t => { t with canceled := true }, [])
  | .runTimerTask =>
    let now := S.now + 1
    ({ now, timers := S.timers.filter (·.deadline ≠ now) },
      (S.timers.filter fun t => t.deadline = now ∧ t.canceled = false).map fun t => (t.id, t.cb))

/-- An id is added while it is not registered, with a delay from one tick to
a whole turn. -/
def Op.Pre (w : TimerWheel τ) : Op τ → Prop
  | .timerAdd id delay _ => w.hasTimer id = false ∧ 1 ≤ delay.toNat ∧ delay.toNat ≤ w.capacity
  | _ => True

/-- A run, with the callbacks each operation ran. -/
def run : List (Op τ) → TimerWheel τ → Option (TimerWheel τ × List (List (UInt64 × τ)))
  | [], w => some (w, [])
  | op :: ops, w => do
    let (w, ran) ← op.exec w
    let (w, rest) ← run ops w
    some (w, ran :: rest)

def specRun : List (Op τ) → Registry τ → Registry τ × List (List (UInt64 × τ))
  | [], S => (S, [])
  | op :: ops, S =>
    let (S, ran) := op.spec S
    let (S, rest) := specRun ops S
    (S, ran :: rest)

/-- Every operation's precondition holds when it is its turn. -/
def Permitted : List (Op τ) → TimerWheel τ → Prop
  | [], _ => True
  | op :: ops, w => op.Pre w ∧ ∀ w' ran, op.exec w = some (w', ran) → Permitted ops w'

/-! ## The invariant -/

/-- The task at `p` is the timer `t`, and lives until `t`'s deadline. -/
structure Stands (w : TimerWheel τ) (now p : Nat) (t : Timer τ) : Prop where
  task : w.heap p = some ⟨t.id, t.delay, t.canceled, t.cb⟩
  delay : 1 ≤ t.delay.toNat ∧ t.delay.toNat ≤ 60
  armed : t.armed ≤ now
  ahead : now < t.deadline
  last : p ∈ w.wheel (t.deadline % 60)
  earlier : ∀ k, now < k → k ≤ now + 60 → p ∈ w.wheel (k % 60) → k ≤ t.deadline

structure Tracks (w : TimerWheel τ) (S : Registry τ) : Prop where
  capacity : w.capacity = 60
  tick : w.tick = S.now % 60
  consistent : w.Consistent
  fresh : ∀ {p}, w.heap p ≠ none → p < w.next
  refs : ∀ {i p}, p ∈ w.wheel i → i < 60 ∧ w.heap p ≠ none
  nodup : (S.timers.map Timer.id).Nodup
  timer : ∀ t ∈ S.timers, ∃ p, w.timers t.id = some p ∧ Stands w S.now p t
  registered : ∀ {id}, w.timers id ≠ none → ∃ t ∈ S.timers, t.id = id

theorem new_tracks : Tracks (new : TimerWheel τ) ⟨0, []⟩ where
  capacity := rfl
  tick := rfl
  consistent := ⟨fun h => (Option.some_ne_none _ h.symm).elim, fun h => (Option.some_ne_none _ h.symm).elim⟩
  fresh h := absurd rfl h
  refs h := absurd h List.not_mem_nil
  nodup := List.nodup_nil
  timer _ h := absurd h List.not_mem_nil
  registered h := absurd rfl h

theorem Tracks.hasTimer {w : TimerWheel τ} {S : Registry τ} (h : Tracks w S) (id : UInt64) :
    w.hasTimer id = true ↔ ∃ t ∈ S.timers, t.id = id := by
  rw [TimerWheel.hasTimer, Option.isSome_iff_ne_none]
  refine ⟨h.registered, ?_⟩
  rintro ⟨t, ht, rfl⟩
  obtain ⟨p, hp, -⟩ := h.timer t ht
  rw [hp]
  exact Option.some_ne_none p

/-- Two timers with one id are one. -/
theorem Tracks.timer_unique {w : TimerWheel τ} {S : Registry τ} (h : Tracks w S) {t u : Timer τ}
    (ht : t ∈ S.timers) (hu : u ∈ S.timers) (e : t.id = u.id) : t = u :=
  List.inj_on_of_nodup_map h.nodup ht hu e

/-- A registration and its timer. -/
theorem Tracks.of_registered {w : TimerWheel τ} {S : Registry τ} (h : Tracks w S) {id : UInt64}
    {p : Nat} (hid : w.timers id = some p) : ∃ t ∈ S.timers, t.id = id ∧ Stands w S.now p t := by
  obtain ⟨t, ht, rfl⟩ := h.registered (by rw [hid]; exact Option.some_ne_none p)
  obtain ⟨q, hq, hs⟩ := h.timer t ht
  obtain rfl : q = p := Option.some.inj (hq.symm.trans hid)
  exact ⟨t, ht, rfl, hs⟩

/-- A live task is the task of a timer. -/
theorem Tracks.of_alive {w : TimerWheel τ} {S : Registry τ} (h : Tracks w S) {p : Nat}
    (hp : w.heap p ≠ none) : ∃ t ∈ S.timers, w.timers t.id = some p ∧ Stands w S.now p t := by
  obtain ⟨pt, e⟩ := Option.ne_none_iff_exists'.mp hp
  obtain ⟨t, ht, hid, hs⟩ := h.of_registered (h.consistent.heap e)
  exact ⟨t, ht, hid ▸ h.consistent.heap e, hs⟩

theorem Stands.frame {w w' : TimerWheel τ} {now p : Nat} {t : Timer τ} (h : Stands w now p t)
    (hh : w'.heap p = w.heap p) (hw : ∀ i, p ∈ w'.wheel i ↔ p ∈ w.wheel i) : Stands w' now p t where
  task := hh.trans h.task
  delay := h.delay
  armed := h.armed
  ahead := h.ahead
  last := (hw _).mpr h.last
  earlier k hk hk' hm := h.earlier k hk hk' ((hw _).mp hm)

/-! ## The operations -/

/-- `_tick + delay` is an `int` whatever the tick. -/
def Fits (delay : UInt32) : Prop := 59 + delay.toNat ≤ 2147483647

theorem slot_unsigned (now : Nat) {d : Nat} (hd : 59 + d ≤ 2147483647) :
    (now % 60 % 4294967296 + d) % 4294967296 % 60 = (now + d) % 60 := by
  omega

theorem slot_signed (now d : Nat) :
    Int.tmod ((now % 60 : Nat) + (d : Int)) (60 : Nat) = ((now + d) % 60 : Nat) := by
  rw [Int.tmod_eq_emod_of_nonneg (by omega)]
  omega

theorem bmod_eq {d : Nat} (hd : 59 + d ≤ 2147483647) : Int.bmod d 4294967296 = d := by
  rw [Int.bmod_def]
  split <;> omega

theorem fits_of_le {delay : UInt32} (hd : delay.toNat ≤ 60) : Fits delay := by
  unfold Fits
  omega

theorem addPos_eq {w : TimerWheel τ} {now : Nat} {delay : UInt32} (hc : w.capacity = 60)
    (ht : w.tick = now % 60) (hd : Fits delay) : w.addPos delay = (now + delay.toNat) % 60 := by
  rw [addPos, hc, ht, UInt32.toNat_mod, UInt32.toNat_add, UInt32.toNat_ofNat', UInt32.toNat_ofNat',
    slot_unsigned now hd]

theorem refreshPos_eq {w : TimerWheel τ} {now : Nat} {delay : UInt32} (hc : w.capacity = 60)
    (ht : w.tick = now % 60) (hd : Fits delay) :
    w.refreshPos delay = some ((now + delay.toNat) % 60) := by
  have h₁ : ¬ (2147483647 : Int) < (now % 60 : Nat) + (delay.toNat : Int) := by
    unfold Fits at hd
    omega
  have h₂ : ¬ ((now + delay.toNat) % 60 : Nat) < (0 : Int) := by omega
  unfold refreshPos
  simp only [bmod_eq hd, ht, hc, slot_signed, h₁, h₂, if_false, Int.toNat_natCast]

theorem timerAdd_tracks {w : TimerWheel τ} {S : Registry τ} (h : Tracks w S) {id : UInt64}
    {delay : UInt32} (cb : τ) (hn : w.hasTimer id = false) (h₁ : 1 ≤ delay.toNat)
    (h₂ : delay.toNat ≤ 60) :
    Tracks (w.timerAddInLoop id delay cb) (Op.spec S (.timerAdd id delay cb)).1 := by
  have hpos := addPos_eq h.capacity h.tick (fits_of_le h₂)
  have hid : w.timers id = none := by
    rw [hasTimer] at hn
    exact Option.not_isSome_iff_eq_none.mp (by rw [hn]; decide)
  have hnext : w.heap w.next = none := heap_next h.fresh
  have hold : ∀ p, w.heap p ≠ none → p ≠ w.next := fun p hp e => hp (e ▸ hnext)
  refine ⟨h.capacity, h.tick, h.consistent.timerAdd delay cb hid hnext, ?_, ?_, ?_, ?_, ?_⟩
  · intro p hp
    show p < w.next + 1
    by_cases e : p = w.next
    · omega
    · rw [heap_timerAdd e] at hp
      have := h.fresh hp
      omega
  · intro i p hp
    rcases mem_timerAdd.mp hp with hp | ⟨rfl, rfl⟩
    · exact ⟨(h.refs hp).1, heap_timerAdd_ne_none (.inl (h.refs hp).2)⟩
    · rw [hpos]
      exact ⟨Nat.mod_lt _ (by decide), heap_timerAdd_ne_none (.inr rfl)⟩
  · refine List.nodup_cons.mpr ⟨fun hm => ?_, h.nodup⟩
    obtain ⟨t, ht, e⟩ := List.mem_map.mp hm
    exact absurd ((h.hasTimer id).mpr ⟨t, ht, e⟩) (by rw [hn]; decide)
  · intro t ht
    rcases List.mem_cons.mp ht with rfl | ht
    · refine ⟨w.next, timers_timerAdd_self, heap_timerAdd_next, ⟨h₁, h₂⟩, Nat.le_refl _, ?_,
        mem_timerAdd.mpr (.inr ⟨hpos.symm, rfl⟩), fun k hk hk' hm => ?_⟩
      · show S.now < S.now + delay.toNat
        omega
      · rcases mem_timerAdd.mp hm with hm | ⟨hm, -⟩
        · exact absurd hnext (h.refs hm).2
        · show k ≤ S.now + delay.toNat
          rw [hpos] at hm
          simp only [Op.spec] at hk hk'
          omega
    · obtain ⟨p, hp, hs⟩ := h.timer t ht
      have hpn : p ≠ w.next := hold p (by rw [hs.task]; exact Option.some_ne_none _)
      have hne : t.id ≠ id := fun e => by rw [e, hid] at hp; cases hp
      refine ⟨p, (timers_timerAdd hne).trans hp, hs.frame (heap_timerAdd hpn) fun i => ?_⟩
      rw [mem_timerAdd]
      exact ⟨fun hm => hm.resolve_right fun e => hpn e.2, .inl⟩
  · intro id' hr
    by_cases e : id' = id
    · exact ⟨_, List.mem_cons_self, e.symm⟩
    · rw [timers_timerAdd e] at hr
      obtain ⟨t, ht, e'⟩ := h.registered hr
      exact ⟨t, List.mem_cons_of_mem _ ht, e'⟩

theorem mem_modify {S : Registry τ} {id : UInt64} {f : Timer τ → Timer τ} {u : Timer τ}
    (hu : u ∈ (S.modify id f).timers) :
    ∃ t ∈ S.timers, (t.id = id ∧ u = f t) ∨ (t.id ≠ id ∧ u = t) := by
  obtain ⟨t, ht, rfl⟩ := List.mem_map.mp hu
  by_cases e : t.id = id
  · exact ⟨t, ht, .inl ⟨e, if_pos e⟩⟩
  · exact ⟨t, ht, .inr ⟨e, if_neg e⟩⟩

theorem mem_modify_of_mem {S : Registry τ} (id : UInt64) (f : Timer τ → Timer τ)
    (hf : ∀ t, (f t).id = t.id) {t : Timer τ} (ht : t ∈ S.timers) :
    ∃ u ∈ (S.modify id f).timers, u.id = t.id := by
  refine ⟨_, List.mem_map_of_mem ht, ?_⟩
  split
  · exact hf t
  · rfl

theorem modify_ids (S : Registry τ) (id : UInt64) (f : Timer τ → Timer τ)
    (hf : ∀ t, (f t).id = t.id) : (S.modify id f).timers.map Timer.id = S.timers.map Timer.id := by
  rw [Registry.modify, List.map_map]
  refine List.map_congr_left fun t _ => ?_
  show (if t.id = id then f t else t).id = t.id
  split
  · exact hf t
  · rfl

theorem modify_of_not_mem {S : Registry τ} {id : UInt64} (f : Timer τ → Timer τ)
    (h : ∀ t ∈ S.timers, t.id ≠ id) : S.modify id f = S := by
  have hm : (S.timers.map fun t => if t.id = id then f t else t) = S.timers := by
    conv => rhs; rw [← List.map_id S.timers]
    exact List.map_congr_left fun t ht => if_neg (h t ht)
  rw [Registry.modify, hm]

/-- Nothing is registered under an id that no timer has. -/
theorem Tracks.not_mem {w : TimerWheel τ} {S : Registry τ} (h : Tracks w S) {id : UInt64}
    (hid : w.timers id = none) : ∀ t ∈ S.timers, t.id ≠ id := by
  rintro t ht rfl
  obtain ⟨p, hp, -⟩ := h.timer t ht
  rw [hid] at hp; cases hp

/-- Timers with different ids have different tasks. -/
theorem Stands.ne {w : TimerWheel τ} {now p q : Nat} {t u : Timer τ} (ht : Stands w now p t)
    (hu : Stands w now q u) (e : t.id ≠ u.id) : p ≠ q := by
  rintro rfl
  have := ht.task.symm.trans hu.task
  simp only [Option.some.injEq, TimerTask.mk.injEq] at this
  exact e this.1

theorem timerRefresh_tracks {w : TimerWheel τ} {S : Registry τ} (h : Tracks w S) (id : UInt64) :
    ∃ w', w.timerRefreshInLoop id = some w' ∧ Tracks w' (Op.spec S (.timerRefresh id)).1 := by
  cases hid : w.timers id with
  | none =>
    exact ⟨w, by rw [timerRefreshInLoop, hid], by rw [Op.spec, modify_of_not_mem _ (h.not_mem hid)]; exact h⟩
  | some p =>
    obtain ⟨t₀, ht₀, rfl, hs₀⟩ := h.of_registered hid
    have hpos := refreshPos_eq h.capacity h.tick (fits_of_le hs₀.delay.2)
    have hd := hs₀.delay
    refine ⟨w.pushRef ((S.now + t₀.delay.toNat) % 60) p, ?_, h.capacity, h.tick,
      ⟨h.consistent.timers, h.consistent.heap⟩, h.fresh, ?_, ?_, ?_, ?_⟩
    · exact timerRefreshInLoop_eq hid hs₀.task hpos
    · intro i r hr
      rcases mem_pushRef.mp hr with hr | ⟨rfl, rfl⟩
      · exact h.refs hr
      · exact ⟨Nat.mod_lt _ (by decide), by
          rw [heap_pushRef, hs₀.task]; exact Option.some_ne_none _⟩
    · exact modify_ids S t₀.id (fun t => { t with armed := S.now }) (fun _ => rfl) ▸ h.nodup
    · intro u hu
      obtain ⟨t, ht, ⟨e, rfl⟩ | ⟨e, rfl⟩⟩ := mem_modify hu
      · obtain rfl := h.timer_unique ht ht₀ e
        refine ⟨p, hid, hs₀.task, hd, Nat.le_refl _, ?_, mem_pushRef.mpr (.inr ⟨rfl, rfl⟩),
          fun k hk hk' hm => ?_⟩
        · show S.now < S.now + t.delay.toNat
          omega
        · show k ≤ S.now + t.delay.toNat
          change S.now < k at hk
          change k ≤ S.now + 60 at hk'
          rcases mem_pushRef.mp hm with hm | ⟨hm, -⟩
          · have := hs₀.earlier k hk hk' hm
            have := hs₀.armed
            rw [Timer.deadline] at *
            omega
          · omega
      · obtain ⟨r, hr, hs⟩ := h.timer u ht
        refine ⟨r, hr, hs.frame rfl fun i => ?_⟩
        rw [mem_pushRef]
        exact ⟨fun hm => hm.resolve_right fun e' => hs.ne hs₀ e e'.2, .inl⟩
    · intro id' hr
      obtain ⟨t, ht, rfl⟩ := h.registered hr
      exact mem_modify_of_mem t₀.id (fun t => { t with armed := S.now }) (fun _ => rfl) ht

theorem timerCancel_tracks {w : TimerWheel τ} {S : Registry τ} (h : Tracks w S) (id : UInt64) :
    Tracks (w.timerCancelInLoop id) (Op.spec S (.timerCancel id)).1 := by
  cases hid : w.timers id with
  | none =>
    rw [timerCancelInLoop, hid, Op.spec, modify_of_not_mem _ (h.not_mem hid)]
    exact h
  | some p =>
    obtain ⟨t₀, ht₀, rfl, hs₀⟩ := h.of_registered hid
    have hw : w.timerCancelInLoop t₀.id = { w with
        heap := Function.update w.heap p (some ⟨t₀.id, t₀.delay, true, t₀.cb⟩) } :=
      timerCancelInLoop_eq hid hs₀.task
    have hp : w.heap p ≠ none := by rw [hs₀.task]; exact Option.some_ne_none _
    have halive : ∀ q, Function.update w.heap p (some (⟨t₀.id, t₀.delay, true, t₀.cb⟩ : TimerTask τ)) q ≠
        none ↔ w.heap q ≠ none := by
      intro q
      by_cases e : q = p
      · subst e; simp [hp]
      · rw [Function.update_of_ne e]
    rw [hw]
    refine ⟨h.capacity, h.tick, ⟨?_, ?_⟩, fun hq => h.fresh ((halive _).mp hq),
      fun hq => ⟨(h.refs hq).1, (halive _).mpr (h.refs hq).2⟩, ?_, ?_, ?_⟩
    · intro id' q hq
      obtain ⟨qt, hqt, rfl⟩ := h.consistent.timers hq
      by_cases e : q = p
      · subst e
        rw [hs₀.task] at hqt; cases hqt
        exact ⟨_, Function.update_self .., rfl⟩
      · exact ⟨qt, (Function.update_of_ne e ..).trans hqt, rfl⟩
    · intro q qt hq
      by_cases e : q = p
      · subst e
        cases (Function.update_self ..).symm.trans hq
        exact hid
      · exact h.consistent.heap ((Function.update_of_ne e ..).symm.trans hq)
    · exact modify_ids S t₀.id (fun t => { t with canceled := true }) (fun _ => rfl) ▸ h.nodup
    · intro u hu
      obtain ⟨t, ht, ⟨e, rfl⟩ | ⟨e, rfl⟩⟩ := mem_modify hu
      · obtain rfl := h.timer_unique ht ht₀ e
        exact ⟨p, hid, Function.update_self .., hs₀.delay, hs₀.armed, hs₀.ahead, hs₀.last, hs₀.earlier⟩
      · obtain ⟨r, hr, hs⟩ := h.timer u ht
        exact ⟨r, hr, hs.frame (Function.update_of_ne (hs.ne hs₀ e) ..) fun _ => Iff.rfl⟩
    · intro id' hr
      obtain ⟨t, ht, rfl⟩ := h.registered hr
      exact mem_modify_of_mem t₀.id (fun t => { t with canceled := true }) (fun _ => rfl) ht

/-! ## A tick -/

theorem Tracks.hand {w : TimerWheel τ} {S : Registry τ} (h : Tracks w S) :
    (w.tick + 1) % w.capacity = (S.now + 1) % 60 := by
  rw [h.capacity, h.tick]
  omega

theorem Tracks.runTimerTask_eq {w : TimerWheel τ} {S : Registry τ} (h : Tracks w S) :
    w.runTimerTask = (w.advanced.without w.due, w.due.filterMap w.callback) :=
  TimerWheel.runTimerTask_eq h.consistent fun _ hp => (h.refs hp).2

theorem mem_advanced {w : TimerWheel τ} {S : Registry τ} (h : Tracks w S) {i p : Nat} :
    p ∈ w.advanced.wheel i ↔ i ≠ (S.now + 1) % 60 ∧ p ∈ w.wheel i := by
  rw [advanced, h.hand]
  by_cases e : i = (S.now + 1) % 60
  · simp [e]
  · simp [e]

/-- A task is destroyed by the tick that reaches its timer's deadline. -/
theorem Tracks.mem_due {w : TimerWheel τ} {S : Registry τ} (h : Tracks w S) {p : Nat} :
    p ∈ w.due ↔ ∃ t ∈ S.timers, w.timers t.id = some p ∧ t.deadline = S.now + 1 := by
  have hheld : w.advanced.held p = true ↔ ∃ i < 60, i ≠ (S.now + 1) % 60 ∧ p ∈ w.wheel i := by
    rw [held_iff, show w.advanced.capacity = 60 from h.capacity]
    exact ⟨fun ⟨i, hi, hm⟩ => ⟨i, hi, (mem_advanced h).mp hm⟩,
      fun ⟨i, hi, hm⟩ => ⟨i, hi, (mem_advanced h).mpr hm⟩⟩
  rw [due, h.hand, List.mem_filter, List.mem_dedup, Bool.not_eq_true', ← Bool.not_eq_true, hheld]
  constructor
  · rintro ⟨hm, hn⟩
    obtain ⟨t, ht, hp, hs⟩ := h.of_alive (h.refs hm).2
    refine ⟨t, ht, hp, ?_⟩
    by_contra hne
    have h₁ := hs.ahead; have h₂ := hs.armed; have h₃ := hs.delay
    refine hn ⟨t.deadline % 60, Nat.mod_lt _ (by decide), ?_, hs.last⟩
    rw [Timer.deadline] at *
    omega
  · rintro ⟨t, ht, hp, hd⟩
    obtain ⟨q, hq, hs⟩ := h.timer t ht
    obtain rfl : q = p := Option.some.inj (hq.symm.trans hp)
    refine ⟨hd ▸ hs.last, ?_⟩
    rintro ⟨i, hi, hne, hm⟩
    have hk : (S.now + 1 + (i + 60 - (S.now + 1) % 60) % 60) % 60 = i := by omega
    have := hs.earlier (S.now + 1 + (i + 60 - (S.now + 1) % 60) % 60) (by omega) (by omega) (by rwa [hk])
    omega

theorem runTimerTask_tracks {w : TimerWheel τ} {S : Registry τ} (h : Tracks w S) :
    Tracks (w.advanced.without w.due) (Op.spec S .runTimerTask).1 := by
  have hheap : ∀ {p}, (w.advanced.without w.due).heap p ≠ none ↔ p ∉ w.due ∧ w.heap p ≠ none := by
    intro p
    show (if p ∈ w.due then none else w.heap p) ≠ none ↔ _
    by_cases e : p ∈ w.due <;> simp [e]
  have htimers : ∀ {id p}, (w.advanced.without w.due).timers id = some p ↔
      w.timers id = some p ∧ p ∉ w.due := by
    intro id p
    show (w.timers id).filter (· ∉ w.due) = some p ↔ _
    rw [Option.filter_eq_some_iff, decide_eq_true_eq]
  have hkept : ∀ {t p}, t ∈ S.timers → w.timers t.id = some p → t.deadline ≠ S.now + 1 → p ∉ w.due := by
    intro t p ht hp hd hm
    obtain ⟨u, hu, hpu, hdu⟩ := h.mem_due.mp hm
    obtain ⟨v, hv, e, -⟩ := h.of_registered hp
    obtain ⟨q, hq, hs⟩ := h.timer t ht
    obtain ⟨r, hr, hs'⟩ := h.timer u hu
    obtain rfl : q = p := Option.some.inj (hq.symm.trans hp)
    obtain rfl : r = q := Option.some.inj (hr.symm.trans hpu)
    have hid : t.id = u.id := by_contra fun hne => hs.ne hs' hne rfl
    exact hd (h.timer_unique ht hu hid ▸ hdu)
  have hnow : ∀ {t}, t ∈ (Op.spec S .runTimerTask).1.timers ↔ t ∈ S.timers ∧ t.deadline ≠ S.now + 1 := by
    intro t
    simp [Op.spec, List.mem_filter]
  have hc : Consistent w.advanced := ⟨h.consistent.timers, h.consistent.heap⟩
  refine ⟨h.capacity, h.hand, hc.without _,
    fun hp => h.fresh (hheap.mp hp).2, ?_, ?_, ?_, ?_⟩
  · intro i p hp
    obtain ⟨hne, hm⟩ := (mem_advanced h).mp hp
    obtain ⟨hi, ha⟩ := h.refs hm
    refine ⟨hi, hheap.mpr ⟨fun hd => ?_, ha⟩⟩
    rw [due, List.mem_filter, Bool.not_eq_true', ← Bool.not_eq_true, held_iff] at hd
    exact hd.2 ⟨i, by rw [show w.advanced.capacity = 60 from h.capacity]; exact hi, hp⟩
  · exact h.nodup.sublist (List.filter_sublist.map _)
  · intro t ht
    obtain ⟨ht, hd⟩ := hnow.mp ht
    obtain ⟨p, hp, hs⟩ := h.timer t ht
    have h₁ := hs.ahead; have h₂ := hs.armed; have h₃ := hs.delay
    have hn := hkept ht hp hd
    refine ⟨p, htimers.mpr ⟨hp, hn⟩, (if_neg hn).trans hs.task, hs.delay, Nat.le_succ_of_le hs.armed,
      ?_, (mem_advanced h).mpr ⟨?_, hs.last⟩, fun k hk hk' hm => ?_⟩
    · show S.now + 1 < t.deadline
      omega
    · rw [Timer.deadline] at *
      omega
    · change S.now + 1 < k at hk
      change k ≤ S.now + 1 + 60 at hk'
      obtain ⟨hne, hm⟩ := (mem_advanced h).mp hm
      exact hs.earlier k (by omega) (by omega) hm
  · intro id hr
    obtain ⟨p, hp⟩ := Option.ne_none_iff_exists'.mp hr
    obtain ⟨hp, hn⟩ := htimers.mp hp
    obtain ⟨t, ht, rfl, hs⟩ := h.of_registered hp
    exact ⟨t, hnow.mpr ⟨ht, fun hd => hn (h.mem_due.mpr ⟨t, ht, hp, hd⟩)⟩, rfl⟩

/-- The callbacks a tick runs are those of the timers whose deadline it is. -/
theorem runTimerTask_fired {w : TimerWheel τ} {S : Registry τ} (h : Tracks w S) :
    (w.runTimerTask.2.map fun t => (t.id, t.taskCb)).Perm (Op.spec S .runTimerTask).2 := by
  have hcb : ∀ {p pt}, w.callback p = some pt ↔ w.heap p = some pt ∧ pt.canceled = false := by
    intro p pt
    rw [callback]
    cases w.heap p with
    | none => simp
    | some qt =>
      cases hc : qt.canceled with
      | true => simp [hc]; rintro rfl; exact hc
      | false => simp [hc]; rintro rfl; exact hc
  rw [h.runTimerTask_eq]
  refine (List.perm_ext_iff_of_nodup ?_ ?_).mpr ?_
  · refine List.Nodup.of_map Prod.fst ?_
    rw [List.map_map]
    refine List.Nodup.map_on ?_ (((List.nodup_dedup _).filter _).filterMap ?_)
    · intro a ha b hb e
      obtain ⟨p, -, hp⟩ := List.mem_filterMap.mp ha
      obtain ⟨q, -, hq⟩ := List.mem_filterMap.mp hb
      have ep := h.consistent.heap (hcb.mp hp).1
      have eq := h.consistent.heap (hcb.mp hq).1
      rw [show a.id = b.id from e, eq] at ep
      obtain rfl : q = p := Option.some.inj ep
      exact Option.some.inj (hp.symm.trans hq)
    · intro p q pt hp hq
      have ep := h.consistent.heap (hcb.mp hp).1
      rw [h.consistent.heap (hcb.mp hq).1] at ep
      exact (Option.some.inj ep).symm
  · refine List.Nodup.of_map Prod.fst ?_
    rw [Op.spec, List.map_map]
    exact h.nodup.sublist (List.filter_sublist.map _)
  · rintro ⟨id, cb⟩
    simp only [Op.spec, List.mem_map, List.mem_filterMap, List.mem_filter, decide_eq_true_eq,
      Prod.mk.injEq]
    constructor
    · rintro ⟨pt, ⟨p, hm, hp⟩, rfl, rfl⟩
      obtain ⟨t, ht, hr, hd⟩ := h.mem_due.mp hm
      obtain ⟨q, hq, hs⟩ := h.timer t ht
      obtain rfl : q = p := Option.some.inj (hq.symm.trans hr)
      obtain ⟨hp, hc⟩ := hcb.mp hp
      obtain rfl := Option.some.inj (hs.task.symm.trans hp)
      exact ⟨t, ⟨ht, hd, hc⟩, rfl, rfl⟩
    · rintro ⟨t, ⟨ht, hd, hc⟩, rfl, rfl⟩
      obtain ⟨p, hp, hs⟩ := h.timer t ht
      exact ⟨_, ⟨p, h.mem_due.mpr ⟨t, ht, hp, hd⟩, hcb.mpr ⟨hs.task, hc⟩⟩, rfl, rfl⟩

/-! ## Runs -/

theorem exec_tracks {w : TimerWheel τ} {S : Registry τ} (h : Tracks w S) {op : Op τ}
    (hp : op.Pre w) : ∃ w' ran, op.exec w = some (w', ran) ∧ Tracks w' (op.spec S).1 ∧
      ran.Perm (op.spec S).2 := by
  cases op with
  | timerAdd id delay cb =>
    exact ⟨_, _, rfl, timerAdd_tracks h cb hp.1 hp.2.1 (h.capacity ▸ hp.2.2), .refl _⟩
  | timerRefresh id =>
    obtain ⟨w', e, hw⟩ := timerRefresh_tracks h id
    exact ⟨w', [], by rw [Op.exec, e]; rfl, hw, .refl _⟩
  | timerCancel id => exact ⟨_, _, rfl, timerCancel_tracks h id, .refl _⟩
  | runTimerTask =>
    refine ⟨w.runTimerTask.1, _, rfl, ?_, runTimerTask_fired h⟩
    rw [h.runTimerTask_eq]
    exact runTimerTask_tracks h

theorem run_tracks (ops : List (Op τ)) : ∀ {w : TimerWheel τ} {S : Registry τ}, Tracks w S →
    Permitted ops w → ∃ w' ran, run ops w = some (w', ran) ∧ Tracks w' (specRun ops S).1 ∧
      List.Forall₂ List.Perm ran (specRun ops S).2 := by
  induction ops with
  | nil => exact fun h _ => ⟨_, _, rfl, h, .nil⟩
  | cons op ops ih =>
    intro w S h hp
    obtain ⟨w₁, ran, e₁, h₁, hr⟩ := exec_tracks h hp.1
    obtain ⟨w₂, rest, e₂, h₂, hrest⟩ := ih h₁ (hp.2 _ _ e₁)
    refine ⟨w₂, ran :: rest, ?_, h₂, .cons hr hrest⟩
    simp only [run, e₁, e₂, Option.bind_eq_bind, Option.bind_some]

/-- Every run of a new wheel runs, operation by operation, the callbacks of
the registry's timers that are due and not cancelled, each once; and
`HasTimer` holds of the ids in the registry. -/
theorem timerWheel_exact (ops : List (Op τ)) (hp : Permitted ops new) :
    ∃ w ran, run ops new = some (w, ran) ∧ List.Forall₂ List.Perm ran (specRun ops ⟨0, []⟩).2 ∧
      ∀ id, w.hasTimer id = true ↔ ∃ t ∈ (specRun ops ⟨0, []⟩).1.timers, t.id = id := by
  obtain ⟨w, ran, e, h, hr⟩ := run_tracks ops new_tracks hp
  exact ⟨w, ran, e, hr, h.hasTimer⟩

/-- A delay of two ticks, refreshed after the first: it fires at the third. -/
theorem timerWheel_exact_refreshed : ∃ w ran,
    run [.timerAdd 888 2 (), .runTimerTask, .timerRefresh 888, .runTimerTask, .runTimerTask] new =
      some (w, ran) ∧ List.Forall₂ List.Perm ran [[], [], [], [], [(888, ())]] ∧
      ∀ id, w.hasTimer id = true ↔ ∃ t ∈ ([] : List (Timer Unit)), t.id = id :=
  timerWheel_exact
    [.timerAdd 888 2 (), .runTimerTask, .timerRefresh 888, .runTimerTask, .runTimerTask]
    ⟨⟨rfl, by decide, by decide⟩, fun _ _ _ => ⟨trivial, fun _ _ _ => ⟨trivial, fun _ _ _ =>
      ⟨trivial, fun _ _ _ => ⟨trivial, fun _ _ _ => trivial⟩⟩⟩⟩⟩

end Mudou.TimerWheel
