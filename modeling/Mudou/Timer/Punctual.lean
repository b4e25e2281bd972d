import Mudou.Timer.Denotes

/-!
# No timer fires early

The wheel under any operations and any delays, with the tick of each task's
last add or refresh. The slots are computed in unsigned arithmetic by
`TimerAddInLoop` and in an `int` by `TimerRefreshInLoop`; they agree where the
sum is an `int` (`Fits`). The wheel has `_capacity` slots, and that is its
greatest delay: nothing counts the turns of a longer one, of which `lap` is
left.

`throughout_punctual`: over every run, no task fires before its `lap` has
passed since its last add or refresh.
-/

namespace Mudou.TimerWheel

variable {τ : Type}

/-- The ticks of a delay that the wheel counts: the delay itself up to
`_capacity`, and what whole turns leave of a longer one. -/
def lap (delay : UInt32) : Nat :=
  if delay.toNat ≤ 60 then delay.toNat else (delay.toNat - 1) % 60 + 1

structure Timed (τ : Type) where
  wheel : TimerWheel τ
  /-- the number of ticks so far -/
  now : Nat
  /-- the number of ticks before the last add or refresh of a task -/
  armed : Nat → Nat

def Timed.new : Timed τ := ⟨TimerWheel.new, 0, fun _ => 0⟩

def Op.now (s : Timed τ) : Op τ → Nat
  | .runTimerTask => s.now + 1
  | _ => s.now

def Op.armed (s : Timed τ) : Op τ → Nat → Nat
  | .timerAdd _ _ _ => Function.update s.armed s.wheel.next s.now
  | .timerRefresh id =>
    match s.wheel.timers id with
    | none => s.armed
    | some p => Function.update s.armed p s.now
  | _ => s.armed

def Timed.next (s : Timed τ) (op : Op τ) (s' : Timed τ) : Prop :=
  (∃ ran, op.exec s.wheel = some (s'.wheel, ran)) ∧ s'.now = op.now s ∧ s'.armed = op.armed s

/-- What holds before each operation, whichever it is: an add and a refresh
with the same delay take the same slot, and the next tick runs the callbacks
of the tasks it destroys, none of them early. -/
structure Timed.Punctual (s : Timed τ) : Prop where
  slots {delay} : Fits delay → s.wheel.addPos delay < s.wheel.capacity ∧
    s.wheel.refreshPos delay = some (s.wheel.addPos delay)
  refresh {id} : (∀ p pt, s.wheel.timers id = some p → s.wheel.heap p = some pt → Fits pt.timeout) →
    s.wheel.timerRefreshInLoop id ≠ none
  ran : s.wheel.runTimerTask.2 = s.wheel.due.filterMap s.wheel.callback
  due {p pt} : p ∈ s.wheel.due → s.wheel.callback p = some pt → Fits pt.timeout →
    s.armed p + lap pt.timeout ≤ s.now + 1

theorem lap_mod (delay : UInt32) (now : Nat) : (now + delay.toNat) % 60 = (now + lap delay) % 60 := by
  rw [lap]
  split <;> omega

theorem lap_le (delay : UInt32) : lap delay ≤ 60 := by
  rw [lap]
  split <;> omega

theorem callback_eq {w : TimerWheel τ} {p : Nat} {pt : TimerTask τ} (h : w.callback p = some pt) :
    w.heap p = some pt := by
  obtain ⟨qt, hq, e⟩ := Option.bind_eq_some_iff.mp h
  split at e
  · cases e
  · obtain rfl := Option.some.inj e
    exact hq

/-- Every destroyed task runs its callback once, unless it was cancelled. -/
theorem ran_destroyAll (ps : List Nat) : ∀ {w : TimerWheel τ}, ps.Nodup →
    (destroyAll ps w).2 = ps.filterMap w.callback := by
  induction ps with
  | nil => exact fun _ => rfl
  | cons p ps ih =>
    intro w hd
    obtain ⟨hp, hd⟩ := List.nodup_cons.mp hd
    have hc : (w.destroy p).2 = w.callback p := by
      rw [destroy, callback]
      cases w.heap p <;> rfl
    have hr : ps.filterMap (w.destroy p).1.callback = ps.filterMap w.callback := by
      refine List.filterMap_congr fun q hq => ?_
      have hne : q ≠ p := fun e => hp (e ▸ hq)
      rw [callback, callback, heap_destroy, Function.update_of_ne hne]
    show (w.destroy p).2.toList ++ (destroyAll ps (w.destroy p).1).2 = _
    rw [ih hd, hc, hr, List.filterMap_cons]
    cases w.callback p <;> rfl

namespace Timed

/-! ## The invariant -/

/-- Until its lap has passed, a task is in the slot where it ends. -/
structure Inv (s : Timed τ) : Prop where
  sound : ∃ newest, (Noted.mk s.wheel newest).Sound
  tick : s.wheel.tick = s.now % 60
  armed (p) : s.armed p ≤ s.now
  ahead {p pt} : s.wheel.heap p = some pt → Fits pt.timeout → s.now < s.armed p + lap pt.timeout →
    p ∈ s.wheel.wheel ((s.armed p + lap pt.timeout) % 60)

theorem new_inv : (new : Timed τ).Inv where
  sound := ⟨fun _ => none, Noted.new_sound⟩
  tick := rfl
  armed _ := Nat.le_refl _
  ahead h := (Option.some_ne_none _ h.symm).elim

variable {s s' : Timed τ}

theorem Inv.capacity (h : s.Inv) : s.wheel.capacity = 60 := by
  obtain ⟨_, hs⟩ := h.sound
  exact hs.capacity

theorem Inv.armed_update (h : s.Inv) (q p : Nat) : Function.update s.armed q s.now p ≤ s.now := by
  by_cases e : p = q
  · exact Nat.le_of_eq (by rw [e, Function.update_self])
  · rw [Function.update_of_ne e]
    exact h.armed p

/-- A task whose lap has not passed survives the next tick. -/
theorem Inv.not_due (h : s.Inv) {p : Nat} {pt : TimerTask τ} (hp : s.wheel.heap p = some pt)
    (hf : Fits pt.timeout) (hlt : s.now + 1 < s.armed p + lap pt.timeout) : p ∉ s.wheel.due := by
  obtain ⟨_, hs⟩ := h.sound
  have hm := h.ahead hp hf (by omega)
  have hle := lap_le pt.timeout
  have ha := h.armed p
  rw [← hs.held_advanced (by rw [hp]; exact Option.some_ne_none _), held_iff]
  refine ⟨_, h.capacity ▸ (hs.refs hm).1, mem_wheel_advanced.mpr ⟨?_, hm⟩⟩
  rw [h.capacity, h.tick]
  omega

theorem Inv.punctual (h : s.Inv) : s.Punctual where
  slots hf := by
    rw [addPos_eq h.capacity h.tick hf, refreshPos_eq h.capacity h.tick hf, h.capacity]
    exact ⟨Nat.mod_lt _ (by decide), rfl⟩
  refresh {id} hf := by
    obtain ⟨_, hs⟩ := h.sound
    cases hid : s.wheel.timers id with
    | none =>
      rw [timerRefreshInLoop, hid]
      exact Option.some_ne_none _
    | some p =>
      obtain ⟨-, pt, hpt, -⟩ := hs.registered hid
      have hpos := refreshPos_eq h.capacity h.tick (hf p pt hid hpt)
      rw [timerRefreshInLoop_eq hid hpt hpos]
      exact Option.some_ne_none _
  ran := by
    rw [runTimerTask_destroyAll]
    exact ran_destroyAll _ ((List.nodup_dedup _).filter _)
  due {p pt} hp hc hf := by
    by_contra hlt
    exact h.not_due (callback_eq hc) hf (by omega) hp

/-! ## One operation -/

theorem Inv.timerAdd (h : s.Inv) (id : UInt64) (delay : UInt32) (cb : τ) :
    Inv ⟨s.wheel.timerAddInLoop id delay cb, s.now, Function.update s.armed s.wheel.next s.now⟩ := by
  obtain ⟨newest, hs⟩ := h.sound
  refine ⟨⟨_, hs.timerAdd id delay cb⟩, h.tick, h.armed_update _, fun {p pt} hp hf hlt => ?_⟩
  · show p ∈ (s.wheel.timerAddInLoop id delay cb).wheel
      ((Function.update s.armed s.wheel.next s.now p + lap pt.timeout) % 60)
    change (s.wheel.timerAddInLoop id delay cb).heap p = some pt at hp
    change s.now < Function.update s.armed s.wheel.next s.now p + lap pt.timeout at hlt
    by_cases e : p = s.wheel.next
    · subst e
      obtain rfl := Option.some.inj (heap_timerAdd_next.symm.trans hp)
      rw [Function.update_self]
      exact mem_timerAdd.mpr (.inr ⟨by rw [addPos_eq h.capacity h.tick hf, lap_mod], rfl⟩)
    · rw [heap_timerAdd e] at hp
      rw [Function.update_of_ne e] at hlt ⊢
      exact mem_timerAdd.mpr (.inl (h.ahead hp hf hlt))

theorem Inv.timerRefresh (h : s.Inv) {id : UInt64} {w : TimerWheel τ}
    (e : s.wheel.timerRefreshInLoop id = some w) : Inv ⟨w, s.now, (Op.timerRefresh id).armed s⟩ := by
  obtain ⟨newest, hs⟩ := h.sound
  have hs' := hs.timerRefresh e
  cases hid : s.wheel.timers id with
  | none =>
    rw [timerRefreshInLoop, hid] at e
    obtain rfl := Option.some.inj e
    rw [Op.armed, hid]
    exact h
  | some p =>
    obtain ⟨-, pt, hpt, -⟩ := hs.registered hid
    rw [timerRefreshInLoop, hid] at e
    simp only [show s.wheel.heap p = some pt from hpt] at e
    obtain ⟨pos, hpos, rfl⟩ := Option.map_eq_some_iff.mp e
    rw [Op.armed, hid]
    refine ⟨⟨newest, hs'⟩, h.tick, h.armed_update _, fun {q qt} hq hf hlt => ?_⟩
    · show q ∈ (s.wheel.pushRef pos p).wheel ((Function.update s.armed p s.now q + lap qt.timeout) % 60)
      change s.wheel.heap q = some qt at hq
      change s.now < Function.update s.armed p s.now q + lap qt.timeout at hlt
      by_cases e : q = p
      · subst e
        obtain rfl := Option.some.inj (hpt.symm.trans hq)
        rw [refreshPos_eq h.capacity h.tick hf] at hpos
        rw [Function.update_self, ← lap_mod]
        exact mem_pushRef.mpr (.inr ⟨Option.some.inj hpos, rfl⟩)
      · rw [Function.update_of_ne e] at hlt ⊢
        exact mem_pushRef.mpr (.inl (h.ahead hq hf hlt))

/-- A cancelled task keeps its delay. -/
theorem Inv.timerCancel (h : s.Inv) (id : UInt64) : Inv ⟨s.wheel.timerCancelInLoop id, s.now, s.armed⟩ := by
  obtain ⟨newest, hs⟩ := h.sound
  refine ⟨⟨newest, hs.timerCancel id⟩, ?_, h.armed, fun {q qt} hq hf hlt => ?_⟩
  · rcases Noted.timerCancel_cases s.wheel id with e | ⟨p, pt, -, -, e⟩
    · exact (congrArg TimerWheel.tick e).trans h.tick
    · exact (congrArg TimerWheel.tick e).trans h.tick
  · show q ∈ (s.wheel.timerCancelInLoop id).wheel _
    change (s.wheel.timerCancelInLoop id).heap q = some qt at hq
    rw [(Noted.sameTasks_timerCancel s.wheel id).wheel]
    rcases Noted.timerCancel_cases s.wheel id with e | ⟨p, pt, -, hpt, e⟩
    · exact h.ahead (e ▸ hq) hf hlt
    · rw [e] at hq
      by_cases hqp : q = p
      · subst hqp
        simp only [Function.update_self] at hq
        obtain rfl := Option.some.inj hq
        have ha := h.ahead hpt hf hlt
        exact ha
      · simp only [Function.update_of_ne hqp] at hq
        exact h.ahead hq hf hlt

theorem Inv.runTimerTask (h : s.Inv) : Inv ⟨s.wheel.runTimerTask.1, s.now + 1, s.armed⟩ := by
  obtain ⟨newest, hs⟩ := h.sound
  have hf := frame_destroyAll s.wheel.due s.wheel.advanced
  rw [← runTimerTask_destroyAll] at hf
  obtain ⟨hw, -, -, ht⟩ := hf
  refine ⟨⟨newest, hs.runTimerTask⟩, ht.trans ?_, fun p => Nat.le_succ_of_le (h.armed p),
    fun {p pt} hp hfit hlt => ?_⟩
  · show (s.wheel.tick + 1) % s.wheel.capacity = (s.now + 1) % 60
    rw [h.capacity, h.tick]
    omega
  · show p ∈ s.wheel.runTimerTask.1.wheel _
    change s.wheel.runTimerTask.1.heap p = some pt at hp
    change s.now + 1 < s.armed p + lap pt.timeout at hlt
    rw [Noted.heap_runTimerTask] at hp
    have hp : s.wheel.heap p = some pt := by
      by_cases hd : p ∈ s.wheel.due
      · rw [if_pos hd] at hp
        cases hp
      · rw [if_neg hd] at hp
        exact hp
    have ha := h.armed p
    have hle := lap_le pt.timeout
    rw [hw]
    refine mem_wheel_advanced.mpr ⟨?_, h.ahead hp hfit (by omega)⟩
    show (s.armed p + lap pt.timeout) % 60 ≠ _
    rw [h.capacity, h.tick]
    omega

theorem Inv.next (h : s.Inv) {op : Op τ} (hn : s.next op s') : s'.Inv := by
  obtain ⟨⟨ran, e⟩, en, ea⟩ := hn
  obtain ⟨w', now', armed'⟩ := s'
  obtain rfl : now' = op.now s := en
  obtain rfl : armed' = op.armed s := ea
  have hw := Op.exec_cases e
  cases op with
  | timerAdd id delay cb =>
    obtain rfl : s.wheel.timerAddInLoop id delay cb = w' := hw
    exact h.timerAdd id delay cb
  | timerRefresh id => exact h.timerRefresh hw
  | timerCancel id =>
    obtain rfl : s.wheel.timerCancelInLoop id = w' := hw
    exact h.timerCancel id
  | runTimerTask =>
    obtain rfl : s.wheel.runTimerTask.1 = w' := hw
    exact h.runTimerTask

/-! ## Runs -/

/-- Over every run, with any ids and delays. -/
theorem throughout_punctual (ops : List (Op τ)) : Run.Throughout next Punctual ops new := by
  have hI : ∀ s : Timed τ, s.Inv → s.Punctual := fun _ h => h.punctual
  have hn : ∀ (s : Timed τ) (op : Op τ) (s' : Timed τ), s.Inv → s.next op s' → s'.Inv :=
    fun _ _ _ h hn => h.next hn
  exact Run.throughout_of_inv hI hn ops new new_inv

/-- A delay of 61 ticks: it fires at the first. -/
theorem longDelay_early : ¬ ∀ ops : List (Op Unit), Run.Throughout next (fun s => ∀ p ∈ s.wheel.due,
    ∀ pt, s.wheel.callback p = some pt → s.armed p + pt.timeout.toNat ≤ s.now + 1) ops new := by
  intro h
  have h := h [.timerAdd 7 61 ()]
  obtain ⟨-, h⟩ := h
  have h := h ⟨_, _, _⟩ ⟨⟨_, rfl⟩, rfl, rfl⟩
  exact absurd (h 0 (by decide) _ rfl) (by decide)

end Timed

end Mudou.TimerWheel
