import Mudou.Lib.Run
import Mudou.Timer.Firing

/-!
# Which task an id denotes

The wheel under any operations, with ids added again while they are registered
and with any delay. `newest` is the task most recently added under an id.

`Sound` holds of every run: what is registered is alive and the newest of its
id, and what is alive is held by a slot. A destroyed task takes the
registration of its id with it, whichever task that denotes: so the newest
task stays registered until a tick destroys an older one of its id and leaves
it alive (`Overtakes`).

`denotes_iff_not_overtakes` is the result over every run.
-/

namespace Mudou.TimerWheel

variable {τ : Type}

structure Noted (τ : Type) where
  wheel : TimerWheel τ
  newest : UInt64 → Option Nat

def Noted.new : Noted τ := ⟨TimerWheel.new, fun _ => none⟩

def Op.newest (s : Noted τ) : Op τ → UInt64 → Option Nat
  | .timerAdd id _ _ => Function.update s.newest id (some s.wheel.next)
  | _ => s.newest

def Noted.next (s : Noted τ) (op : Op τ) (s' : Noted τ) : Prop :=
  ∃ ran, op.exec s.wheel = some (s'.wheel, ran) ∧ s'.newest = op.newest s

/-- The registry denotes the newest task of an id while it is alive, and no
task if the slots hold none of the id. -/
structure Noted.Denotes (s : Noted τ) : Prop where
  newest {id p} : s.newest id = some p → s.wheel.heap p ≠ none → s.wheel.timers id = some p
  absent {id} : (∀ p pt, s.wheel.held p = true → s.wheel.heap p = some pt → pt.id ≠ id) →
    s.wheel.hasTimer id = false

/-- The next tick destroys a task whose id has a newer one that stays. -/
def Noted.Overtakes (s : Noted τ) : Prop :=
  ∃ p q pt, s.newest pt.id = some p ∧ s.wheel.heap p ≠ none ∧ p ∉ s.wheel.due ∧
    q ∈ s.wheel.due ∧ s.wheel.heap q = some pt

theorem Op.exec_cases {w w' : TimerWheel τ} {op : Op τ} {ran : List (UInt64 × τ)}
    (e : op.exec w = some (w', ran)) :
    match op with
    | .timerAdd id delay cb => w.timerAddInLoop id delay cb = w'
    | .timerRefresh id => w.timerRefreshInLoop id = some w'
    | .timerCancel id => w.timerCancelInLoop id = w'
    | .runTimerTask => w.runTimerTask.1 = w' := by
  cases op with
  | timerRefresh id =>
    obtain ⟨w₁, hw, ew⟩ := Option.map_eq_some_iff.mp e
    obtain rfl : w₁ = w' := congrArg Prod.fst ew
    exact hw
  | timerAdd | timerCancel | runTimerTask => exact congrArg Prod.fst (Option.some.inj e)

/-! ## What a tick destroys -/

theorem timers_destroy {w : TimerWheel τ} {p r : Nat} {id : UInt64} : (w.destroy p).1.timers id = some r ↔
    w.timers id = some r ∧ ∀ pt, w.heap p = some pt → pt.id ≠ id := by
  rw [destroy]
  cases w.heap p with
  | none => simp
  | some pt =>
    by_cases hid : pt.id = id
    · subst hid
      simp [removeTimer]
    · simp [removeTimer, hid, Function.update_of_ne (Ne.symm hid)]

theorem heap_destroy (w : TimerWheel τ) (p : Nat) : (w.destroy p).1.heap = Function.update w.heap p none := by
  rw [destroy]
  cases e : w.heap p with
  | none => exact (Function.update_eq_self_iff.mpr e.symm).symm
  | some pt => rfl

theorem heap_destroyAll (ps : List Nat) : ∀ (w : TimerWheel τ) (p : Nat),
    (destroyAll ps w).1.heap p = if p ∈ ps then none else w.heap p := by
  induction ps with
  | nil => exact fun w p => (if_neg List.not_mem_nil).symm
  | cons q ps ih =>
    intro w p
    show (destroyAll ps (w.destroy q).1).1.heap p = _
    rw [ih, heap_destroy]
    by_cases hq : p = q
    · subst hq
      simp
    · simp [hq]

theorem timers_destroyAll (ps : List Nat) : ∀ {w : TimerWheel τ} {r : Nat} {id : UInt64},
    (destroyAll ps w).1.timers id = some r ↔
      w.timers id = some r ∧ ∀ p ∈ ps, ∀ pt, w.heap p = some pt → pt.id ≠ id := by
  induction ps with
  | nil => exact fun {w r id} => ⟨fun h => ⟨h, fun _ hp => absurd hp List.not_mem_nil⟩, And.left⟩
  | cons q ps ih =>
    intro w r id
    show (destroyAll ps (w.destroy q).1).1.timers id = _ ↔ _
    rw [ih, timers_destroy, heap_destroy, and_assoc]
    refine and_congr_right fun _ => ⟨fun ⟨hq, h⟩ p hp pt e => ?_, fun h => ⟨h q List.mem_cons_self, ?_⟩⟩
    · by_cases hpq : p = q
      · subst hpq
        exact hq pt e
      · exact h p ((List.mem_cons.mp hp).resolve_left hpq) pt (by rw [Function.update_of_ne hpq]; exact e)
    · intro p hp pt e
      by_cases hpq : p = q
      · subst hpq
        rw [Function.update_self] at e
        cases e
      · rw [Function.update_of_ne hpq] at e
        exact h p (List.mem_cons_of_mem _ hp) pt e

/-- What else there is stays as it is. -/
theorem frame_destroyAll (ps : List Nat) : ∀ w : TimerWheel τ, (destroyAll ps w).1.wheel = w.wheel ∧
    (destroyAll ps w).1.capacity = w.capacity ∧ (destroyAll ps w).1.next = w.next ∧
    (destroyAll ps w).1.tick = w.tick := by
  induction ps with
  | nil => exact fun _ => ⟨rfl, rfl, rfl, rfl⟩
  | cons q ps ih =>
    intro w
    show (destroyAll ps (w.destroy q).1).1.wheel = _ ∧ _
    obtain ⟨h₁, h₂, h₃, h₄⟩ := ih (w.destroy q).1
    have hd : (w.destroy q).1.capacity = w.capacity ∧ (w.destroy q).1.next = w.next ∧
        (w.destroy q).1.tick = w.tick := by
      rw [destroy]
      cases w.heap q <;> exact ⟨rfl, rfl, rfl⟩
    exact ⟨h₁.trans (wheel_destroy w q), h₂.trans hd.1, h₃.trans hd.2.1, h₄.trans hd.2.2⟩

theorem runTimerTask_destroyAll (w : TimerWheel τ) : w.runTimerTask = destroyAll w.due w.advanced := by
  show clearRefs (w.wheel ((w.tick + 1) % w.capacity)) w.advanced = _
  rw [clearRefs_eq]
  rfl

theorem mem_wheel_advanced {w : TimerWheel τ} {i p : Nat} :
    p ∈ w.advanced.wheel i ↔ i ≠ (w.tick + 1) % w.capacity ∧ p ∈ w.wheel i := by
  rw [advanced]
  by_cases e : i = (w.tick + 1) % w.capacity
  · simp [e]
  · simp [e]

/-! ## The invariant -/

structure Noted.Sound (s : Noted τ) : Prop where
  capacity : s.wheel.capacity = 60
  refs {i p} : p ∈ s.wheel.wheel i → i < 60 ∧ s.wheel.heap p ≠ none
  alive {p} : s.wheel.heap p ≠ none → p < s.wheel.next ∧ s.wheel.held p = true
  registered {id p} : s.wheel.timers id = some p →
    s.newest id = some p ∧ ∃ pt, s.wheel.heap p = some pt ∧ pt.id = id
  newest {id p} : s.newest id = some p → p < s.wheel.next ∧ ∀ pt, s.wheel.heap p = some pt → pt.id = id

namespace Noted

theorem new_sound : (new : Noted τ).Sound where
  capacity := rfl
  refs h := absurd h List.not_mem_nil
  alive h := absurd rfl h
  registered h := (Option.some_ne_none _ h.symm).elim
  newest h := (Option.some_ne_none _ h.symm).elim

variable {s s' : Noted τ}

/-- A reference pushed to a slot. -/
theorem held_pushRef {w : TimerWheel τ} {pos p q : Nat} (hpos : pos < w.capacity) :
    (w.pushRef pos p).held q = true ↔ w.held q = true ∨ q = p := by
  rw [held_iff, held_iff]
  show (∃ i < w.capacity, q ∈ (w.pushRef pos p).wheel i) ↔ _
  simp only [mem_pushRef]
  refine ⟨fun ⟨i, hi, h⟩ => h.imp (fun h => ⟨i, hi, h⟩) And.right, fun h => ?_⟩
  rcases h with ⟨i, hi, h⟩ | rfl
  · exact ⟨i, hi, .inl h⟩
  · exact ⟨pos, hpos, .inr ⟨rfl, rfl⟩⟩

theorem addPos_lt {w : TimerWheel τ} (h : w.capacity = 60) (delay : UInt32) : w.addPos delay < 60 := by
  rw [addPos, h, UInt32.toNat_mod, show (UInt32.ofNat 60).toNat = 60 from rfl]
  exact Nat.mod_lt _ (by decide)

theorem refreshPos_lt {w : TimerWheel τ} (h : w.capacity = 60) {delay : UInt32} {pos : Nat}
    (e : w.refreshPos delay = some pos) : pos < 60 := by
  unfold refreshPos at e
  generalize (w.tick : Int) + Int.bmod delay.toNat 4294967296 = sum at e
  by_cases h₁ : 2147483647 < sum
  · simp only [if_pos h₁] at e
    cases e
  · by_cases h₂ : Int.tmod sum w.capacity < 0
    · simp only [if_neg h₁, if_pos h₂] at e
      cases e
    · simp only [if_neg h₁, if_neg h₂, Option.some.injEq] at e
      have hlt := Int.tmod_lt_of_pos sum (show (0 : Int) < (60 : Nat) by decide)
      rw [h] at e h₂
      omega

theorem Sound.absent (h : s.Sound) {id : UInt64}
    (hid : ∀ p pt, s.wheel.held p = true → s.wheel.heap p = some pt → pt.id ≠ id) :
    s.wheel.hasTimer id = false := by
  rw [hasTimer, Option.isSome_eq_false_iff, Option.isNone_iff_eq_none, Option.eq_none_iff_forall_ne_some]
  intro p hp
  obtain ⟨_, pt, e, rfl⟩ := h.registered hp
  exact hid p pt (h.alive (by rw [e]; exact Option.some_ne_none _)).2 e rfl

/-! ## One operation -/

theorem Sound.timerAdd (h : s.Sound) (id : UInt64) (delay : UInt32) (cb : τ) :
    Sound ⟨s.wheel.timerAddInLoop id delay cb, Function.update s.newest id (some s.wheel.next)⟩ := by
  have hpos := addPos_lt h.capacity delay
  have hnext : s.wheel.heap s.wheel.next = none := heap_next fun hp => (h.alive hp).1
  refine ⟨h.capacity, fun {i p} hp => ?_, fun {p} hp => ?_, fun {id' p} hp => ?_, fun {id' p} hp => ?_⟩
  · rcases mem_timerAdd.mp hp with hp | ⟨rfl, rfl⟩
    · exact ⟨(h.refs hp).1, heap_timerAdd_ne_none (.inl (h.refs hp).2)⟩
    · exact ⟨hpos, heap_timerAdd_ne_none (.inr rfl)⟩
  · have hh := held_pushRef (p := s.wheel.next) (q := p) (h.capacity ▸ hpos :
      s.wheel.addPos delay < s.wheel.capacity)
    refine ⟨?_, hh.mpr ?_⟩
    all_goals by_cases e : p = s.wheel.next
    · rw [e]
      exact Nat.lt_succ_self _
    · exact Nat.lt_succ_of_lt (h.alive ((heap_timerAdd e).symm.trans_ne hp)).1
    · exact .inr e
    · exact .inl (h.alive ((heap_timerAdd e).symm.trans_ne hp)).2
  · show Function.update s.newest id _ id' = _ ∧ _
    by_cases e : id' = id
    · subst e
      obtain rfl := Option.some.inj (timers_timerAdd_self.symm.trans hp)
      exact ⟨Function.update_self .., _, heap_timerAdd_next, rfl⟩
    · obtain ⟨hn, pt, hpt, hid⟩ := h.registered ((timers_timerAdd e).symm.trans hp)
      have hne : p ≠ s.wheel.next := fun e' => by rw [e', hnext] at hpt; cases hpt
      exact ⟨(Function.update_of_ne e ..).trans hn, pt, (heap_timerAdd hne).trans hpt, hid⟩
  · show p < s.wheel.next + 1 ∧ _
    change Function.update s.newest id _ id' = _ at hp
    by_cases e : id' = id
    · subst e
      rw [Function.update_self] at hp
      obtain rfl := Option.some.inj hp
      refine ⟨Nat.lt_succ_self _, fun pt hpt => ?_⟩
      obtain rfl := Option.some.inj (heap_timerAdd_next.symm.trans hpt)
      rfl
    · rw [Function.update_of_ne e] at hp
      obtain ⟨hlt, hid⟩ := h.newest hp
      exact ⟨Nat.lt_succ_of_lt hlt, fun pt hpt => hid pt ((heap_timerAdd (Nat.ne_of_lt hlt)).symm.trans hpt)⟩

/-- A refresh pushes a reference to a registered task. -/
theorem timerRefresh_cases {w w' : TimerWheel τ} {id : UInt64} (e : w.timerRefreshInLoop id = some w') :
    w' = w ∨ ∃ p pt pos, w.timers id = some p ∧ w.heap p = some pt ∧ w.refreshPos pt.timeout = some pos ∧
      w' = w.pushRef pos p := by
  rw [timerRefreshInLoop] at e
  split at e
  · exact .inl (Option.some.inj e).symm
  · next p hp =>
    split at e
    · cases e
    · next pt hpt =>
      obtain ⟨pos, hpos, rfl⟩ := Option.map_eq_some_iff.mp e
      exact .inr ⟨p, pt, pos, hp, hpt, hpos, rfl⟩

theorem Sound.timerRefresh (h : s.Sound) {id : UInt64} {w' : TimerWheel τ}
    (e : s.wheel.timerRefreshInLoop id = some w') : Sound ⟨w', s.newest⟩ := by
  rcases timerRefresh_cases e with rfl | ⟨p, pt, pos, _, hpt, hpos, rfl⟩
  · exact h
  · have hlt := refreshPos_lt h.capacity hpos
    have hh : ∀ {q}, (s.wheel.pushRef pos p).held q = true ↔ s.wheel.held q = true ∨ q = p :=
      held_pushRef (h.capacity ▸ hlt)
    refine ⟨h.capacity, fun {i q} hq => ?_, fun hq => ⟨(h.alive hq).1, hh.mpr (.inl (h.alive hq).2)⟩,
      h.registered, h.newest⟩
    rcases mem_pushRef.mp hq with hq | ⟨rfl, rfl⟩
    · exact h.refs hq
    · exact ⟨hlt, fun hn => Option.some_ne_none _ (hpt.symm.trans hn)⟩

/-- A cancel changes one bit of a live task. -/
theorem timerCancel_cases (w : TimerWheel τ) (id : UInt64) : w.timerCancelInLoop id = w ∨
    ∃ p pt, w.timers id = some p ∧ w.heap p = some pt ∧ w.timerCancelInLoop id =
      { w with heap := Function.update w.heap p (some { pt with canceled := true }) } := by
  rw [timerCancelInLoop]
  split
  · exact .inl rfl
  · next p hp =>
    split
    · exact .inl rfl
    · next pt hpt => exact .inr ⟨p, pt, hp, hpt, rfl⟩

/-- The tasks live on under their ids. -/
structure SameTasks (w w' : TimerWheel τ) : Prop where
  wheel : w'.wheel = w.wheel
  capacity : w'.capacity = w.capacity
  next : w'.next = w.next
  timers : w'.timers = w.timers
  task {p pt} : w.heap p = some pt → ∃ pt', w'.heap p = some pt' ∧ pt'.id = pt.id
  alive {p pt'} : w'.heap p = some pt' → ∃ pt, w.heap p = some pt ∧ pt'.id = pt.id

theorem sameTasks_timerCancel (w : TimerWheel τ) (id : UInt64) : SameTasks w (w.timerCancelInLoop id) := by
  rcases timerCancel_cases w id with e | ⟨p, pt, _, hpt, e⟩
  · rw [e]
    exact ⟨rfl, rfl, rfl, rfl, fun h => ⟨_, h, rfl⟩, fun h => ⟨_, h, rfl⟩⟩
  · rw [e]
    refine ⟨rfl, rfl, rfl, rfl, fun {q qt} h => ?_, fun {q qt} h => ?_⟩
    all_goals
      simp only at h ⊢
      by_cases hq : q = p
    · subst hq
      rw [hpt] at h
      obtain rfl := Option.some.inj h
      exact ⟨_, Function.update_self .., rfl⟩
    · exact ⟨qt, (Function.update_of_ne hq ..).trans h, rfl⟩
    · subst hq
      rw [Function.update_self] at h
      obtain rfl := Option.some.inj h
      exact ⟨pt, hpt, rfl⟩
    · exact ⟨qt, (Function.update_of_ne hq ..).symm.trans h, rfl⟩

theorem SameTasks.alive_iff {w w' : TimerWheel τ} (h : SameTasks w w') {p : Nat} :
    w'.heap p ≠ none ↔ w.heap p ≠ none := by
  rw [Option.ne_none_iff_exists', Option.ne_none_iff_exists']
  exact ⟨fun ⟨_, e⟩ => (h.alive e).imp fun _ e => e.1, fun ⟨_, e⟩ => (h.task e).imp fun _ e => e.1⟩

theorem SameTasks.held {w w' : TimerWheel τ} (h : SameTasks w w') : w'.held = w.held := by
  funext p
  rw [TimerWheel.held, TimerWheel.held, h.capacity, h.wheel]

theorem Sound.timerCancel (h : s.Sound) (id : UInt64) : Sound ⟨s.wheel.timerCancelInLoop id, s.newest⟩ := by
  have hs := sameTasks_timerCancel s.wheel id
  refine ⟨hs.capacity.trans h.capacity, fun {i p} hp => ?_, fun {p} hp => ?_, fun {id' p} hp => ?_,
    fun {id' p} hp => ?_⟩
  · obtain ⟨hi, ha⟩ := h.refs (hs.wheel ▸ hp : p ∈ s.wheel.wheel i)
    exact ⟨hi, hs.alive_iff.mpr ha⟩
  · obtain ⟨hlt, hh⟩ := h.alive (hs.alive_iff.mp hp)
    exact ⟨hs.next ▸ hlt, (congrFun hs.held p).trans hh⟩
  · obtain ⟨hn, pt, hpt, hid⟩ := h.registered (hs.timers ▸ hp : s.wheel.timers id' = some p)
    obtain ⟨pt', hpt', hid'⟩ := hs.task hpt
    exact ⟨hn, pt', hpt', hid'.trans hid⟩
  · obtain ⟨hlt, hid⟩ := h.newest hp
    refine ⟨hs.next ▸ hlt, fun pt' hpt' => ?_⟩
    obtain ⟨pt, hpt, e⟩ := hs.alive hpt'
    exact e.trans (hid pt hpt)

/-! ## One tick -/

theorem heap_runTimerTask (w : TimerWheel τ) (p : Nat) :
    w.runTimerTask.1.heap p = if p ∈ w.due then none else w.heap p := by
  rw [runTimerTask_destroyAll, heap_destroyAll]
  rfl

theorem timers_runTimerTask {w : TimerWheel τ} {r : Nat} {id : UInt64} :
    w.runTimerTask.1.timers id = some r ↔
      w.timers id = some r ∧ ∀ p ∈ w.due, ∀ pt, w.heap p = some pt → pt.id ≠ id := by
  rw [runTimerTask_destroyAll, timers_destroyAll]
  rfl

/-- A task survives a tick if another slot holds it. -/
theorem Sound.held_advanced (h : s.Sound) {p : Nat} (hp : s.wheel.heap p ≠ none) :
    s.wheel.advanced.held p = true ↔ p ∉ s.wheel.due := by
  rw [due, List.mem_filter, List.mem_dedup, Bool.not_eq_true', not_and']
  refine ⟨fun hh hf => absurd hh (by rw [hf]; exact Bool.false_ne_true), fun hd => ?_⟩
  by_contra hh
  have hh := Bool.eq_false_iff.mpr hh
  obtain ⟨i, hi, hm⟩ := held_iff.mp (h.alive hp).2
  by_cases e : i = (s.wheel.tick + 1) % s.wheel.capacity
  · exact hd hh (e ▸ hm)
  · refine Bool.false_ne_true (hh.symm.trans (held_iff.mpr ⟨i, hi, mem_wheel_advanced.mpr ⟨e, hm⟩⟩))

theorem Sound.runTimerTask (h : s.Sound) : Sound ⟨s.wheel.runTimerTask.1, s.newest⟩ := by
  have hf := frame_destroyAll s.wheel.due s.wheel.advanced
  rw [← runTimerTask_destroyAll] at hf
  obtain ⟨hw, hc, hn, -⟩ := hf
  have hheap : ∀ {p pt}, s.wheel.runTimerTask.1.heap p = some pt ↔
      p ∉ s.wheel.due ∧ s.wheel.heap p = some pt := by
    intro p pt
    rw [heap_runTimerTask]
    by_cases e : p ∈ s.wheel.due
    · simp [e]
    · simp [e]
  have halive : ∀ {p}, s.wheel.runTimerTask.1.heap p ≠ none ↔
      p ∉ s.wheel.due ∧ s.wheel.heap p ≠ none := by
    intro p
    rw [Option.ne_none_iff_exists', Option.ne_none_iff_exists']
    exact ⟨fun ⟨pt, e⟩ => ⟨(hheap.mp e).1, pt, (hheap.mp e).2⟩, fun ⟨hd, pt, e⟩ => ⟨pt, hheap.mpr ⟨hd, e⟩⟩⟩
  have hheld : s.wheel.runTimerTask.1.held = s.wheel.advanced.held := by
    funext p
    rw [held, held, hw, hc]
  refine ⟨hc.trans h.capacity, fun {i p} hp => ?_, fun {p} hp => ?_, fun {id p} hp => ?_, fun {id p} hp => ?_⟩
  · change p ∈ s.wheel.runTimerTask.1.wheel i at hp
    rw [hw] at hp
    obtain ⟨hi, hm⟩ := mem_wheel_advanced.mp hp
    obtain ⟨hlt, ha⟩ := h.refs hm
    refine ⟨hlt, halive.mpr ⟨(h.held_advanced ha).mp (held_iff.mpr ⟨i, ?_, hp⟩), ha⟩⟩
    exact h.capacity ▸ hlt
  · obtain ⟨hd, ha⟩ := halive.mp hp
    refine ⟨hn ▸ (h.alive ha).1, ?_⟩
    show s.wheel.runTimerTask.1.held p = true
    rw [hheld]
    exact (h.held_advanced ha).mpr hd
  · obtain ⟨hp, hid⟩ := timers_runTimerTask.mp hp
    obtain ⟨hnew, pt, hpt, e⟩ := h.registered hp
    exact ⟨hnew, pt, hheap.mpr ⟨fun hd => hid p hd pt hpt e, hpt⟩, e⟩
  · obtain ⟨hlt, hid⟩ := h.newest hp
    exact ⟨hn ▸ hlt, fun pt hpt => hid pt (hheap.mp hpt).2⟩

theorem Sound.next (h : s.Sound) {op : Op τ} (hn : s.next op s') : s'.Sound := by
  obtain ⟨ran, e, en⟩ := hn
  obtain ⟨w', n'⟩ := s'
  obtain rfl : n' = op.newest s := en
  have hw := Op.exec_cases e
  cases op with
  | timerAdd id delay cb =>
    obtain rfl : s.wheel.timerAddInLoop id delay cb = w' := hw
    exact h.timerAdd id delay cb
  | timerRefresh id => exact h.timerRefresh hw
  | timerCancel id =>
    obtain rfl : s.wheel.timerCancelInLoop id = w' := hw
    exact h.timerCancel id
  | runTimerTask =>
    obtain rfl : s.wheel.runTimerTask.1 = w' := hw
    exact h.runTimerTask

/-! ## Runs -/

/-- The newest tasks are registered while they are alive. -/
structure Current (s : Noted τ) : Prop where
  sound : s.Sound
  newest {id p} : s.newest id = some p → s.wheel.heap p ≠ none → s.wheel.timers id = some p

theorem new_current : (new : Noted τ).Current := ⟨new_sound, fun h => (Option.some_ne_none _ h.symm).elim⟩

theorem Current.next (h : s.Current) {op : Op τ} (hn : s.next op s')
    (hop : op = .runTimerTask → ¬ s.Overtakes) : s'.Current := by
  refine ⟨h.sound.next hn, ?_⟩
  obtain ⟨ran, e, en⟩ := hn
  obtain ⟨w', n'⟩ := s'
  obtain rfl : n' = op.newest s := en
  intro id p hp ha
  have hw := Op.exec_cases e
  cases op with
  | timerAdd id' delay cb =>
    obtain rfl : s.wheel.timerAddInLoop id' delay cb = w' := hw
    change Function.update s.newest id' _ id = _ at hp
    show Function.update s.wheel.timers id' _ id = _
    by_cases hid : id = id'
    · subst hid
      rw [Function.update_self] at hp ⊢
      exact hp
    · rw [Function.update_of_ne hid] at hp ⊢
      exact h.newest hp ((Function.update_of_ne (Nat.ne_of_lt (h.sound.newest hp).1) ..).symm.trans_ne ha)
  | timerRefresh id' =>
    rcases timerRefresh_cases hw with rfl | ⟨_, _, _, _, _, _, rfl⟩
    · exact h.newest hp ha
    · exact h.newest hp ha
  | timerCancel id' =>
    obtain rfl : s.wheel.timerCancelInLoop id' = w' := hw
    have hs := sameTasks_timerCancel s.wheel id'
    exact (congrFun hs.timers id).trans (h.newest hp (hs.alive_iff.mp ha))
  | runTimerTask =>
    obtain rfl : s.wheel.runTimerTask.1 = w' := hw
    have hdue : p ∉ s.wheel.due ∧ s.wheel.heap p ≠ none := by
      rw [show (Noted.mk s.wheel.runTimerTask.1 _).wheel.heap p = _ from heap_runTimerTask s.wheel p] at ha
      by_cases hm : p ∈ s.wheel.due
      · rw [if_pos hm] at ha
        exact absurd rfl ha
      · rw [if_neg hm] at ha
        exact ⟨hm, ha⟩
    refine timers_runTimerTask.mpr ⟨h.newest hp hdue.2, ?_⟩
    rintro q hq pt hpt rfl
    exact hop rfl ⟨p, q, pt, hp, hdue.2, hdue.1, hq, hpt⟩

/-- A newest task that is overtaken is alive and no longer registered. -/
theorem not_overtakes_of_denotes (hn : s.next .runTimerTask s') (hd : s'.Denotes) : ¬ s.Overtakes := by
  obtain ⟨ran, e, en⟩ := hn
  have hw : s.wheel.runTimerTask.1 = s'.wheel := Op.exec_cases e
  rintro ⟨p, q, pt, hp, ha, hdue, hq, hpt⟩
  have hr : s'.wheel.timers pt.id = some p := by
    refine hd.newest (en ▸ hp) ?_
    rw [← hw, heap_runTimerTask, if_neg hdue]
    exact ha
  rw [← hw] at hr
  exact (timers_runTimerTask.mp hr).2 q hq pt hpt rfl

/-- Over every run, the registry denotes the newest task of each id at all
times if and only if no tick overtakes one. -/
theorem denotes_iff_not_overtakes (ops : List (Op τ)) : Run.Throughout Noted.next Denotes ops new ↔
    Run.Meets Noted.next (fun s op => op = .runTimerTask → ¬ s.Overtakes) ops new := by
  have hI : ∀ s : Noted τ, s.Current → s.Denotes := fun s h => ⟨h.newest, h.sound.absent⟩
  have hP : ∀ (s : Noted τ) (op : Op τ) (s' : Noted τ), s.Current → s.next op s' → s'.Denotes →
      op = .runTimerTask → ¬ s.Overtakes := by
    intro s op s' _ hn hd e
    subst e
    exact not_overtakes_of_denotes hn hd
  have hC : ∀ (s : Noted τ) (op : Op τ) (s' : Noted τ), s.Current → s.next op s' →
      (op = .runTimerTask → ¬ s.Overtakes) → s'.Current := fun _ _ _ h hn hop => h.next hn hop
  exact Run.throughout_iff hI hC hP ops new new_current

/-- An id added twice; the first task is destroyed while the second waits. -/
theorem readded_not_denoted : ¬ ∀ ops : List (Op Unit), Run.Throughout Noted.next Denotes ops new := by
  intro h
  have h := h [.timerAdd 7 1 (), .timerAdd 7 5 (), .runTimerTask]
  obtain ⟨-, h⟩ := h
  obtain ⟨-, h⟩ := h ⟨_, _⟩ ⟨_, rfl, rfl⟩
  obtain ⟨-, h⟩ := h ⟨_, _⟩ ⟨_, rfl, rfl⟩
  have h : Denotes _ := h ⟨_, _⟩ ⟨_, rfl, rfl⟩
  have hr := @h.newest 7 1 rfl (Option.some_ne_none _)
  exact Option.some_ne_none _ hr.symm

end Noted

end Mudou.TimerWheel
