import Mathlib.Data.List.Dedup
import Mathlib.Logic.Function.Basic

/-!
# The timer wheel

`TimerTask` and `TimerWheel` of `source/server.hpp`. A task is an object at
an address: the slots hold its shared references, `_timers` a weak one, and
it is alive while `heap` maps its address. `clearRefs` is the `clear()` of
the slot under the hand: it drops one reference after the other, and a task
is destroyed with its last one. `none` is a null or out-of-range access, or
a signed overflow.
-/

namespace Mudou

structure TimerTask (τ : Type) where
  id : UInt64
  timeout : UInt32
  canceled : Bool
  taskCb : τ

structure TimerWheel (τ : Type) where
  tick : Nat
  capacity : Nat
  /-- the references in each slot -/
  wheel : Nat → List Nat
  timers : UInt64 → Option Nat
  heap : Nat → Option (TimerTask τ)
  /-- an address no task has had yet -/
  next : Nat

namespace TimerWheel

variable {τ : Type}

def new : TimerWheel τ where
  tick := 0
  capacity := 60
  wheel _ := []
  timers _ := none
  heap _ := none
  next := 0

def removeTimer (w : TimerWheel τ) (id : UInt64) : TimerWheel τ :=
  { w with timers := Function.update w.timers id none }

def hasTimer (w : TimerWheel τ) (id : UInt64) : Bool := (w.timers id).isSome

def pushRef (w : TimerWheel τ) (pos p : Nat) : TimerWheel τ :=
  { w with wheel := Function.update w.wheel pos (w.wheel pos ++ [p]) }

/-- `(_tick + delay) % _capacity` with a `uint32_t` delay. -/
def addPos (w : TimerWheel τ) (delay : UInt32) : Nat :=
  ((UInt32.ofNat w.tick + delay) % UInt32.ofNat w.capacity).toNat

/-- `(_tick + delay) % _capacity` with the delay in an `int`, whose sum must
not exceed `INT_MAX`. -/
def refreshPos (w : TimerWheel τ) (delay : UInt32) : Option Nat :=
  let sum := (w.tick : Int) + Int.bmod delay.toNat 4294967296
  if 2147483647 < sum then none
  else
    let pos := Int.tmod sum w.capacity
    if pos < 0 then none else some pos.toNat

def timerAddInLoop (w : TimerWheel τ) (id : UInt64) (delay : UInt32) (cb : τ) : TimerWheel τ :=
  let w' := w.pushRef (w.addPos delay) w.next
  { w' with
    heap := Function.update w.heap w.next (some ⟨id, delay, false, cb⟩)
    next := w.next + 1
    timers := Function.update w.timers id (some w.next) }

def timerRefreshInLoop (w : TimerWheel τ) (id : UInt64) : Option (TimerWheel τ) :=
  match w.timers id with
  | none => some w
  | some p =>
    match w.heap p with
    | none => none
    | some pt => (w.refreshPos pt.timeout).map fun pos => w.pushRef pos p

def timerCancelInLoop (w : TimerWheel τ) (id : UInt64) : TimerWheel τ :=
  match w.timers id with
  | none => w
  | some p =>
    match w.heap p with
    | none => w
    | some pt => { w with heap := Function.update w.heap p (some { pt with canceled := true }) }

/-- Whether a slot holds a reference to the task at `p`. -/
def held (w : TimerWheel τ) (p : Nat) : Bool :=
  (List.range w.capacity).any fun i => decide (p ∈ w.wheel i)

/-- `~TimerTask`: the callback unless cancelled, then `RemoveTimer`. The
second component is the task if its callback ran. -/
def destroy (w : TimerWheel τ) (p : Nat) : TimerWheel τ × Option (TimerTask τ) :=
  match w.heap p with
  | none => (w, none)
  | some pt =>
    ({ w with heap := Function.update w.heap p none }.removeTimer pt.id,
      if pt.canceled then none else some pt)

/-- The references of a slot dropped in order, with the tasks whose callbacks
ran. -/
def clearRefs : List Nat → TimerWheel τ → TimerWheel τ × List (TimerTask τ)
  | [], w => (w, [])
  | p :: refs, w =>
    if p ∈ refs ∨ w.held p then clearRefs refs w
    else
      let (w, ran) := w.destroy p
      let (w, rest) := clearRefs refs w
      (w, ran.toList ++ rest)

def runTimerTask (w : TimerWheel τ) : TimerWheel τ × List (TimerTask τ) :=
  let tick := (w.tick + 1) % w.capacity
  clearRefs (w.wheel tick) { w with tick, wheel := Function.update w.wheel tick [] }

/-- `OnTime`, when the timerfd has expired `times` times. -/
def onTime : Nat → TimerWheel τ → TimerWheel τ × List (TimerTask τ)
  | 0, w => (w, [])
  | times + 1, w =>
    let (w, ran) := w.runTimerTask
    let (w, rest) := onTime times w
    (w, ran ++ rest)

theorem timerRefreshInLoop_eq {w : TimerWheel τ} {id : UInt64} {p pos : Nat} {pt : TimerTask τ}
    (hid : w.timers id = some p) (hp : w.heap p = some pt)
    (hpos : w.refreshPos pt.timeout = some pos) :
    w.timerRefreshInLoop id = some (w.pushRef pos p) := by
  simp only [timerRefreshInLoop, hid, hp, hpos, Option.map_some]

theorem timerCancelInLoop_eq {w : TimerWheel τ} {id : UInt64} {p : Nat} {pt : TimerTask τ}
    (hid : w.timers id = some p) (hp : w.heap p = some pt) :
    w.timerCancelInLoop id =
      { w with heap := Function.update w.heap p (some { pt with canceled := true }) } := by
  simp only [timerCancelInLoop, hid, hp]

/-! ## Dropping references -/

@[simp] theorem wheel_pushRef (w : TimerWheel τ) (pos p : Nat) :
    (w.pushRef pos p).wheel = Function.update w.wheel pos (w.wheel pos ++ [p]) := rfl
@[simp] theorem timers_pushRef (w : TimerWheel τ) (pos p : Nat) :
    (w.pushRef pos p).timers = w.timers := rfl
@[simp] theorem heap_pushRef (w : TimerWheel τ) (pos p : Nat) : (w.pushRef pos p).heap = w.heap := rfl

theorem mem_pushRef {w : TimerWheel τ} {pos p q i : Nat} :
    q ∈ (w.pushRef pos p).wheel i ↔ q ∈ w.wheel i ∨ i = pos ∧ q = p := by
  rw [wheel_pushRef]
  by_cases h : i = pos
  · subst h
    simp [Function.update_self]
  · simp [h]

section Add
variable {w : TimerWheel τ} {id : UInt64} {delay : UInt32} {cb : τ} {p : Nat}

theorem heap_timerAdd_next : (w.timerAddInLoop id delay cb).heap w.next = some ⟨id, delay, false, cb⟩ :=
  Function.update_self ..

theorem heap_timerAdd (hp : p ≠ w.next) : (w.timerAddInLoop id delay cb).heap p = w.heap p :=
  Function.update_of_ne hp ..

theorem timers_timerAdd_self : (w.timerAddInLoop id delay cb).timers id = some w.next :=
  Function.update_self ..

theorem timers_timerAdd {id' : UInt64} (hid : id' ≠ id) :
    (w.timerAddInLoop id delay cb).timers id' = w.timers id' :=
  Function.update_of_ne hid ..

theorem mem_timerAdd {i : Nat} : p ∈ (w.timerAddInLoop id delay cb).wheel i ↔
    p ∈ w.wheel i ∨ i = w.addPos delay ∧ p = w.next :=
  mem_pushRef

/-- The next task is not alive, if only earlier ones are. -/
theorem heap_next (h : ∀ {p}, w.heap p ≠ none → p < w.next) : w.heap w.next = none := by
  by_contra hn
  exact absurd (h hn) (Nat.lt_irrefl _)

/-- A reference to a live task, or to the new one, is to a live task. -/
theorem heap_timerAdd_ne_none (hp : w.heap p ≠ none ∨ p = w.next) :
    (w.timerAddInLoop id delay cb).heap p ≠ none := by
  by_cases e : p = w.next
  · rw [e, heap_timerAdd_next]
    exact Option.some_ne_none _
  · rw [heap_timerAdd e]
    exact hp.resolve_right e

end Add

theorem held_iff {w : TimerWheel τ} {p : Nat} : w.held p = true ↔ ∃ i < w.capacity, p ∈ w.wheel i := by
  simp [held, List.any_eq_true]

@[simp] theorem wheel_destroy (w : TimerWheel τ) (p : Nat) : (w.destroy p).1.wheel = w.wheel := by
  unfold destroy
  split <;> rfl

@[simp] theorem held_destroy (w : TimerWheel τ) (p : Nat) : (w.destroy p).1.held = w.held := by
  unfold destroy
  split <;> rfl

/-- The tasks at `ps`, destroyed one after the other. -/
def destroyAll : List Nat → TimerWheel τ → TimerWheel τ × List (TimerTask τ)
  | [], w => (w, [])
  | p :: ps, w =>
    let (w, ran) := w.destroy p
    let (w, rest) := destroyAll ps w
    (w, ran.toList ++ rest)

/-- Clearing a slot destroys the tasks that no other slot holds, each at its
last reference. -/
theorem clearRefs_eq (refs : List Nat) : ∀ w : TimerWheel τ,
    clearRefs refs w = destroyAll (refs.dedup.filter fun p => !w.held p) w := by
  induction refs with
  | nil => exact fun _ => rfl
  | cons p refs ih =>
    intro w
    rw [clearRefs]
    by_cases hm : p ∈ refs
    · rw [if_pos (.inl hm), ih, List.dedup_cons_of_mem hm]
    · rw [List.dedup_cons_of_notMem hm, List.filter_cons]
      cases hh : w.held p with
      | true => rw [if_pos (.inr rfl), ih]; simp
      | false =>
        rw [if_neg (by simp [hm])]
        simp only [ih, held_destroy, Bool.not_false, if_true]
        rw [destroyAll]

/-- The task at `p`, if its callback runs when it is destroyed. -/
def callback (w : TimerWheel τ) (p : Nat) : Option (TimerTask τ) :=
  (w.heap p).bind fun pt => if pt.canceled then none else some pt

/-- The registrations are the live tasks', each under its id. -/
structure Consistent (w : TimerWheel τ) : Prop where
  timers {id : UInt64} {p : Nat} : w.timers id = some p → ∃ pt, w.heap p = some pt ∧ pt.id = id
  heap {p : Nat} {pt : TimerTask τ} : w.heap p = some pt → w.timers pt.id = some p

theorem Consistent.timerAdd {w : TimerWheel τ} (h : Consistent w) {id : UInt64} (delay : UInt32) (cb : τ)
    (hid : w.timers id = none) (hnext : w.heap w.next = none) :
    Consistent (w.timerAddInLoop id delay cb) where
  timers {id' p} hp := by
    by_cases e : id' = id
    · subst e
      obtain rfl := Option.some.inj (timers_timerAdd_self.symm.trans hp)
      exact ⟨_, heap_timerAdd_next, rfl⟩
    · rw [timers_timerAdd e] at hp
      obtain ⟨pt, hpt, rfl⟩ := h.timers hp
      have hne : p ≠ w.next := fun e' => by rw [e', hnext] at hpt; cases hpt
      exact ⟨pt, by rw [heap_timerAdd hne, hpt], rfl⟩
  heap {p pt} hp := by
    by_cases e : p = w.next
    · subst e
      obtain rfl := Option.some.inj (heap_timerAdd_next.symm.trans hp)
      exact timers_timerAdd_self
    · rw [heap_timerAdd e] at hp
      have hpt := h.heap hp
      have hne : pt.id ≠ id := fun e' => by rw [e', hid] at hpt; cases hpt
      rw [timers_timerAdd hne, hpt]

/-- `w` without the tasks at `ps` and their registrations. -/
def without (w : TimerWheel τ) (ps : List Nat) : TimerWheel τ :=
  { w with
    heap := fun p => if p ∈ ps then none else w.heap p
    timers := fun id => (w.timers id).filter (· ∉ ps) }

theorem without_nil (w : TimerWheel τ) : w.without [] = w := by
  have ht : (fun id => (w.timers id).filter fun p => decide (p ∉ ([] : List Nat))) = w.timers := by
    funext id
    cases w.timers id <;> simp [Option.filter]
  rw [without, ht]
  simp only [List.not_mem_nil, if_false]

theorem without_without (w : TimerWheel τ) (p : Nat) (ps : List Nat) :
    (w.without [p]).without ps = w.without (p :: ps) := by
  simp only [without, mk.injEq, true_and, and_true, List.mem_cons]
  refine ⟨?_, ?_⟩
  · funext id
    rw [Option.filter_filter]
    congr 1
    funext q
    by_cases h : q = p <;> simp [h]
  · funext q
    by_cases h : q = p <;> simp [h]

theorem Consistent.without {w : TimerWheel τ} (h : Consistent w) (ps : List Nat) :
    Consistent (w.without ps) where
  timers {id p} ht := by
    simp only [TimerWheel.without, Option.filter_eq_some_iff, decide_eq_true_eq] at ht ⊢
    obtain ⟨ht, hp⟩ := ht
    simpa only [if_neg hp] using h.timers ht
  heap {p pt} hp := by
    simp only [TimerWheel.without] at hp ⊢
    by_cases hm : p ∈ ps
    · rw [if_pos hm] at hp; cases hp
    · rw [if_neg hm] at hp
      simp [h.heap hp, hm]

theorem destroy_eq {w : TimerWheel τ} (h : Consistent w) {p : Nat} (hp : w.heap p ≠ none) :
    w.destroy p = (w.without [p], w.callback p) := by
  obtain ⟨pt, e⟩ := Option.ne_none_iff_exists'.mp hp
  rw [destroy, callback, e]
  simp only [removeTimer, TimerWheel.without, Prod.mk.injEq, mk.injEq, true_and, and_true,
    List.mem_singleton, Option.bind_some]
  refine ⟨?_, ?_⟩
  · funext id
    by_cases hid : id = pt.id
    · subst hid
      rw [Function.update_self, h.heap e]
      simp [Option.filter]
    · rw [Function.update_of_ne hid]
      cases ht : w.timers id with
      | none => rfl
      | some q =>
        obtain ⟨qt, hq, rfl⟩ := h.timers ht
        have hne : q ≠ p := by
          rintro rfl
          rw [e] at hq; cases hq
          exact hid rfl
        simp [Option.filter, hne]
  · funext q
    by_cases hq : q = p
    · subst hq; simp
    · simp [hq]

/-- Live tasks destroyed: only they and their registrations are gone, and the
callbacks of those not cancelled have run. -/
theorem destroyAll_eq (ps : List Nat) : ∀ {w : TimerWheel τ}, Consistent w → ps.Nodup →
    (∀ p ∈ ps, w.heap p ≠ none) → destroyAll ps w = (w.without ps, ps.filterMap w.callback) := by
  induction ps with
  | nil => intro w _ _ _; rw [destroyAll, without_nil]; rfl
  | cons p ps ih =>
    intro w h hd hl
    obtain ⟨hp, hd⟩ := List.nodup_cons.mp hd
    have hheap : ∀ q ∈ ps, (w.without [p]).heap q = w.heap q := fun q hq =>
      if_neg fun hm : q ∈ [p] => hp (List.mem_singleton.mp hm ▸ hq)
    have hcb : ps.filterMap (w.without [p]).callback = ps.filterMap w.callback :=
      List.filterMap_congr fun q hq => by rw [callback, callback, hheap q hq]
    rw [destroyAll, destroy_eq h (hl p List.mem_cons_self)]
    simp only
    rw [ih (h.without [p]) hd fun q hq => by
      rw [hheap q hq]; exact hl q (List.mem_cons_of_mem _ hq)]
    rw [without_without, hcb, List.filterMap_cons]
    cases w.callback p <;> rfl

/-- The wheel with the hand moved on and the slot under it emptied. -/
def advanced (w : TimerWheel τ) : TimerWheel τ :=
  { w with
    tick := (w.tick + 1) % w.capacity
    wheel := Function.update w.wheel ((w.tick + 1) % w.capacity) [] }

/-- The tasks that only the slot under the moved hand holds. -/
def due (w : TimerWheel τ) : List Nat :=
  (w.wheel ((w.tick + 1) % w.capacity)).dedup.filter fun p => !w.advanced.held p

/-- One tick destroys exactly these. -/
theorem runTimerTask_eq {w : TimerWheel τ} (h : Consistent w)
    (hr : ∀ p ∈ w.wheel ((w.tick + 1) % w.capacity), w.heap p ≠ none) :
    w.runTimerTask = (w.advanced.without w.due, w.due.filterMap w.callback) := by
  have hc : Consistent w.advanced := ⟨h.timers, h.heap⟩
  show clearRefs (w.wheel ((w.tick + 1) % w.capacity)) w.advanced = _
  rw [clearRefs_eq]
  exact destroyAll_eq w.due hc ((List.nodup_dedup _).filter _) fun p hp =>
    hr p (List.mem_dedup.mp (List.mem_of_mem_filter hp))

end TimerWheel

end Mudou
