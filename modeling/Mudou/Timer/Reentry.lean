import Mathlib.Logic.Relation
import Mudou.Timer.Denotes

/-!
# Callbacks that call the wheel

`RunTimerTask` in steps: `clear()` drops one reference after the other, and
with the last one to a task its destructor runs. The task is no longer alive
then, but registered until its callback has returned. On the loop's thread
what the callback calls of `TimerAdd`, `TimerRefresh` and `TimerCancel` runs
at once, between two steps.

`safe_iff_harmless`: over every run, nothing is pushed into the slot that is
cleared and no null pointer dereferenced if and only if no callback adds or
refreshes with a delay of whole turns, nor refreshes its own task.
-/

namespace Mudou.TimerWheel

variable {τ : Type}

structure Reentrant (τ : Type) where
  wheel : TimerWheel τ
  /-- while a slot is cleared, its references that are left to be dropped -/
  clearing : Option (List Nat)
  /-- the task whose destructor has called its callback -/
  running : Option (Nat × TimerTask τ)
  /-- a null pointer was dereferenced -/
  null : Bool

namespace Reentrant

def new : Reentrant τ := ⟨TimerWheel.new, none, none, false⟩

inductive Step (τ : Type) where
  | timerAdd (id : UInt64) (delay : UInt32) (cb : τ)
  | timerRefresh (id : UInt64)
  | timerCancel (id : UInt64)
  /-- the hand moves on, and `clear()` begins -/
  | runTimerTask
  /-- `clear()` drops a reference -/
  | drop
  /-- the callback returns, and the destructor calls `RemoveTimer` -/
  | returns
  /-- `clear()` ends -/
  | cleared

/-- Whether there is code to call the wheel: between two ticks, or a
callback. -/
def Calls (s : Reentrant τ) : Prop := s.clearing = none ∨ s.running.isSome

instance (s : Reentrant τ) : Decidable s.Calls := inferInstanceAs (Decidable (_ ∨ _))

/-- Whether `lock()` in `TimerRefreshInLoop` gives a null pointer. -/
def locksNull (w : TimerWheel τ) (id : UInt64) : Bool :=
  match w.timers id with
  | none => false
  | some p => (w.heap p).isNone

def timerRefresh (s : Reentrant τ) (id : UInt64) : Option (Reentrant τ) :=
  if locksNull s.wheel id then some { s with null := true }
  else (s.wheel.timerRefreshInLoop id).map fun wheel => { s with wheel }

/-- The reference to `p` is dropped, with `refs` left. -/
def dropRef (s : Reentrant τ) (p : Nat) (refs : List Nat) : Reentrant τ :=
  if p ∈ refs ∨ s.wheel.held p then { s with clearing := some refs }
  else
    match s.wheel.heap p with
    | none => { s with clearing := some refs }
    | some pt =>
      let wheel := { s.wheel with heap := Function.update s.wheel.heap p none }
      if pt.canceled then { s with wheel := wheel.removeTimer pt.id, clearing := some refs }
      else { s with wheel, clearing := some refs, running := some (p, pt) }

/-- A step, where it can be taken and is defined. -/
def exec (s : Reentrant τ) : Step τ → Option (Reentrant τ)
  | .timerAdd id delay cb => if s.Calls then some { s with wheel := s.wheel.timerAddInLoop id delay cb } else none
  | .timerRefresh id => if s.Calls then s.timerRefresh id else none
  | .timerCancel id => if s.Calls then some { s with wheel := s.wheel.timerCancelInLoop id } else none
  | .runTimerTask =>
    match s.clearing, s.running with
    | none, none =>
      some { s with
        wheel := s.wheel.advanced
        clearing := some (s.wheel.wheel ((s.wheel.tick + 1) % s.wheel.capacity)) }
    | _, _ => none
  | .drop =>
    match s.clearing, s.running with
    | some (p :: refs), none => some (s.dropRef p refs)
    | _, _ => none
  | .returns => s.running.map fun r => { s with wheel := s.wheel.removeTimer r.2.id, running := none }
  | .cleared =>
    match s.clearing, s.running with
    | some [], none => some { s with clearing := none }
    | _, _ => none

def next (s : Reentrant τ) (a : Step τ) (s' : Reentrant τ) : Prop := s.exec a = some s'

/-- No null pointer was dereferenced, and nothing is in the slot that is
cleared but the references it is cleared of. -/
structure Safe (s : Reentrant τ) : Prop where
  null : s.null = false
  slot : s.clearing ≠ none → s.wheel.wheel s.wheel.tick = []

/-- What a callback may call: a delay does not lead back to the slot, and a
task that is refreshed is not the one that is being destroyed. -/
def Harmless (s : Reentrant τ) : Step τ → Prop
  | .timerAdd _ delay _ => s.clearing ≠ none →
      ¬ (s.wheel.capacity ∣ delay.toNat ∧ s.wheel.tick + delay.toNat < 4294967296)
  | .timerRefresh id => (∀ p pt, s.running = some (p, pt) → s.wheel.timers id ≠ some p) ∧
      (s.clearing ≠ none → ∀ p pt, s.wheel.timers id = some p → s.wheel.heap p = some pt →
        ¬ (s.wheel.capacity : Int) ∣ Int.bmod pt.timeout.toNat 4294967296)
  | _ => True

/-! ## Slots -/

/-- A delay of whole turns leads back to the slot under the hand, unless the
unsigned sum wraps around. -/
theorem addPos_eq_tick {w : TimerWheel τ} (hc : w.capacity = 60) (ht : w.tick < 60) (delay : UInt32) :
    w.addPos delay = w.tick ↔ w.capacity ∣ delay.toNat ∧ w.tick + delay.toNat < 4294967296 := by
  have hd := delay.toNat_lt
  rw [addPos, hc, UInt32.toNat_mod, UInt32.toNat_add, UInt32.toNat_ofNat', UInt32.toNat_ofNat']
  simp only [Nat.reducePow, Nat.reduceMod] at hd ⊢
  by_cases h : w.tick + delay.toNat < 4294967296
  · rw [Nat.mod_eq_of_lt (by omega : w.tick < 4294967296), Nat.mod_eq_of_lt h]
    omega
  · have e : (w.tick % 4294967296 + delay.toNat) % 4294967296 = w.tick + delay.toNat - 4294967296 := by omega
    rw [e]
    omega

theorem refreshPos_eq_tick {w : TimerWheel τ} (hc : w.capacity = 60) (ht : w.tick < 60) {delay : UInt32}
    {pos : Nat} (h : w.refreshPos delay = some pos) :
    pos = w.tick ↔ (w.capacity : Int) ∣ Int.bmod delay.toNat 4294967296 := by
  unfold refreshPos at h
  generalize Int.bmod delay.toNat 4294967296 = d at h ⊢
  rw [hc] at h ⊢
  by_cases h₁ : (2147483647 : Int) < w.tick + d
  · simp only [if_pos h₁] at h
    cases h
  · by_cases h₂ : Int.tmod (w.tick + d) (60 : Nat) < 0
    · simp only [if_neg h₁, if_pos h₂] at h
      cases h
    · simp only [if_neg h₁, if_neg h₂, Option.some.injEq] at h
      have hm := Int.mul_tdiv_add_tmod (w.tick + d) (60 : Nat)
      have hlt := Int.tmod_lt_of_pos (w.tick + d) (show (0 : Int) < (60 : Nat) by decide)
      omega

/-- What a step does, and where it can be taken. -/
theorem next_cases {s s' : Reentrant τ} {a : Step τ} (hn : s.next a s') :
    match a with
    | .timerAdd id delay cb => s.Calls ∧ { s with wheel := s.wheel.timerAddInLoop id delay cb } = s'
    | .timerRefresh id => s.Calls ∧ s.timerRefresh id = some s'
    | .timerCancel id => s.Calls ∧ { s with wheel := s.wheel.timerCancelInLoop id } = s'
    | .runTimerTask => s.clearing = none ∧ s.running = none ∧
        { s with
          wheel := s.wheel.advanced
          clearing := some (s.wheel.wheel ((s.wheel.tick + 1) % s.wheel.capacity)) } = s'
    | .drop => ∃ p refs, s.clearing = some (p :: refs) ∧ s.running = none ∧ s.dropRef p refs = s'
    | .returns => ∃ r, s.running = some r ∧
        { s with wheel := s.wheel.removeTimer r.2.id, running := none } = s'
    | .cleared => s.clearing = some [] ∧ s.running = none ∧ { s with clearing := none } = s' := by
  unfold next at hn
  cases a with
  | timerAdd | timerRefresh | timerCancel =>
    simpa only [exec, Option.ite_none_right_eq_some, Option.some.injEq] using hn
  | runTimerTask =>
    simp only [exec] at hn
    split at hn
    · next hcl hr => exact ⟨hcl, hr, Option.some.inj hn⟩
    · cases hn
  | drop =>
    simp only [exec] at hn
    split at hn
    · next p refs hcl hr => exact ⟨p, refs, hcl, hr, Option.some.inj hn⟩
    · cases hn
  | returns => exact Option.map_eq_some_iff.mp hn
  | cleared =>
    simp only [exec] at hn
    split at hn
    · next hcl hr => exact ⟨hcl, hr, Option.some.inj hn⟩
    · cases hn

/-! ## The invariant -/

structure Inv (s : Reentrant τ) : Prop where
  safe : s.Safe
  capacity : s.wheel.capacity = 60
  tick : s.wheel.tick < 60
  fresh {p} : s.wheel.heap p ≠ none → p < s.wheel.next
  running {p pt} : s.running = some (p, pt) → s.wheel.heap p = none ∧ p < s.wheel.next
  /-- what is registered is alive, or being destroyed -/
  registered {id p} : s.wheel.timers id = some p →
    (∃ pt, s.wheel.heap p = some pt ∧ pt.id = id) ∨ ∃ pt, s.running = some (p, pt) ∧ pt.id = id

theorem new_inv : (new : Reentrant τ).Inv where
  safe := ⟨rfl, fun h => absurd rfl h⟩
  capacity := rfl
  tick := show 0 < 60 by decide
  fresh h := absurd rfl h
  running h := (Option.some_ne_none _ h.symm).elim
  registered h := (Option.some_ne_none _ h.symm).elim

variable {s s' : Reentrant τ}

theorem Safe.not_mem (h : s.Safe) (hcl : s.clearing ≠ none) {p : Nat} : p ∉ s.wheel.wheel s.wheel.tick := by
  rw [h.slot hcl]
  exact List.not_mem_nil

/-! ## What is called -/

theorem Inv.timerAdd (h : s.Inv) {id : UInt64} {delay : UInt32} {cb : τ}
    (hc : s.Harmless (.timerAdd id delay cb)) :
    Inv { s with wheel := s.wheel.timerAddInLoop id delay cb } := by
  have hnext : s.wheel.heap s.wheel.next = none := heap_next h.fresh
  refine ⟨⟨h.safe.null, fun hs => ?_⟩, h.capacity, h.tick, fun {p} hp => ?_, fun {p pt} hr => ?_,
    fun {id' p} ht => ?_⟩
  · have hpos : s.wheel.addPos delay ≠ s.wheel.tick := fun e =>
      hc hs ((addPos_eq_tick h.capacity h.tick delay).mp e)
    exact (Function.update_of_ne hpos.symm ..).trans (h.safe.slot hs)
  · show p < s.wheel.next + 1
    by_cases e : p = s.wheel.next
    · omega
    · have := h.fresh ((heap_timerAdd e).symm.trans_ne hp)
      omega
  · obtain ⟨hn, hlt⟩ := h.running hr
    exact ⟨(heap_timerAdd (Nat.ne_of_lt hlt)).trans hn, Nat.lt_succ_of_lt hlt⟩
  · by_cases e : id' = id
    · subst e
      obtain rfl := Option.some.inj (timers_timerAdd_self.symm.trans ht)
      exact .inl ⟨_, heap_timerAdd_next, rfl⟩
    · refine (h.registered ((timers_timerAdd e).symm.trans ht)).imp_left fun ⟨pt, hpt, hid⟩ => ?_
      have hne : p ≠ s.wheel.next := fun e' => by rw [e', hnext] at hpt; cases hpt
      exact ⟨pt, (heap_timerAdd hne).trans hpt, hid⟩

/-- A delay that leads back to the slot pushes the new task into it. -/
theorem Inv.harmless_timerAdd (h : s.Inv) {id : UInt64} {delay : UInt32} {cb : τ}
    (hs : Safe { s with wheel := s.wheel.timerAddInLoop id delay cb }) :
    s.Harmless (.timerAdd id delay cb) := by
  intro hcl hd
  have hpos := (addPos_eq_tick h.capacity h.tick delay).mpr hd
  have hm : s.wheel.next ∈ (s.wheel.timerAddInLoop id delay cb).wheel s.wheel.tick :=
    mem_timerAdd.mpr (.inr ⟨hpos.symm, rfl⟩)
  exact hs.not_mem hcl hm

/-- Only the task that is being destroyed is registered and not alive. -/
theorem Inv.locksNull_iff (h : s.Inv) {id : UInt64} : locksNull s.wheel id = true ↔
    ∃ p pt, s.running = some (p, pt) ∧ s.wheel.timers id = some p := by
  rw [locksNull]
  cases ht : s.wheel.timers id with
  | none => simp
  | some p =>
    show (s.wheel.heap p).isNone = true ↔ _
    rw [Option.isNone_iff_eq_none]
    refine ⟨fun hn => ?_, fun ⟨q, qt, hr, e⟩ => ?_⟩
    · rcases h.registered ht with ⟨pt, hpt, -⟩ | ⟨pt, hr, -⟩
      · rw [hn] at hpt
        cases hpt
      · exact ⟨p, pt, hr, rfl⟩
    · obtain rfl := Option.some.inj e
      exact (h.running hr).1

theorem Inv.timerRefresh (h : s.Inv) {id : UInt64} (hn : s.timerRefresh id = some s')
    (hc : s.Harmless (.timerRefresh id)) : s'.Inv := by
  obtain ⟨hown, hslot⟩ := hc
  have hl : ¬ locksNull s.wheel id = true := fun hl => by
    obtain ⟨p, pt, hr, ht⟩ := h.locksNull_iff.mp hl
    exact hown p pt hr ht
  rw [Reentrant.timerRefresh, if_neg hl, Option.map_eq_some_iff] at hn
  obtain ⟨w', hw, rfl⟩ := hn
  rcases Noted.timerRefresh_cases hw with rfl | ⟨p, pt, pos, ht, hpt, hpos, rfl⟩
  · exact h
  · refine ⟨⟨h.safe.null, fun hs => ?_⟩, h.capacity, h.tick, h.fresh, h.running, h.registered⟩
    have hne : pos ≠ s.wheel.tick := fun e =>
      hslot hs p pt ht hpt ((refreshPos_eq_tick h.capacity h.tick hpos).mp e)
    exact (Function.update_of_ne hne.symm ..).trans (h.safe.slot hs)

theorem Inv.harmless_timerRefresh (h : s.Inv) {id : UInt64} (hn : s.timerRefresh id = some s')
    (hs : s'.Safe) : s.Harmless (.timerRefresh id) := by
  by_cases hl : locksNull s.wheel id = true
  · rw [Reentrant.timerRefresh, if_pos hl] at hn
    obtain rfl := Option.some.inj hn
    cases hs.null
  · refine ⟨fun p pt hr ht => hl (h.locksNull_iff.mpr ⟨p, pt, hr, ht⟩), fun hcl p pt ht hpt hd => ?_⟩
    rw [Reentrant.timerRefresh, if_neg hl, Option.map_eq_some_iff] at hn
    obtain ⟨w', hw, rfl⟩ := hn
    simp only [timerRefreshInLoop, ht, hpt, Option.map_eq_some_iff] at hw
    obtain ⟨pos, hpos, rfl⟩ := hw
    have e := (refreshPos_eq_tick h.capacity h.tick hpos).mpr hd
    have hm : p ∈ (s.wheel.pushRef pos p).wheel s.wheel.tick := mem_pushRef.mpr (.inr ⟨e.symm, rfl⟩)
    exact hs.not_mem hcl hm

theorem Inv.timerCancel (h : s.Inv) (id : UInt64) :
    Inv { s with wheel := s.wheel.timerCancelInLoop id } := by
  rcases Noted.timerCancel_cases s.wheel id with e | ⟨p, pt, -, hpt, e⟩
  · rw [e]
    exact h
  · have hs := Noted.sameTasks_timerCancel s.wheel id
    have htick : (s.wheel.timerCancelInLoop id).tick = s.wheel.tick := by rw [e]
    refine ⟨⟨h.safe.null, fun hcl => ?_⟩, hs.capacity.trans h.capacity, htick.symm ▸ h.tick,
      fun {q} hq => ?_, fun {q qt} hr => ?_, fun {id' q} ht => ?_⟩
    · show (s.wheel.timerCancelInLoop id).wheel (s.wheel.timerCancelInLoop id).tick = []
      rw [hs.wheel, htick]
      exact h.safe.slot hcl
    · exact hs.next ▸ h.fresh (hs.alive_iff.mp hq)
    · obtain ⟨hn, hlt⟩ := h.running hr
      exact ⟨not_not.mp fun ha => hs.alive_iff.mp ha hn, hs.next ▸ hlt⟩
    · refine (h.registered (hs.timers ▸ ht : s.wheel.timers id' = some q)).imp_left fun ⟨qt, hqt, hid⟩ => ?_
      obtain ⟨qt', hqt', e'⟩ := hs.task hqt
      exact ⟨qt', hqt', e'.trans hid⟩

/-! ## A tick -/

theorem Inv.runTimerTask (h : s.Inv) (hr : s.running = none) (refs : List Nat) :
    Inv { s with wheel := s.wheel.advanced, clearing := some refs } where
  safe := ⟨h.safe.null, fun _ => Function.update_self ..⟩
  capacity := h.capacity
  tick := by
    show (s.wheel.tick + 1) % s.wheel.capacity < 60
    rw [h.capacity]
    exact Nat.mod_lt _ (by decide)
  fresh := h.fresh
  running e := by rw [hr] at e; cases e
  registered := h.registered

/-- The task at `p` is no longer alive. -/
theorem Inv.fresh_update (h : s.Inv) {p q : Nat}
    (hq : Function.update s.wheel.heap p none q ≠ none) : q ≠ p ∧ q < s.wheel.next := by
  have hne : q ≠ p := fun e => by rw [e, Function.update_self] at hq; exact hq rfl
  exact ⟨hne, h.fresh ((Function.update_of_ne hne ..).symm.trans_ne hq)⟩

theorem Inv.drop (h : s.Inv) (hr : s.running = none) {p : Nat} {refs : List Nat}
    (hcl : s.clearing = some (p :: refs)) : (s.dropRef p refs).Inv := by
  have hslot : s.wheel.wheel s.wheel.tick = [] := h.safe.slot (by rw [hcl]; exact Option.some_ne_none _)
  have hkept : Inv { s with clearing := some refs } :=
    ⟨⟨h.safe.null, fun _ => hslot⟩, h.capacity, h.tick, h.fresh, h.running, h.registered⟩
  rw [dropRef]
  by_cases hh : p ∈ refs ∨ s.wheel.held p
  · rw [if_pos hh]
    exact hkept
  · rw [if_neg hh]
    cases hp : s.wheel.heap p with
    | none => exact hkept
    | some pt =>
      have hreg : ∀ {id q}, s.wheel.timers id = some q → ∃ qt, s.wheel.heap q = some qt ∧ qt.id = id := by
        intro id q ht
        refine (h.registered ht).resolve_right fun ⟨qt, e, _⟩ => ?_
        rw [hr] at e
        cases e
      by_cases hcan : pt.canceled = true
      · simp only [if_pos hcan]
        refine ⟨⟨h.safe.null, fun _ => hslot⟩, h.capacity, h.tick, fun hq => (h.fresh_update hq).2,
          fun e => ?_, fun {id q} ht => ?_⟩
        · rw [hr] at e
          cases e
        · change Function.update s.wheel.timers pt.id none id = some q at ht
          have hid : id ≠ pt.id := fun e => by rw [e, Function.update_self] at ht; cases ht
          rw [Function.update_of_ne hid] at ht
          obtain ⟨qt, hqt, e⟩ := hreg ht
          have hne : q ≠ p := fun e' => hid (by rw [e', hp] at hqt; cases hqt; exact e.symm)
          exact .inl ⟨qt, (Function.update_of_ne hne ..).trans hqt, e⟩
      · simp only [if_neg hcan]
        refine ⟨⟨h.safe.null, fun _ => hslot⟩, h.capacity, h.tick, fun hq => (h.fresh_update hq).2,
          fun {q qt} e => ?_, fun {id q} ht => ?_⟩
        · cases e
          exact ⟨Function.update_self .., h.fresh (by rw [hp]; exact Option.some_ne_none _)⟩
        · obtain ⟨qt, hqt, e⟩ := hreg ht
          by_cases hq : q = p
          · subst hq
            rw [hp] at hqt
            cases hqt
            exact .inr ⟨pt, rfl, e⟩
          · exact .inl ⟨qt, (Function.update_of_ne hq ..).trans hqt, e⟩

theorem Inv.returns (h : s.Inv) {r : Nat × TimerTask τ} (hr : s.running = some r) :
    Inv { s with wheel := s.wheel.removeTimer r.2.id, running := none } where
  safe := ⟨h.safe.null, h.safe.slot⟩
  capacity := h.capacity
  tick := h.tick
  fresh := h.fresh
  running e := by cases e
  registered {id p} ht := by
    change Function.update s.wheel.timers r.2.id none id = some p at ht
    have hid : id ≠ r.2.id := fun e => by rw [e, Function.update_self] at ht; cases ht
    rw [Function.update_of_ne hid] at ht
    refine .inl ((h.registered ht).resolve_right fun ⟨pt, e, hpt⟩ => hid ?_)
    rw [hr] at e
    cases e
    exact hpt.symm

theorem Inv.cleared (h : s.Inv) : Inv { s with clearing := none } :=
  ⟨⟨h.safe.null, fun hs => absurd rfl hs⟩, h.capacity, h.tick, h.fresh, h.running, h.registered⟩

/-! ## Runs -/

theorem Inv.next (h : s.Inv) {a : Step τ} (hn : s.next a s') (hc : s.Harmless a) : s'.Inv := by
  have hs := next_cases hn
  cases a with
  | timerAdd id delay cb =>
    obtain ⟨-, rfl⟩ := hs
    exact h.timerAdd hc
  | timerRefresh id => exact h.timerRefresh hs.2 hc
  | timerCancel id =>
    obtain ⟨-, rfl⟩ := hs
    exact h.timerCancel id
  | runTimerTask =>
    obtain ⟨-, hr, rfl⟩ := hs
    exact h.runTimerTask hr _
  | drop =>
    obtain ⟨p, refs, hcl, hr, rfl⟩ := hs
    exact h.drop hr hcl
  | returns =>
    obtain ⟨r, hr, rfl⟩ := hs
    exact h.returns hr
  | cleared =>
    obtain ⟨-, -, rfl⟩ := hs
    exact h.cleared

theorem Inv.harmless (h : s.Inv) {a : Step τ} (hn : s.next a s') (hs : s'.Safe) : s.Harmless a := by
  have hn := next_cases hn
  cases a with
  | timerAdd id delay cb =>
    obtain ⟨-, rfl⟩ := hn
    exact h.harmless_timerAdd hs
  | timerRefresh id => exact h.harmless_timerRefresh hn.2 hs
  | timerCancel | runTimerTask | drop | returns | cleared => trivial

/-- Over every run, nothing is pushed into a slot that is cleared and no null
pointer dereferenced if and only if every call is harmless. -/
theorem safe_iff_harmless (steps : List (Step τ)) :
    Run.Throughout next Safe steps new ↔ Run.Meets next Harmless steps new := by
  have hI : ∀ s : Reentrant τ, s.Inv → s.Safe := fun _ h => h.safe
  have hC : ∀ (s : Reentrant τ) (a : Step τ) (s' : Reentrant τ), s.Inv → s.next a s' → s.Harmless a →
      s'.Inv := fun _ _ _ h hn hc => h.next hn hc
  have hP : ∀ (s : Reentrant τ) (a : Step τ) (s' : Reentrant τ), s.Inv → s.next a s' → s'.Safe →
      s.Harmless a := fun _ _ _ h hn hs => h.harmless hn hs
  exact Run.throughout_iff hI hC hP steps new new_inv

/-- A callback that refreshes its own task. -/
theorem ownRefresh_null : ¬ ∀ steps : List (Step Unit), Run.Throughout next Safe steps new := by
  intro h
  have h := h [.timerAdd 1 1 (), .runTimerTask, .drop, .timerRefresh 1]
  obtain ⟨-, h⟩ := h
  obtain ⟨-, h⟩ := h _ rfl
  obtain ⟨-, h⟩ := h _ rfl
  obtain ⟨-, h⟩ := h _ rfl
  have h : Safe _ := h _ rfl
  exact absurd h.null (by decide)

/-! ## Callbacks that call nothing -/

/-- `clear()` goes on, with callbacks that call nothing. -/
def Clears (s s' : Reentrant τ) : Prop := s.next .drop s' ∨ s.next .returns s'

theorem drop_clears (w : TimerWheel τ) (n : Bool) (p : Nat) (refs : List Nat) :
    Relation.ReflTransGen Clears ⟨w, some (p :: refs), none, n⟩
      ⟨if p ∈ refs ∨ w.held p then w else (w.destroy p).1, some refs, none, n⟩ := by
  have hdrop : Clears ⟨w, some (p :: refs), none, n⟩ (dropRef ⟨w, some (p :: refs), none, n⟩ p refs) :=
    .inl rfl
  refine .head hdrop ?_
  simp only [dropRef, destroy]
  by_cases hh : p ∈ refs ∨ w.held p
  · simp only [if_pos hh]
    exact .refl
  · simp only [if_neg hh]
    cases w.heap p with
    | none => exact .refl
    | some pt =>
      by_cases hc : pt.canceled = true
      · simp only [if_pos hc]
        exact .refl
      · simp only [if_neg hc]
        exact .single (.inr rfl)

theorem clearRefs_clears (n : Bool) (refs : List Nat) : ∀ w : TimerWheel τ,
    Relation.ReflTransGen Clears ⟨w, some refs, none, n⟩ ⟨(clearRefs refs w).1, some [], none, n⟩ := by
  induction refs with
  | nil => exact fun _ => .refl
  | cons p refs ih =>
    intro w
    refine (drop_clears w n p refs).trans ?_
    rw [clearRefs]
    by_cases hh : p ∈ refs ∨ w.held p
    · rw [if_pos hh, if_pos hh]
      exact ih w
    · rw [if_neg hh, if_neg hh]
      exact ih _

/-- The steps of such a tick are `RunTimerTask` of the wheel. -/
theorem runTimerTask_clears (w : TimerWheel τ) (n : Bool) : ∃ s₁ s₂ : Reentrant τ,
    next ⟨w, none, none, n⟩ .runTimerTask s₁ ∧ Relation.ReflTransGen Clears s₁ s₂ ∧
      s₂.next .cleared ⟨w.runTimerTask.1, none, none, n⟩ :=
  ⟨_, _, rfl, clearRefs_clears n _ w.advanced, rfl⟩

end Reentrant

end Mudou.TimerWheel
