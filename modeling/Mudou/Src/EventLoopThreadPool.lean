import Mathlib.Data.List.Count
import Mudou.Lib.RoundRobin

/-!
# The pool of event loops

`EventLoopThreadPool` of `src/`. The loop that the `k`-th thread's `startLoop`
returns is `loop k` (`EventLoopThread`); the thread names and the init callback
are left out. `getNextLoop` counts `next_` up and sets it back at the end of
`loops_`, whose size may grow with a later `start`: it never reads outside, and
from any state it takes the loops in turns (`run_balanced`).
-/

namespace Mudou.Src

open RoundRobin

structure EventLoopThreadPool (α : Type) where
  baseLoop : α
  started : Bool
  numThreads : Int
  next : Nat
  loops : List α

namespace EventLoopThreadPool

variable {α : Type}

def new (baseLoop : α) : EventLoopThreadPool α := ⟨baseLoop, false, 0, 0, []⟩

def setThreadNum (p : EventLoopThreadPool α) (numThreads : Int) : EventLoopThreadPool α := { p with numThreads }

def start (loop : Nat → α) (p : EventLoopThreadPool α) : EventLoopThreadPool α :=
  { p with
    started := true
    loops := p.loops ++ (List.range p.numThreads.toNat).map fun i => loop (p.loops.length + i) }

/-- `none` outside of `loops_`. -/
def getNextLoop (p : EventLoopThreadPool α) : Option (α × EventLoopThreadPool α) :=
  if p.loops = [] then some (p.baseLoop, p)
  else
    (p.loops[p.next]?).map fun l =>
      let next := p.next + 1
      (l, { p with next := if p.loops.length ≤ next then 0 else next })

def getAllLoops (p : EventLoopThreadPool α) : List α := if p.loops = [] then [p.baseLoop] else p.loops

/-- One call after the other. -/
def getNextLoops : Nat → EventLoopThreadPool α → Option (List α × EventLoopThreadPool α)
  | 0, p => some ([], p)
  | m + 1, p => do
    let (l, p) ← p.getNextLoop
    let (ls, p) ← getNextLoops m p
    some (l :: ls, p)

inductive Op where
  | setThreadNum (numThreads : Int)
  | start
  | getNextLoop

def Op.exec (loop : Nat → α) (p : EventLoopThreadPool α) : Op → Option (EventLoopThreadPool α)
  | .setThreadNum numThreads => some (p.setThreadNum numThreads)
  | .start => some (p.start loop)
  | .getNextLoop => p.getNextLoop.map Prod.snd

def run (loop : Nat → α) : List Op → EventLoopThreadPool α → Option (EventLoopThreadPool α)
  | [], p => some p
  | op :: ops, p => do run loop ops (← op.exec loop p)

/-- Any number of calls in a row return loops of the pool, spread evenly. -/
def Balanced [DecidableEq α] (p : EventLoopThreadPool α) : Prop :=
  ∀ m, ∃ ls p', p.getNextLoops m = some (ls, p') ∧ ls.length = m ∧ (∀ l ∈ ls, l ∈ p.getAllLoops) ∧
    ∀ l ∈ p.getAllLoops, m / p.getAllLoops.length ≤ ls.count l ∧ ls.count l ≤ m / p.getAllLoops.length + 1

/-! ## The counter -/

structure Inv (loop : Nat → α) (p : EventLoopThreadPool α) : Prop where
  loops : p.loops = (List.range p.loops.length).map loop
  next : p.next = 0 ∨ p.next < p.loops.length

variable {loop : Nat → α} {p p' : EventLoopThreadPool α}

theorem Inv.start (h : p.Inv loop) : (p.start loop).Inv loop := by
  have hlen : (p.start loop).loops.length = p.loops.length + p.numThreads.toNat := by
    simp [EventLoopThreadPool.start]
  refine ⟨?_, h.next.imp_right fun hlt => hlen ▸ Nat.lt_add_right _ hlt⟩
  rw [hlen, List.range_add, List.map_append, ← h.loops, List.map_map]
  rfl

theorem Inv.next_lt (h : p.Inv loop) (he : p.loops ≠ []) : p.next < p.loops.length := by
  have := List.length_pos_iff.mpr he
  have := h.next
  omega

theorem Inv.getNextLoop (h : p.Inv loop) (he : p.loops ≠ []) :
    p.getNextLoop = some (loop p.next, { p with next := (p.next + 1) % p.loops.length }) := by
  have hlt := h.next_lt he
  have hnext : (if p.loops.length ≤ p.next + 1 then 0 else p.next + 1) = (p.next + 1) % p.loops.length := by
    split
    · rw [show p.next + 1 = p.loops.length by omega, Nat.mod_self]
    · rw [Nat.mod_eq_of_lt (by omega)]
  have hloop : p.loops[p.next]? = some (loop p.next) := by
    rw [h.loops, List.getElem?_map, List.getElem?_range hlt]
    rfl
  rw [EventLoopThreadPool.getNextLoop, if_neg he, hloop, ← hnext]
  rfl

theorem Inv.turn (h : p.Inv loop) (he : p.loops ≠ []) :
    Inv loop { p with next := (p.next + 1) % p.loops.length } :=
  ⟨h.loops, .inr (Nat.mod_lt _ (List.length_pos_iff.mpr he))⟩

theorem Inv.exec (h : p.Inv loop) (op : Op) : ∃ p', op.exec loop p = some p' ∧ p'.Inv loop := by
  cases op with
  | setThreadNum numThreads => exact ⟨_, rfl, h.loops, h.next⟩
  | start => exact ⟨_, rfl, h.start⟩
  | getNextLoop =>
    by_cases he : p.loops = []
    · exact ⟨p, by rw [Op.exec, EventLoopThreadPool.getNextLoop, if_pos he]; rfl, h⟩
    · exact ⟨_, by rw [Op.exec, h.getNextLoop he]; rfl, h.turn he⟩

theorem Inv.run (ops : List Op) : ∀ {p : EventLoopThreadPool α}, p.Inv loop →
    ∃ p', run loop ops p = some p' ∧ p'.Inv loop := by
  induction ops with
  | nil => exact fun h => ⟨_, rfl, h⟩
  | cons op ops ih =>
    intro p h
    obtain ⟨p', e, h'⟩ := h.exec op
    obtain ⟨p'', e', h''⟩ := ih h'
    exact ⟨p'', by rw [EventLoopThreadPool.run, e]; exact e', h''⟩

/-! ## Turns -/

theorem getNextLoops_base (he : p.loops = []) (m : Nat) :
    p.getNextLoops m = some (List.replicate m p.baseLoop, p) := by
  induction m with
  | zero => rfl
  | succ m ih =>
    rw [getNextLoops, getNextLoop, if_pos he]
    simp only [Option.bind_eq_bind, Option.bind_some, ih, List.replicate_succ]

theorem Inv.getNextLoops (m : Nat) : ∀ {p : EventLoopThreadPool α}, p.Inv loop → p.loops ≠ [] →
    ∃ p', p.getNextLoops m = some ((turns p.loops.length p.next m).map loop, p') := by
  induction m with
  | zero => exact fun {p} _ _ => ⟨p, rfl⟩
  | succ m ih =>
    intro p h he
    obtain ⟨p', e⟩ := ih (h.turn he) he
    refine ⟨p', ?_⟩
    rw [EventLoopThreadPool.getNextLoops, h.getNextLoop he]
    simp only [Option.bind_eq_bind, Option.bind_some, e, turns_mod, turns_succ, List.map_cons,
      Nat.mod_eq_of_lt (h.next_lt he)]

theorem Inv.balanced [DecidableEq α] (h : p.Inv loop) (hl : Function.Injective loop) : p.Balanced := by
  intro m
  by_cases he : p.loops = []
  · have hall : p.getAllLoops = [p.baseLoop] := if_pos he
    refine ⟨_, p, getNextLoops_base he m, List.length_replicate, fun l hm => ?_, fun l hm => ?_⟩
    · rw [hall, (List.mem_replicate.mp hm).2]
      exact List.mem_singleton_self _
    · rw [hall] at hm ⊢
      rw [List.mem_singleton.mp hm, List.count_replicate_self, List.length_singleton, Nat.div_one]
      exact ⟨Nat.le_refl m, Nat.le_succ m⟩
  · have hall : p.getAllLoops = p.loops := if_neg he
    have hmem : ∀ {k}, k < p.loops.length → loop k ∈ p.loops := fun hk => by
      rw [h.loops]
      exact List.mem_map_of_mem (List.mem_range.mpr hk)
    obtain ⟨p', e⟩ := Inv.getNextLoops m h he
    refine ⟨_, p', e, by rw [List.length_map, turns, List.length_map, List.length_range], ?_, ?_⟩
    · intro l hm
      obtain ⟨k, hk, rfl⟩ := List.mem_map.mp hm
      rw [hall]
      exact hmem (mod_lt_of_mem_turns (List.length_pos_iff.mpr he) hk)
    · intro l hm
      rw [hall] at hm ⊢
      rw [h.loops] at hm
      obtain ⟨k, hk, rfl⟩ := List.mem_map.mp hm
      rw [List.count_map_of_injective _ _ hl]
      exact count_turns (List.mem_range.mp hk) _ m

/-- After any calls, also of `start` again, and from whichever turn. -/
theorem run_balanced [DecidableEq α] (hl : Function.Injective loop) (baseLoop : α) (ops : List Op) :
    ∃ p, run loop ops (new baseLoop) = some p ∧ p.Balanced := by
  have h₀ : Inv loop (new baseLoop) := ⟨rfl, .inl rfl⟩
  obtain ⟨p, e, h⟩ := Inv.run ops h₀
  exact ⟨p, e, h.balanced hl⟩

theorem run_balanced_restarted :
    ∃ p, run id [.getNextLoop, .setThreadNum 2, .start, .getNextLoop, .start] (new 9) = some p ∧ p.Balanced :=
  run_balanced Function.injective_id 9 _

end EventLoopThreadPool

end Mudou.Src
