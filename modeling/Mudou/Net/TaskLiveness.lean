import Mudou.Lib.WorkLoop
import Mudou.TaskPool

/-!
# Every task is run

`Fair` is what the loop of `EventLoop::Start` and its task pool need of the
scheduler, of `epoll_wait` and of the user: threads go on, `Poll` returns when
the eventfd can be read, and callbacks return. In every such run without end,
whatever the producers and the callbacks push and when, every task that is
pushed is run (`executed_of_fair`). With `executed_prefix_and_no_lostWakeUp` it
is run once, and in the order of the pushes.

The loop is a `WorkLoop` (`step_work`). What it adds to it is that `Poll` does
not wait for ever while tasks are queued: one of them comes with a wake-up
(`Fair.polled`).
-/

namespace Mudou.TaskPool

open Endless

variable {ι τ : Type} [DecidableEq ι]

/-- The loop's thread runs a callback and is to go on with `k`. -/
def Pool.InCode (k : Cont τ) (s : Pool ι τ) : Prop := s.loop = .code k ∨ s.loop = .wakeUp k

structure Fair (r : Nat → Pool ι τ) : Prop where
  start : r 0 = init
  trace : Trace Step r
  /-- the loop's thread goes on with the channels or tasks it has -/
  goesOn (k : Cont τ) : LeadsTo r (fun s => s.loop = k.pc) fun s => ¬ s.loop = k.pc
  /-- a callback returns -/
  returns (k : Cont τ) : LeadsTo r (Pool.InCode k) fun s => ¬ s.InCode k
  /-- `Poll` does not block while the eventfd can be read -/
  polls : LeadsTo r (fun s => s.loop = .poll ∧ 0 < s.eventFd) fun s => ¬ s.loop = .poll
  /-- a producer that has pushed a task writes the eventfd -/
  wakes (i : ι) : LeadsTo r (fun s => s.waking i = true) fun s => ¬ s.waking i = true

/-! ## Steps -/

def Cont.next : Cont τ → WorkLoop.Next Active τ
  | .handle actives => .handle actives
  | .run functor => .run functor

def LoopPc.phase : LoopPc τ → WorkLoop.Phase Active τ
  | .poll => .go .poll
  | .handle actives => .go (.handle actives)
  | .run functor => .go (.run functor)
  | .code k | .wakeUp k => .code k.next

def Pool.work (s : Pool ι τ) : WorkLoop Active τ := ⟨s.loop.phase, s.tasks, s.pushed, s.executed⟩

theorem step_work {s s' : Pool ι τ} (h : Step s s') : s'.work = s.work ∨ WorkLoop.Step s.work s'.work := by
  have hphase : ∀ {pc}, s.loop = pc → s.work.phase = pc.phase := fun hl => congrArg LoopPc.phase hl
  cases h with
  | push i t _ => exact .inr (.push t)
  | weakUpEventFd i _ => exact .inl rfl
  | poll actives hl _ => exact .inr (.poll actives (hphase hl))
  | readEventfd actives hl => exact .inr (.handled _ actives (hphase hl))
  | handler actives hl => exact .inr (.handler _ actives (hphase hl))
  | swap hl => exact .inr (.swap (hphase hl))
  | task t functor hl => exact .inr (.item t functor (hphase hl))
  | loopPush k t hl =>
    have hp := WorkLoop.Step.push (s := s.work) t
    rw [hphase hl] at hp
    exact .inr hp
  | loopWeakUpEventFd k hl => exact .inl (by simp [Pool.work, hl, LoopPc.phase])
  | ret k hl =>
    have hk : k.pc.phase = .go k.next := by cases k <;> rfl
    have hr := WorkLoop.Step.ret k.next (hphase hl)
    rw [← hk] at hr
    exact .inr hr
  | again hl => exact .inr (.again (hphase hl))

/-- The thread is in one place with each phase, or in the code of a callback. -/
theorem phase_eq (pc : LoopPc τ) : (pc.phase = .go .poll ↔ pc = .poll) ∧
    (∀ k : Cont τ, pc.phase = .go k.next ↔ pc = k.pc) ∧
      ∀ k : Cont τ, pc.phase = .code k.next ↔ pc = .code k ∨ pc = .wakeUp k := by
  have hnext : ∀ k k' : Cont τ, k.next = k'.next ↔ k = k' := by
    intro k k'
    cases k <;> cases k' <;> simp [Cont.next]
  refine ⟨?_, fun k => ?_, fun k => ?_⟩
  · cases pc <;> simp [LoopPc.phase]
  · cases k <;> cases pc <;> simp [LoopPc.phase, Cont.next, Cont.pc]
  · cases pc <;> simp [LoopPc.phase, hnext]

/-- A producer that is done has written the eventfd. -/
theorem step_waking {s s' : Pool ι τ} (h : Step s s') {i : ι} (hi : s.waking i = true) (hi' : ¬ s'.waking i = true) :
    0 < s'.eventFd := by
  cases h with
  | weakUpEventFd j _ => exact Nat.succ_pos _
  | push j t hj =>
    have hne : i ≠ j := fun e => by rw [e, hj] at hi; cases hi
    exact absurd ((Function.update_of_ne hne ..).trans hi) hi'
  | poll | readEventfd | handler | swap | task | loopPush | loopWeakUpEventFd | ret | again => exact absurd hi hi'

/-! ## Where a run comes to -/

namespace Fair

variable {r : Nat → Pool ι τ} (h : Fair r)
include h

theorem inv (n : Nat) : Inv (r n) :=
  h.trace.inv (h.start ▸ init_inv) (fun _ _ hi hs => step_inv hs hi) n

theorem goesOn_phase (p : WorkLoop.Phase Active τ) (hp : p ≠ .go .poll) :
    LeadsTo r (fun s => s.loop.phase = p) fun s => ¬ s.loop.phase = p := by
  have hgo : ∀ k : Cont τ, LeadsTo r (fun s => s.loop.phase = .go k.next) fun s => ¬ s.loop.phase = .go k.next :=
    fun k => (h.goesOn k).mono (fun s => ((phase_eq s.loop).2.1 k).mp) fun s => mt ((phase_eq s.loop).2.1 k).mp
  have hcode : ∀ k : Cont τ, LeadsTo r (fun s => s.loop.phase = .code k.next) fun s =>
      ¬ s.loop.phase = .code k.next := fun k =>
    (h.returns k).mono (fun s => ((phase_eq s.loop).2.2 k).mp) fun s => mt ((phase_eq s.loop).2.2 k).mp
  cases p with
  | go k =>
    cases k with
    | poll => exact absurd rfl hp
    | handle actives => exact hgo (.handle actives)
    | run functor => exact hgo (.run functor)
  | code k =>
    cases k with
    | poll =>
      intro n e
      cases hl : (r n).loop with
      | poll | handle | run => simp [hl, LoopPc.phase] at e
      | code k | wakeUp k => cases k <;> simp [hl, LoopPc.phase, Cont.next] at e
    | handle actives => exact hcode (.handle actives)
    | run functor => exact hcode (.run functor)

/-- With tasks queued, `Poll` returns: one of them comes with a wake-up. -/
theorem polled : LeadsTo r (fun s => s.loop = .poll ∧ s.tasks ≠ []) fun s => ¬ s.loop = .poll := by
  intro n hp
  by_contra hno
  have hall : ∀ m, n ≤ m → (r m).loop = .poll := fun m hm => by_contra fun hq => hno ⟨m, hm, hq⟩
  have hzero : ∀ m, n ≤ m → ¬ 0 < (r m).eventFd := fun m hm he => by
    obtain ⟨k, hk, hq⟩ := h.polls m ⟨hall m hm, he⟩
    exact hq (hall k (Nat.le_trans hm hk))
  rcases (h.inv n).awake (by rw [hp.1]; rfl) hp.2 with he | ⟨i, hi⟩ | hl
  · exact hzero n (Nat.le_refl n) he
  · obtain ⟨m, hm, hw⟩ := h.wakes i n hi
    obtain ⟨k, hk, hik, hik', hstep⟩ := h.trace.exists_step (P := fun s => s.waking i = true) hm hi hw
    exact hzero (k + 1) (Nat.le_succ_of_le hk) (step_waking hstep hik hik')
  · rw [hp.1] at hl
    cases hl

theorem work : WorkLoop.Fair fun n => (r n).work where
  start := by
    rw [h.start]
    rfl
  trace n := by
    rcases h.trace n with hs | e
    · exact (step_work hs).symm
    · exact .inr (congrArg Pool.work e)
  goesOn := h.goesOn_phase
  polls n hp := by
    obtain ⟨m, hm, hq⟩ := h.polled n ⟨(phase_eq _).1.mp hp.1, hp.2⟩
    exact ⟨m, hm, mt (phase_eq _).1.mp hq⟩

end Fair

/-- In every fair run, whatever is pushed at any moment has later been run, in
the order of the pushes. -/
theorem executed_of_fair {r : Nat → Pool ι τ} (h : Fair r) (n : Nat) :
    ∃ m, n ≤ m ∧ (r n).pushed <+: (r m).executed :=
  h.work.executed n

/-- A producer has pushed a task and written the eventfd. -/
def woken : Pool Unit Nat :=
  ⟨[7], 1, Function.update (Function.update (fun _ => false) () true) () false, .poll, [7], []⟩

/-- The loop waits in `Poll` until a task is pushed. -/
def oneTask : Nat → Pool Unit Nat
  | 0 => init
  | 1 => { (init : Pool Unit Nat).push 7 with waking := Function.update (fun _ => false) () true }
  | 2 => woken
  | 3 => { woken with loop := .handle [.eventFd] }
  | 4 => { woken with eventFd := 0, loop := .handle [] }
  | 5 => { woken with tasks := [], eventFd := 0, loop := .run [7] }
  | 6 => { woken with tasks := [], eventFd := 0, loop := .code (.run []), executed := [7] }
  | 7 => { woken with tasks := [], eventFd := 0, loop := .run [], executed := [7] }
  | _ + 8 => { woken with tasks := [], eventFd := 0, executed := [7] }

theorem oneTask_trace : Trace Step oneTask
  | 0 => .inl (.push _ () 7 rfl)
  | 1 => .inl (.weakUpEventFd _ () rfl)
  | 2 => .inl (.poll _ _ rfl fun _ => Nat.one_pos)
  | 3 => .inl (.readEventfd _ _ rfl)
  | 4 => .inl (.swap _ rfl)
  | 5 => .inl (.task _ _ _ rfl)
  | 6 => .inl (.ret _ (.run []) rfl)
  | 7 => .inl (.again _ rfl)
  | _ + 8 => .inr rfl

theorem oneTask_fair : Fair oneTask where
  start := rfl
  trace := oneTask_trace
  goesOn k n _ := ⟨n + 8, Nat.le_add_right .., fun e => by cases k <;> cases e⟩
  returns k n _ := ⟨n + 8, Nat.le_add_right .., by simp [oneTask, Pool.InCode, woken]⟩
  polls
    | 0, hp | 1, hp | _ + 8, hp => absurd hp.2 (Nat.lt_irrefl 0)
    | 2, _ => ⟨3, by decide, by simp [oneTask]⟩
    | 3, _ | 4, _ | 5, _ | 6, _ | 7, _ => ⟨_, Nat.le_refl _, by simp [oneTask]⟩
  wakes i n _ := ⟨n + 8, Nat.le_add_right .., Bool.noConfusion⟩

theorem executed_of_fair_oneTask : ∃ m, 1 ≤ m ∧ [7] <+: (oneTask m).executed :=
  executed_of_fair oneTask_fair 1

end Mudou.TaskPool
