import Mathlib.Logic.Function.Basic
import Mathlib.Logic.Relation

/-!
# The task pool of an event loop

`EventLoop::Start`, `RunAllTask`, `QueueInLoop`, `ReadEventfd` and
`WeakUpEventFd` of `source/server.hpp`, with any number of producer threads.
A push (under the mutex), a write of the eventfd, a read of it and the swap of
the task vector are one step each; between a push and its write any thread
may run.

The invariant (`Inv`): the pushed tasks are those run, those swapped out and
those still queued, in this order (`order`); and from the swap until the
handlers of the next poll, queued tasks mean a positive eventfd counter or a
thread between its push and its write (`awake`).
-/

namespace Mudou.TaskPool

/-- A descriptor that `Poll` returned: the eventfd, or another one. -/
inductive Active where
  | eventFd
  | other
  deriving DecidableEq

/-- Where the loop thread goes on when the callback it runs returns. -/
inductive Cont (τ : Type) where
  | handle (actives : List Active)
  | run (functor : List τ)

/-- Where the loop thread is in `Start`. -/
inductive LoopPc (τ : Type) where
  /-- about to call `Poll` -/
  | poll
  /-- between two calls of `HandleEvent` -/
  | handle (actives : List Active)
  /-- in `RunAllTask`, between two tasks it swapped out -/
  | run (functor : List τ)
  /-- in the code of a handler or a task -/
  | code (k : Cont τ)
  /-- in the `QueueInLoop` such code called, between the push and the write -/
  | wakeUp (k : Cont τ)

def Cont.pc {τ : Type} : Cont τ → LoopPc τ
  | .handle actives => .handle actives
  | .run functor => .run functor

/-- The pool, the eventfd's counter and the threads; `pushed` and `executed`
record the history. -/
structure Pool (ι τ : Type) where
  tasks : List τ
  eventFd : Nat
  /-- the producer has pushed a task and not yet written the eventfd -/
  waking : ι → Bool
  loop : LoopPc τ
  pushed : List τ
  executed : List τ

variable {ι τ : Type}

def init : Pool ι τ := ⟨[], 0, fun _ => false, .poll, [], []⟩

/-- `_tasks.push_back` under the mutex. -/
def Pool.push (s : Pool ι τ) (t : τ) : Pool ι τ :=
  { s with tasks := s.tasks ++ [t], pushed := s.pushed ++ [t] }

variable [DecidableEq ι]

inductive Step : Pool ι τ → Pool ι τ → Prop where
  | push (s : Pool ι τ) (i : ι) (t : τ) : s.waking i = false →
      Step s { s.push t with waking := Function.update s.waking i true }
  | weakUpEventFd (s : Pool ι τ) (i : ι) : s.waking i = true →
      Step s { s with eventFd := s.eventFd + 1, waking := Function.update s.waking i false }
  /-- `epoll_wait` returns descriptors that are ready, none if interrupted. -/
  | poll (s : Pool ι τ) (actives : List Active) : s.loop = .poll →
      (.eventFd ∈ actives → 0 < s.eventFd) → Step s { s with loop := .handle actives }
  | readEventfd (s : Pool ι τ) (actives : List Active) : s.loop = .handle (.eventFd :: actives) →
      Step s { s with eventFd := 0, loop := .handle actives }
  | handler (s : Pool ι τ) (actives : List Active) : s.loop = .handle (.other :: actives) →
      Step s { s with loop := .code (.handle actives) }
  /-- The end of the handlers: `RunAllTask` swaps the task vector. -/
  | swap (s : Pool ι τ) : s.loop = .handle [] → Step s { s with tasks := [], loop := .run s.tasks }
  | task (s : Pool ι τ) (t : τ) (functor : List τ) : s.loop = .run (t :: functor) →
      Step s { s with loop := .code (.run functor), executed := s.executed ++ [t] }
  | loopPush (s : Pool ι τ) (k : Cont τ) (t : τ) : s.loop = .code k →
      Step s { s.push t with loop := .wakeUp k }
  | loopWeakUpEventFd (s : Pool ι τ) (k : Cont τ) : s.loop = .wakeUp k →
      Step s { s with eventFd := s.eventFd + 1, loop := .code k }
  | ret (s : Pool ι τ) (k : Cont τ) : s.loop = .code k → Step s { s with loop := k.pc }
  | again (s : Pool ι τ) : s.loop = .run [] → Step s { s with loop := .poll }

/-- The states of any interleaving of the producers and the loop thread. -/
def Reachable (s : Pool ι τ) : Prop := Relation.ReflTransGen Step init s

/-! ## The invariant -/

/-- The tasks swapped out and not yet run. -/
def LoopPc.functor : LoopPc τ → List τ
  | .run fs | .code (.run fs) | .wakeUp (.run fs) => fs
  | _ => []

/-- Whether the loop thread is past the swap of its iteration and before the
handlers of the next. -/
def LoopPc.swapped : LoopPc τ → Bool
  | .poll | .run _ | .code (.run _) | .wakeUp (.run _) => true
  | _ => false

def LoopPc.isWakeUp : LoopPc τ → Bool
  | .wakeUp _ => true
  | _ => false

/-- A wake-up is certain: it is in the eventfd, or a thread is about to write
it. -/
def Pool.Awake (s : Pool ι τ) : Prop :=
  0 < s.eventFd ∨ (∃ i, s.waking i = true) ∨ s.loop.isWakeUp = true

structure Inv (s : Pool ι τ) : Prop where
  order : s.pushed = s.executed ++ s.loop.functor ++ s.tasks
  awake : s.loop.swapped = true → s.tasks ≠ [] → s.Awake

omit [DecidableEq ι] in
theorem init_inv : Inv (init : Pool ι τ) where
  order := rfl
  awake _ h := absurd rfl h

/-- Returning from a callback leaves what is swapped out. -/
theorem Cont.functor_pc (k : Cont τ) :
    k.pc.functor = (LoopPc.code k).functor ∧ k.pc.swapped = (LoopPc.code k).swapped ∧
      (LoopPc.wakeUp k).functor = (LoopPc.code k).functor ∧
      (LoopPc.wakeUp k).swapped = (LoopPc.code k).swapped := by
  cases k <;> exact ⟨rfl, rfl, rfl, rfl⟩

theorem step_inv {s s' : Pool ι τ} (h : Step s s') (hi : Inv s) : Inv s' := by
  cases h with
  | push i t _ =>
    refine ⟨?_, fun _ _ => .inr (.inl ⟨i, Function.update_self ..⟩)⟩
    simp only [Pool.push, hi.order, List.append_assoc]
  | weakUpEventFd i _ => exact ⟨hi.order, fun _ _ => .inl (Nat.succ_pos _)⟩
  | poll actives hl _ => exact ⟨by rw [hi.order, hl]; rfl, fun h => nomatch h⟩
  | readEventfd actives hl => exact ⟨by rw [hi.order, hl]; rfl, fun h => nomatch h⟩
  | handler actives hl => exact ⟨by rw [hi.order, hl]; rfl, fun h => nomatch h⟩
  | swap hl =>
    refine ⟨?_, fun _ h => absurd rfl h⟩
    rw [hi.order, hl]
    simp [LoopPc.functor]
  | task t functor hl =>
    refine ⟨?_, fun _ ht => ?_⟩
    · rw [hi.order, hl]
      simp [LoopPc.functor]
    · rcases hi.awake (by rw [hl]; rfl) ht with h | h | h
      · exact .inl h
      · exact .inr (.inl h)
      · rw [hl] at h; cases h
  | loopPush k t hl =>
    refine ⟨?_, fun _ _ => .inr (.inr rfl)⟩
    simp only [Pool.push, hi.order, hl, List.append_assoc, (Cont.functor_pc k).2.2.1]
  | loopWeakUpEventFd k hl =>
    refine ⟨?_, fun _ _ => .inl (Nat.succ_pos _)⟩
    simp only [hi.order, hl, (Cont.functor_pc k).2.2.1]
  | ret k hl =>
    refine ⟨by simp only [hi.order, hl, (Cont.functor_pc k).1], fun hs ht => ?_⟩
    rcases hi.awake (by rw [hl, ← (Cont.functor_pc k).2.1]; exact hs) ht with h | h | h
    · exact .inl h
    · exact .inr (.inl h)
    · rw [hl] at h; cases h
  | again hl =>
    refine ⟨by rw [hi.order, hl]; rfl, fun _ ht => ?_⟩
    rcases hi.awake (by rw [hl]; rfl) ht with h | h | h
    · exact .inl h
    · exact .inr (.inl h)
    · rw [hl] at h; cases h

theorem Reachable.inv {s : Pool ι τ} (h : Reachable s) : Inv s := by
  induction h with
  | refl => exact init_inv
  | tail _ hs ih => exact step_inv hs ih

/-! ## Exactly once, in order, no lost wake-up -/

/-- The loop is about to block although tasks are queued, and nobody is about
to wake it. -/
def LostWakeUp (s : Pool ι τ) : Prop :=
  s.loop = .poll ∧ s.tasks ≠ [] ∧ s.eventFd = 0 ∧ ∀ i, s.waking i = false

theorem Reachable.not_lostWakeUp {s : Pool ι τ} (h : Reachable s) : ¬ LostWakeUp s := by
  intro ⟨hl, ht, he, hw⟩
  rcases h.inv.awake (by rw [hl]; rfl) ht with h | ⟨i, h⟩ | h
  · omega
  · rw [hw i] at h; cases h
  · rw [hl] at h; cases h

theorem executed_prefix_and_no_lostWakeUp {s : Pool ι τ} (h : Reachable s) :
    s.executed <+: s.pushed ∧ ¬ LostWakeUp s := by
  refine ⟨?_, h.not_lostWakeUp⟩
  rw [h.inv.order, List.append_assoc]
  exact List.prefix_append ..

/-- Two producers push before either has written the eventfd. -/
theorem executed_prefix_and_no_lostWakeUp_two :
    let s : Pool Bool Nat := ⟨[7, 8], 0, Function.update (Function.update (fun _ => false) false true)
      true true, .poll, [7, 8], []⟩
    s.executed <+: s.pushed ∧ ¬ LostWakeUp s := by
  have h₁ := Step.push (init : Pool Bool Nat) false 7 rfl
  have h₂ := Step.push ⟨[7], 0, Function.update (fun _ => false) false true, .poll, [7], []⟩ true 8
    (by decide)
  exact executed_prefix_and_no_lostWakeUp ((Relation.ReflTransGen.single h₁).tail h₂)

/-- A loop that blocks with nobody about to wake it has run all that was
pushed. -/
theorem executed_eq_pushed_of_blocked {s : Pool ι τ} (h : Reachable s) (hl : s.loop = .poll)
    (he : s.eventFd = 0) (hw : ∀ i, s.waking i = false) : s.executed = s.pushed := by
  have ht : s.tasks = [] := by
    by_contra ht
    exact h.not_lostWakeUp ⟨hl, ht, he, hw⟩
  rw [h.inv.order, hl, ht]
  simp [LoopPc.functor]

end Mudou.TaskPool
