import Mudou.Lib.WorkLoop
import Mudou.Src.EventLoop

/-!
# Every functor is run

A functor that is queued before `loop()` comes with no wake-up
(`initQueued_lost`), and the loop blocks with it. What it does not miss is the
timeout of `poll`: `Fair` asks of a run that the loop's thread goes on, out of
`poll` too, and that the code it calls returns. In every such run without end,
with or without a wake-up, whatever is queued at any moment has later been
run, in the order of the pushes (`called_of_fair`).

The loop is a `WorkLoop` (`step_work`), which does not wait for ever at all.
-/

namespace Mudou.Src.EventLoop

open Endless

variable {ι τ : Type} [DecidableEq ι]

/-- The loop's thread runs other code and is to go on with `k`. -/
def Loop.InCode (k : Cont τ) (s : Loop ι τ) : Prop := s.pc = .code k ∨ s.pc = .wakeup k

structure Fair (r : Nat → Loop ι τ) : Prop where
  start : r 0 = .new
  trace : Trace (fun s s' => ∃ op, Step s op s') r
  /-- the loop's thread goes on, from `poll` after `kPollTimeMs` at the latest -/
  goesOn (pc : Pc τ) : LeadsTo r (fun s => s.pc = pc) fun s => ¬ s.pc = pc
  /-- a handler or functor returns, and the thread's owner calls `loop()` -/
  returns (k : Cont τ) : LeadsTo r (Loop.InCode k) fun s => ¬ s.InCode k

/-! ## Steps -/

/-- The owner's code ends with the call of `loop()`. -/
def Cont.next : Cont τ → WorkLoop.Next Active τ
  | .start => .poll
  | .handle activeChannels => .handle activeChannels
  | .run functors => .run functors

def Pc.phase : Pc τ → WorkLoop.Phase Active τ
  | .poll => .go .poll
  | .handle activeChannels => .go (.handle activeChannels)
  | .swap => .go (.handle [])
  | .run functors => .go (.run functors)
  | .code k | .wakeup k => .code k.next

def Loop.work (s : Loop ι τ) : WorkLoop Active τ :=
  ⟨s.pc.phase, s.pendingFunctors, s.pushed.map Prod.snd, s.executed⟩

omit [DecidableEq ι] in
theorem work_push {s s' : Loop ι τ} {i : Option ι} {t : τ} (hp : s'.pc.phase = s.pc.phase)
    (hf : s'.pendingFunctors = s.pendingFunctors ++ [t]) (hq : s'.pushed = s.pushed ++ [(i, t)])
    (he : s'.executed = s.executed) : WorkLoop.Step s.work s'.work := by
  have hw : s'.work = { s.work with pending := s.work.pending ++ [t], pushed := s.work.pushed ++ [t] } := by
    simp [Loop.work, hp, hf, hq, he]
  rw [hw]
  exact .push t

theorem step_work {s s' : Loop ι τ} {op : Op ι τ} (h : Step s op s') :
    s'.work = s.work ∨ WorkLoop.Step s.work s'.work := by
  have hphase : ∀ {pc}, s.pc = pc → s.work.phase = pc.phase := fun hl => congrArg Pc.phase hl
  cases h with
  | push i t _ => exact .inr (work_push rfl rfl rfl rfl)
  | wakeup i _ => exact .inl rfl
  | loop hl => exact .inr (.ret .poll (hphase hl))
  | poll activeChannels hl _ => exact .inr (.poll activeChannels (hphase hl))
  | handleRead activeChannels hl => exact .inr (.handled _ activeChannels (hphase hl))
  | handler activeChannels hl => exact .inr (.handler _ activeChannels (hphase hl))
  | callPending hl => exact .inl (by simp [Loop.work, hl, Pc.phase])
  | swap hl => exact .inr (.swap (hphase hl))
  | functor t functors hl => exact .inr (.item t functors (hphase hl))
  | queueInLoop k t hl =>
    refine .inr (work_push ?_ rfl rfl rfl)
    show (if s.callingPendingFunctors then Pc.wakeup k else .code k).phase = s.pc.phase
    rw [hl]
    split <;> rfl
  | ownWakeup k hl => exact .inl (by simp [Loop.work, hl, Pc.phase])
  | ret k hl =>
    cases k with
    | start => exact .inl (by simp [Loop.work, hl, Pc.phase, Cont.pc])
    | handle activeChannels => exact .inr (.ret (.handle activeChannels) (hphase hl))
    | run functors => exact .inr (.ret (.run functors) (hphase hl))
  | endPending hl => exact .inr (.again (hphase hl))

/-- The thread is in one place with each phase, but for the last handler and the
swap, and for the code it calls. -/
theorem phase_eq (pc : Pc τ) : (pc.phase = .go .poll ↔ pc = .poll) ∧
    (∀ a l, pc.phase = .go (.handle (a :: l)) ↔ pc = .handle (a :: l)) ∧
      (pc.phase = .go (.handle []) ↔ pc = .handle [] ∨ pc = .swap) ∧
        (∀ l, pc.phase = .go (.run l) ↔ pc = .run l) ∧
          ∀ k : Cont τ, pc.phase = .code k.next ↔ pc = .code k ∨ pc = .wakeup k := by
  have hnext : ∀ k k' : Cont τ, k.next = k'.next ↔ k = k' := by
    intro k k'
    cases k <;> cases k' <;> simp [Cont.next]
  cases pc <;> simp [Pc.phase, hnext]

/-- The last handler is followed by the swap, and that by the functors. -/
theorem step_swap {s s' : Loop ι τ} {op : Op ι τ} (h : Step s op s') (hp : s.pc.phase = .go (.handle [])) :
    s'.pc = s.pc ∨ s.pc = .handle [] ∧ s'.pc = .swap ∨ s.pc = .swap ∧ ¬ s'.pc.phase = .go (.handle []) := by
  cases h with
  | push | wakeup => exact .inl rfl
  | callPending hl => exact .inr (.inl ⟨hl, rfl⟩)
  | swap hl => exact .inr (.inr ⟨hl, by simp [Pc.phase]⟩)
  | loop hl | poll _ hl | handleRead _ hl | handler _ hl | functor _ _ hl | queueInLoop _ _ hl | ownWakeup _ hl
  | ret _ hl | endPending hl => simp [hl, Pc.phase] at hp

/-! ## Where a run comes to -/

namespace Fair

variable {r : Nat → Loop ι τ} (h : Fair r)
include h

theorem swaps : LeadsTo r (fun s => s.pc.phase = .go (.handle [])) fun s => ¬ s.pc.phase = .go (.handle []) := by
  have hcall : LeadsTo r (fun s => s.pc = .handle []) fun s => s.pc = .swap := by
    refine leadsTo_of_leaves h.trace (I := fun _ => True) (fun _ => trivial) (h.goesOn (.handle []))
      fun s s' _ hp ⟨op, hstep⟩ hn => ?_
    rcases step_swap hstep (by rw [hp]; rfl) with e | ⟨_, e⟩ | ⟨e, _⟩
    · exact absurd (e.trans hp) hn
    · exact e
    · cases hp.symm.trans e
  have hswap : LeadsTo r (fun s => s.pc = .swap) fun s => ¬ s.pc.phase = .go (.handle []) := by
    refine leadsTo_of_leaves h.trace (I := fun _ => True) (fun _ => trivial) (h.goesOn .swap)
      fun s s' _ hp ⟨op, hstep⟩ hn => ?_
    rcases step_swap hstep (by rw [hp]; rfl) with e | ⟨e, _⟩ | ⟨_, hq⟩
    · exact absurd (e.trans hp) hn
    · cases hp.symm.trans e
    · exact hq
  exact ((hcall.trans hswap).or hswap).mono (fun s => (phase_eq s.pc).2.2.1.mp) fun _ hq => hq

theorem goesOn_phase (p : WorkLoop.Phase Active τ) :
    LeadsTo r (fun s => s.pc.phase = p) fun s => ¬ s.pc.phase = p := by
  have hgo : ∀ pc : Pc τ, (∀ s : Loop ι τ, s.pc.phase = p ↔ s.pc = pc) →
      LeadsTo r (fun s => s.pc.phase = p) fun s => ¬ s.pc.phase = p := fun pc hpc =>
    (h.goesOn pc).mono (fun s => (hpc s).mp) fun s => mt (hpc s).mp
  have hcode : ∀ k : Cont τ, p = .code k.next → LeadsTo r (fun s => s.pc.phase = p) fun s => ¬ s.pc.phase = p := by
    rintro k rfl
    exact (h.returns k).mono (fun s => ((phase_eq s.pc).2.2.2.2 k).mp) fun s =>
      mt ((phase_eq s.pc).2.2.2.2 k).mp
  cases p with
  | go k =>
    cases k with
    | poll => exact hgo .poll fun s => (phase_eq s.pc).1
    | handle l =>
      cases l with
      | nil => exact h.swaps
      | cons a l => exact hgo (.handle (a :: l)) fun s => (phase_eq s.pc).2.1 a l
    | run l => exact hgo (.run l) fun s => (phase_eq s.pc).2.2.2.1 l
  | code k =>
    cases k with
    | poll => exact hcode .start rfl
    | handle l => exact hcode (.handle l) rfl
    | run l => exact hcode (.run l) rfl

theorem work : WorkLoop.Fair fun n => (r n).work where
  start := by
    rw [h.start]
    rfl
  trace n := by
    rcases h.trace n with ⟨op, hs⟩ | e
    · exact (step_work hs).symm
    · exact .inr (congrArg Loop.work e)
  goesOn p _ := h.goesOn_phase p
  polls n hp := h.goesOn_phase (.go .poll) n hp.1

end Fair

/-- In every fair run, with or without wake-ups, whatever is queued at any
moment has later been run, in the order of the pushes. -/
theorem called_of_fair {r : Nat → Loop ι τ} (h : Fair r) (n : Nat) :
    ∃ m, n ≤ m ∧ (r n).pushed.map Prod.snd <+: (r m).executed :=
  h.work.executed n

/-- Nothing is queued any more, and `poll` times out. -/
def timeouts : Nat → Loop Unit Nat
  | 0 => ⟨[], 0, false, fun _ => false, .poll, [(none, 7)], [7]⟩
  | 1 => { timeouts 0 with pc := .handle [] }
  | 2 => { timeouts 0 with callingPendingFunctors := true, pc := .swap }
  | 3 => { timeouts 0 with callingPendingFunctors := true, pc := .run [] }
  | n + 4 => timeouts n

/-- The owner queues a functor and calls `loop()`. -/
def initQueued : Nat → Loop Unit Nat
  | 0 => .new
  | 1 => (Loop.new : Loop Unit Nat).push none 7
  | 2 => { (Loop.new : Loop Unit Nat).push none 7 with pc := .poll }
  | 3 => { (Loop.new : Loop Unit Nat).push none 7 with pc := .handle [] }
  | 4 => { (Loop.new : Loop Unit Nat).push none 7 with callingPendingFunctors := true, pc := .swap }
  | 5 => { timeouts 3 with pc := .run [7], executed := [] }
  | 6 => { timeouts 3 with pc := .code (.run []) }
  | n + 7 => timeouts (n + 3)

theorem timeouts_trace : ∀ n, ∃ op, Step (timeouts n) op (timeouts (n + 1))
  | 0 => ⟨_, .poll _ [] rfl fun h => absurd h List.not_mem_nil⟩
  | 1 => ⟨_, .callPending _ rfl⟩
  | 2 => ⟨_, .swap _ rfl⟩
  | 3 => ⟨_, .endPending _ rfl⟩
  | n + 4 => timeouts_trace n

theorem timeouts_goesOn : ∀ n, (timeouts (n + 1)).pc ≠ (timeouts n).pc ∧ ∀ k, ¬ (timeouts n).InCode k
  | 0 | 1 | 2 | 3 => ⟨by simp [timeouts], by simp [timeouts, Loop.InCode]⟩
  | n + 4 => timeouts_goesOn n

theorem initQueued_trace : Trace (fun s s' => ∃ op, Step s op s') initQueued
  | 0 => .inl ⟨_, .queueInLoop _ .start 7 rfl⟩
  | 1 => .inl ⟨_, .loop _ rfl⟩
  | 2 => .inl ⟨_, .poll _ [] rfl fun h => absurd h List.not_mem_nil⟩
  | 3 => .inl ⟨_, .callPending _ rfl⟩
  | 4 => .inl ⟨_, .swap _ rfl⟩
  | 5 => .inl ⟨_, .functor _ 7 [] rfl⟩
  | 6 => .inl ⟨_, .ret _ (.run []) rfl⟩
  | n + 7 => .inl (timeouts_trace (n + 3))

theorem initQueued_fair : Fair initQueued where
  start := rfl
  trace := initQueued_trace
  goesOn pc n hp := by
    by_contra hno
    have hall : ∀ m, n ≤ m → (initQueued m).pc = pc := fun m hm => by_contra fun hq => hno ⟨m, hm, hq⟩
    refine (timeouts_goesOn (n + 3)).1 ?_
    exact (hall (n + 8) (Nat.le_add_right n 8)).trans (hall (n + 7) (Nat.le_add_right n 7)).symm
  returns k n _ := ⟨n + 7, Nat.le_add_right n 7, (timeouts_goesOn (n + 3)).2 k⟩

theorem called_of_fair_initQueued : LostWakeUp (initQueued 2) ∧ ∃ m, 2 ≤ m ∧ [7] <+: (initQueued m).executed :=
  ⟨⟨rfl, List.cons_ne_nil _ _, rfl, fun _ => rfl⟩, called_of_fair initQueued_fair 2⟩

end Mudou.Src.EventLoop
