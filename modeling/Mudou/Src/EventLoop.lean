import Mathlib.Logic.Function.Basic
import Mudou.Lib.Run

/-!
# The conditional wake-up of the event loop

`EventLoop::loop`, `queueInLoop`, `handleRead`, `wakeup` and
`doPendingFunctors` of `src/EventLoop.cc`, with any number of other threads. A
push (under the mutex), a write of `wakeupFd_`, a read of it and the swap of
the functors are one step each; between a push and its write any thread may
run. The loop's own thread writes only while `callingPendingFunctors_` is set.

That is enough once the loop runs: a handler's functor is swapped out in the
same iteration. Before `loop()` it is not: `inOrder_iff` says that no wake-up
is lost in a run if and only if the owning thread queues nothing before
`loop()`, or another thread queues a functor then as well.
-/

namespace Mudou.Src.EventLoop

/-- A channel that `poll` reported: the wakeup channel, or another one. -/
inductive Active where
  | wakeup
  | other
  deriving DecidableEq

/-- Where the loop's thread goes on when the code it runs returns. -/
inductive Cont (τ : Type) where
  /-- before `loop()` -/
  | start
  | handle (activeChannels : List Active)
  | run (functors : List τ)

inductive Pc (τ : Type) where
  /-- about to call `poll` -/
  | poll
  /-- between two calls of `handleEvent` -/
  | handle (activeChannels : List Active)
  /-- in `doPendingFunctors`, about to swap -/
  | swap
  /-- in `doPendingFunctors`, between two functors it swapped out -/
  | run (functors : List τ)
  /-- in the code of the thread's owner, of a handler or of a functor -/
  | code (k : Cont τ)
  /-- in the `queueInLoop` such code called, between the push and the write -/
  | wakeup (k : Cont τ)

def Cont.pc {τ : Type} : Cont τ → Pc τ
  | .start => .code .start
  | .handle activeChannels => .handle activeChannels
  | .run functors => .run functors

/-- The loop and the threads; `pushed` and `executed` record the history, a
functor that the loop's own thread pushed with `none`. -/
structure Loop (ι τ : Type) where
  pendingFunctors : List τ
  wakeupFd : Nat
  callingPendingFunctors : Bool
  /-- the other thread is between its push and its write -/
  waking : ι → Bool
  pc : Pc τ
  pushed : List (Option ι × τ)
  executed : List τ

variable {ι τ : Type}

def Loop.new : Loop ι τ := ⟨[], 0, false, fun _ => false, .code .start, [], []⟩

/-- `pendingFunctors_.emplace_back` under the mutex. -/
def Loop.push (s : Loop ι τ) (i : Option ι) (t : τ) : Loop ι τ :=
  { s with pendingFunctors := s.pendingFunctors ++ [t], pushed := s.pushed ++ [(i, t)] }

inductive Op (ι τ : Type) where
  | push (i : ι) (t : τ)
  | wakeup (i : ι)
  | loop
  | poll (activeChannels : List Active)
  | handleRead
  | handler
  | callPending
  | swap
  | functor
  | queueInLoop (t : τ)
  | ownWakeup
  | ret
  | endPending

variable [DecidableEq ι]

inductive Step : Loop ι τ → Op ι τ → Loop ι τ → Prop where
  | push (s : Loop ι τ) (i : ι) (t : τ) : s.waking i = false →
      Step s (.push i t) { s.push (some i) t with waking := Function.update s.waking i true }
  | wakeup (s : Loop ι τ) (i : ι) : s.waking i = true →
      Step s (.wakeup i) { s with wakeupFd := s.wakeupFd + 1, waking := Function.update s.waking i false }
  | loop (s : Loop ι τ) : s.pc = .code .start → Step s .loop { s with pc := .poll }
  /-- `epoll_wait` returns channels that are ready, none after the timeout. -/
  | poll (s : Loop ι τ) (activeChannels : List Active) : s.pc = .poll →
      (.wakeup ∈ activeChannels → 0 < s.wakeupFd) →
      Step s (.poll activeChannels) { s with pc := .handle activeChannels }
  | handleRead (s : Loop ι τ) (activeChannels : List Active) : s.pc = .handle (.wakeup :: activeChannels) →
      Step s .handleRead { s with wakeupFd := 0, pc := .handle activeChannels }
  | handler (s : Loop ι τ) (activeChannels : List Active) : s.pc = .handle (.other :: activeChannels) →
      Step s .handler { s with pc := .code (.handle activeChannels) }
  | callPending (s : Loop ι τ) : s.pc = .handle [] →
      Step s .callPending { s with callingPendingFunctors := true, pc := .swap }
  | swap (s : Loop ι τ) : s.pc = .swap →
      Step s .swap { s with pendingFunctors := [], pc := .run s.pendingFunctors }
  | functor (s : Loop ι τ) (t : τ) (functors : List τ) : s.pc = .run (t :: functors) →
      Step s .functor { s with pc := .code (.run functors), executed := s.executed ++ [t] }
  /-- On the loop's own thread, a functor wakes it up only if others are being
  called. -/
  | queueInLoop (s : Loop ι τ) (k : Cont τ) (t : τ) : s.pc = .code k →
      Step s (.queueInLoop t)
        { s.push none t with pc := if s.callingPendingFunctors then .wakeup k else .code k }
  | ownWakeup (s : Loop ι τ) (k : Cont τ) : s.pc = .wakeup k →
      Step s .ownWakeup { s with wakeupFd := s.wakeupFd + 1, pc := .code k }
  | ret (s : Loop ι τ) (k : Cont τ) : s.pc = .code k → Step s .ret { s with pc := k.pc }
  | endPending (s : Loop ι τ) : s.pc = .run [] →
      Step s .endPending { s with callingPendingFunctors := false, pc := .poll }

/-! ## What is to hold -/

/-- The functors swapped out and not yet run. -/
def Pc.functors : Pc τ → List τ
  | .run fs | .code (.run fs) | .wakeup (.run fs) => fs
  | _ => []

/-- The loop is about to block although functors are pending, and nobody is
about to wake it. -/
def LostWakeUp (s : Loop ι τ) : Prop :=
  s.pc = .poll ∧ s.pendingFunctors ≠ [] ∧ s.wakeupFd = 0 ∧ ∀ i, s.waking i = false

/-- Every pushed functor has run, is swapped out or is pending, in the order of
the pushes, and no wake-up is lost. -/
structure InOrder (s : Loop ι τ) : Prop where
  order : s.executed ++ s.pc.functors ++ s.pendingFunctors = s.pushed.map Prod.snd
  awake : ¬ LostWakeUp s

/-- The owning thread has queued nothing before `loop()`, or another thread
has queued something as well. -/
def Loop.Accompanied (s : Loop ι τ) : Prop :=
  (∃ t, (none, t) ∈ s.pushed) → ∃ i t, (some i, t) ∈ s.pushed

/-! ## The invariant -/

/-- Whether `callingPendingFunctors_` is set. -/
def Pc.calling : Pc τ → Bool
  | .swap | .run _ | .code (.run _) | .wakeup (.run _) => true
  | _ => false

/-- Whether the loop's thread is past the swap of an iteration and before the
handlers of the next. -/
def Pc.swapped : Pc τ → Bool
  | .poll | .run _ | .code (.run _) | .wakeup (.run _) => true
  | _ => false

def Pc.isWakeup : Pc τ → Bool
  | .wakeup _ => true
  | _ => false

/-- A wake-up is certain. -/
def Loop.Awake (s : Loop ι τ) : Prop :=
  0 < s.wakeupFd ∨ (∃ i, s.waking i = true) ∨ s.pc.isWakeup = true

structure Inv (s : Loop ι τ) : Prop where
  order : s.executed ++ s.pc.functors ++ s.pendingFunctors = s.pushed.map Prod.snd
  calling : s.callingPendingFunctors = s.pc.calling
  wakes : s.pc.isWakeup = true → s.callingPendingFunctors = true
  awake : s.pc.swapped = true → s.pendingFunctors ≠ [] → s.Awake
  /-- before `loop()`, only the other threads' functors are a wake-up -/
  start : s.pc = .code .start → s.executed = [] ∧
    (0 < s.wakeupFd ∨ (∃ i, s.waking i = true) ↔ ∃ i t, (some i, t) ∈ s.pushed)

omit [DecidableEq ι]

theorem new_inv : Inv (Loop.new : Loop ι τ) where
  order := rfl
  calling := rfl
  wakes h := by cases h
  awake h := by cases h
  start _ := ⟨rfl, by simp [Loop.new]⟩

/-- Returning from a callback leaves what is swapped out. -/
theorem Cont.pc_eq (k : Cont τ) :
    k.pc.functors = (Pc.code k).functors ∧ k.pc.calling = (Pc.code k).calling ∧
      k.pc.swapped = (Pc.code k).swapped ∧ (k.pc = .code .start → k = .start) := by
  cases k with
  | start => exact ⟨rfl, rfl, rfl, fun _ => rfl⟩
  | handle => exact ⟨rfl, rfl, rfl, fun h => by cases h⟩
  | run => exact ⟨rfl, rfl, rfl, fun h => by cases h⟩

/-- The thread is in the same phase before and after the write. -/
theorem Pc.wakeup_eq (k : Cont τ) :
    (Pc.wakeup k).functors = (Pc.code k).functors ∧ (Pc.wakeup k).calling = (Pc.code k).calling ∧
      (Pc.wakeup k).swapped = (Pc.code k).swapped := by
  cases k <;> exact ⟨rfl, rfl, rfl⟩

/-- The loop's thread goes from one phase to another without a wake-up. -/
theorem Inv.awake_of {s : Loop ι τ} (hi : Inv s) (hs : s.pc.swapped = true) (hw : s.pc.isWakeup = false)
    (hp : s.pendingFunctors ≠ []) : 0 < s.wakeupFd ∨ ∃ i, s.waking i = true := by
  rcases hi.awake hs hp with h | h | h
  · exact .inl h
  · exact .inr h
  · rw [hw] at h
    cases h

/-- The loop's thread goes on to another phase, with the same functors swapped
out, in which no wake-up is needed. -/
theorem Inv.goto {s : Loop ι τ} (hi : Inv s) {pc : Pc τ} (wakeupFd : Nat) (hf : pc.functors = s.pc.functors)
    (hc : pc.calling = s.pc.calling) (hw : pc.isWakeup = false) (hs : pc.swapped = false)
    (hp : pc ≠ .code .start) : Inv { s with wakeupFd, pc } where
  order := by
    show s.executed ++ pc.functors ++ s.pendingFunctors = _
    rw [hf]
    exact hi.order
  calling := hi.calling.trans hc.symm
  wakes h := by cases hw.symm.trans h
  awake h := by cases hs.symm.trans h
  start h := absurd h hp

/-! ### The steps -/

variable {s s' : Loop ι τ} {op : Op ι τ}

theorem order_push (ho : s.executed ++ s.pc.functors ++ s.pendingFunctors = s.pushed.map Prod.snd) (i : Option ι)
    (t : τ) : s.executed ++ s.pc.functors ++ (s.push i t).pendingFunctors = (s.push i t).pushed.map Prod.snd := by
  simp only [Loop.push, List.map_append, ← ho, List.append_assoc, List.map_cons, List.map_nil]

/-- What is pending when `loop()` is called was pushed by the owner or by
another thread. -/
theorem Inv.loop (hi : Inv s) (hl : s.pc = .code .start) (ha : s.Accompanied) : Inv { s with pc := .poll } := by
  obtain ⟨he, hs⟩ := hi.start hl
  have ho := hi.order
  rw [he, hl] at ho
  refine ⟨?_, ?_, fun h => (by cases h), fun _ hp => ?_, fun h => by cases h⟩
  · rw [← hi.order, hl]
    rfl
  · rw [hi.calling, hl]
    rfl
  · obtain ⟨t, ht⟩ := List.exists_mem_of_ne_nil _ hp
    have hmap : t ∈ s.pushed.map Prod.snd := ho ▸ ht
    obtain ⟨⟨i, t'⟩, hm, rfl⟩ := List.mem_map.mp hmap
    have hother : ∃ i t, (some i, t) ∈ s.pushed := by
      cases i with
      | none => exact ha ⟨_, hm⟩
      | some i => exact ⟨i, _, hm⟩
    exact (hs.mpr hother).imp_right .inl

theorem Inv.callPending (hi : Inv s) (hl : s.pc = .handle []) :
    Inv { s with callingPendingFunctors := true, pc := .swap } := by
  refine ⟨?_, rfl, fun h => (by cases h), fun h => (by cases h), fun h => by cases h⟩
  rw [← hi.order, hl]
  rfl

theorem Inv.swap (hi : Inv s) (hl : s.pc = .swap) :
    Inv { s with pendingFunctors := [], pc := .run s.pendingFunctors } := by
  refine ⟨?_, ?_, fun h => (by cases h), fun _ h => absurd rfl h, fun h => by cases h⟩
  · rw [← hi.order, hl]
    simp [Pc.functors]
  · rw [hi.calling, hl]
    rfl

theorem Inv.functor (hi : Inv s) {t : τ} {functors : List τ} (hl : s.pc = .run (t :: functors)) :
    Inv { s with pc := .code (.run functors), executed := s.executed ++ [t] } := by
  refine ⟨?_, ?_, fun h => (by cases h), fun _ hp => ?_, fun h => by cases h⟩
  · rw [← hi.order, hl]
    simp [Pc.functors]
  · rw [hi.calling, hl]
    rfl
  · exact (hi.awake_of (by rw [hl]; rfl) (by rw [hl]; rfl) hp).imp_right .inl

/-- Before `loop()` and in a handler the thread does not wake itself up. -/
theorem Inv.queueInLoop (hi : Inv s) {k : Cont τ} (hl : s.pc = .code k) (t : τ) :
    Inv { s.push none t with pc := if s.callingPendingFunctors then .wakeup k else .code k } := by
  have hc := hi.calling
  have ho := order_push hi.order none t
  rw [hl] at hc ho
  cases k with
  | start =>
    rw [show s.callingPendingFunctors = false from hc, if_neg Bool.false_ne_true]
    refine ⟨ho, hc, fun h => (by cases h), fun h => (by cases h), fun _ => ⟨(hi.start hl).1, ?_⟩⟩
    refine (hi.start hl).2.trans ?_
    simp [Loop.push]
  | handle activeChannels =>
    rw [show s.callingPendingFunctors = false from hc, if_neg Bool.false_ne_true]
    exact ⟨ho, hc, fun h => (by cases h), fun h => (by cases h), fun h => by cases h⟩
  | run functors =>
    rw [show s.callingPendingFunctors = true from hc, if_pos rfl]
    exact ⟨ho, hc, fun _ => hc, fun _ _ => .inr (.inr rfl), fun h => by cases h⟩

theorem Inv.ownWakeup (hi : Inv s) {k : Cont τ} (hl : s.pc = .wakeup k) :
    Inv { s with wakeupFd := s.wakeupFd + 1, pc := .code k } := by
  obtain ⟨hf, hca, hsw⟩ := Pc.wakeup_eq k
  refine ⟨?_, ?_, fun h => (by cases h), fun _ _ => .inl (Nat.succ_pos _), fun h => ?_⟩
  · rw [← hi.order, hl, hf]
  · rw [hi.calling, hl, hca]
  · have hw := (hi.wakes (by rw [hl]; rfl)).symm.trans hi.calling
    rw [hl, hca] at hw
    change Pc.code k = _ at h
    cases h
    cases hw

theorem Inv.ret (hi : Inv s) {k : Cont τ} (hl : s.pc = .code k) : Inv { s with pc := k.pc } := by
  obtain ⟨hf, hca, hsw, hst⟩ := k.pc_eq
  refine ⟨?_, ?_, fun h => ?_, fun hs hp => ?_, fun h => ?_⟩
  · rw [← hi.order, hl, hf]
  · rw [hi.calling, hl, hca]
  · cases k <;> cases h
  · refine (hi.awake_of ?_ (by rw [hl]; rfl) hp).imp_right .inl
    rw [hl, ← hsw]
    exact hs
  · exact hi.start (by rw [hl, hst h])

theorem Inv.endPending (hi : Inv s) (hl : s.pc = .run []) :
    Inv { s with callingPendingFunctors := false, pc := .poll } := by
  refine ⟨?_, rfl, fun h => (by cases h), fun _ hp => ?_, fun h => by cases h⟩
  · rw [← hi.order, hl]
    rfl
  · exact (hi.awake_of (by rw [hl]; rfl) (by rw [hl]; rfl) hp).imp_right .inl

variable [DecidableEq ι]

theorem Inv.push (hi : Inv s) (i : ι) (t : τ) :
    Inv { s.push (some i) t with waking := Function.update s.waking i true } where
  order := order_push hi.order (some i) t
  calling := hi.calling
  wakes := hi.wakes
  awake _ _ := .inr (.inl ⟨i, Function.update_self ..⟩)
  start hp := by
    refine ⟨(hi.start hp).1, iff_of_true (.inr ⟨i, Function.update_self ..⟩) ⟨i, t, ?_⟩⟩
    exact List.mem_append_right _ List.mem_cons_self

theorem Inv.wakeup (hi : Inv s) {i : ι} (hw : s.waking i = true) :
    Inv { s with wakeupFd := s.wakeupFd + 1, waking := Function.update s.waking i false } where
  order := hi.order
  calling := hi.calling
  wakes := hi.wakes
  awake _ _ := .inl (Nat.succ_pos _)
  start hp := ⟨(hi.start hp).1, iff_of_true (.inl (Nat.succ_pos _)) ((hi.start hp).2.mp (.inr ⟨i, hw⟩))⟩

theorem step_inv (h : Step s op s') (hi : Inv s) (hop : op = .loop → s.Accompanied) : Inv s' := by
  cases h with
  | push i t _ => exact hi.push i t
  | wakeup i hw => exact hi.wakeup hw
  | loop hl => exact hi.loop hl (hop rfl)
  | poll activeChannels hl _ => exact hi.goto s.wakeupFd (by rw [hl]; rfl) (by rw [hl]; rfl) rfl rfl nofun
  | handleRead activeChannels hl => exact hi.goto 0 (by rw [hl]; rfl) (by rw [hl]; rfl) rfl rfl nofun
  | handler activeChannels hl => exact hi.goto s.wakeupFd (by rw [hl]; rfl) (by rw [hl]; rfl) rfl rfl nofun
  | callPending hl => exact hi.callPending hl
  | swap hl => exact hi.swap hl
  | functor t functors hl => exact hi.functor hl
  | queueInLoop k t hl => exact hi.queueInLoop hl t
  | ownWakeup k hl => exact hi.ownWakeup hl
  | ret k hl => exact hi.ret hl
  | endPending hl => exact hi.endPending hl

omit [DecidableEq ι] in
theorem Inv.inOrder {s : Loop ι τ} (hi : Inv s) : InOrder s := by
  refine ⟨hi.order, fun ⟨hl, hp, hf, hw⟩ => ?_⟩
  rcases hi.awake_of (by rw [hl]; rfl) (by rw [hl]; rfl) hp with h | ⟨i, h⟩
  · omega
  · rw [hw i] at h
    cases h

/-- A loop that starts with nothing but its owner's functors blocks. -/
theorem Inv.accompanied (hi : Inv s) (h : Step s .loop s') (ho : InOrder s') : s.Accompanied := by
  cases h with
  | loop hl =>
    rintro ⟨t, ht⟩
    obtain ⟨he, hs⟩ := hi.start hl
    rw [← hs]
    have hp := hi.order
    rw [he, hl] at hp
    have hm : t ∈ s.pendingFunctors := by
      rw [show s.pendingFunctors = s.pushed.map Prod.snd from hp]
      exact List.mem_map_of_mem ht
    by_contra hn
    obtain ⟨hf, hw⟩ := not_or.mp hn
    refine ho.awake ⟨rfl, List.ne_nil_of_mem hm, Nat.eq_zero_of_not_pos hf, fun i => ?_⟩
    exact Bool.eq_false_iff.mpr fun h => hw ⟨i, h⟩

/-- Over every run: functors run in the order of their pushes, each once, and
no wake-up is lost, if and only if `loop()` is called with functors of its own
thread only when another thread has queued one too. -/
theorem inOrder_iff (ops : List (Op ι τ)) : Run.Throughout Step InOrder ops (.new : Loop ι τ) ↔
    Run.Meets Step (fun s op => op = .loop → s.Accompanied) ops (.new : Loop ι τ) := by
  have hI : ∀ s : Loop ι τ, Inv s → InOrder s := fun _ h => h.inOrder
  have hC : ∀ (s : Loop ι τ) (op : Op ι τ) (s' : Loop ι τ), Inv s → Step s op s' →
      (op = .loop → s.Accompanied) → Inv s' := fun _ _ _ hi h hop => step_inv h hi hop
  have hP : ∀ (s : Loop ι τ) (op : Op ι τ) (s' : Loop ι τ), Inv s → Step s op s' → InOrder s' →
      op = .loop → s.Accompanied := by
    rintro s op s' hi h ho rfl
    exact hi.accompanied h ho
  exact Run.throughout_iff hI hC hP ops _ new_inv

/-- The thread's init callback queues a functor, then `loop()` is called. -/
theorem initQueued_lost : ¬ ∀ ops : List (Op Unit Nat), Run.Throughout Step InOrder ops Loop.new := by
  intro h
  have h := h [.queueInLoop 7, .loop]
  obtain ⟨-, h⟩ := h
  obtain ⟨-, h⟩ := h _ (.queueInLoop _ .start 7 rfl)
  have h : InOrder _ := h _ (.loop _ rfl)
  exact h.awake ⟨rfl, List.cons_ne_nil _ _, rfl, fun _ => rfl⟩

end Mudou.Src.EventLoop
