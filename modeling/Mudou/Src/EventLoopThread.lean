import Mudou.Lib.Monitor
import Mudou.Lib.Run

/-!
# Stopping the loop of a thread

`EventLoopThread` of `src/`, from `startLoop` to the destructor, with
`Thread::start` and the part of `EventLoop::loop` and `quit` that concerns
`quit_`. The owner and the new thread interleave; each access to the semaphore,
the mutex, `loop_` or `quit_` is a step. `poll` returns after `kPollTimeMs` at
the latest, so it may return at any time, whether `wakeupFd_` was written or
not; the handlers and functors that run then are counted. No code of the
repository but the destructor calls `quit`.

After its store `quit()` still reads `threadId_` and `wakeupFd_` of a loop that
is a local of the thread: `dangling` is where the thread has destroyed it.

`join_completes_iff`: if `loop()` has executed its `quit_ = false` when `quit()`
stores `true`, every interleaving comes to an end; the destructor has returned
then, or `quit()` has touched the destroyed loop, and both happen. Otherwise the
store is lost, and `join` waits for a loop that never ends.
-/

namespace Mudou.Src

open Monitor Run

namespace EventLoopThread

/-- Where the owner is, in `startLoop` and then in the destructor. -/
inductive Owner (α : Type) where
  | begin
  /-- in `Thread::start`, about to call `sem_wait` -/
  | created
  /-- `Thread::start` has returned -/
  | started
  /-- about to test `loop_ == nullptr` -/
  | locked
  | waiting
  /-- behind `cond_.wait` -/
  | waited
  | got (loop : Option α)
  /-- `startLoop` has returned -/
  | returned (loop : Option α)
  /-- the destructor has found `loop_ != nullptr` -/
  | tested
  /-- `loop_->quit()` on a null pointer -/
  | nullLoop
  /-- in `quit()`, behind `quit_ = true` -/
  | quitting
  /-- behind `isInLoopThread()` -/
  | waking
  /-- `quit()` has returned -/
  | joining
  | joined
  /-- `quit()` has read a member of the destroyed loop -/
  | dangling
  /-- the destructor has found `loop_ == nullptr` -/
  | detached

/-- Where the new thread is, in the lambda of `Thread::start`, then in
`threadFunc`. -/
inductive ThreadFunc where
  | absent
  | begin
  | tidStored
  | posted
  /-- `EventLoop loop` is there -/
  | constructed
  | called
  | locked
  | stored
  | notified
  /-- in `loop()`, before `quit_ = false` -/
  | unlocked
  /-- about to test `quit_` -/
  | test
  | poll
  /-- with as many handlers and functors to call -/
  | busy (n : Nat)
  /-- `loop()` has returned -/
  | left
  | lockedAgain
  | cleared
  | released
  /-- `loop` is destroyed -/
  | ended

/-- How far the thread has come; the places in the loop count as one. -/
def ThreadFunc.place : ThreadFunc → Nat
  | .absent => 0
  | .begin => 1
  | .tidStored => 2
  | .posted => 3
  | .constructed => 4
  | .called => 5
  | .locked => 6
  | .stored => 7
  | .notified => 8
  | .unlocked => 9
  | .test | .poll | .busy _ => 10
  | .left => 11
  | .lockedAgain => 12
  | .cleared => 13
  | .released => 14
  | .ended => 15

/-- The thread has come as far as `q`. -/
def ThreadFunc.Past (p q : ThreadFunc) : Prop := q.place ≤ p.place

instance (p q : ThreadFunc) : Decidable (p.Past q) := inferInstanceAs (Decidable (_ ≤ _))

/-- The places between `lock` and `unlock`. -/
def ThreadFunc.inside : ThreadFunc → Bool
  | .locked | .stored | .notified | .lockedAgain | .cleared => true
  | _ => false

def Owner.inside {α : Type} : Owner α → Bool
  | .locked | .waited | .got _ => true
  | _ => false

/-- The units of the semaphore that the owner has taken. -/
def Owner.taken {α : Type} : Owner α → Nat
  | .begin | .created => 0
  | _ => 1

/-- The owner has stored `quit_`. -/
def Owner.quit {α : Type} : Owner α → Bool
  | .quitting | .waking | .joining | .joined | .dangling => true
  | _ => false

/-- What the owner has found, by the place of the thread. -/
def Owner.Found {α : Type} (loop : α) (thread : ThreadFunc) : Owner α → Prop
  | .begin => thread = .absent
  | .waited | .tested | .quitting | .waking | .joining => thread.Past .stored
  | .got p | .returned p => p = some loop ∧ thread.Past .stored
  | .joined | .dangling => thread.Past .ended
  | .nullLoop | .detached => False
  | _ => thread.Past .begin

inductive Who where
  | owner
  | thread
  deriving DecidableEq

end EventLoopThread

structure EventLoopThread (α : Type) where
  /-- `mutex_` and `cond_` -/
  mutex : Monitor EventLoopThread.Who
  /-- the semaphore of `Thread::start` -/
  sem : Nat
  /-- `tid_` of `thread_` -/
  tid : Nat
  /-- `loop_`, `none` for `nullptr` -/
  loop : Option α
  /-- `quit_` of the thread's loop -/
  quit : Bool
  owner : EventLoopThread.Owner α
  thread : EventLoopThread.ThreadFunc

namespace EventLoopThread

variable {α : Type}

def new : EventLoopThread α := ⟨.new, 0, 0, none, false, .begin, .absent⟩

/-- A step of the new thread; `tid` is its number and `loop` the address of its
loop. -/
inductive ThreadStep (loop : α) (tid : Nat) : EventLoopThread α → EventLoopThread α → Prop where
  | storeTid {s : EventLoopThread α} : s.thread = .begin →
      ThreadStep loop tid s { s with thread := .tidStored, tid := tid }
  | post {s : EventLoopThread α} : s.thread = .tidStored →
      ThreadStep loop tid s { s with thread := .posted, sem := s.sem + 1 }
  | construct {s : EventLoopThread α} : s.thread = .posted →
      ThreadStep loop tid s { s with thread := .constructed, quit := false }
  | callback {s : EventLoopThread α} : s.thread = .constructed →
      ThreadStep loop tid s { s with thread := .called }
  | lock {s : EventLoopThread α} : s.thread = .called → s.mutex.owner = none →
      ThreadStep loop tid s { s with thread := .locked, mutex := s.mutex.lock .thread }
  | store {s : EventLoopThread α} : s.thread = .locked →
      ThreadStep loop tid s { s with thread := .stored, loop := some loop }
  /-- Only the owner ever waits. -/
  | notifyOne {s : EventLoopThread α} : s.thread = .stored →
      ThreadStep loop tid s { s with thread := .notified, mutex := s.mutex.wake .owner }
  | unlock {s : EventLoopThread α} : s.thread = .notified →
      ThreadStep loop tid s { s with thread := .unlocked, mutex := s.mutex.unlock }
  /-- `quit_ = false` at the head of `loop()`. -/
  | reset {s : EventLoopThread α} : s.thread = .unlocked →
      ThreadStep loop tid s { s with thread := .test, quit := false }
  | poll {s : EventLoopThread α} : s.thread = .test → s.quit = false →
      ThreadStep loop tid s { s with thread := .poll }
  | pollReturns {s : EventLoopThread α} (n : Nat) : s.thread = .poll →
      ThreadStep loop tid s { s with thread := .busy n }
  | call {s : EventLoopThread α} (n : Nat) : s.thread = .busy (n + 1) →
      ThreadStep loop tid s { s with thread := .busy n }
  | again {s : EventLoopThread α} : s.thread = .busy 0 →
      ThreadStep loop tid s { s with thread := .test }
  | leave {s : EventLoopThread α} : s.thread = .test → s.quit = true →
      ThreadStep loop tid s { s with thread := .left }
  | lockAgain {s : EventLoopThread α} : s.thread = .left → s.mutex.owner = none →
      ThreadStep loop tid s { s with thread := .lockedAgain, mutex := s.mutex.lock .thread }
  | clear {s : EventLoopThread α} : s.thread = .lockedAgain →
      ThreadStep loop tid s { s with thread := .cleared, loop := none }
  | release {s : EventLoopThread α} : s.thread = .cleared →
      ThreadStep loop tid s { s with thread := .released, mutex := s.mutex.unlock }
  | finish {s : EventLoopThread α} : s.thread = .released →
      ThreadStep loop tid s { s with thread := .ended }

/-- `quit_ = true` of `quit()`. -/
def storeQuit (s : EventLoopThread α) : EventLoopThread α := { s with owner := .quitting, quit := true }

inductive OwnerStep : EventLoopThread α → EventLoopThread α → Prop where
  | create {s : EventLoopThread α} : s.owner = .begin →
      OwnerStep s { s with owner := .created, thread := .begin }
  | semWait {s : EventLoopThread α} : s.owner = .created → 0 < s.sem →
      OwnerStep s { s with owner := .started, sem := s.sem - 1 }
  | lock {s : EventLoopThread α} : s.owner = .started → s.mutex.owner = none →
      OwnerStep s { s with owner := .locked, mutex := s.mutex.lock .owner }
  | wait {s : EventLoopThread α} : s.owner = .locked → s.loop = none →
      OwnerStep s { s with owner := .waiting, mutex := s.mutex.wait .owner }
  | lockAgain {s : EventLoopThread α} : s.owner = .waiting → s.mutex.asleep .owner = false →
      s.mutex.owner = none → OwnerStep s { s with owner := .locked, mutex := s.mutex.lock .owner }
  | pass {s : EventLoopThread α} : s.owner = .locked → s.loop ≠ none → OwnerStep s { s with owner := .waited }
  | read {s : EventLoopThread α} : s.owner = .waited → OwnerStep s { s with owner := .got s.loop }
  | unlock {s : EventLoopThread α} (p : Option α) : s.owner = .got p →
      OwnerStep s { s with owner := .returned p, mutex := s.mutex.unlock }
  | test {s : EventLoopThread α} (p : Option α) : s.owner = .returned p → s.loop ≠ none →
      OwnerStep s { s with owner := .tested }
  | detach {s : EventLoopThread α} (p : Option α) : s.owner = .returned p → s.loop = none →
      OwnerStep s { s with owner := .detached }
  | storeQuit {s : EventLoopThread α} : s.owner = .tested → s.loop ≠ none → OwnerStep s s.storeQuit
  | nullLoop {s : EventLoopThread α} : s.owner = .tested → s.loop = none →
      OwnerStep s { s with owner := .nullLoop }
  /-- `threadId_` of the loop's thread, which is not the owner. -/
  | isInLoopThread {s : EventLoopThread α} : s.owner = .quitting → s.thread ≠ .ended →
      OwnerStep s { s with owner := .waking }
  | wakeup {s : EventLoopThread α} : s.owner = .waking → s.thread ≠ .ended →
      OwnerStep s { s with owner := .joining }
  | dangling {s : EventLoopThread α} : s.owner = .quitting ∨ s.owner = .waking → s.thread = .ended →
      OwnerStep s { s with owner := .dangling }
  | join {s : EventLoopThread α} : s.owner = .joining → s.thread = .ended →
      OwnerStep s { s with owner := .joined }

inductive Step (loop : α) (tid : Nat) (s s' : EventLoopThread α) : Prop where
  | thread : ThreadStep loop tid s s' → Step loop tid s s'
  | owner : OwnerStep s s' → Step loop tid s s'

/-- The owner wakes that nobody has notified. -/
inductive Wakes : EventLoopThread α → EventLoopThread α → Prop where
  | wake {s : EventLoopThread α} : s.owner = .waiting → Wakes s { s with mutex := s.mutex.wake .owner }

def Reachable (loop : α) (tid : Nat) : EventLoopThread α → Prop :=
  Relation.ReflTransGen (fun s s' => Step loop tid s s' ∨ Wakes s s') new

def inside (s : EventLoopThread α) : Who → Bool
  | .owner => s.owner.inside
  | .thread => s.thread.inside

structure Inv (loop : α) (tid : Nat) (s : EventLoopThread α) : Prop where
  guarded : s.mutex.Guarded s.inside
  stored : s.loop = if s.thread.Past .stored ∧ ¬ s.thread.Past .cleared then some loop else none
  posted : s.sem + s.owner.taken = if s.thread.Past .posted then 1 else 0
  tidStored : s.thread.Past .tidStored → s.tid = tid
  /-- the owner, when it sleeps, will be notified -/
  asleep : s.mutex.asleep .owner = true → ¬ s.thread.Past .notified
  found : s.owner.Found loop s.thread
  quits : s.quit = true → s.owner.quit = true
  left : s.thread.Past .left → s.quit = true

variable {loop : α} {tid : Nat} {s s' : EventLoopThread α}

theorem new_inv (loop : α) (tid : Nat) : (new : EventLoopThread α).Inv loop tid where
  guarded := guarded_new.congr fun t => by cases t <;> rfl
  stored := rfl
  posted := rfl
  tidStored h := absurd h (by simp [ThreadFunc.Past, ThreadFunc.place, new])
  asleep h := nomatch h
  found := rfl
  quits h := nomatch h
  left h := absurd h (by simp [ThreadFunc.Past, ThreadFunc.place, new])

/-! ## Steps of the thread -/

/-- The thread moves. -/
theorem guarded_thread (s : EventLoopThread α) (ho : s'.owner = s.owner)
    (h : s'.mutex.Guarded (Function.update s.inside .thread s'.thread.inside)) : s'.mutex.Guarded s'.inside :=
  h.congr fun t => by
    cases t with
    | owner => exact congrArg Owner.inside ho
    | thread => rfl

/-- The owner moves. -/
theorem guarded_owner (s : EventLoopThread α) (ht : s'.thread.inside = s.thread.inside)
    (h : s'.mutex.Guarded (Function.update s.inside .owner s'.owner.inside)) : s'.mutex.Guarded s'.inside :=
  h.congr fun t => by
    cases t with
    | owner => rfl
    | thread => exact ht

/-- Who stays inside, or outside. -/
theorem guarded_update {t : Who} {b : Bool} (ht : s.inside t = b) (h : s.mutex.Guarded s.inside) :
    s.mutex.Guarded (Function.update s.inside t b) := by
  rw [Function.update_eq_self_iff.mpr ht.symm]
  exact h

theorem ThreadStep.guarded (h : ThreadStep loop tid s s') (hm : s.mutex.Guarded s.inside) :
    s'.mutex.Guarded s'.inside := by
  have hthread : ∀ {p}, s.thread = p → s.inside .thread = p.inside := fun h => congrArg ThreadFunc.inside h
  cases h with
  | storeTid ht | post ht | construct ht | callback ht | store ht | notifyOne ht | reset ht | pollReturns _ ht
  | call _ ht | again ht | clear ht | finish ht =>
    exact guarded_thread s rfl (guarded_update (hthread ht :) hm)
  | poll ht _ | leave ht _ => exact guarded_thread s rfl (guarded_update (hthread ht :) hm)
  | lock _ ho | lockAgain _ ho => exact guarded_thread s rfl (hm.lock ho _)
  | unlock ht | release ht => exact guarded_thread s rfl (hm.leave (hthread ht) _)

theorem ThreadStep.owner_eq (h : ThreadStep loop tid s s') : s'.owner = s.owner := by
  cases h <;> rfl

/-- The thread never goes back. -/
theorem ThreadStep.place_le (h : ThreadStep loop tid s s') : s.thread.place ≤ s'.thread.place := by
  cases h <;> simp [*, ThreadFunc.place]

theorem ThreadStep.past (h : ThreadStep loop tid s s') {p : ThreadFunc} (hp : s.thread.Past p) : s'.thread.Past p :=
  Nat.le_trans hp h.place_le

/-- It is past `absent` from its first step on. -/
theorem ThreadStep.past_begin (h : ThreadStep loop tid s s') : s.thread.Past .begin := by
  cases h <;> simp [*, ThreadFunc.Past, ThreadFunc.place]

theorem Owner.Found.mono {o : Owner α} {p q : ThreadFunc} (h : o.Found loop p) (hp : p.Past .begin)
    (hpq : p.place ≤ q.place) : o.Found loop q := by
  have hq : ∀ {r : ThreadFunc}, p.Past r → q.Past r := fun hr => Nat.le_trans hr hpq
  cases o with
  | begin =>
    change p = .absent at h
    rw [h] at hp
    exact absurd hp (by decide)
  | created | started | locked | waiting => exact hq h
  | waited | tested | quitting | waking | joining | joined | dangling => exact hq h
  | got r | returned r => exact ⟨h.1, hq h.2⟩
  | nullLoop | detached => exact h

theorem Inv.stored_step (h : s.Inv loop tid) (hs : ThreadStep loop tid s s') :
    s'.loop = if s'.thread.Past .stored ∧ ¬ s'.thread.Past .cleared then some loop else none := by
  have hl := h.stored
  cases hs <;> simp_all [ThreadFunc.Past, ThreadFunc.place]

theorem Inv.posted_step (h : s.Inv loop tid) (hs : ThreadStep loop tid s s') :
    s'.sem + s'.owner.taken = if s'.thread.Past .posted then 1 else 0 := by
  have hp := h.posted
  cases hs <;> simp_all [ThreadFunc.Past, ThreadFunc.place]

theorem Inv.tidStored_step (h : s.Inv loop tid) (hs : ThreadStep loop tid s s') :
    s'.thread.Past .tidStored → s'.tid = tid := by
  have ht := h.tidStored
  cases hs <;> simp_all [ThreadFunc.Past, ThreadFunc.place]

theorem Inv.asleep_step (h : s.Inv loop tid) (hs : ThreadStep loop tid s s') :
    s'.mutex.asleep .owner = true → ¬ s'.thread.Past .notified := by
  have ha := h.asleep
  cases hs <;> simp_all [ThreadFunc.Past, ThreadFunc.place, Monitor.wake, Monitor.lock, Monitor.unlock]

theorem Inv.quits_step (h : s.Inv loop tid) (hs : ThreadStep loop tid s s') :
    s'.quit = true → s'.owner.quit = true := by
  have hq := h.quits
  cases hs <;> simp_all

theorem Inv.left_step (h : s.Inv loop tid) (hs : ThreadStep loop tid s s') : s'.thread.Past .left → s'.quit = true := by
  have hl := h.left
  cases hs <;> simp_all [ThreadFunc.Past, ThreadFunc.place]

theorem Inv.threadStep (h : s.Inv loop tid) (hs : ThreadStep loop tid s s') : s'.Inv loop tid where
  guarded := hs.guarded h.guarded
  stored := h.stored_step hs
  posted := h.posted_step hs
  tidStored := h.tidStored_step hs
  asleep := h.asleep_step hs
  found := by
    rw [hs.owner_eq]
    exact h.found.mono hs.past_begin hs.place_le
  quits := h.quits_step hs
  left := h.left_step hs

/-! ## Steps of the owner -/

/-- The loop is there from `loop_ = &loop` on, until somebody calls `quit`. -/
theorem Inv.loop_eq (h : s.Inv loop tid) (ht : s.thread.Past .stored) (ho : s.owner.quit = false) :
    s.loop = some loop := by
  have hq : s.quit = false := Bool.eq_false_iff.mpr fun hq => absurd (h.quits hq) (Bool.eq_false_iff.mp ho)
  have hl : ¬ s.thread.Past .left := fun hl => Bool.false_ne_true (hq.symm.trans (h.left hl))
  rw [h.stored, if_pos ⟨ht, fun hc => hl (Nat.le_trans (by decide) hc)⟩]

theorem Inv.past_stored (h : s.Inv loop tid) (hl : s.loop ≠ none) : s.thread.Past .stored := by
  rw [h.stored] at hl
  split at hl
  · next ht => exact ht.1
  · exact absurd rfl hl

/-- Once the owner has left its first place, the thread is there. -/
theorem Inv.past_begin (h : s.Inv loop tid) {o : Owner α} (ho : s.owner = o) (hb : o ≠ .begin) :
    s.thread.Past .begin := by
  have hf := h.found
  rw [ho] at hf
  have hle : ∀ {p : ThreadFunc}, 1 ≤ p.place → s.thread.Past p → s.thread.Past .begin := fun hp ht => Nat.le_trans hp ht
  cases o with
  | begin => exact absurd rfl hb
  | created | started | locked | waiting => exact hf
  | waited | tested | quitting | waking | joining | joined | dangling => exact hle (by decide) hf
  | got r | returned r => exact hle (by decide) hf.2
  | nullLoop | detached => exact hf.elim

theorem OwnerStep.guarded (h : OwnerStep s s') (hi : s.Inv loop tid) : s'.mutex.Guarded s'.inside := by
  have hm := hi.guarded
  have howner : ∀ {o}, s.owner = o → s.inside .owner = o.inside := fun h => congrArg Owner.inside h
  cases h with
  | create ho =>
    have ht := hi.found
    rw [ho] at ht
    refine guarded_owner s ?_ (guarded_update (howner ho :) hm)
    rw [show s.thread = .absent from ht]
    rfl
  | semWait ho _ | pass ho _ | test _ ho _ | detach _ ho _ | storeQuit ho _ | nullLoop ho _ | join ho _
  | isInLoopThread ho _ | wakeup ho _ => exact guarded_owner s rfl (guarded_update (howner ho :) hm)
  | read ho => exact guarded_owner s rfl (guarded_update (howner ho :) hm)
  | dangling ho _ =>
    rcases ho with ho | ho
    · exact guarded_owner s rfl (guarded_update (howner ho :) hm)
    · exact guarded_owner s rfl (guarded_update (howner ho :) hm)
  | lock _ hn => exact guarded_owner s rfl (hm.lock hn _)
  | lockAgain _ _ hn => exact guarded_owner s rfl (hm.lock hn _)
  | wait ho _ => exact guarded_owner s rfl (hm.leave (howner ho) _)
  | unlock _ ho => exact guarded_owner s rfl (hm.leave (howner ho) _)

theorem Inv.found_step (h : s.Inv loop tid) (hs : OwnerStep s s') : s'.owner.Found loop s'.thread := by
  have hf := h.found
  cases hs with
  | create ho => exact Nat.le_refl _
  | semWait ho _ | lock ho _ | wait ho _ | lockAgain ho _ _ => exact h.past_begin ho nofun
  | pass _ hl => exact h.past_stored hl
  | read ho =>
    rw [ho] at hf
    exact ⟨h.loop_eq hf (by rw [ho]; rfl), hf⟩
  | unlock p ho =>
    rw [ho] at hf
    exact hf
  | test p ho _ =>
    rw [ho] at hf
    exact hf.2
  | detach p ho hl =>
    rw [ho] at hf
    exact absurd ((h.loop_eq hf.2 (by rw [ho]; rfl)).symm.trans hl) nofun
  | storeQuit ho _ | isInLoopThread ho _ | wakeup ho _ =>
    rw [ho] at hf
    exact hf
  | nullLoop ho hl =>
    rw [ho] at hf
    exact absurd ((h.loop_eq hf (by rw [ho]; rfl)).symm.trans hl) nofun
  | join _ ht | dangling _ ht =>
    show s.thread.Past .ended
    rw [ht]
    exact Nat.le_refl _

theorem Inv.ownerStep (h : s.Inv loop tid) (hs : OwnerStep s s') : s'.Inv loop tid := by
  have hm := hs.guarded h
  have hf := h.found_step hs
  have hp := h.posted
  have hq := h.quits
  cases hs with
  | create ho =>
    have hf₀ := h.found
    rw [ho] at hf₀ hp
    have ht : s.thread = .absent := hf₀
    have hl := h.stored
    have ha := h.asleep
    rw [ht] at hl hp ha
    refine ⟨hm, hl, hp, nofun, fun _ => nofun, hf, fun hq' => ?_, nofun⟩
    have := hq hq'
    rw [ho] at this
    cases this
  | semWait ho hs =>
    rw [ho] at hp hq
    refine ⟨hm, h.stored, ?_, h.tidStored, h.asleep, hf, hq, h.left⟩
    rw [← hp]
    exact Nat.succ_pred_eq_of_pos hs
  | lock ho _ | lockAgain ho _ _ =>
    rw [ho] at hp hq
    exact ⟨hm, h.stored, hp, h.tidStored, h.asleep, hf, hq, h.left⟩
  | wait ho hl =>
    rw [ho] at hp hq
    refine ⟨hm, h.stored, hp, h.tidStored, fun _ ht => ?_, hf, hq, h.left⟩
    have hs := h.loop_eq (Nat.le_trans (by decide) ht) (by rw [ho]; rfl)
    rw [hl] at hs
    cases hs
  | pass ho _ | read ho | unlock _ ho | test _ ho _ | detach _ ho _ | nullLoop ho _ | isInLoopThread ho _
  | wakeup ho _ | join ho _ =>
    rw [ho] at hp hq
    exact ⟨hm, h.stored, hp, h.tidStored, h.asleep, hf, hq, h.left⟩
  | dangling ho _ =>
    rcases ho with ho | ho
    · rw [ho] at hp
      exact ⟨hm, h.stored, hp, h.tidStored, h.asleep, hf, fun _ => rfl, h.left⟩
    · rw [ho] at hp
      exact ⟨hm, h.stored, hp, h.tidStored, h.asleep, hf, fun _ => rfl, h.left⟩
  | storeQuit ho _ =>
    rw [ho] at hp
    exact ⟨hm, h.stored, hp, h.tidStored, h.asleep, hf, fun _ => rfl, fun _ => rfl⟩

theorem Inv.wakes (h : s.Inv loop tid) (hs : Wakes s s') : s'.Inv loop tid := by
  cases hs with
  | wake _ =>
    exact ⟨h.guarded, h.stored, h.posted, h.tidStored, fun ha => absurd ha (by simp [Monitor.wake]), h.found,
      h.quits, h.left⟩

theorem Reachable.inv (h : Reachable loop tid s) : s.Inv loop tid := by
  induction h with
  | refl => exact new_inv loop tid
  | tail _ hs ih =>
    obtain (hs | hs) | hs := hs
    · exact ih.threadStep hs
    · exact ih.ownerStep hs
    · exact ih.wakes hs

/-! ## Where the store of `quit_` is lost -/

/-- What `startLoop` has returned is the loop, and `tid_` is set. -/
theorem Reachable.returned (h : Reachable loop tid s) {p : Option α} (hp : s.owner = .returned p) :
    p = some loop ∧ s.tid = tid := by
  have hf := h.inv.found
  rw [hp] at hf
  exact ⟨hf.1, h.inv.tidStored (Nat.le_trans (by decide) hf.2)⟩

/-- The loop runs on although `quit` was called. -/
structure Lost (s : EventLoopThread α) : Prop where
  owner : s.owner = .quitting ∨ s.owner = .waking ∨ s.owner = .joining
  stored : s.thread.Past .stored
  running : ¬ s.thread.Past .left
  quit : s.thread.Past .test → s.quit = false

theorem Lost.threadStep (h : Lost s) (hs : ThreadStep loop tid s s') : Lost s' := by
  refine ⟨hs.owner_eq ▸ h.owner, hs.past h.stored, ?_, ?_⟩
  · have hr := h.running
    have hq := h.quit
    cases hs <;> simp_all [ThreadFunc.Past, ThreadFunc.place]
  · have hq := h.quit
    cases hs <;> simp_all [ThreadFunc.Past, ThreadFunc.place]

theorem Lost.ownerStep (h : Lost s) (hs : OwnerStep s s') : Lost s' := by
  have ho := h.owner
  cases hs with
  | isInLoopThread _ _ => exact ⟨.inr (.inl rfl), h.stored, h.running, h.quit⟩
  | wakeup _ _ => exact ⟨.inr (.inr rfl), h.stored, h.running, h.quit⟩
  | join _ ht | dangling _ ht => exact absurd (ht ▸ (by decide : ThreadFunc.ended.Past .left)) h.running
  | create hb | semWait hb _ | lock hb _ | wait hb _ | lockAgain hb _ _ | pass hb _ | read hb | unlock _ hb
  | test _ hb _ | detach _ hb _ | storeQuit hb _ | nullLoop hb _ => simp [hb] at ho

theorem Lost.steps (h : Lost s) (hs : Relation.ReflTransGen (Step loop tid) s s') : Lost s' := by
  induction hs with
  | refl => exact h
  | tail _ hs ih =>
    cases hs with
    | thread hs => exact ih.threadStep hs
    | owner hs => exact ih.ownerStep hs

/-! ## Where it is not -/

/-- The destructor has returned, and the thread has ended. -/
def Stopped (s : EventLoopThread α) : Prop := s.owner = .joined ∧ s.thread = .ended

/-- `quit()` has touched the loop that the thread has destroyed. -/
def Dangling (s : EventLoopThread α) : Prop := s.owner = .dangling ∧ s.thread = .ended

structure Quitting (loop : α) (tid : Nat) (s : EventLoopThread α) : Prop where
  inv : s.Inv loop tid
  owner : s.owner.quit = true
  quit : s.quit = true
  test : s.thread.Past .test

theorem Quitting.step (h : s.Quitting loop tid) (hs : Step loop tid s s') : s'.Quitting loop tid := by
  have ho := h.owner
  have hq := h.quit
  have ht := h.test
  cases hs with
  | thread hs =>
    refine ⟨h.inv.threadStep hs, hs.owner_eq ▸ ho, ?_, hs.past ht⟩
    cases hs <;> simp_all [ThreadFunc.Past, ThreadFunc.place]
  | owner hs =>
    refine ⟨h.inv.ownerStep hs, ?_, ?_, ?_⟩ <;> cases hs <;> simp_all [Owner.quit]

/-- How far the thread has to go from `while (!quit_)`, `poll` and the
handlers on. -/
def ThreadFunc.rank : ThreadFunc → Nat
  | .poll => 7
  | .busy _ => 6
  | .test => 5
  | .left => 4
  | .lockedAgain => 3
  | .cleared => 2
  | .released => 1
  | _ => 0

def ThreadFunc.calls : ThreadFunc → Nat
  | .busy n => n
  | _ => 0

def Owner.rank : Owner α → Nat
  | .quitting => 3
  | .waking => 2
  | .joining => 1
  | _ => 0

def rank (s : EventLoopThread α) : Nat × Nat := (s.thread.rank, s.thread.calls + s.owner.rank)

theorem Quitting.rank_lt (h : s.Quitting loop tid) (hs : Step loop tid s s') :
    Prod.Lex (· < ·) (· < ·) s'.rank s.rank := by
  have ho := h.owner
  have hq := h.quit
  have ht := h.test
  rw [Prod.lex_def]
  cases hs with
  | thread hs =>
    cases hs <;> simp_all [rank, ThreadFunc.Past, ThreadFunc.place, ThreadFunc.rank, ThreadFunc.calls]
  | owner hs =>
    cases hs with
    | dangling hb _ => rcases hb with hb | hb <;> simp [rank, hb, Owner.rank]
    | _ => simp_all [rank, Owner.quit, Owner.rank]

/-- Nobody but the thread is inside. -/
theorem Quitting.mutex (h : s.Quitting loop tid) (ht : s.thread.inside = false) : s.mutex.owner = none := by
  rw [Option.eq_none_iff_forall_ne_some]
  intro t hm
  have hin := (h.inv.guarded t).mpr hm
  have ho := h.owner
  cases t with
  | owner =>
    change s.owner.inside = true at hin
    cases e : s.owner <;> simp_all [Owner.inside, Owner.quit]
  | thread => exact absurd (ht.symm.trans hin) nofun

theorem Quitting.ended (h : s.Quitting loop tid) (he : Ended (ThreadStep loop tid) s) : s.thread = .ended := by
  have hp := h.test
  cases e : s.thread with
  | absent | begin | tidStored | posted | constructed | called | locked | stored | notified | unlocked =>
    rw [e] at hp
    exact absurd hp (by decide)
  | test => exact (he _ (.leave e h.quit)).elim
  | poll => exact (he _ (.pollReturns 0 e)).elim
  | busy n =>
    cases n with
    | zero => exact (he _ (.again e)).elim
    | succ n => exact (he _ (.call n e)).elim
  | left => exact (he _ (.lockAgain e (h.mutex (congrArg ThreadFunc.inside e)))).elim
  | lockedAgain => exact (he _ (.clear e)).elim
  | cleared => exact (he _ (.release e)).elim
  | released => exact (he _ (.finish e)).elim
  | ended => rfl

theorem Quitting.over (h : s.Quitting loop tid) (he : Ended (Step loop tid) s) : s.Stopped ∨ s.Dangling := by
  have ht := h.ended fun s' hs => he s' (.thread hs)
  have ho := h.owner
  cases e : s.owner with
  | quitting => exact (he _ (.owner (.dangling (.inl e) ht))).elim
  | waking => exact (he _ (.owner (.dangling (.inr e) ht))).elim
  | joining => exact (he _ (.owner (.join e ht))).elim
  | joined => exact .inl ⟨e, ht⟩
  | dangling => exact .inr ⟨e, ht⟩
  | begin | created | started | locked | waiting | waited | got _ | returned _ | tested | nullLoop | detached =>
    rw [e] at ho
    cases ho

theorem Quitting.completes (h : s.Quitting loop tid) :
    Completes (Step loop tid) (fun s => s.Stopped ∨ s.Dangling) s :=
  Completes.of_rank (I := Quitting loop tid) (wellFounded_lt.prod_lex wellFounded_lt) rank
    (fun _ _ h hs => h.step hs) (fun _ _ h hs => h.rank_lt hs) (fun _ h he => h.over he) s h

/-- If `quit()` has returned, so does the destructor. -/
theorem Quitting.stopped (h : s.Quitting loop tid) (ho : s.owner = .joining) :
    ∃ s', Relation.ReflTransGen (Step loop tid) s s' ∧ s'.Stopped := by
  obtain ⟨s', hs, hp⟩ := h.completes.exists_reach
  have hj : s'.owner = .joining ∨ s'.owner = .joined := by
    clear hp
    induction hs with
    | refl => exact .inl ho
    | tail _ hs ih =>
      cases hs with
      | thread hs => exact hs.owner_eq ▸ ih
      | owner hs =>
        cases hs with
        | dangling hb _ => rcases hb with hb | hb <;> simp [hb] at ih
        | _ => simp_all
  refine ⟨s', hs, hp.resolve_right fun hd => ?_⟩
  rw [hd.1] at hj
  simp at hj

/-- While `quit()` has not gone on, the thread may come to its end. -/
theorem Quitting.dangling (h : s.Quitting loop tid) (ho : s.owner = .quitting) :
    ∃ s', Relation.ReflTransGen (Step loop tid) s s' ∧ s'.Dangling := by
  have hc : Completes (ThreadStep loop tid) (fun s => s.owner = .quitting ∧ s.thread = .ended) s :=
    Completes.of_rank (I := fun s => s.Quitting loop tid ∧ s.owner = .quitting)
      (wellFounded_lt.prod_lex wellFounded_lt) rank
      (fun _ _ h hs => ⟨h.1.step (.thread hs), hs.owner_eq.trans h.2⟩) (fun _ _ h hs => h.1.rank_lt (.thread hs))
      (fun _ h he => ⟨h.2, h.1.ended he⟩) s ⟨h, ho⟩
  obtain ⟨s', hs, ho', ht⟩ := hc.exists_reach
  exact ⟨_, .tail (Relation.ReflTransGen.mono (fun _ _ => Step.thread) s _ hs) (.owner (.dangling (.inl ho') ht)), rfl, ht⟩

/-- When the destructor stores `quit_`, the loop is there, and has not been
left. If `loop()` has executed `quit_ = false` before, every interleaving comes
to an end, where the destructor has returned or `quit()` has touched the
destroyed loop, and there are some of both; otherwise neither ever happens. -/
theorem join_completes_iff (h : Reachable loop tid s) (ho : s.owner = .tested) :
    s.loop = some loop ∧ ¬ s.thread.Past .left ∧
      (Completes (Step loop tid) (fun s => s.Stopped ∨ s.Dangling) s.storeQuit ↔ s.thread.Past .test) ∧
      (s.thread.Past .test → (∃ s', Relation.ReflTransGen (Step loop tid) s.storeQuit s' ∧ s'.Stopped) ∧
        ∃ s', Relation.ReflTransGen (Step loop tid) s.storeQuit s' ∧ s'.Dangling) ∧
      (¬ s.thread.Past .test → ∀ s', Relation.ReflTransGen (Step loop tid) s.storeQuit s' →
        s'.owner = .quitting ∨ s'.owner = .waking ∨ s'.owner = .joining) := by
  have hi := h.inv
  have hf := hi.found
  rw [ho] at hf
  have hl := hi.loop_eq hf (by rw [ho]; rfl)
  have hleft : ¬ s.thread.Past .left := fun ht => by
    have hq := hi.quits (hi.left ht)
    rw [ho] at hq
    cases hq
  have hlost : ¬ s.thread.Past .test → Lost s.storeQuit := fun ht =>
    ⟨.inl rfl, hf, hleft, fun ht' => absurd ht' ht⟩
  have hquit : s.thread.Past .test → s.storeQuit.Quitting loop tid := fun ht =>
    ⟨hi.ownerStep (.storeQuit ho (hl ▸ Option.some_ne_none _)), rfl, rfl, ht⟩
  refine ⟨hl, hleft, ⟨fun hc => ?_, fun ht => (hquit ht).completes⟩, fun ht => ⟨?_, (hquit ht).dangling rfl⟩,
    fun ht s' hs => ((hlost ht).steps hs).owner⟩
  · by_contra ht
    obtain ⟨s', hs, hp⟩ := hc.exists_reach
    have hown := ((hlost ht).steps hs).owner
    rcases hp with ⟨hj, _⟩ | ⟨hj, _⟩
    · rw [hj] at hown
      simp at hown
    · rw [hj] at hown
      simp at hown
  · have hne : s.thread ≠ .ended := fun he => hleft (he ▸ (by decide : ThreadFunc.ended.Past .left))
    have hread : Step loop tid s.storeQuit { s.storeQuit with owner := .waking } := .owner (.isInLoopThread rfl hne)
    have hwake : Step loop tid { s.storeQuit with owner := .waking } { s.storeQuit with owner := .joining } :=
      .owner (.wakeup rfl hne)
    obtain ⟨s', hs, hp⟩ := (((hquit ht).step hread).step hwake).stopped rfl
    exact ⟨s', .head hread (.head hwake hs), hp⟩

/-- The owner stops a thread that is about to test `quit_`. -/
theorem join_completes_iff_looping :
    let s : EventLoopThread Nat := ⟨.new, 0, 9, some 7, false, .tested, .test⟩
    Completes (Step 7 9) (fun s => s.Stopped ∨ s.Dangling) s.storeQuit ∧
      (∃ s', Relation.ReflTransGen (Step 7 9) s.storeQuit s' ∧ s'.Stopped) ∧
      ∃ s', Relation.ReflTransGen (Step 7 9) s.storeQuit s' ∧ s'.Dangling := by
  have thread : ∀ {s s' : EventLoopThread Nat}, Reachable 7 9 s → ThreadStep 7 9 s s' → Reachable 7 9 s' :=
    fun h hs => h.tail (.inl (.thread hs))
  have owner : ∀ {s s' : EventLoopThread Nat}, Reachable 7 9 s → OwnerStep s s' → Reachable 7 9 s' :=
    fun h hs => h.tail (.inl (.owner hs))
  have hstarted := owner (thread (thread (owner .refl (.create rfl)) (.storeTid rfl)) (.post rfl))
    (.semWait rfl Nat.one_pos)
  have hstored := thread (thread (thread (thread hstarted (.construct rfl)) (.callback rfl)) (.lock rfl rfl))
    (.store rfl)
  have hlooping := thread (thread (thread hstored (.notifyOne rfl)) (.unlock rfl)) (.reset rfl)
  have hreturned := owner (owner (owner (owner hlooping (.lock rfl rfl)) (.pass rfl nofun)) (.read rfl))
    (.unlock _ rfl)
  have htested := owner hreturned (.test _ rfl nofun)
  have hm : (((Monitor.new.lock Who.thread).wake .owner).unlock.lock .owner).unlock = .new := by
    simp [Monitor.new, Monitor.lock, Monitor.unlock, Monitor.wake]
  have htest : ThreadFunc.test.Past .test := Nat.le_refl _
  rw [← hm]
  obtain ⟨-, -, hc, hb, -⟩ := join_completes_iff htested rfl
  exact ⟨hc.mpr htest, hb htest⟩

end EventLoopThread

end Mudou.Src
