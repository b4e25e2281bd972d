import Mathlib.Algebra.Order.BigOperators.Group.Finset
import Mathlib.Data.Fintype.Defs
import Mudou.Lib.Monitor
import Mudou.Lib.Run

/-!
# Waiting for the loop of a thread

`LoopThread` of `source/server.hpp`: the new thread makes its `EventLoop`,
stores its address in `_loop` under the mutex and notifies; any number of
other threads are in `GetLoop`, which waits until `_loop` is not null. Each
access to the mutex, the condition variable or `_loop` is a step. A thread
that sleeps may also wake for no reason (`Wakes`).

`getLoop_returns`: in every interleaving, what `GetLoop` returns is the address
of the loop, never null; no notification is lost, and every call returns.
-/

namespace Mudou

open Monitor Run

/-- Where the new thread is in `ThreadEntry`. -/
inductive ThreadEntry where
  | begin
  /-- `EventLoop loop` is there -/
  | constructed
  | locked
  | assigned
  | notified
  /-- in `loop.Start()`, which never returns -/
  | started
  deriving DecidableEq

/-- Where a caller is in `GetLoop`. -/
inductive GetLoop (α : Type) where
  | begin
  /-- about to test `_loop != NULL` -/
  | locked
  | waiting
  /-- behind `_cond.wait` -/
  | waited
  | got (loop : Option α)
  | returned (loop : Option α)

inductive LoopUser (ι : Type) where
  | entry
  | getLoop (i : ι)
  deriving DecidableEq

/-- The places between `lock` and `unlock`. -/
def ThreadEntry.inside : ThreadEntry → Bool
  | .locked | .assigned | .notified => true
  | _ => false

def GetLoop.inside {α : Type} : GetLoop α → Bool
  | .locked | .waited | .got _ => true
  | _ => false

/-- `_loop` has its value. -/
def ThreadEntry.stored : ThreadEntry → Bool
  | .assigned | .notified | .started => true
  | _ => false

/-- What a caller has read, where `_loop` is `stored`. -/
def GetLoop.Found {α : Type} (loop : α) (stored : Option α) : GetLoop α → Prop
  | .waited => stored = some loop
  | .got p | .returned p => p = some loop
  | _ => True

structure LoopThread (α ι : Type) where
  /-- `_mutex` and `_cond` -/
  mutex : Monitor (LoopUser ι)
  /-- `_loop`, `none` for `NULL` -/
  loop : Option α
  entry : ThreadEntry
  getLoop : ι → GetLoop α

namespace LoopThread

variable {α ι : Type}

def new : LoopThread α ι := ⟨.new, none, .begin, fun _ => .begin⟩

section Steps

variable [DecidableEq ι]

/-- A step of a thread; `loop` is the address of the new thread's loop. -/
inductive Step (loop : α) : LoopThread α ι → LoopThread α ι → Prop where
  | construct {s : LoopThread α ι} : s.entry = .begin → Step loop s { s with entry := .constructed }
  | entryLock {s : LoopThread α ι} : s.entry = .constructed → s.mutex.owner = none →
      Step loop s { s with entry := .locked, mutex := s.mutex.lock .entry }
  | assign {s : LoopThread α ι} : s.entry = .locked →
      Step loop s { s with entry := .assigned, loop := some loop }
  | notifyAll {s : LoopThread α ι} : s.entry = .assigned →
      Step loop s { s with entry := .notified, mutex := s.mutex.notifyAll }
  | entryUnlock {s : LoopThread α ι} : s.entry = .notified →
      Step loop s { s with entry := .started, mutex := s.mutex.unlock }
  | lock {s : LoopThread α ι} (i : ι) : s.getLoop i = .begin → s.mutex.owner = none →
      Step loop s { s with
        getLoop := Function.update s.getLoop i .locked, mutex := s.mutex.lock (.getLoop i) }
  | wait {s : LoopThread α ι} (i : ι) : s.getLoop i = .locked → s.loop = none →
      Step loop s { s with
        getLoop := Function.update s.getLoop i .waiting, mutex := s.mutex.wait (.getLoop i) }
  | lockAgain {s : LoopThread α ι} (i : ι) : s.getLoop i = .waiting →
      s.mutex.asleep (.getLoop i) = false → s.mutex.owner = none →
      Step loop s { s with
        getLoop := Function.update s.getLoop i .locked, mutex := s.mutex.lock (.getLoop i) }
  | pass {s : LoopThread α ι} (i : ι) : s.getLoop i = .locked → s.loop ≠ none →
      Step loop s { s with getLoop := Function.update s.getLoop i .waited }
  | read {s : LoopThread α ι} (i : ι) : s.getLoop i = .waited →
      Step loop s { s with getLoop := Function.update s.getLoop i (.got s.loop) }
  | unlock {s : LoopThread α ι} (i : ι) (p : Option α) : s.getLoop i = .got p →
      Step loop s { s with
        getLoop := Function.update s.getLoop i (.returned p), mutex := s.mutex.unlock }

/-- A thread wakes that nobody has notified. -/
inductive Wakes : LoopThread α ι → LoopThread α ι → Prop where
  | wake {s : LoopThread α ι} (i : ι) : s.getLoop i = .waiting →
      Wakes s { s with mutex := s.mutex.wake (.getLoop i) }

def Reachable (loop : α) : LoopThread α ι → Prop :=
  Relation.ReflTransGen (fun s s' => Step loop s s' ∨ Wakes s s') new

end Steps

/-! ## The mutex -/

def inside (s : LoopThread α ι) : LoopUser ι → Bool
  | .entry => s.entry.inside
  | .getLoop i => (s.getLoop i).inside

variable [DecidableEq ι] {loop : α} {s s' : LoopThread α ι}

/-- The new thread moves. -/
theorem guarded_entry (s : LoopThread α ι) (hg : s'.getLoop = s.getLoop)
    (h : s'.mutex.Guarded (Function.update s.inside .entry s'.entry.inside)) : s'.mutex.Guarded s'.inside := by
  have e : s'.inside = Function.update s.inside .entry s'.entry.inside := by
    funext t
    cases t with
    | entry =>
      rw [Function.update_self]
      rfl
    | getLoop i =>
      rw [Function.update_of_ne (show LoopUser.getLoop i ≠ .entry from nofun)]
      exact congrArg GetLoop.inside (congrFun hg i)
  rw [e]
  exact h

/-- A caller moves. -/
theorem guarded_getLoop (s : LoopThread α ι) {i : ι} {g : GetLoop α} (he : s'.entry = s.entry)
    (hg : s'.getLoop = Function.update s.getLoop i g)
    (h : s'.mutex.Guarded (Function.update s.inside (.getLoop i) g.inside)) : s'.mutex.Guarded s'.inside := by
  have e : s'.inside = Function.update s.inside (.getLoop i) g.inside := by
    funext t
    cases t with
    | entry =>
      rw [Function.update_of_ne (show LoopUser.entry ≠ .getLoop i from nofun)]
      exact congrArg ThreadEntry.inside he
    | getLoop j =>
      show (s'.getLoop j).inside = _
      rw [hg]
      by_cases e : j = i
      · subst e
        rw [Function.update_self, Function.update_self]
      · rw [Function.update_of_ne e, Function.update_of_ne (by simpa using e)]
        rfl
  rw [e]
  exact h

/-- A thread that stays inside, or outside. -/
theorem guarded_update {t : LoopUser ι} {b : Bool} (ht : s.inside t = b) (h : s.mutex.Guarded s.inside) :
    s.mutex.Guarded (Function.update s.inside t b) := by
  rw [Function.update_eq_self_iff.mpr ht.symm]
  exact h

theorem Step.guarded (h : Step loop s s') (hm : s.mutex.Guarded s.inside) : s'.mutex.Guarded s'.inside := by
  have hentry : ∀ {e}, s.entry = e → s.inside .entry = e.inside := fun h => congrArg ThreadEntry.inside h
  have hget : ∀ {i g}, s.getLoop i = g → s.inside (.getLoop i) = g.inside := fun h => congrArg GetLoop.inside h
  cases h with
  | construct he => exact guarded_entry s rfl (guarded_update (hentry he :) hm)
  | entryLock _ ho => exact guarded_entry s rfl (hm.lock ho _)
  | assign he => exact guarded_entry s rfl (guarded_update (hentry he :) hm)
  | notifyAll he => exact guarded_entry s rfl (guarded_update (hentry he :) hm)
  | entryUnlock he => exact guarded_entry s rfl (hm.leave (hentry he) _)
  | lock i _ ho => exact guarded_getLoop s rfl rfl (hm.lock ho _)
  | wait i hg _ => exact guarded_getLoop s rfl rfl (hm.leave (hget hg) _)
  | lockAgain i _ _ ho => exact guarded_getLoop s rfl rfl (hm.lock ho _)
  | pass i hg _ => exact guarded_getLoop s rfl rfl (guarded_update (hget hg :) hm)
  | read i hg => exact guarded_getLoop s rfl rfl (guarded_update (hget hg :) hm)
  | unlock i p hg => exact guarded_getLoop s rfl rfl (hm.leave (hget hg) _)

/-! ## The invariant -/


structure Inv (loop : α) (s : LoopThread α ι) : Prop where
  guarded : s.mutex.Guarded s.inside
  stored : s.loop = if s.entry.stored then some loop else none
  /-- who sleeps will be notified -/
  asleep {i} : s.mutex.asleep (.getLoop i) = true → s.entry ≠ .notified ∧ s.entry ≠ .started
  found (i) : (s.getLoop i).Found loop s.loop

omit [DecidableEq ι] in
theorem new_inv (loop : α) : (new : LoopThread α ι).Inv loop where
  guarded := (guarded_new : Guarded (Monitor.new : Monitor (LoopUser ι)) _).congr fun t => by cases t <;> rfl
  stored := rfl
  asleep h := nomatch h
  found _ := trivial

/-- A caller that moves knows the address if it should. -/
theorem Inv.found_update (h : s.Inv loop) {i : ι} {g : GetLoop α} (hg : g.Found loop s.loop) (j : ι) :
    (Function.update s.getLoop i g j).Found loop s.loop := by
  by_cases e : j = i
  · subst e
    rw [Function.update_self]
    exact hg
  · rw [Function.update_of_ne e]
    exact h.found j

theorem Inv.step (h : s.Inv loop) (hs : Step loop s s') : s'.Inv loop := by
  have hm := hs.guarded h.guarded
  have hl := h.stored
  cases hs with
  | construct he =>
    rw [he] at hl
    exact ⟨hm, hl, fun _ => ⟨nofun, nofun⟩, h.found⟩
  | entryLock he _ =>
    rw [he] at hl
    exact ⟨hm, hl, fun _ => ⟨nofun, nofun⟩, h.found⟩
  | assign he =>
    rw [he] at hl
    refine ⟨hm, rfl, fun _ => ⟨nofun, nofun⟩, fun i => ?_⟩
    have hf := h.found i
    show (s.getLoop i).Found loop (some loop)
    cases e : s.getLoop i with
    | waited => rfl
    | begin | locked | waiting => trivial
    | got p | returned p =>
      rw [e] at hf
      exact hf
  | notifyAll he =>
    rw [he] at hl
    exact ⟨hm, hl, fun ha => (nomatch ha), h.found⟩
  | entryUnlock he =>
    rw [he] at hl
    exact ⟨hm, hl, fun ha => absurd he (h.asleep ha).1, h.found⟩
  | lock i | lockAgain i => exact ⟨hm, hl, h.asleep, h.found_update trivial⟩
  | wait i _ hn =>
    refine ⟨hm, hl, fun {j} ha => ?_, h.found_update trivial⟩
    have hst : ∀ e : ThreadEntry, e.stored = true → s.entry ≠ e := by
      rintro e he rfl
      rw [hn, if_pos he] at hl
      cases hl
    exact ⟨hst .notified rfl, hst .started rfl⟩
  | pass i _ hn =>
    refine ⟨hm, hl, h.asleep, h.found_update ?_⟩
    show s.loop = some loop
    rw [hl] at hn ⊢
    split at hn
    · next hst => rw [if_pos hst]
    · exact absurd rfl hn
  | read i hg =>
    have hf := h.found i
    rw [hg] at hf
    exact ⟨hm, hl, h.asleep, h.found_update hf⟩
  | unlock i p hg =>
    have hf := h.found i
    rw [hg] at hf
    exact ⟨hm, hl, h.asleep, h.found_update hf⟩

theorem Inv.wakes (h : s.Inv loop) (hs : Wakes s s') : s'.Inv loop := by
  cases hs with
  | wake i =>
    refine ⟨h.guarded, h.stored, fun {j} ha => ?_, h.found⟩
    change Function.update s.mutex.asleep _ false _ = true at ha
    by_cases e : j = i
    · subst e
      rw [Function.update_self] at ha
      cases ha
    · rw [Function.update_of_ne (by simpa using e)] at ha
      exact h.asleep ha

theorem Reachable.inv (h : Reachable loop s) : s.Inv loop := by
  induction h with
  | refl => exact new_inv loop
  | tail _ hs ih => exact hs.elim ih.step ih.wakes

/-- What a call has returned is the address of the loop, and the loop is there. -/
theorem Reachable.returned (h : Reachable loop s) {i : ι} {p : Option α} (hi : s.getLoop i = .returned p) :
    p = some loop := by
  have hf := h.inv.found i
  rw [hi] at hf
  exact hf

/-! ## Every call returns -/

/-- How far the new thread has to go. -/
def entryRank : ThreadEntry → Nat
  | .begin => 5
  | .constructed => 4
  | .locked => 3
  | .assigned => 2
  | .notified => 1
  | .started => 0

/-- How far a caller has to go before it has returned, or sleeps. -/
def getLoopRank (asleep : Bool) : GetLoop α → Nat
  | .begin => 5
  | .waiting => if asleep then 3 else 5
  | .locked => 4
  | .waited => 2
  | .got _ => 1
  | .returned _ => 0

theorem getLoopRank_lt (asleep : Bool) (g : GetLoop α) : getLoopRank asleep g < 6 := by
  cases g <;> cases asleep <;> simp [getLoopRank]

variable [Fintype ι]

def rank (s : LoopThread α ι) : Nat × Nat :=
  (entryRank s.entry, ∑ i, getLoopRank (s.mutex.asleep (.getLoop i)) (s.getLoop i))

omit [Fintype ι] in
/-- A caller that moves, and may fall asleep. -/
theorem getLoopRank_update {i : ι} {g : GetLoop α} {asleep : LoopUser ι → Bool}
    (ha : ∀ j, j ≠ i → asleep (.getLoop j) = s.mutex.asleep (.getLoop j))
    (hg : getLoopRank (asleep (.getLoop i)) g < getLoopRank (s.mutex.asleep (.getLoop i)) (s.getLoop i)) :
    (∀ j, getLoopRank (asleep (.getLoop j)) (Function.update s.getLoop i g j) ≤
      getLoopRank (s.mutex.asleep (.getLoop j)) (s.getLoop j)) ∧
    getLoopRank (asleep (.getLoop i)) (Function.update s.getLoop i g i) <
      getLoopRank (s.mutex.asleep (.getLoop i)) (s.getLoop i) := by
  refine ⟨fun j => ?_, by rw [Function.update_self]; exact hg⟩
  by_cases e : j = i
  · subst e
    rw [Function.update_self]
    exact hg.le
  · rw [Function.update_of_ne e, ha j e]

/-- A step of the new thread, or of a caller. -/
theorem rank_lt (h : Step loop s s') : Prod.Lex (· < ·) (· < ·) s'.rank s.rank := by
  have hget : ∀ {i : ι} {g : GetLoop α} {asleep : LoopUser ι → Bool} {m : Monitor (LoopUser ι)},
      m.asleep = asleep → (∀ j, j ≠ i → asleep (.getLoop j) = s.mutex.asleep (.getLoop j)) →
      getLoopRank (asleep (.getLoop i)) g < getLoopRank (s.mutex.asleep (.getLoop i)) (s.getLoop i) →
      Prod.Lex (· < ·) (· < ·) (rank { s with getLoop := Function.update s.getLoop i g, mutex := m }) s.rank := by
    rintro i g _ m rfl ha hg
    obtain ⟨hle, hlt⟩ := getLoopRank_update ha hg
    exact .right _ (Finset.sum_lt_sum (fun j _ => hle j) ⟨i, Finset.mem_univ i, hlt⟩)
  cases h with
  | construct he | entryLock he _ | assign he | notifyAll he | entryUnlock he =>
    refine .left _ _ ?_
    rw [he]
    exact Nat.lt_succ_self _
  | lock i hg _ =>
    refine hget rfl (fun _ _ => rfl) ?_
    rw [hg]
    exact Nat.lt_succ_self _
  | wait i hg _ =>
    refine hget rfl (fun j hj => Function.update_of_ne (by simpa using hj) ..) ?_
    have ha : (s.mutex.wait (.getLoop i)).asleep (.getLoop i) = true := Function.update_self ..
    rw [hg, ha]
    exact Nat.lt_succ_self _
  | lockAgain i hg ha _ =>
    refine hget rfl (fun _ _ => rfl) ?_
    rw [hg, ha]
    exact Nat.lt_succ_self _
  | pass i hg _ =>
    refine hget rfl (fun _ _ => rfl) ?_
    rw [hg]
    exact Nat.lt_of_sub_eq_succ rfl
  | read i hg | unlock i _ hg =>
    refine hget rfl (fun _ _ => rfl) ?_
    rw [hg]
    exact Nat.lt_succ_self _

omit [Fintype ι] in
/-- Who holds the mutex can go on. -/
theorem Inv.owner_of_ended (h : s.Inv loop) (he : Ended (Step loop) s) : s.mutex.owner = none := by
  rw [Option.eq_none_iff_forall_ne_some]
  intro t ht
  have hin := (h.guarded t).mpr ht
  cases t with
  | entry =>
    change s.entry.inside = true at hin
    cases e : s.entry with
    | locked => exact he _ (.assign e)
    | assigned => exact he _ (.notifyAll e)
    | notified => exact he _ (.entryUnlock e)
    | begin | constructed | started =>
      rw [e] at hin
      cases hin
  | getLoop i =>
    change (s.getLoop i).inside = true at hin
    cases e : s.getLoop i with
    | locked =>
      by_cases hl : s.loop = none
      · exact he _ (.wait i e hl)
      · exact he _ (.pass i e hl)
    | waited => exact he _ (.read i e)
    | got p => exact he _ (.unlock i p e)
    | begin | waiting | returned _ =>
      rw [e] at hin
      cases hin

omit [Fintype ι] in
theorem Inv.of_ended (h : s.Inv loop) (he : Ended (Step loop) s) :
    s.entry = .started ∧ ∀ i, s.getLoop i = .returned (some loop) := by
  have ho := h.owner_of_ended he
  have hout := h.guarded.not_inside ho
  have hst : s.entry = .started := by
    have hin : s.entry.inside = false := hout .entry
    cases e : s.entry with
    | begin => exact (he _ (.construct e)).elim
    | constructed => exact (he _ (.entryLock e ho)).elim
    | started => rfl
    | locked | assigned | notified =>
      rw [e] at hin
      cases hin
  refine ⟨hst, fun i => ?_⟩
  have hin : (s.getLoop i).inside = false := hout (.getLoop i)
  have hf := h.found i
  cases e : s.getLoop i with
  | begin => exact (he _ (.lock i e ho)).elim
  | waiting =>
    have ha : s.mutex.asleep (.getLoop i) = false := Bool.eq_false_iff.mpr fun ha => (h.asleep ha).2 hst
    exact (he _ (.lockAgain i e ha ho)).elim
  | returned p =>
    rw [e] at hf
    exact congrArg GetLoop.returned hf
  | locked | waited | got _ =>
    rw [e] at hin
    cases hin

/-- What a call has returned is the address of the loop; and unless threads go
on waking for no reason, every call returns, whatever happened before. -/
theorem getLoop_returns (h : Reachable loop s) :
    (∀ i p, s.getLoop i = .returned p → p = some loop) ∧ Completes (Step loop)
      (fun s' => s'.entry = .started ∧ ∀ i, s'.getLoop i = .returned (some loop)) s := by
  refine ⟨fun i p hi => h.returned hi, ?_⟩
  exact Completes.of_rank (I := Inv loop) (wellFounded_lt.prod_lex wellFounded_lt) rank
    (fun _ _ h hs => h.step hs) (fun _ _ _ hs => rank_lt hs) (fun _ h he => h.of_ended he) s h.inv

/-- One of two callers sleeps before the new thread has done anything. -/
theorem getLoop_returns_asleep :
    let s : LoopThread Nat Bool := ⟨.wait .new (.getLoop true), none, .begin,
      Function.update (fun _ => .begin) true .waiting⟩
    (∀ i p, s.getLoop i = .returned p → p = some 7) ∧ Completes (Step 7)
      (fun s' => s'.entry = .started ∧ ∀ i, s'.getLoop i = .returned (some 7)) s := by
  have hl : Step 7 (new : LoopThread Nat Bool) ⟨Monitor.lock .new (.getLoop true), none, .begin,
      Function.update (fun _ => .begin) true .locked⟩ := .lock true rfl rfl
  have hw : Step 7 (⟨Monitor.lock .new (.getLoop true), none, .begin,
      Function.update (fun _ => .begin) true .locked⟩ : LoopThread Nat Bool) ⟨.wait .new (.getLoop true), none,
        .begin, Function.update (Function.update (fun _ => .begin) true .locked) true .waiting⟩ := .wait true rfl rfl
  rw [Function.update_idem] at hw
  exact getLoop_returns ((Relation.ReflTransGen.single (.inl hl)).tail (.inl hw))

end LoopThread

end Mudou
