import Mathlib.Logic.Function.Basic

/-!
# Mutexes and condition variables

A mutex with a condition variable, and the threads that hold the one or sleep
on the other. `Guarded`: exactly the thread whose place in its code is between
`lock` and `unlock` holds the mutex; each operation moves one thread in or out
(`Guarded.lock`, `Guarded.leave`), so that two are never inside
(`Guarded.unique`).
-/

structure Monitor (θ : Type) where
  owner : Option θ
  asleep : θ → Bool

namespace Monitor

variable {θ : Type}

def new : Monitor θ := ⟨none, fun _ => false⟩

def lock (m : Monitor θ) (t : θ) : Monitor θ := { m with owner := some t }

def unlock (m : Monitor θ) : Monitor θ := { m with owner := none }

def notifyAll (m : Monitor θ) : Monitor θ := { m with asleep := fun _ => false }

variable [DecidableEq θ]

/-- The mutex is released and the thread put to sleep at once. -/
def wait (m : Monitor θ) (t : θ) : Monitor θ := ⟨none, Function.update m.asleep t true⟩

/-- A thread is woken, by a notification or for no reason. -/
def wake (m : Monitor θ) (t : θ) : Monitor θ := { m with asleep := Function.update m.asleep t false }

/-- The threads inside are those that hold the mutex. -/
def Guarded (m : Monitor θ) (inside : θ → Bool) : Prop := ∀ t, inside t = true ↔ m.owner = some t

section Guarded

variable {m : Monitor θ} {inside : θ → Bool} {t u : θ}

omit [DecidableEq θ] in
theorem guarded_new : Guarded (new : Monitor θ) fun _ => false :=
  fun _ => iff_of_false Bool.false_ne_true fun h => nomatch h

omit [DecidableEq θ] in
theorem Guarded.congr {inside' : θ → Bool} (h : Guarded m inside) (hi : ∀ t, inside' t = inside t) :
    Guarded m inside' :=
  fun t => hi t ▸ h t

omit [DecidableEq θ] in
theorem Guarded.unique (h : Guarded m inside) (ht : inside t = true) (hu : inside u = true) : t = u :=
  Option.some.inj (((h t).mp ht).symm.trans ((h u).mp hu))

omit [DecidableEq θ] in
theorem Guarded.not_inside (h : Guarded m inside) (hm : m.owner = none) (t : θ) : inside t = false :=
  Bool.eq_false_iff.mpr fun ht => Option.some_ne_none _ (((h t).mp ht).symm.trans hm)

theorem Guarded.lock (h : Guarded m inside) (hm : m.owner = none) (t : θ) :
    Guarded (m.lock t) (Function.update inside t true) := by
  intro u
  by_cases e : u = t
  · subst e
    exact iff_of_true (Function.update_self ..) rfl
  · rw [Function.update_of_ne e, h.not_inside hm]
    exact iff_of_false Bool.false_ne_true fun hu => e (Option.some.inj hu).symm

/-- The thread inside leaves. -/
theorem Guarded.leave (h : Guarded m inside) (ht : inside t = true) (asleep : θ → Bool) :
    Guarded ⟨none, asleep⟩ (Function.update inside t false) := by
  intro u
  refine iff_of_false (fun hu => ?_) fun hu => nomatch hu
  by_cases e : u = t
  · subst e
    rw [Function.update_self] at hu
    cases hu
  · rw [Function.update_of_ne e] at hu
    exact e (h.unique hu ht)

end Guarded

end Monitor
