import Mathlib.Data.List.Nodup
import Mathlib.Logic.Function.Basic

/-!
# The interest set of an epoll instance

What `epoll_ctl` does to the descriptors an instance watches, each with its
event: `EPOLL_CTL_ADD` succeeds on an open descriptor that is absent,
`EPOLL_CTL_MOD` and `EPOLL_CTL_DEL` on one that is present. `none` is an error.

`Waited`: what a level-triggered `epoll_wait` returns.
-/

namespace Epoll

inductive Op where
  | add
  | mod
  | del
  deriving DecidableEq

variable {φ α : Type} [DecidableEq φ] {fd : φ} {s : φ → Option α}

def ctl (op : Op) (isOpen : Bool) (fd : φ) (e : α) (s : φ → Option α) : Option (φ → Option α) :=
  match op with
  | .add => if isOpen && (s fd).isNone then some (Function.update s fd (some e)) else none
  | .mod => if (s fd).isSome then some (Function.update s fd (some e)) else none
  | .del => if (s fd).isSome then some (Function.update s fd none) else none

theorem ctl_add (h : s fd = none) (e : α) : ctl .add true fd e s = some (Function.update s fd (some e)) := by
  rw [ctl, h]
  rfl

theorem ctl_mod (h : s fd ≠ none) (isOpen : Bool) (e : α) :
    ctl .mod isOpen fd e s = some (Function.update s fd (some e)) :=
  if_pos (Option.isSome_iff_ne_none.mpr h)

theorem ctl_del (h : s fd ≠ none) (isOpen : Bool) (e : α) :
    ctl .del isOpen fd e s = some (Function.update s fd none) :=
  if_pos (Option.isSome_iff_ne_none.mpr h)

/-- Whether `EPOLL_CTL_DEL` succeeds or not, the descriptor is not watched. -/
theorem ctl_del_getD (isOpen : Bool) (e : α) : (ctl .del isOpen fd e s).getD s = Function.update s fd none := by
  by_cases h : s fd = none
  · rw [ctl, if_neg (by simp [h]), Option.getD_none, ← h, Function.update_eq_self]
  · rw [ctl_del h, Option.getD_some]

/-- `epoll_wait` returns descriptors that are watched and ready (`ready fd` is
the mask), each once, and all of them if it returns fewer than `maxEvents`. -/
structure Waited {β : Type} (maxEvents : Int) (ready : φ → Option β) (s : φ → Option α) (evs : List (φ × β × α)) :
    Prop where
  positive : 0 < maxEvents
  nodup : (evs.map Prod.fst).Nodup
  length : (evs.length : Int) ≤ maxEvents
  sound {fd : φ} {b : β} {a : α} : (fd, b, a) ∈ evs → ready fd = some b ∧ s fd = some a
  complete {fd : φ} {b : β} {a : α} : (evs.length : Int) < maxEvents → ready fd = some b → s fd = some a →
    (fd, b, a) ∈ evs

end Epoll
