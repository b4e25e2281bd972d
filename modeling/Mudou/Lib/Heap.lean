import Mathlib.Logic.Equiv.Defs
import Mathlib.Logic.Function.Basic

/-!
# Heaps whose cells have one owner

A heap of cells with `new` (`alloc`) and `delete` (`free`). To free, to read or
to write a cell that is not allocated fails. Owners, some of them, hold the
address of a cell (`own`); `Owned own h val` says that the cell of each owner is
allocated and contains what `val` says, that no two owners share one, and that
every allocated cell has an owner. Each operation keeps it, so that nothing is
freed twice, read after it was freed, or lost.
-/

structure Heap (β : Type) where
  cell : Nat → Option β
  /-- no cell from here on was ever allocated -/
  fresh : Nat

namespace Heap

variable {β κ : Type}

def empty : Heap β := ⟨fun _ => none, 0⟩

def set (h : Heap β) (a : Nat) (c : Option β) : Heap β := { h with cell := Function.update h.cell a c }

def alloc (h : Heap β) (b : β) : Nat × Heap β := (h.fresh, { h.set h.fresh (some b) with fresh := h.fresh + 1 })

def free (h : Heap β) (a : Nat) : Option (Heap β) := (h.cell a).map fun _ => h.set a none

def read (h : Heap β) (a : Nat) : Option β := h.cell a

def write (h : Heap β) (a : Nat) (b : β) : Option (Heap β) := (h.cell a).map fun _ => h.set a (some b)

@[simp] theorem cell_set_self (h : Heap β) (a : Nat) (c : Option β) : (h.set a c).cell a = c :=
  Function.update_self ..

theorem cell_set_of_ne (h : Heap β) {a a' : Nat} (c : Option β) (hne : a' ≠ a) : (h.set a c).cell a' = h.cell a' :=
  Function.update_of_ne hne ..

theorem free_eq {h : Heap β} {a : Nat} {b : β} (hb : h.cell a = some b) : h.free a = some (h.set a none) := by
  rw [free, hb]
  rfl

theorem write_eq {h : Heap β} {a : Nat} {b₀ : β} (hb : h.cell a = some b₀) (b : β) :
    h.write a b = some (h.set a (some b)) := by
  rw [write, hb]
  rfl

structure Owned (own : κ → Option Nat) (h : Heap β) (val : κ → Option β) : Prop where
  fresh {a} : h.fresh ≤ a → h.cell a = none
  empty {k} : own k = none → val k = none
  holds {k a} : own k = some a → ∃ b, h.cell a = some b ∧ val k = some b
  unique {k l a} : own k = some a → own l = some a → k = l
  noLeak {a b} : h.cell a = some b → ∃ k, own k = some a

variable {own : κ → Option Nat} {h : Heap β} {val : κ → Option β} {k l : κ} {a : Nat}

theorem owned_empty : Owned (fun _ => none) empty fun _ : κ => (none : Option β) where
  fresh _ := rfl
  empty _ := rfl
  holds e := nomatch e
  unique e := nomatch e
  noLeak e := nomatch e

theorem Owned.lt_fresh (ho : Owned own h val) (hk : own k = some a) : a < h.fresh := by
  obtain ⟨b, hb, -⟩ := ho.holds hk
  by_contra hle
  rw [ho.fresh (Nat.le_of_not_lt hle)] at hb
  cases hb

theorem Owned.read_eq (ho : Owned own h val) (hk : own k = some a) : h.read a = val k := by
  obtain ⟨b, hb, hv⟩ := ho.holds hk
  rw [read, hb, hv]

variable [DecidableEq κ]

/-- A new cell, for an owner that had none. -/
theorem Owned.alloc (ho : Owned own h val) (hk : own k = none) (b : β) :
    Owned (Function.update own k (some (h.alloc b).1)) (h.alloc b).2
      (Function.update val k (some b)) := by
  have hcell : ∀ {a}, a ≠ h.fresh → (h.alloc b).2.cell a = h.cell a := fun hne => cell_set_of_ne _ _ hne
  have hne : ∀ {l a}, l ≠ k → Function.update own k (some (h.alloc b).1) l = some a →
      own l = some a := fun e hl => by rwa [Function.update_of_ne e] at hl
  have hself : ∀ {a}, Function.update own k (some (h.alloc b).1) k = some a → a = h.fresh := by
    intro a hl
    rw [Function.update_self] at hl
    exact (Option.some.inj hl).symm
  refine ⟨fun {a} hle => ?_, fun {l} hl => ?_, fun {l a} hl => ?_, fun {l m a} hl hm => ?_, fun {a b'} hc => ?_⟩
  · rw [hcell (Nat.ne_of_gt hle)]
    exact ho.fresh (Nat.le_of_succ_le hle)
  · by_cases e : l = k
    · subst e
      rw [Function.update_self] at hl
      cases hl
    · rw [Function.update_of_ne e] at hl ⊢
      exact ho.empty hl
  · by_cases e : l = k
    · subst e
      rw [hself hl]
      exact ⟨b, cell_set_self .., Function.update_self ..⟩
    · rw [Function.update_of_ne e, hcell (Nat.ne_of_lt (ho.lt_fresh (hne e hl)))]
      exact ho.holds (hne e hl)
  · by_cases el : l = k <;> by_cases em : m = k
    · rw [el, em]
    · subst el
      exact absurd (hself hl) (Nat.ne_of_lt (ho.lt_fresh (hne em hm)))
    · subst em
      exact absurd (hself hm) (Nat.ne_of_lt (ho.lt_fresh (hne el hl)))
    · exact ho.unique (hne el hl) (hne em hm)
  · by_cases e : a = h.fresh
    · exact ⟨k, by rw [Function.update_self, e]; rfl⟩
    · rw [hcell e] at hc
      obtain ⟨l, hl⟩ := ho.noLeak hc
      refine ⟨l, ?_⟩
      rw [Function.update_of_ne (by rintro rfl; rw [hk] at hl; cases hl)]
      exact hl

/-- The owner gives its cell up. -/
theorem Owned.free (ho : Owned own h val) (hk : own k = some a) :
    ∃ h', h.free a = some h' ∧
      Owned (Function.update own k none) h' (Function.update val k none) := by
  obtain ⟨b, hb, -⟩ := ho.holds hk
  have hne : ∀ {l a'}, Function.update own k none l = some a' → l ≠ k ∧ own l = some a' := by
    intro l a' hl
    by_cases e : l = k
    · subst e
      rw [Function.update_self] at hl
      cases hl
    · rw [Function.update_of_ne e] at hl
      exact ⟨e, hl⟩
  refine ⟨_, free_eq hb, fun {a'} hle => ?_, fun {l} hl => ?_, fun {l a'} hl => ?_,
    fun {l m a'} hl hm => ho.unique (hne hl).2 (hne hm).2, fun {a' b'} hc => ?_⟩
  · rw [cell_set_of_ne _ _ (Nat.ne_of_gt (Nat.lt_of_lt_of_le (ho.lt_fresh hk) hle))]
    exact ho.fresh hle
  · by_cases e : l = k
    · rw [e, Function.update_self]
    · rw [Function.update_of_ne e] at hl ⊢
      exact ho.empty hl
  · obtain ⟨e, hl⟩ := hne hl
    have ha : a' ≠ a := by
      rintro rfl
      exact e (ho.unique hl hk)
    rw [Function.update_of_ne e, cell_set_of_ne _ _ ha]
    exact ho.holds hl
  · by_cases e : a' = a
    · rw [e, cell_set_self] at hc
      cases hc
    · rw [cell_set_of_ne _ _ e] at hc
      obtain ⟨l, hl⟩ := ho.noLeak hc
      have hlk : l ≠ k := by
        rintro rfl
        exact e (Option.some.inj (hl.symm.trans hk))
      exact ⟨l, by rw [Function.update_of_ne hlk]; exact hl⟩

/-- The owner writes its cell. -/
theorem Owned.write (ho : Owned own h val) (hk : own k = some a) (b : β) :
    ∃ h', h.write a b = some h' ∧ Owned own h' (Function.update val k (some b)) := by
  obtain ⟨b₀, hb, -⟩ := ho.holds hk
  refine ⟨_, write_eq hb b, fun {a'} hle => ?_, fun {l} hl => ?_, fun {l a'} hl => ?_, ho.unique,
    fun {a' b'} hc => ?_⟩
  · rw [cell_set_of_ne _ _ (Nat.ne_of_gt (Nat.lt_of_lt_of_le (ho.lt_fresh hk) hle))]
    exact ho.fresh hle
  · rw [Function.update_of_ne (by rintro rfl; rw [hk] at hl; cases hl)]
    exact ho.empty hl
  · by_cases e : l = k
    · subst e
      rw [Option.some.inj (hl.symm.trans hk)]
      exact ⟨b, cell_set_self .., Function.update_self ..⟩
    · have ha : a' ≠ a := by
        rintro rfl
        exact e (ho.unique hl hk)
      rw [Function.update_of_ne e, cell_set_of_ne _ _ ha]
      exact ho.holds hl
  · by_cases e : a' = a
    · exact ⟨k, e ▸ hk⟩
    · rw [cell_set_of_ne _ _ e] at hc
      exact ho.noLeak hc

omit [DecidableEq κ] in
/-- The owners exchange their cells along `e`. -/
theorem Owned.perm (ho : Owned own h val) (e : κ ≃ κ) : Owned (own ∘ e) h (val ∘ e) where
  fresh := ho.fresh
  empty hk := ho.empty hk
  holds hk := ho.holds hk
  unique hk hl := e.injective (ho.unique hk hl)
  noLeak hc := by
    obtain ⟨k, hk⟩ := ho.noLeak hc
    exact ⟨e.symm k, by rw [Function.comp, e.apply_symm_apply]; exact hk⟩

end Heap
