import Mathlib.Logic.Equiv.Basic
import Mudou.Lib.Heap

/-!
# The container of any type

`Any` of `source/server.hpp`, the type of a connection's `_context`: a pointer
to a `placeholder<T>` on the heap, or `NULL`. The objects `ι` are the program's
containers and `none` is the temporary of `operator=`. An operation that frees
or follows a pointer to no placeholder, or whose assertion fails, is `none`.

`run_refines_values`: any sequence of operations behaves as if the containers
held the values themselves. No placeholder is freed twice, used after it was
freed or lost.
-/

namespace Mudou

open Heap

/-- A `placeholder<T>`: the type and the value. -/
abbrev Placeholder {τ : Type} (V : τ → Type) := (t : τ) × V t

/-- The heap and the containers; `alive` are those that are constructed. -/
structure Anys (ι : Type) {τ : Type} (V : τ → Type) where
  heap : Heap (Placeholder V)
  alive : Option ι → Bool
  content : Option ι → Option Nat

namespace Anys

variable {ι τ : Type} {V : τ → Type} [DecidableEq ι]

def new : Anys ι V := ⟨.empty, fun _ => false, fun _ => none⟩

/-- `Any()` -/
def default (m : Anys ι V) (k : Option ι) : Option (Anys ι V) :=
  if m.alive k then none
  else some { m with alive := Function.update m.alive k true, content := Function.update m.content k none }

/-- `Any(const T &val)` -/
def ofValue (m : Anys ι V) (k : Option ι) (val : Placeholder V) : Option (Anys ι V) :=
  if m.alive k then none
  else
    let (a, heap) := m.heap.alloc val
    some { heap, alive := Function.update m.alive k true, content := Function.update m.content k (some a) }

/-- `Any(const Any &other)`, with `clone` of the placeholder -/
def copy (m : Anys ι V) (k other : Option ι) : Option (Anys ι V) :=
  if m.alive other then
    match m.content other with
    | none => m.default k
    | some a => do m.ofValue k (← m.heap.read a)
  else none

/-- `~Any()` -/
def destroy (m : Anys ι V) (k : Option ι) : Option (Anys ι V) :=
  if m.alive k then do
    let heap ← match m.content k with
      | none => some m.heap
      | some a => m.heap.free a
    some { heap, alive := Function.update m.alive k false, content := Function.update m.content k none }
  else none

def swap (m : Anys ι V) (k other : Option ι) : Option (Anys ι V) :=
  if m.alive k ∧ m.alive other then some { m with content := m.content ∘ Equiv.swap k other } else none

/-- `Any(val).swap(*this)` -/
def assignValue (m : Anys ι V) (k : Option ι) (val : Placeholder V) : Option (Anys ι V) := do
  let m ← m.ofValue none val
  let m ← m.swap none k
  m.destroy none

/-- `Any(other).swap(*this)` -/
def assign (m : Anys ι V) (k other : Option ι) : Option (Anys ι V) := do
  let m ← m.copy none other
  let m ← m.swap none k
  m.destroy none

/-- `get<T>()`: the pointer, if the content has the type `T`. -/
def get [DecidableEq τ] (m : Anys ι V) (k : Option ι) (t : τ) : Option Nat :=
  if m.alive k then do
    let a ← m.content k
    let p ← m.heap.read a
    if t = p.1 then some a else none
  else none

/-! ## Sequences of operations -/

inductive Op (ι : Type) {τ : Type} (V : τ → Type) where
  | default (i : ι)
  | ofValue (i : ι) (val : Placeholder V)
  | copy (i other : ι)
  | destroy (i : ι)
  | swap (i other : ι)
  | assignValue (i : ι) (val : Placeholder V)
  | assign (i other : ι)
  /-- what is behind the pointer of `get` is read -/
  | read (i : ι) (t : τ)
  /-- and it is written -/
  | write (i : ι) (val : Placeholder V)

def Op.exec [DecidableEq τ] (m : Anys ι V) : Op ι V → Option (Anys ι V × Option (Placeholder V))
  | .default i => (m.default i).map (·, none)
  | .ofValue i val => (m.ofValue i val).map (·, none)
  | .copy i other => (m.copy i other).map (·, none)
  | .destroy i => (m.destroy i).map (·, none)
  | .swap i other => (m.swap i other).map (·, none)
  | .assignValue i val => (m.assignValue i val).map (·, none)
  | .assign i other => (m.assign i other).map (·, none)
  | .read i t => do
    let a ← m.get i t
    let p ← m.heap.read a
    some (m, some p)
  | .write i val => do
    let a ← m.get i val.1
    let heap ← m.heap.write a val
    some ({ m with heap }, none)

/-- The containers as values; `some none` is an empty one. -/
abbrev Values (ι : Type) {τ : Type} (V : τ → Type) := ι → Option (Option (Placeholder V))

def Op.spec (s : Values ι V) : Op ι V → Values ι V × Option (Placeholder V)
  | .default i => (Function.update s i (some none), none)
  | .ofValue i val => (Function.update s i (some (some val)), none)
  | .copy i other => (Function.update s i (s other), none)
  | .destroy i => (Function.update s i none, none)
  | .swap i other => (s ∘ Equiv.swap i other, none)
  | .assignValue i val => (Function.update s i (some (some val)), none)
  | .assign i other => (Function.update s i (s other), none)
  | .read i _ => (s, (s i).join)
  | .write i val => (Function.update s i (some (some val)), none)

/-- What a program may do: an object is constructed once, used while it is
there, and read with the type it holds. -/
def Op.Pre (s : Values ι V) : Op ι V → Prop
  | .default i | .ofValue i _ => s i = none
  | .copy i other => s i = none ∧ s other ≠ none
  | .destroy i | .assignValue i _ => s i ≠ none
  | .swap i other | .assign i other => s i ≠ none ∧ s other ≠ none
  | .read i t => ∃ val, s i = some (some val) ∧ val.1 = t
  | .write i val => ∃ val', s i = some (some val') ∧ val'.1 = val.1

def run [DecidableEq τ] : List (Op ι V) → Anys ι V → Option (Anys ι V × List (Option (Placeholder V)))
  | [], m => some (m, [])
  | op :: ops, m => do
    let (m, out) ← op.exec m
    let (m, outs) ← run ops m
    some (m, out :: outs)

def specRun : List (Op ι V) → Values ι V → Values ι V × List (Option (Placeholder V))
  | [], s => (s, [])
  | op :: ops, s =>
    let (s, out) := op.spec s
    let (s, outs) := specRun ops s
    (s, out :: outs)

def Permitted : List (Op ι V) → Values ι V → Prop
  | [], _ => True
  | op :: ops, s => op.Pre s ∧ Permitted ops (op.spec s).1

/-! ## Each operation -/

/-- The containers, the temporary among them, hold the values `S`. -/
structure Holds (m : Anys ι V) (S : Option ι → Option (Option (Placeholder V))) : Prop where
  alive (k) : m.alive k = (S k).isSome
  owned : m.heap.Owned m.content fun k => (S k).join

variable {m : Anys ι V} {S : Option ι → Option (Option (Placeholder V))} {k other : Option ι}

omit [DecidableEq ι] in
theorem new_holds : Holds (new : Anys ι V) fun _ => none := ⟨fun _ => rfl, owned_empty⟩

omit [DecidableEq ι] in
theorem Holds.alive_iff (h : Holds m S) (k : Option ι) : m.alive k = true ↔ S k ≠ none := by
  rw [h.alive, Option.isSome_iff_ne_none]

omit [DecidableEq ι] in
theorem Holds.content_eq_none (h : Holds m S) (hk : (S k).join = none) : m.content k = none := by
  rw [Option.eq_none_iff_forall_ne_some]
  intro a ha
  obtain ⟨b, -, hb⟩ := h.owned.holds ha
  rw [hk] at hb
  cases hb

omit [DecidableEq ι] in
theorem Holds.content_eq_some (h : Holds m S) {val : Placeholder V} (hk : S k = some (some val)) :
    ∃ a, m.content k = some a ∧ m.heap.read a = some val := by
  cases ha : m.content k with
  | none =>
    have hn := h.owned.empty ha
    rw [hk] at hn
    cases hn
  | some a => exact ⟨a, rfl, by rw [h.owned.read_eq ha, hk]; rfl⟩

theorem join_update (S : Option ι → Option (Option (Placeholder V))) (k : Option ι) (x : Option (Option (Placeholder V))) :
    (fun l => (Function.update S k x l).join) = Function.update (fun l => (S l).join) k x.join := by
  funext l
  by_cases e : l = k
  · rw [e, Function.update_self, Function.update_self]
  · rw [Function.update_of_ne e, Function.update_of_ne e]

theorem isSome_update (h : Holds m S) (k : Option ι) (x : Option (Option (Placeholder V))) (l : Option ι) :
    Function.update m.alive k x.isSome l = (Function.update S k x l).isSome := by
  by_cases e : l = k
  · rw [e, Function.update_self, Function.update_self]
  · rw [Function.update_of_ne e, Function.update_of_ne e, h.alive]

theorem Holds.default (h : Holds m S) (hk : S k = none) :
    ∃ m', m.default k = some m' ∧ Holds m' (Function.update S k (some none)) := by
  have hc : m.content k = none := h.content_eq_none (by rw [hk]; rfl)
  refine ⟨_, if_neg (by rw [h.alive_iff, hk]; exact fun e => e rfl), isSome_update h k (some none), ?_⟩
  show m.heap.Owned (Function.update m.content k none) _
  rw [join_update, Function.update_eq_self_iff.mpr hc.symm]
  have hv : (some none : Option (Option (Placeholder V))).join = (S k).join := by rw [hk]; rfl
  rw [Function.update_eq_self_iff.mpr hv]
  exact h.owned

theorem Holds.ofValue (h : Holds m S) (hk : S k = none) (val : Placeholder V) :
    ∃ m', m.ofValue k val = some m' ∧ Holds m' (Function.update S k (some (some val))) := by
  have hc : m.content k = none := h.content_eq_none (by rw [hk]; rfl)
  refine ⟨_, if_neg (by rw [h.alive_iff, hk]; exact fun e => e rfl), isSome_update h k (some (some val)), ?_⟩
  rw [join_update]
  exact h.owned.alloc hc val

theorem Holds.copy (h : Holds m S) (hk : S k = none) (ho : S other ≠ none) :
    ∃ m', m.copy k other = some m' ∧ Holds m' (Function.update S k (S other)) := by
  obtain ⟨x, hx⟩ := Option.ne_none_iff_exists'.mp ho
  unfold Anys.copy
  rw [if_pos ((h.alive_iff other).mpr ho), hx]
  cases x with
  | none =>
    rw [h.content_eq_none (by rw [hx]; rfl)]
    exact h.default hk
  | some val =>
    obtain ⟨a, ha, hr⟩ := h.content_eq_some hx
    rw [ha]
    simp only [hr, Option.bind_eq_bind, Option.bind_some]
    exact h.ofValue hk val

theorem Holds.destroy (h : Holds m S) (hk : S k ≠ none) :
    ∃ m', m.destroy k = some m' ∧ Holds m' (Function.update S k none) := by
  unfold Anys.destroy
  rw [if_pos ((h.alive_iff k).mpr hk)]
  cases hc : m.content k with
  | none =>
    refine ⟨_, rfl, isSome_update h k none, ?_⟩
    rw [join_update]
    show m.heap.Owned (Function.update m.content k none) (Function.update (fun l => (S l).join) k none)
    rw [Function.update_eq_self_iff.mpr hc.symm, Function.update_eq_self_iff.mpr (h.owned.empty hc).symm]
    exact h.owned
  | some a =>
    obtain ⟨heap, e, ho⟩ := h.owned.free hc
    simp only [e, Option.bind_eq_bind, Option.bind_some]
    refine ⟨_, rfl, isSome_update h k none, ?_⟩
    rw [join_update]
    exact ho

theorem Holds.swap (h : Holds m S) (hk : S k ≠ none) (ho : S other ≠ none) :
    ∃ m', m.swap k other = some m' ∧ Holds m' (S ∘ Equiv.swap k other) := by
  refine ⟨_, if_pos ⟨(h.alive_iff k).mpr hk, (h.alive_iff other).mpr ho⟩, fun l => ?_, h.owned.perm (Equiv.swap k other)⟩
  show m.alive l = (S (Equiv.swap k other l)).isSome
  rw [h.alive]
  by_cases el : l = k
  · rw [el, Equiv.swap_apply_left, Option.isSome_iff_ne_none.mpr hk, Option.isSome_iff_ne_none.mpr ho]
  · by_cases eo : l = other
    · rw [eo, Equiv.swap_apply_right, Option.isSome_iff_ne_none.mpr hk, Option.isSome_iff_ne_none.mpr ho]
    · rw [Equiv.swap_apply_of_ne_of_ne el eo]

/-- The temporary takes the new value, exchanges it for the old one and is
destroyed with it. -/
theorem Holds.replace (h : Holds m S) {t : Option ι} (ht : t ≠ k) (hS : S t ≠ none) (hk : S k ≠ none) :
    ∃ m', (do (← m.swap t k).destroy t) = some m' ∧ Holds m' (Function.update (Function.update S t none) k (S t)) := by
  obtain ⟨m₁, e₁, h₁⟩ := h.swap hS hk
  have hst : (S ∘ Equiv.swap t k) t ≠ none := by rw [Function.comp, Equiv.swap_apply_left]; exact hk
  obtain ⟨m₂, e₂, h₂⟩ := h₁.destroy hst
  refine ⟨m₂, by rw [e₁]; exact e₂, ?_⟩
  have hf : Function.update (S ∘ Equiv.swap t k) t none = Function.update (Function.update S t none) k (S t) := by
    funext l
    by_cases el : l = t
    · rw [el, Function.update_self, Function.update_of_ne ht, Function.update_self]
    · rw [Function.update_of_ne el]
      by_cases ek : l = k
      · rw [ek, Function.update_self, Function.comp, Equiv.swap_apply_right]
      · rw [Function.update_of_ne ek, Function.update_of_ne el, Function.comp, Equiv.swap_apply_of_ne_of_ne el ek]
  rw [← hf]
  exact h₂

omit [DecidableEq ι] in
theorem Holds.get [DecidableEq τ] (h : Holds m S) {val : Placeholder V} (hk : S k = some (some val)) :
    ∃ a, m.get k val.1 = some a ∧ m.content k = some a ∧ m.heap.read a = some val := by
  obtain ⟨a, ha, hr⟩ := h.content_eq_some hk
  refine ⟨a, ?_, ha, hr⟩
  rw [Anys.get, if_pos ((h.alive_iff k).mpr (by rw [hk]; exact Option.some_ne_none _)), ha]
  simp only [hr, Option.bind_eq_bind, Option.bind_some, if_true]

/-! ## Every sequence -/

theorem bind_update (s : Values ι V) (i : ι) (x : Option (Option (Placeholder V))) :
    Function.update (fun k : Option ι => k.bind s) (some i) x = fun k => k.bind (Function.update s i x) := by
  funext k
  cases k with
  | none => rfl
  | some j =>
    by_cases e : j = i
    · rw [e, Function.update_self, Option.bind_some, Function.update_self]
    · rw [Function.update_of_ne (by simpa using e), Option.bind_some, Option.bind_some, Function.update_of_ne e]

theorem bind_swap (s : Values ι V) (i j : ι) :
    (fun k : Option ι => k.bind s) ∘ Equiv.swap (some i) (some j) = fun k => k.bind (s ∘ Equiv.swap i j) := by
  funext k
  cases k with
  | none =>
    have hne : ∀ l : ι, (none : Option ι) ≠ some l := fun _ => nofun
    rw [Function.comp, Equiv.swap_apply_of_ne_of_ne (hne i) (hne j)]
    rfl
  | some l =>
    show Option.bind (Equiv.swap (some i) (some j) (some l)) s = s (Equiv.swap i j l)
    by_cases ei : l = i
    · rw [ei, Equiv.swap_apply_left, Equiv.swap_apply_left, Option.bind_some]
    · by_cases ej : l = j
      · rw [ej, Equiv.swap_apply_right, Equiv.swap_apply_right, Option.bind_some]
      · rw [Equiv.swap_apply_of_ne_of_ne ei ej, Equiv.swap_apply_of_ne_of_ne (by simpa using ei) (by simpa using ej),
          Option.bind_some]

/-- `operator=`, once the temporary is there. -/
theorem Holds.assigned {s : Values ι V} {x : Option (Option (Placeholder V))} {i : ι}
    (h : Holds m (Function.update (fun k => k.bind s) none x)) (hx : x ≠ none) (hi : s i ≠ none) :
    ∃ m', (do (← m.swap none (some i)).destroy none) = some m' ∧ Holds m' fun k => k.bind (Function.update s i x) := by
  have hne : none ≠ some i := nofun
  obtain ⟨m', e, h'⟩ := h.replace hne (by rw [Function.update_self]; exact hx)
    (by rw [Function.update_of_ne hne.symm]; exact hi)
  refine ⟨m', e, ?_⟩
  have hnone : Function.update (fun k : Option ι => k.bind s) none none = fun k => k.bind s :=
    Function.update_eq_self_iff.mpr rfl
  rw [Function.update_idem, Function.update_self, hnone, bind_update] at h'
  exact h'

variable [DecidableEq τ]

theorem exec_refines {s : Values ι V} (h : Holds m fun k => k.bind s) (op : Op ι V) (hp : op.Pre s) :
    ∃ m', op.exec m = some (m', (op.spec s).2) ∧ Holds m' fun k => k.bind (op.spec s).1 := by
  cases op with
  | default i =>
    obtain ⟨m', e, h'⟩ := h.default (k := some i) hp
    rw [bind_update] at h'
    exact ⟨m', by rw [Op.exec, e]; rfl, h'⟩
  | ofValue i val =>
    obtain ⟨m', e, h'⟩ := h.ofValue (k := some i) hp val
    rw [bind_update] at h'
    exact ⟨m', by rw [Op.exec, e]; rfl, h'⟩
  | copy i other =>
    obtain ⟨m', e, h'⟩ := h.copy (k := some i) hp.1 (show (some other).bind s ≠ none from hp.2)
    rw [bind_update] at h'
    exact ⟨m', by rw [Op.exec, e]; rfl, h'⟩
  | destroy i =>
    obtain ⟨m', e, h'⟩ := h.destroy (k := some i) hp
    rw [bind_update] at h'
    exact ⟨m', by rw [Op.exec, e]; rfl, h'⟩
  | swap i other =>
    obtain ⟨m', e, h'⟩ := h.swap (k := some i) hp.1 (show (some other).bind s ≠ none from hp.2)
    rw [bind_swap] at h'
    exact ⟨m', by rw [Op.exec, e]; rfl, h'⟩
  | assignValue i val =>
    obtain ⟨m₁, e₁, h₁⟩ := h.ofValue (k := none) rfl val
    obtain ⟨m', e, h'⟩ := h₁.assigned nofun hp
    refine ⟨m', ?_, h'⟩
    rw [Op.exec, Anys.assignValue, e₁]
    exact congrArg (Option.map (·, none)) e
  | assign i other =>
    obtain ⟨m₁, e₁, h₁⟩ := h.copy (k := none) rfl (show (some other).bind s ≠ none from hp.2)
    obtain ⟨m', e, h'⟩ := h₁.assigned hp.2 hp.1
    refine ⟨m', ?_, h'⟩
    rw [Op.exec, Anys.assign, e₁]
    exact congrArg (Option.map (·, none)) e
  | read i t =>
    obtain ⟨val, hv, rfl⟩ := hp
    obtain ⟨a, ea, -, hr⟩ := h.get (k := some i) hv
    refine ⟨m, ?_, h⟩
    simp only [Op.exec, Op.spec, ea, hr, hv, Option.bind_eq_bind, Option.bind_some]
    rfl
  | write i val =>
    obtain ⟨val', hv, ht⟩ := hp
    obtain ⟨a, ea, ha, -⟩ := h.get (k := some i) hv
    obtain ⟨heap, e, ho⟩ := h.owned.write ha val
    refine ⟨{ m with heap }, ?_, ?_⟩
    · simp only [Op.exec, ← ht, ea, e, Option.bind_eq_bind, Option.bind_some]
      rfl
    · show Holds _ fun k => k.bind (Function.update s i (some (some val)))
      rw [← bind_update]
      refine ⟨fun k => ?_, by rw [join_update]; exact ho⟩
      rw [h.alive]
      by_cases ek : k = some i
      · rw [ek, Function.update_self, Option.bind_some, hv]
        rfl
      · rw [Function.update_of_ne ek]

theorem run_holds (ops : List (Op ι V)) : ∀ {m : Anys ι V} {s : Values ι V}, Holds m (fun k => k.bind s) →
    Permitted ops s → ∃ m', run ops m = some (m', (specRun ops s).2) ∧ Holds m' fun k => k.bind (specRun ops s).1 := by
  induction ops with
  | nil => exact fun h _ => ⟨_, rfl, h⟩
  | cons op ops ih =>
    intro m s h hp
    obtain ⟨m₁, e₁, h₁⟩ := exec_refines h op hp.1
    obtain ⟨m₂, e₂, h₂⟩ := ih h₁ hp.2
    refine ⟨m₂, ?_, h₂⟩
    simp only [run, e₁, e₂, Option.bind_eq_bind, Option.bind_some]
    rfl

/-- Containers under any operations: nothing is freed that is not allocated and
no pointer to freed memory is followed, what is read is what was put there by
value, and the placeholders on the heap are in the end those of the containers
that hold a value, one for each. -/
theorem run_refines_values (ops : List (Op ι V)) (hp : Permitted ops fun _ => none) :
    ∃ m, run ops (new : Anys ι V) = some (m, (specRun ops fun _ => none).2) ∧
      (∀ a val, m.heap.cell a = some val →
        ∃ i, m.content (some i) = some a ∧ (specRun ops fun _ => none).1 i = some (some val)) ∧
      ∀ i val, (specRun ops fun _ => none).1 i = some (some val) →
        ∃ a, m.heap.cell a = some val ∧ ∀ k, m.content k = some a ↔ k = some i := by
  have h₀ : Holds (new : Anys ι V) fun k => k.bind fun _ => none := by
    rw [show (fun k : Option ι => k.bind fun _ => (none : Option (Option (Placeholder V)))) = fun _ => none from
      funext fun k => Option.bind_fun_none k]
    exact new_holds
  obtain ⟨m, e, h⟩ := run_holds ops h₀ hp
  refine ⟨m, e, fun a val ha => ?_, fun i val hi => ?_⟩
  · obtain ⟨k, hk⟩ := h.owned.noLeak ha
    obtain ⟨b, hb, hv⟩ := h.owned.holds hk
    rw [ha] at hb
    cases hb
    cases k with
    | none => cases hv
    | some i => exact ⟨i, hk, Option.join_eq_some_iff.mp hv⟩
  · obtain ⟨a, ha, hr⟩ := h.content_eq_some (k := some i) hi
    exact ⟨a, hr, fun k => ⟨fun hk => h.owned.unique hk ha, fun hk => hk ▸ ha⟩⟩

/-- A container is assigned from another one, which is then given a value of
another type and destroyed. -/
def assignedOps : List (Op Bool fun _ : Bool => Nat) :=
  [.ofValue true ⟨true, 5⟩, .default false, .assign false true, .assignValue true ⟨false, 7⟩, .write false ⟨true, 6⟩,
    .read false true, .swap true false, .read true true, .destroy true]

theorem run_refines_values_assigned :
    ∃ m, run assignedOps (new : Anys Bool fun _ : Bool => Nat) =
        some (m, [none, none, none, none, none, some ⟨true, 6⟩, none, some ⟨true, 6⟩, none]) ∧
      (∀ a val, m.heap.cell a = some val →
        ∃ i, m.content (some i) = some a ∧ (specRun assignedOps fun _ => none).1 i = some (some val)) ∧
      ∀ i val, (specRun assignedOps fun _ => none).1 i = some (some val) →
        ∃ a, m.heap.cell a = some val ∧ ∀ k, m.content k = some a ↔ k = some i :=
  run_refines_values assignedOps
    ⟨rfl, rfl, ⟨nofun, nofun⟩, nofun, ⟨⟨true, 5⟩, rfl, rfl⟩, ⟨⟨true, 6⟩, rfl, rfl⟩, ⟨nofun, nofun⟩,
      ⟨⟨true, 6⟩, rfl, rfl⟩, nofun, trivial⟩

end Anys

end Mudou
