import Mathlib.Data.List.Nodup

/-!
# Maps with distinct keys

`UnorderedMap`: the entries of a `std::unordered_map`, in the order of their
insertion. `insert` is the member function of that name: it leaves a key that
is there as it is.
-/

structure UnorderedMap (κ ν : Type) where
  entries : List (κ × ν)
  nodup : (entries.map Prod.fst).Nodup
  deriving DecidableEq

namespace UnorderedMap

variable {κ ν : Type}

def empty : UnorderedMap κ ν := ⟨[], List.nodup_nil⟩

variable [DecidableEq κ]

def find (m : UnorderedMap κ ν) (k : κ) : Option ν := m.entries.lookup k

def contains (m : UnorderedMap κ ν) (k : κ) : Bool := (m.find k).isSome

def insert (m : UnorderedMap κ ν) (k : κ) (v : ν) : UnorderedMap κ ν :=
  if h : k ∈ m.entries.map Prod.fst then m
  else ⟨m.entries ++ [(k, v)], by
    rw [List.map_append, List.map_singleton, List.nodup_append_comm]
    exact List.nodup_cons.mpr ⟨h, m.nodup⟩⟩

theorem insert_of_mem {m : UnorderedMap κ ν} {k : κ} (h : k ∈ m.entries.map Prod.fst) (v : ν) :
    m.insert k v = m := dif_pos h

theorem entries_insert {m : UnorderedMap κ ν} {k : κ} (h : k ∉ m.entries.map Prod.fst) (v : ν) :
    (m.insert k v).entries = m.entries ++ [(k, v)] := by
  rw [insert, dif_neg h]

theorem mem_insert {m : UnorderedMap κ ν} {k : κ} {v : ν} {e : κ × ν} (h : e ∈ (m.insert k v).entries) :
    e ∈ m.entries ∨ e = (k, v) := by
  by_cases hk : k ∈ m.entries.map Prod.fst
  · rw [insert_of_mem hk] at h
    exact .inl h
  · rw [entries_insert hk] at h
    exact (List.mem_append.mp h).imp_right List.mem_singleton.mp

theorem mem_insert_of_mem {m : UnorderedMap κ ν} {e : κ × ν} (h : e ∈ m.entries) (k : κ) (v : ν) :
    e ∈ (m.insert k v).entries := by
  by_cases hk : k ∈ m.entries.map Prod.fst
  · rw [insert_of_mem hk]
    exact h
  · rw [entries_insert hk]
    exact List.mem_append_left _ h

theorem contains_iff {m : UnorderedMap κ ν} {k : κ} : m.contains k = true ↔ k ∈ m.entries.map Prod.fst := by
  unfold contains find
  rw [Option.isSome_iff_ne_none, ne_eq, List.lookup_eq_none_iff]
  simp

theorem mem_entries_iff {m : UnorderedMap κ ν} {k : κ} {v : ν} : (k, v) ∈ m.entries ↔ m.find k = some v := by
  rw [find, List.lookup_eq_some_iff]
  constructor
  · intro h
    obtain ⟨l₁, l₂, e⟩ := List.append_of_mem h
    refine ⟨l₁, l₂, e, fun p hp => ?_⟩
    have hn := m.nodup
    rw [e, List.map_append, List.map_cons, List.nodup_append] at hn
    rw [bne_iff_ne]
    exact Ne.symm (hn.2.2 p.1 (List.mem_map_of_mem hp) k List.mem_cons_self)
  · rintro ⟨l₁, l₂, e, -⟩
    rw [e]
    exact List.mem_append_right _ List.mem_cons_self

theorem find_insert (m : UnorderedMap κ ν) (k : κ) (v : ν) (k' : κ) :
    (m.insert k v).find k' = (m.find k').or (if k' = k then some v else none) := by
  by_cases hk : k ∈ m.entries.map Prod.fst
  · rw [insert_of_mem hk]
    by_cases e : k' = k
    · subst e
      rw [← contains_iff, contains, Option.isSome_iff_exists] at hk
      obtain ⟨w, hw⟩ := hk
      rw [hw]
      rfl
    · rw [if_neg e, Option.or_none]
  · rw [find, find, entries_insert hk, List.lookup_append, List.lookup_cons, List.lookup_nil]
    by_cases e : k' = k
    · rw [if_pos e, beq_iff_eq.mpr e]
    · rw [if_neg e, beq_eq_false_iff_ne.mpr e]

/-- Of values for one key, the first counts. -/
theorem find_foldl_insert (l : List (κ × ν)) : ∀ (m : UnorderedMap κ ν) (k : κ),
    (l.foldl (fun m e => m.insert e.1 e.2) m).find k =
      (m.find k).or ((l.find? fun e => e.1 = k).map Prod.snd) := by
  induction l with
  | nil => exact fun m k => (Option.or_none).symm
  | cons e l ih =>
    intro m k
    rw [List.foldl_cons, ih, find_insert, Option.or_assoc]
    congr 1
    by_cases h : k = e.1
    · simp [h]
    · simp [h, Ne.symm h]

/-- Distinct new keys go in one after the other. -/
theorem entries_foldl_insert (l : List (κ × ν)) : ∀ m : UnorderedMap κ ν,
    ((m.entries ++ l).map Prod.fst).Nodup →
      (l.foldl (fun m e => m.insert e.1 e.2) m).entries = m.entries ++ l := by
  induction l with
  | nil => exact fun m _ => (List.append_nil _).symm
  | cons e l ih =>
    intro m h
    have he : e.1 ∉ m.entries.map Prod.fst := by
      rw [List.map_append, List.map_cons, List.nodup_append] at h
      exact fun hm => h.2.2 _ hm _ List.mem_cons_self rfl
    rw [List.foldl_cons, ih, entries_insert he, List.append_assoc, List.singleton_append]
    rwa [entries_insert he, List.append_assoc, List.singleton_append]

end UnorderedMap
