import Mathlib.Data.List.Infix

/-!
# Histories

A history is a list of events that grows at its end. `Always P log`: each
event of the history has the property `P` with the events before it.
-/

namespace History

variable {ε : Type} {P : List ε → ε → Prop} {log : List ε}

def Always (P : List ε → ε → Prop) (log : List ε) : Prop := ∀ pre e, pre ++ [e] <+: log → P pre e

theorem always_nil : Always P [] := by
  intro pre e h
  rw [List.prefix_nil] at h
  exact absurd h (by simp)

/-- The next event. -/
theorem Always.concat (h : Always P log) {e : ε} (he : P log e) : Always P (log ++ [e]) := by
  intro pre e' hp
  rcases List.prefix_concat_iff.mp hp with hp | hp
  · obtain ⟨rfl, rfl⟩ := List.append_singleton_inj.mp hp
    exact he
  · exact h pre e' hp

/-- Events that have the property wherever they stand. -/
theorem Always.append (h : Always P log) {es : List ε} (he : ∀ e ∈ es, ∀ pre, P pre e) :
    Always P (log ++ es) := by
  induction es generalizing log with
  | nil =>
    rw [List.append_nil]
    exact h
  | cons e es ih =>
    rw [List.append_cons]
    exact ih (h.concat (he e List.mem_cons_self log)) fun e' hm => he e' (List.mem_cons_of_mem _ hm)

end History
