import Mudou.Lib.Endless

/-!
# Work that is swapped out

A thread waits for handlers to call, calls them, swaps out the queue that
anybody pushes items to, runs these items, and waits again (`WorkLoop.Step`).
Handlers and items are code, which may push items, too.

`WorkLoop.InOrder` is the invariant of the queue. `Fair.executed`: in a run
without end in which the thread goes on, and does not wait for ever with items
in the queue, whatever is pushed at any moment has later been run, in the order
of the pushes.
-/

open Endless

namespace WorkLoop

/-- What the thread is to do. -/
inductive Next (ι τ : Type) where
  | poll
  /-- to call these, and then to swap -/
  | handle (actives : List ι)
  | run (items : List τ)

inductive Phase (ι τ : Type) where
  | go (k : Next ι τ)
  /-- in the code of a handler or an item -/
  | code (k : Next ι τ)

/-- What is swapped out and not yet run. -/
def Phase.items {ι τ : Type} : Phase ι τ → List τ
  | .go (.run items) | .code (.run items) => items
  | _ => []

end WorkLoop

structure WorkLoop (ι τ : Type) where
  phase : WorkLoop.Phase ι τ
  pending : List τ
  /-- all that ever was -/
  pushed : List τ
  executed : List τ

namespace WorkLoop

variable {ι τ : Type}

inductive Step : WorkLoop ι τ → WorkLoop ι τ → Prop where
  | push {s : WorkLoop ι τ} (t : τ) : Step s { s with pending := s.pending ++ [t], pushed := s.pushed ++ [t] }
  | poll {s : WorkLoop ι τ} (actives : List ι) : s.phase = .go .poll → Step s { s with phase := .go (.handle actives) }
  /-- A handler that is done at once, and one that is code. -/
  | handled {s : WorkLoop ι τ} (a : ι) (actives : List ι) : s.phase = .go (.handle (a :: actives)) →
      Step s { s with phase := .go (.handle actives) }
  | handler {s : WorkLoop ι τ} (a : ι) (actives : List ι) : s.phase = .go (.handle (a :: actives)) →
      Step s { s with phase := .code (.handle actives) }
  | swap {s : WorkLoop ι τ} : s.phase = .go (.handle []) →
      Step s { s with phase := .go (.run s.pending), pending := [] }
  | item {s : WorkLoop ι τ} (t : τ) (items : List τ) : s.phase = .go (.run (t :: items)) →
      Step s { s with phase := .code (.run items), executed := s.executed ++ [t] }
  | ret {s : WorkLoop ι τ} (k : Next ι τ) : s.phase = .code k → Step s { s with phase := .go k }
  | again {s : WorkLoop ι τ} : s.phase = .go (.run []) → Step s { s with phase := .go .poll }

variable {s s' : WorkLoop ι τ} {r : Nat → WorkLoop ι τ} {Q : WorkLoop ι τ → Prop}

/-! ## The queue -/

/-- The items that are run or swapped out to be run. -/
def taken (s : WorkLoop ι τ) : List τ := s.executed ++ s.phase.items

/-- What is pushed is run, swapped out or queued, in this order. -/
def InOrder (s : WorkLoop ι τ) : Prop := s.taken ++ s.pending = s.pushed

theorem Step.inOrder (h : Step s s') (ho : s.InOrder) : s'.InOrder := by
  unfold InOrder taken at ho ⊢
  cases h with
  | push t => simp [← ho]
  | swap hp => simpa [hp, Phase.items] using ho
  | item t items hp => simpa [hp, Phase.items] using ho
  | ret k hp => cases k <;> simpa [hp, Phase.items] using ho
  | poll _ hp | handled _ _ hp | handler _ _ hp | again hp => simpa [hp, Phase.items] using ho

/-- What a run only adds to. -/
structure Grows (s s' : WorkLoop ι τ) : Prop where
  pushed : s.pushed <+: s'.pushed
  taken : s.taken <+: s'.taken

theorem Grows.refl (s : WorkLoop ι τ) : Grows s s := ⟨List.prefix_refl _, List.prefix_refl _⟩

theorem Grows.trans {t : WorkLoop ι τ} (h : Grows s s') (h' : Grows s' t) : Grows s t :=
  ⟨h.pushed.trans h'.pushed, h.taken.trans h'.taken⟩

theorem Step.grows (h : Step s s') : Grows s s' := by
  cases h with
  | push t => exact ⟨List.prefix_append .., List.prefix_refl _⟩
  | ret k hp => cases k <;> exact ⟨List.prefix_refl _, by simp [WorkLoop.taken, hp, Phase.items]⟩
  | poll _ hp | handled _ _ hp | handler _ _ hp | swap hp | item _ _ hp | again hp =>
    exact ⟨List.prefix_refl _, by simp [WorkLoop.taken, hp, Phase.items]⟩

/-! ## The thread -/

/-- Where the thread is after a step of its own, by where it was. -/
def Goes (s s' : WorkLoop ι τ) : Phase ι τ → Prop
  | .go .poll => ∃ actives, s'.phase = .go (.handle actives)
  | .go (.handle (_ :: actives)) => s'.phase = .go (.handle actives) ∨ s'.phase = .code (.handle actives)
  | .go (.handle []) => s'.phase = .go (.run s.pending) ∧ s'.pending = []
  | .go (.run (_ :: items)) => s'.phase = .code (.run items)
  | .go (.run []) => s'.phase = .go .poll
  | .code k => s'.phase = .go k

theorem Step.goes (h : Step s s') : s'.phase = s.phase ∨ s.Goes s' s.phase := by
  cases h with
  | push t => exact .inl rfl
  | poll actives hp => rw [hp]; exact .inr ⟨actives, rfl⟩
  | handled a actives hp => rw [hp]; exact .inr (.inl rfl)
  | handler a actives hp => rw [hp]; exact .inr (.inr rfl)
  | swap hp => rw [hp]; exact .inr ⟨rfl, rfl⟩
  | item t items hp => rw [hp]; exact .inr rfl
  | ret k hp => rw [hp]; exact .inr rfl
  | again hp => rw [hp]; exact .inr rfl

structure Fair (r : Nat → WorkLoop ι τ) : Prop where
  start : (r 0).InOrder
  trace : Trace Step r
  goesOn (p : Phase ι τ) : p ≠ .go .poll → LeadsTo r (fun s => s.phase = p) fun s => ¬ s.phase = p
  polls : LeadsTo r (fun s => s.phase = .go .poll ∧ s.pending ≠ []) fun s => ¬ s.phase = .go .poll

namespace Fair

variable (h : Fair r)
include h

theorem inOrder (n : Nat) : (r n).InOrder :=
  h.trace.inv h.start (fun _ _ ho hs => hs.inOrder ho) n

theorem grows {n m : Nat} (hm : n ≤ m) : Grows (r n) (r m) :=
  h.trace.related Grows.refl Grows.trans Step.grows hm

theorem goes (p : Phase ι τ) (hp : p ≠ .go .poll)
    (hs : ∀ s s' : WorkLoop ι τ, s'.InOrder → s.Goes s' p → Q s') : LeadsTo r (fun s => s.phase = p) Q :=
  leadsTo_of_leaves h.trace h.inOrder (h.goesOn p hp) fun s s' ho e hstep hn =>
    hs s s' (hstep.inOrder ho) (e ▸ hstep.goes.resolve_left fun e' => hn (e'.trans e))

theorem code (k : Next ι τ) : LeadsTo r (fun s => s.phase = .code k) fun s => s.phase = .go k :=
  h.goes (.code k) nofun fun _ _ _ hg => hg

theorem handles (actives : List ι) :
    LeadsTo r (fun s => s.phase = .go (.handle actives)) fun s => s.phase = .go (.handle []) := by
  refine .drain (P := fun l (s : WorkLoop ι τ) => s.phase = .go (.handle l)) (fun a l => ?_) actives
  have hcode : LeadsTo r (fun s => s.phase = .go (.handle l) ∨ s.phase = .code (.handle l)) fun s =>
      s.phase = .go (.handle l) := .or (.of_imp fun _ e => e) (h.code _)
  exact (h.goes (.go (.handle (a :: l))) nofun fun _ _ _ hg => hg).trans hcode

theorem runs (items : List τ) : LeadsTo r (fun s => s.phase = .go (.run items)) fun s => s.phase = .go .poll := by
  have hdrain : LeadsTo r (fun s => s.phase = .go (.run items)) fun s => s.phase = .go (.run []) :=
    .drain (P := fun l (s : WorkLoop ι τ) => s.phase = .go (.run l))
      (fun t l => (h.goes (.go (.run (t :: l))) nofun fun _ _ _ hg => hg).trans (h.code (.run l))) items
  exact hdrain.trans (h.goes (.go (.run [])) nofun fun _ _ _ hg => hg)

/-- After the swap all that is pushed is run or to be run. -/
theorem swaps : LeadsTo r (fun s => s.phase = .go (.handle [])) fun s => s.taken = s.pushed := by
  refine h.goes (.go (.handle [])) nofun fun s s' ho hg => ?_
  obtain ⟨-, hp⟩ := hg
  rw [InOrder, hp, List.append_nil] at ho
  exact ho

/-- With items in the queue, the thread does not wait for ever. -/
theorem polled : LeadsTo r (fun s => s.phase = .go .poll ∧ s.pending ≠ []) fun s =>
    ∃ actives, s.phase = .go (.handle actives) := by
  intro n hn
  obtain ⟨m, hm, hq⟩ := h.polls n hn
  obtain ⟨k, hk, hp, hp', hstep⟩ := h.trace.exists_step (P := fun s => s.phase = .go .poll) hm hn.1 hq
  have hg := hstep.goes.resolve_left fun e => hp' (e.trans hp)
  rw [hp] at hg
  exact ⟨k + 1, Nat.le_succ_of_le hk, hg⟩

/-- The thread comes back to `poll` or its handlers. -/
theorem comesBack : LeadsTo r (fun _ => True) fun s =>
    s.phase = .go .poll ∨ ∃ actives, s.phase = .go (.handle actives) := by
  have hgo : ∀ k : Next ι τ, LeadsTo r (fun s => s.phase = .go k) fun s =>
      s.phase = .go .poll ∨ ∃ actives, s.phase = .go (.handle actives) := by
    intro k
    cases k with
    | poll => exact .of_imp fun _ e => .inl e
    | handle actives => exact .of_imp fun _ e => .inr ⟨actives, e⟩
    | run items => exact (h.runs items).mono (fun _ e => e) fun _ e => .inl e
  intro n _
  cases e : (r n).phase with
  | go k => exact hgo k n e
  | code k => exact ((h.code k).trans (hgo k)) n e

theorem catchesUp : LeadsTo r (fun _ => True) fun s => s.taken = s.pushed := by
  have hhandle : LeadsTo r (fun s => ∃ actives, s.phase = .go (.handle actives)) fun s => s.taken = s.pushed :=
    .exists fun actives => (h.handles actives).trans h.swaps
  refine h.comesBack.trans (.or (fun m hp => ?_) hhandle)
  by_cases ht : (r m).pending = []
  · have ho := h.inOrder m
    rw [InOrder, ht, List.append_nil] at ho
    exact ⟨m, Nat.le_refl m, ho⟩
  · exact (h.polled.trans hhandle) m ⟨hp, ht⟩

/-- The queue is caught up with, and what was swapped out then is run. -/
theorem executed (n : Nat) : ∃ m, n ≤ m ∧ (r n).pushed <+: (r m).executed := by
  obtain ⟨k, hk, ht⟩ := h.catchesUp n trivial
  obtain ⟨m, hm, hl⟩ := h.comesBack k trivial
  have hi : (r m).phase.items = [] := by
    rcases hl with e | ⟨actives, e⟩
    · rw [e]; rfl
    · rw [e]; rfl
  have hp := (h.grows hk).pushed.trans (ht ▸ (h.grows hm).taken)
  rw [taken, hi, List.append_nil] at hp
  exact ⟨m, Nat.le_trans hk hm, hp⟩

end Fair

end WorkLoop
