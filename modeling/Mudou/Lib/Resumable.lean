import Mathlib.Data.List.Basic

/-!
# Consumers of a stream

A consumer looks at the bytes that have arrived and reports what it can: it
needs `more`, it can `emit` an event and go on, it must `fail` and drops the
bytes, or it must `halt`. `Drain` is the loop that calls it until it needs
more, `Feed` the arrival of a stream in chunks with one such loop for each.

`Stable` says that bytes which arrive later do not change what was reported.
Then the events of a stream up to a first failure do not depend on its
chunks (`Stable.feed_upTo`). `Session` calls the consumer at any time, and lets
a chunk arrive when it needs more. Its events are given by `restarts`: the
bytes since the last failure are read as one stream, and of the chunk with a
failure the rest is dropped (`Stable.restarts_eq`).
-/

namespace Resumable

variable {σ ε β : Type}

inductive Progress (σ ε β : Type) where
  | more (s : σ) (rest : List β)
  | emit (e : ε) (s : σ) (rest : List β)
  | fail (e : ε) (s : σ)
  | halt (e : ε)

variable {step : σ → List β → Progress σ ε β}

structure Stable (step : σ → List β → Progress σ ε β) : Prop where
  more {s s' : σ} {b b' : List β} (x : List β) : step s b = .more s' b' →
    step s (b ++ x) = step s' (b' ++ x)
  emit {s s' : σ} {b b' : List β} {e : ε} (x : List β) : step s b = .emit e s' b' →
    step s (b ++ x) = .emit e s' (b' ++ x)
  fail {s s' : σ} {b : List β} {e : ε} (x : List β) : step s b = .fail e s' → step s (b ++ x) = .fail e s'
  halt {s : σ} {b : List β} {e : ε} (x : List β) : step s b = .halt e → step s (b ++ x) = .halt e

/-- The events of a loop, and the state and the bytes it leaves unless it
halts. -/
inductive Drain (step : σ → List β → Progress σ ε β) :
    σ → List β → List ε → Option (σ × List β) → Prop where
  | nil (s : σ) : Drain step s [] [] (some (s, []))
  | more {s s' : σ} {b b' : List β} : b ≠ [] → step s b = .more s' b' →
      Drain step s b [] (some (s', b'))
  | emit {s s' : σ} {b b' : List β} {e : ε} {es : List ε} {o : Option (σ × List β)} : b ≠ [] →
      step s b = .emit e s' b' → Drain step s' b' es o → Drain step s b (e :: es) o
  | fail {s s' : σ} {b : List β} {e : ε} : b ≠ [] → step s b = .fail e s' →
      Drain step s b [e] (some (s', []))
  | halt {s : σ} {b : List β} {e : ε} : b ≠ [] → step s b = .halt e → Drain step s b [e] none

inductive Feed (step : σ → List β → Progress σ ε β) : σ → List β → List (List β) → List ε → Prop where
  | nil (s : σ) (b : List β) : Feed step s b [] []
  | chunk {s s' : σ} {b b' x : List β} {xs : List (List β)} {es es' : List ε} :
      Drain step s (b ++ x) es (some (s', b')) → Feed step s' b' xs es' →
      Feed step s b (x :: xs) (es ++ es')
  | halt {s : σ} {b x : List β} (xs : List (List β)) {es : List ε} : Drain step s (b ++ x) es none →
      Feed step s b (x :: xs) es

/-! ## One loop -/

theorem Drain.unique {s : σ} {b : List β} {es es' : List ε} {o o' : Option (σ × List β)}
    (h : Drain step s b es o) (h' : Drain step s b es' o') : es = es' ∧ o = o' := by
  induction h generalizing es' o' with
  | nil s =>
    cases h' with
    | nil => exact ⟨rfl, rfl⟩
    | more hb | emit hb | fail hb | halt hb => exact absurd rfl hb
  | more hb e =>
    cases h' with
    | nil => exact absurd rfl hb
    | more _ e' | emit _ e' | fail _ e' | halt _ e' => rw [e] at e'; cases e'; try exact ⟨rfl, rfl⟩
  | emit hb e _ ih =>
    cases h' with
    | nil => exact absurd rfl hb
    | emit _ e' h' =>
      rw [e] at e'
      cases e'
      obtain ⟨rfl, rfl⟩ := ih h'
      exact ⟨rfl, rfl⟩
    | more _ e' | fail _ e' | halt _ e' => rw [e] at e'; cases e'
  | fail hb e =>
    cases h' with
    | nil => exact absurd rfl hb
    | more _ e' | emit _ e' | fail _ e' | halt _ e' => rw [e] at e'; cases e'; try exact ⟨rfl, rfl⟩
  | halt hb e =>
    cases h' with
    | nil => exact absurd rfl hb
    | more _ e' | emit _ e' | fail _ e' | halt _ e' => rw [e] at e'; cases e'; try exact ⟨rfl, rfl⟩

/-- One more loop over what a loop left does nothing. -/
theorem Stable.again (hs : Stable step) {s s' : σ} {b b' : List β} {es : List ε}
    (h : Drain step s b es (some (s', b'))) : Drain step s' b' [] (some (s', b')) := by
  generalize ho : some (s', b') = o at h
  induction h with
  | nil s => cases ho; exact .nil _
  | more hb e =>
    cases ho
    have h' := hs.more [] e
    rw [List.append_nil, List.append_nil, e] at h'
    cases b' with
    | nil => exact .nil _
    | cons x b' => exact .more (List.cons_ne_nil _ _) h'.symm
  | emit _ _ _ ih => exact ih ho
  | fail => cases ho; exact .nil _
  | halt => cases ho

/-- A consumer that asked for more goes on where it stopped. -/
theorem Stable.drain_more (hs : Stable step) {s s' : σ} {b b' x : List β} {es : List ε}
    {o : Option (σ × List β)} (hb : b ≠ []) (e : step s b = .more s' b')
    (h : Drain step s' (b' ++ x) es o) : Drain step s (b ++ x) es o := by
  have hbx : b ++ x ≠ [] := by simp [hb]
  have hstep := hs.more x e
  generalize hd : b' ++ x = d at h hstep
  cases h with
  | nil =>
    obtain ⟨rfl, rfl⟩ := List.append_eq_nil_iff.mp hd
    rw [List.append_nil]
    exact .more hb e
  | more _ e' => exact .more hbx (hstep.trans e')
  | emit _ e' h => exact .emit hbx (hstep.trans e') h
  | fail _ e' => exact .fail hbx (hstep.trans e')
  | halt _ e' => exact .halt hbx (hstep.trans e')

theorem Stable.drain_append_halt (hs : Stable step) {s : σ} {b : List β} {es : List ε}
    (h : Drain step s b es none) (x : List β) : Drain step s (b ++ x) es none := by
  generalize ho : none = o at h
  induction h with
  | nil | more | fail => cases ho
  | emit hb e _ ih => exact .emit (by simp [hb]) (hs.emit x e) (ih ho)
  | halt hb e => exact .halt (by simp [hb]) (hs.halt x e)

/-! ## Up to a first failure -/

variable {T : ε → Bool}

/-- The events up to the first that is final. -/
def upTo (T : ε → Bool) : List ε → List ε
  | [] => []
  | e :: es => if T e then [e] else e :: upTo T es

theorem upTo_append_of_mem {es : List ε} (es' : List ε) (h : ∃ e ∈ es, T e = true) :
    upTo T (es ++ es') = upTo T es := by
  induction es with
  | nil => obtain ⟨e, he, _⟩ := h; exact absurd he List.not_mem_nil
  | cons e es ih =>
    rw [List.cons_append, upTo, upTo]
    split
    · rfl
    · next he =>
      rw [ih]
      obtain ⟨e', hm, ht⟩ := h
      rcases List.mem_cons.mp hm with rfl | hm
      · exact absurd ht he
      · exact ⟨e', hm, ht⟩

theorem upTo_append_congr (es : List ε) {es' es'' : List ε} (h : upTo T es' = upTo T es'') :
    upTo T (es ++ es') = upTo T (es ++ es'') := by
  induction es with
  | nil => exact h
  | cons e es ih => rw [List.cons_append, List.cons_append, upTo, upTo, ih]

/-- A loop goes on with the bytes that come later, unless it failed. -/
theorem Stable.drain_append (hs : Stable step) (hf : ∀ s b e s', step s b = .fail e s' → T e = true)
    {s s' : σ} {b b' : List β} {es : List ε} (h : Drain step s b es (some (s', b')))
    {x : List β} {es' : List ε} {o : Option (σ × List β)} (h' : Drain step s' (b' ++ x) es' o) :
    ∃ es'' o'', Drain step s (b ++ x) es'' o'' ∧ upTo T es'' = upTo T (es ++ es') := by
  generalize ho : some (s', b') = o' at h
  induction h with
  | nil s =>
    cases ho
    exact ⟨es', o, h', rfl⟩
  | more hb e =>
    cases ho
    exact ⟨es', o, hs.drain_more hb e h', rfl⟩
  | @emit _ _ _ _ e _ _ hb he _ ih =>
    obtain ⟨es'', o'', hd, hu⟩ := ih ho
    refine ⟨e :: es'', o'', .emit (by simp [hb]) (hs.emit x he) hd, ?_⟩
    exact upTo_append_congr [e] hu
  | fail hb e =>
    refine ⟨_, _, .fail (by simp [hb]) (hs.fail x e), ?_⟩
    exact (upTo_append_of_mem es' ⟨_, List.mem_singleton_self _, hf _ _ _ _ e⟩).symm
  | halt => cases ho

/-- A stream in chunks, and in one. -/
theorem Stable.feed_drain (hs : Stable step) (hf : ∀ s b e s', step s b = .fail e s' → T e = true)
    {s : σ} {b : List β} {xs : List (List β)} {es : List ε} (h : Feed step s b xs es)
    (hb : Drain step s b [] (some (s, b))) :
    ∃ es' o, Drain step s (b ++ xs.flatten) es' o ∧ upTo T es' = upTo T es := by
  induction h with
  | nil s b =>
    rw [List.flatten_nil, List.append_nil]
    exact ⟨[], _, hb, rfl⟩
  | chunk hd _ ih =>
    obtain ⟨es', o, hd', hu⟩ := ih (hs.again hd)
    obtain ⟨es'', o'', hd'', hu'⟩ := hs.drain_append hf hd hd'
    rw [List.flatten_cons, ← List.append_assoc]
    exact ⟨es'', o'', hd'', hu'.trans (upTo_append_congr _ hu)⟩
  | halt xs hd =>
    rw [List.flatten_cons, ← List.append_assoc]
    exact ⟨_, _, hs.drain_append_halt hd _, rfl⟩

/-- The events up to a first failure do not depend on the chunks. -/
theorem Stable.feed_upTo (hs : Stable step) (hf : ∀ s b e s', step s b = .fail e s' → T e = true)
    {s : σ} {xs ys : List (List β)} {es es' : List ε} (h : Feed step s [] xs es) (h' : Feed step s [] ys es')
    (he : xs.flatten = ys.flatten) : upTo T es = upTo T es' := by
  obtain ⟨es₁, o₁, hd₁, hu₁⟩ := hs.feed_drain hf h (.nil s)
  obtain ⟨es₂, o₂, hd₂, hu₂⟩ := hs.feed_drain hf h' (.nil s)
  rw [← he] at hd₂
  rw [← hu₁, ← hu₂, (hd₁.unique hd₂).1]

/-! ## Arrivals and calls in any order -/

/-- From the state `s₀` on, the chunks `xs` have arrived, each when the
consumer needed more, and the events `es` were reported, which leaves a state
and bytes. -/
inductive Session (step : σ → List β → Progress σ ε β) (s₀ : σ) :
    List (List β) → List ε → σ → List β → Prop where
  | start : Session step s₀ [] [] s₀ []
  | arrive {xs : List (List β)} {es : List ε} {s s' : σ} {b b' : List β} (x : List β) : Session step s₀ xs es s b →
      step s b = .more s' b' → Session step s₀ (xs ++ [x]) es s (b ++ x)
  | more {xs : List (List β)} {es : List ε} {s s' : σ} {b b' : List β} : Session step s₀ xs es s b →
      step s b = .more s' b' → Session step s₀ xs es s' b'
  | emit {xs : List (List β)} {es : List ε} {s s' : σ} {b b' : List β} {e : ε} : Session step s₀ xs es s b →
      step s b = .emit e s' b' → Session step s₀ xs (es ++ [e]) s' b'
  | fail {xs : List (List β)} {es : List ε} {s s' : σ} {b : List β} {e : ε} : Session step s₀ xs es s b →
      step s b = .fail e s' → Session step s₀ xs (es ++ [e]) s' []

/-- The events of a stream, and the state after a failure if it ends in one. -/
def loop (step : σ → List β → Progress σ ε β) : Nat → σ → List β → List ε × Option σ
  | 0, _, _ => ([], none)
  | fuel + 1, s, b =>
    match step s b with
    | .more _ _ => ([], none)
    | .emit e s' b' => (loop step fuel s' b').map (e :: ·) id
    | .fail e s' => ([e], some s')
    | .halt e => ([e], none)

def reports (step : σ → List β → Progress σ ε β) (s : σ) (b : List β) : List ε × Option σ :=
  loop step (b.length + 1) s b

/-- The events of chunks that arrive after the bytes `r`: the bytes since the
last failure are one stream, and the rest of a chunk with a failure is
dropped. -/
def restarts (step : σ → List β → Progress σ ε β) (s : σ) (r : List β) : List (List β) → List ε
  | [] => (reports step s r).1
  | x :: xs =>
    match reports step s (r ++ x) with
    | (_, none) => restarts step s (r ++ x) xs
    | (es, some s') => es ++ restarts step s' [] xs

section Loop

variable {s s' s₀ : σ} {b b' : List β} {e : ε} {fuel : Nat}

theorem loop_more (h : step s b = .more s' b') : loop step (fuel + 1) s b = ([], none) := by
  rw [loop, h]

theorem loop_emit (h : step s b = .emit e s' b') :
    loop step (fuel + 1) s b = (loop step fuel s' b').map (e :: ·) id := by
  rw [loop, h]

theorem loop_fail (h : step s b = .fail e s') : loop step (fuel + 1) s b = ([e], some s') := by
  rw [loop, h]

theorem loop_halt (h : step s b = .halt e) : loop step (fuel + 1) s b = ([e], none) := by
  rw [loop, h]

/-- Each event takes bytes. -/
def Shrinking (step : σ → List β → Progress σ ε β) : Prop :=
  ∀ {s b e s' b'}, step s b = .emit e s' b' → b'.length < b.length

theorem Shrinking.loop_eq (hl : Shrinking step) (n : Nat) : ∀ {m : Nat} {s : σ} {b : List β},
    b.length < n → b.length < m → loop step n s b = loop step m s b := by
  induction n with
  | zero => exact fun hn _ => absurd hn (Nat.not_lt_zero _)
  | succ n ih =>
    intro m s b hn hm
    obtain ⟨m, rfl⟩ := Nat.exists_eq_succ_of_ne_zero (Nat.ne_zero_of_lt hm)
    cases h : step s b with
    | more => rw [loop_more h, loop_more h]
    | fail => rw [loop_fail h, loop_fail h]
    | halt => rw [loop_halt h, loop_halt h]
    | emit e s' b' =>
      have hb := hl h
      rw [loop_emit h, loop_emit h]
      exact congrArg _ (ih (by omega) (by omega))

theorem Shrinking.reports_eq (hl : Shrinking step) {n : Nat} (h : b.length < n) :
    loop step n s b = reports step s b :=
  hl.loop_eq n h (Nat.lt_succ_self _)

/-- A loop over `r` and what comes later reports `es`, and goes on in `s` with
the bytes `b` and what comes later. -/
def Follows (step : σ → List β → Progress σ ε β) (s₀ : σ) (r : List β) (es : List ε) (s : σ) (b : List β) : Prop :=
  ∀ x n, loop step (es.length + n) s₀ (r ++ x) = (loop step n s (b ++ x)).map (es ++ ·) id

theorem follows_start (step : σ → List β → Progress σ ε β) (s : σ) : Follows step s [] [] s [] := by
  intro x n
  rw [List.length_nil, Nat.zero_add]
  rfl

theorem Follows.arrive {r : List β} {es : List ε} (h : Follows step s₀ r es s b) (x : List β) :
    Follows step s₀ (r ++ x) es s (b ++ x) := by
  intro y n
  rw [List.append_assoc, List.append_assoc]
  exact h (x ++ y) n

theorem Follows.more (hs : Stable step) {r : List β} {es : List ε} (h : Follows step s₀ r es s b)
    (e : step s b = .more s' b') : Follows step s₀ r es s' b' := by
  intro x n
  rw [h x n]
  cases n with
  | zero => rfl
  | succ n => rw [loop, loop, hs.more x e]

theorem Follows.emit (hs : Stable step) {r : List β} {es : List ε} (h : Follows step s₀ r es s b)
    (he : step s b = .emit e s' b') : Follows step s₀ r (es ++ [e]) s' b' := by
  intro x n
  have hn := h x (n + 1)
  rw [loop_emit (hs.emit x he)] at hn
  rw [List.length_append, List.length_singleton, Nat.add_assoc, Nat.add_comm 1, hn]
  simp [Prod.map]

theorem Follows.fail (hs : Stable step) (hl : Shrinking step) {r : List β} {es : List ε}
    (h : Follows step s₀ r es s b) (he : step s b = .fail e s') :
    reports step s₀ r = (es ++ [e], some s') := by
  have hn := h [] (r.length + 1)
  rw [List.append_nil, loop_fail (hs.fail [] he), hl.reports_eq (by omega)] at hn
  exact hn

theorem Follows.reports (hl : Shrinking step) {r : List β} {es : List ε}
    (h : Follows step s₀ r es s b) (he : step s b = .more s' b') : reports step s₀ r = (es, none) := by
  have hn := h [] (r.length + 1)
  rw [List.append_nil, List.append_nil, loop_more he, hl.reports_eq (by omega)] at hn
  rw [hn, Prod.map, List.append_nil]
  rfl

theorem restarts_none {r x : List β} {es : List ε} (h : reports step s (r ++ x) = (es, none))
    (xs : List (List β)) : restarts step s r (x :: xs) = restarts step s (r ++ x) xs := by
  rw [restarts, h]

theorem restarts_some {r x : List β} {es : List ε} (h : reports step s (r ++ x) = (es, some s'))
    (xs : List (List β)) : restarts step s r (x :: xs) = es ++ restarts step s' [] xs := by
  rw [restarts, h]

/-- Without bytes the consumer needs more. -/
def Silent (step : σ → List β → Progress σ ε β) : Prop :=
  ∀ s, ∃ s' b', step s [] = .more s' b'

theorem Silent.restarts_nil (h0 : Silent step) (s : σ) (xs : List (List β)) :
    restarts step s [] ([] :: xs) = restarts step s [] xs := by
  obtain ⟨s', b', e⟩ := h0 s
  exact restarts_none (show reports step s ([] ++ []) = ([], none) from loop_more e) xs

/-- The last chunk `x`, the bytes `r` since the last failure before it, and
what became of everything earlier. -/
theorem Session.follows (hs : Stable step) (hl : Shrinking step) (h0 : Silent step) {xs : List (List β)}
    {es : List ε} (h : Session step s₀ xs es s b) : ∃ r x es₀ es₁ s₁, es = es₀ ++ es₁ ∧
      (∀ ys, restarts step s₀ [] (xs ++ ys) = es₀ ++ restarts step s₁ r (x :: ys)) ∧
      Follows step s₁ (r ++ x) es₁ s b := by
  induction h with
  | start => exact ⟨[], [], [], [], s₀, rfl, fun ys => (h0.restarts_nil s₀ ys).symm, follows_start step s₀⟩
  | arrive x' _ e ih =>
    obtain ⟨r, x, es₀, es₁, s₁, rfl, hr, hf⟩ := ih
    refine ⟨r ++ x, x', es₀, es₁, s₁, rfl, fun ys => ?_, hf.arrive x'⟩
    rw [List.append_assoc, hr, restarts_none (hf.reports hl e)]
    rfl
  | more _ e ih =>
    obtain ⟨r, x, es₀, es₁, s₁, rfl, hr, hf⟩ := ih
    exact ⟨r, x, es₀, es₁, s₁, rfl, hr, hf.more hs e⟩
  | @emit _ _ _ _ _ _ e _ he ih =>
    obtain ⟨r, x, es₀, es₁, s₁, rfl, hr, hf⟩ := ih
    exact ⟨r, x, es₀, es₁ ++ [e], s₁, List.append_assoc .., hr, hf.emit hs he⟩
  | @fail _ _ _ s' _ e _ he ih =>
    obtain ⟨r, x, es₀, es₁, s₁, rfl, hr, hf⟩ := ih
    refine ⟨[], [], es₀ ++ (es₁ ++ [e]), [], s', ?_, fun ys => ?_, follows_start step s'⟩
    · rw [List.append_nil, List.append_assoc]
    · rw [hr, restarts_some (hf.fail hs hl he), h0.restarts_nil, List.append_assoc, List.append_assoc, List.append_assoc]

/-- A consumer that needs more has reported of the chunks what `restarts`
says. -/
theorem Stable.restarts_eq (hs : Stable step) (hl : Shrinking step) (h0 : Silent step) {xs : List (List β)}
    {es : List ε} (h : Session step s₀ xs es s b) (e : step s b = .more s' b') :
    es = restarts step s₀ [] xs := by
  obtain ⟨r, x, es₀, es₁, s₁, rfl, hr, hf⟩ := h.follows hs hl h0
  have hn := hf.reports hl e
  have hx := hr []
  rw [List.append_nil, restarts_none hn, restarts, hn] at hx
  exact hx.symm

theorem Stable.loop_append (hs : Stable step) (fuel : Nat) : ∀ {s : σ} {b : List β} {es : List ε},
    loop step fuel s b = (es, some s') → ∀ x, loop step fuel s (b ++ x) = (es, some s') := by
  induction fuel with
  | zero => exact fun h => by cases h
  | succ fuel ih =>
    intro s b es h x
    cases e : step s b with
    | more =>
      rw [loop_more e] at h
      cases h
    | halt =>
      rw [loop_halt e] at h
      cases h
    | fail =>
      rw [loop_fail e] at h
      rw [loop_fail (hs.fail x e), h]
    | emit ev s₁ b₁ =>
      rw [loop_emit e] at h
      rw [loop_emit (hs.emit x e)]
      obtain ⟨h₁, h₂⟩ := Prod.mk.inj h
      rw [ih (show loop step fuel s₁ b₁ = (_, some s') from Prod.ext rfl h₂) x]
      rw [← h₁]
      rfl

/-- Without a failure in the whole stream there is none. -/
theorem Stable.restarts_eq_reports (hs : Stable step) (hl : Shrinking step) {es : List ε} (xs : List (List β)) :
    ∀ {r : List β}, reports step s (r ++ xs.flatten) = (es, none) → restarts step s r xs = es := by
  induction xs with
  | nil =>
    intro r h
    rw [List.flatten_nil, List.append_nil] at h
    rw [restarts, h]
  | cons x xs ih =>
    intro r h
    rw [List.flatten_cons, ← List.append_assoc] at h
    rcases e : reports step s (r ++ x) with ⟨es', _ | s'⟩
    · rw [restarts_none e]
      exact ih h
    · have hlt : (r ++ x).length < (r ++ x ++ xs.flatten).length + 1 :=
        Nat.lt_succ_of_le (List.sublist_append_left ..).length_le
      rw [← hl.reports_eq hlt] at e
      rw [reports, hs.loop_append _ e] at h
      cases h

end Loop

end Resumable
