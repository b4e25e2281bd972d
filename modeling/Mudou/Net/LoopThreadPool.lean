import Mudou.Lib.RoundRobin
import Mudou.Net.LoopThread

/-!
# The threads of a server

`LoopThreadPool` of `source/server.hpp`. `Create` makes one thread after the
other and waits for the loop of each, while all of them run; `NextLoop` gives
a new connection the loop whose turn it is.

`create_completes`: in every interleaving `Create` comes to an end, with one
running loop for each thread, and then any number of calls of `NextLoop` in a
row are spread evenly over the loops. A negative count makes no loops, and the
first call reads outside the vector.
-/

namespace Mudou

open Run RoundRobin

structure LoopThreadPool (α : Type) where
  threadCount : Int
  nextIdx : Int
  baseloop : α
  /-- the threads made so far, each with the one call of `GetLoop` -/
  threads : List (LoopThread α Unit)
  /-- the loops stored so far -/
  loops : List (Option α)

namespace LoopThreadPool

variable {α : Type}

/-- A pool after `SetThreadCount`. -/
def new (baseloop : α) (threadCount : Int) : LoopThreadPool α := ⟨threadCount, 0, baseloop, [], []⟩

/-- A step of `Create`, or of a thread; `loop k` is the address of the loop of
the thread `k`. -/
inductive Create (loop : Nat → α) : LoopThreadPool α → LoopThreadPool α → Prop where
  | newThread {p : LoopThreadPool α} : (p.loops.length : Int) < p.threadCount →
      p.threads.length = p.loops.length → Create loop p { p with threads := p.threads ++ [.new] }
  | thread {p : LoopThreadPool α} (k : Nat) {t t' : LoopThread α Unit} : p.threads[k]? = some t →
      t.Step (loop k) t' → Create loop p { p with threads := p.threads.set k t' }
  | getLoop {p : LoopThreadPool α} {t : LoopThread α Unit} {l : Option α} :
      p.threads[p.loops.length]? = some t → t.getLoop () = .returned l →
      Create loop p { p with loops := p.loops ++ [l] }

inductive Wakes : LoopThreadPool α → LoopThreadPool α → Prop where
  | thread {p : LoopThreadPool α} (k : Nat) {t t' : LoopThread α Unit} : p.threads[k]? = some t →
      t.Wakes t' → Wakes p { p with threads := p.threads.set k t' }

def Reachable (loop : Nat → α) (p₀ : LoopThreadPool α) : LoopThreadPool α → Prop :=
  Relation.ReflTransGen (fun p p' => Create loop p p' ∨ Wakes p p') p₀

/-- `NextLoop`; `none` outside of `_loops`. -/
def nextLoop (p : LoopThreadPool α) : Option (Option α × LoopThreadPool α) :=
  if p.threadCount = 0 then some (some p.baseloop, p)
  else
    let nextIdx := Int.tmod (p.nextIdx + 1) p.threadCount
    if nextIdx < 0 then none
    else (p.loops[nextIdx.toNat]?).map fun l => (l, { p with nextIdx })

/-- One call after the other. -/
def nextLoops : Nat → LoopThreadPool α → Option (List (Option α) × LoopThreadPool α)
  | 0, p => some ([], p)
  | m + 1, p => do
    let (l, p) ← p.nextLoop
    let (ls, p) ← nextLoops m p
    some (l :: ls, p)

/-! ## Creation -/

structure Inv (loop : Nat → α) (p p₀ : LoopThreadPool α) : Prop where
  pool : p = { p₀ with threads := p.threads, loops := p.loops }
  thread {k} {t : LoopThread α Unit} : p.threads[k]? = some t → t.Inv (loop k)
  loops : p.loops = (List.range p.loops.length).map fun k => some (loop k)
  order : p.loops.length ≤ p.threads.length ∧ p.threads.length ≤ p.loops.length + 1
  count : p.threads.length ≤ p.threadCount.toNat

variable {loop : Nat → α} {p₀ p p' : LoopThreadPool α}

theorem new_inv (loop : Nat → α) (baseloop : α) (threadCount : Int) :
    Inv loop (new baseloop threadCount) (new baseloop threadCount) where
  pool := rfl
  thread h := by simp [new] at h
  loops := rfl
  order := ⟨Nat.le_refl _, Nat.zero_le _⟩
  count := Nat.zero_le _

/-- A thread that keeps its invariant. -/
theorem Inv.set (h : p.Inv loop p₀) {k : Nat} {t' : LoopThread α Unit} (ht : t'.Inv (loop k)) :
    Inv loop { p with threads := p.threads.set k t' } p₀ := by
  refine ⟨h.pool ▸ rfl, fun {j t} hj => ?_, h.loops, ?_, ?_⟩
  · simp only [List.getElem?_set] at hj
    split at hj
    · next e =>
      split at hj
      · cases hj
        exact e ▸ ht
      · cases hj
    · exact h.thread hj
  · rw [List.length_set]
    exact h.order
  · rw [List.length_set]
    exact h.count

theorem Inv.create (h : p.Inv loop p₀) (hs : Create loop p p') : p'.Inv loop p₀ := by
  cases hs with
  | newThread hlt he =>
    refine ⟨h.pool ▸ rfl, fun {k t} hk => ?_, h.loops, ?_, ?_⟩
    · simp only [List.getElem?_append] at hk
      split at hk
      · exact h.thread hk
      · obtain rfl : LoopThread.new = t := by
          rw [List.getElem?_singleton] at hk
          split at hk
          · exact Option.some.inj hk
          · cases hk
        exact LoopThread.new_inv _
    · rw [List.length_append, List.length_singleton]
      show p.loops.length ≤ p.threads.length + 1 ∧ p.threads.length + 1 ≤ p.loops.length + 1
      omega
    · rw [List.length_append, List.length_singleton]
      show p.threads.length + 1 ≤ p.threadCount.toNat
      omega
  | thread k hk ht => exact h.set ((h.thread hk).step ht)
  | @getLoop t l ht hl =>
    have hf := (h.thread ht).found ()
    rw [hl] at hf
    obtain rfl : l = some (loop p.loops.length) := hf
    have hlt := (List.getElem?_eq_some_iff.mp ht).1
    refine ⟨h.pool ▸ rfl, h.thread, ?_, ?_, h.count⟩
    · rw [List.length_append, List.length_singleton, List.range_succ, List.map_append, ← h.loops]
      rfl
    · have := h.order
      rw [List.length_append, List.length_singleton]
      show p.loops.length + 1 ≤ p.threads.length ∧ p.threads.length ≤ p.loops.length + 1 + 1
      omega

theorem Inv.wakes (h : p.Inv loop p₀) (hs : Wakes p p') : p'.Inv loop p₀ := by
  cases hs with
  | thread k hk ht => exact h.set ((h.thread hk).wakes ht)

theorem Reachable.inv (h : Reachable loop p₀ p) (h₀ : p₀.Inv loop p₀) : p.Inv loop p₀ := by
  induction h with
  | refl => exact h₀
  | tail _ hs ih => exact hs.elim ih.create ih.wakes

/-! ## `Create` comes to an end -/

/-- What a thread and its caller have left to do. -/
def weight (t : LoopThread α Unit) : Nat := 6 * t.rank.1 + t.rank.2

theorem rank_snd_lt (t : LoopThread α Unit) : t.rank.2 < 6 := by
  rw [LoopThread.rank, Finset.univ_unique, Finset.sum_singleton]
  exact LoopThread.getLoopRank_lt _ _

theorem weight_lt {l : α} {t t' : LoopThread α Unit} (h : t.Step l t') : weight t' < weight t := by
  have hlex := LoopThread.rank_lt h
  have h' := rank_snd_lt t'
  rw [weight, weight]
  rw [Prod.lex_def] at hlex
  omega

theorem sum_weight_set_lt {t t' : LoopThread α Unit} (hlt : weight t' < weight t) :
    ∀ (ts : List (LoopThread α Unit)) (k : Nat), ts[k]? = some t →
      ((ts.set k t').map weight).sum < (ts.map weight).sum := by
  intro ts
  induction ts with
  | nil => exact fun k h => nomatch h
  | cons u ts ih =>
    intro k hk
    cases k with
    | zero =>
      obtain rfl := Option.some.inj hk
      simp only [List.set_cons_zero, List.map_cons, List.sum_cons]
      omega
    | succ k =>
      have := ih k hk
      simp only [List.set_cons_succ, List.map_cons, List.sum_cons]
      omega

def createRank (p : LoopThreadPool α) : Nat :=
  36 * (p.threadCount.toNat - p.threads.length) + (p.threadCount.toNat - p.loops.length) +
    (p.threads.map weight).sum

theorem createRank_lt (h : p.Inv loop p₀) (hs : Create loop p p') : p'.createRank < p.createRank := by
  cases hs with
  | newThread hlt he =>
    have hw : weight (LoopThread.new : LoopThread α Unit) = 35 := rfl
    simp only [createRank, List.length_append, List.length_singleton, List.map_append, List.map_cons,
      List.map_nil, List.sum_append, List.sum_cons, List.sum_nil, hw]
    omega
  | thread k hk ht =>
    have := sum_weight_set_lt (weight_lt ht) p.threads k hk
    simp only [createRank, List.length_set]
    omega
  | getLoop ht hl =>
    have hlt := (List.getElem?_eq_some_iff.mp ht).1
    have := h.count
    simp only [createRank, List.length_append, List.length_singleton]
    omega

/-- All loops are there, and run. -/
structure Created (loop : Nat → α) (p : LoopThreadPool α) : Prop where
  loops : p.loops = (List.range p.threadCount.toNat).map fun k => some (loop k)
  threads : p.threads.length = p.threadCount.toNat
  started : ∀ t ∈ p.threads, t.entry = .started

theorem Inv.created (h : p.Inv loop p₀) (he : Ended (Create loop) p) : p.Created loop := by
  have hthread : ∀ {k : Nat} {t : LoopThread α Unit}, p.threads[k]? = some t →
      t.entry = .started ∧ t.getLoop () = .returned (some (loop k)) := by
    intro k t hk
    have ht := (h.thread hk).of_ended fun t' hs => he _ (.thread k hk hs)
    exact ⟨ht.1, ht.2 ()⟩
  have hlen : p.loops.length = p.threads.length := by
    by_contra hne
    have hlt : p.loops.length < p.threads.length := by
      have := h.order
      omega
    obtain ⟨t, ht⟩ : ∃ t, p.threads[p.loops.length]? = some t := ⟨_, List.getElem?_eq_getElem hlt⟩
    exact he _ (.getLoop ht (hthread ht).2)
  have hcount : p.threads.length = p.threadCount.toNat := by
    by_contra hne
    have := h.count
    exact he _ (.newThread (by omega) hlen.symm)
  refine ⟨?_, hcount, fun t ht => ?_⟩
  · rw [← hcount, ← hlen]
    exact h.loops
  · obtain ⟨k, hk⟩ := List.getElem?_of_mem ht
    exact (hthread hk).1

/-! ## Whose turn it is -/

theorem Created.nextLoop (h : p.Created loop) {n i : Nat} (hn : 0 < n) (hc : p.threadCount = n)
    (hi : p.nextIdx = i) : p.nextLoop = some (some (loop ((i + 1) % n)), { p with nextIdx := ((i + 1) % n : Nat) }) := by
  have hmod : Int.tmod (p.nextIdx + 1) p.threadCount = ((i + 1) % n : Nat) := by
    rw [hc, hi]
    exact (Int.ofNat_tmod (i + 1) n).symm
  have hlt : (i + 1) % n < n := Nat.mod_lt _ hn
  have hloop : p.loops[(i + 1) % n]? = some (some (loop ((i + 1) % n))) := by
    rw [h.loops, hc, Int.toNat_natCast, List.getElem?_map, List.getElem?_range hlt]
    rfl
  rw [LoopThreadPool.nextLoop, if_neg (by omega)]
  simp only [hmod]
  rw [if_neg (by omega), Int.toNat_natCast, hloop]
  rfl

theorem Created.nextLoops {n : Nat} (hn : 0 < n) (m : Nat) : ∀ {p : LoopThreadPool α} {i : Nat},
    p.Created loop → p.threadCount = n → p.nextIdx = i →
    ∃ p', p.nextLoops m = some ((turns n (i + 1) m).map fun k => some (loop k), p') := by
  induction m with
  | zero => exact fun {p _} _ _ _ => ⟨p, rfl⟩
  | succ m ih =>
    intro p i h hc hi
    have hnext := h.nextLoop hn hc hi
    have h' : Created loop { p with nextIdx := ((i + 1) % n : Nat) } := ⟨h.loops, h.threads, h.started⟩
    obtain ⟨p', e⟩ := ih h' hc rfl
    refine ⟨p', ?_⟩
    have hturns : turns n ((i + 1) % n + 1) m = turns n (i + 1 + 1) m := by
      rw [← turns_mod, Nat.mod_add_mod, turns_mod]
    rw [LoopThreadPool.nextLoops, hnext]
    simp only [Option.bind_eq_bind, Option.bind_some, e, hturns, turns_succ, List.map_cons]

/-- Every connection gets a loop that runs, and any number of connections in a
row are spread evenly. -/
structure Balances [DecidableEq α] (loop : Nat → α) (p : LoopThreadPool α) : Prop where
  created : p.Created loop
  base : p.threadCount = 0 → ∀ m, ∃ p', p.nextLoops m = some (List.replicate m (some p.baseloop), p')
  even : 0 < p.threadCount → ∀ m, ∃ ls p', p.nextLoops m = some (ls, p') ∧ ls.length = m ∧
    (∀ l ∈ ls, l ∈ p.loops) ∧ ∀ l ∈ p.loops, m / p.loops.length ≤ ls.count l ∧
      ls.count l ≤ m / p.loops.length + 1
  negative : p.threadCount < 0 → p.nextLoop = none

/-- Whatever the interleaving so far, `Create` comes to an end, and from then
on `NextLoop` balances. -/
theorem create_completes [DecidableEq α] {baseloop : α} {threadCount : Int} (hl : Function.Injective loop)
    (h : Reachable loop (new baseloop threadCount) p) : Completes (Create loop) (Balances loop) p := by
  have hinv := h.inv (new_inv loop baseloop threadCount)
  refine Completes.of_rank (I := fun p => p.Inv loop (new baseloop threadCount)) wellFounded_lt createRank
    (fun _ _ h hs => h.create hs) (fun _ _ h hs => createRank_lt h hs) (fun p h he => ?_) p hinv
  have hc := h.created he
  have hi : p.nextIdx = 0 := by rw [h.pool]; rfl
  have hlen : p.loops.length = p.threadCount.toNat := by
    rw [hc.loops, List.length_map, List.length_range]
  refine ⟨hc, fun h0 m => ?_, fun hpos m => ?_, fun hneg => ?_⟩
  · induction m with
    | zero => exact ⟨p, rfl⟩
    | succ m ih =>
      obtain ⟨p', e⟩ := ih
      refine ⟨p', ?_⟩
      rw [nextLoops, nextLoop, if_pos h0]
      simp only [Option.bind_eq_bind, Option.bind_some, e, List.replicate_succ]
  · obtain ⟨n, hn⟩ := Int.eq_ofNat_of_zero_le hpos.le
    have hn0 : 0 < n := by omega
    have hto : p.threadCount.toNat = n := by omega
    obtain ⟨p', e⟩ := hc.nextLoops hn0 m hn (i := 0) hi
    refine ⟨_, p', e, by rw [List.length_map, turns, List.length_map, List.length_range], ?_, ?_⟩
    · intro l hm
      obtain ⟨k, hk, rfl⟩ := List.mem_map.mp hm
      rw [hc.loops, hto]
      exact List.mem_map.mpr ⟨k, List.mem_range.mpr (mod_lt_of_mem_turns hn0 hk), rfl⟩
    · intro l hm
      rw [hc.loops, hto] at hm
      obtain ⟨k, hk, rfl⟩ := List.mem_map.mp hm
      rw [hlen, hto, List.count_map_of_injective _ _ fun _ _ e => hl (Option.some.inj e)]
      exact count_turns (List.mem_range.mp hk) _ m
  · have h0 : p.loops = [] := List.length_eq_zero_iff.mp (by omega)
    rw [nextLoop, if_neg (by omega), h0]
    simp

theorem create_completes_three : Completes (Create id) (Balances id) (new 9 3) :=
  create_completes Function.injective_id .refl

end LoopThreadPool

end Mudou
