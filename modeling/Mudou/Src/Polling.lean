import Mathlib.Algebra.Group.Nat.Hom
import Mathlib.Data.Fintype.Card
import Mudou.Src.EPollPoller

/-!
# Polling in `src/src`

`EPollPoller::poll` hands `epoll_wait` the vector `events_`, of 16 entries at
first, and doubles it when a call fills it. A call that fills it may leave out
channels that are ready; no other call does (`Reports`).

With at most `N` channels registered at any time, a call fills the vector only
while it has no more than `N` entries: so over a whole run, `log₂ (N / 16) + 1`
calls at most leave a channel out, the vector never has more than `2 N` entries
(or 16), and its size is an `int` (`polls_report_and_rarely_miss`).
-/

namespace Mudou.Src

open Outcome (ok)

/-- The poller with `events_.size()` and the `revents_` of its channels. -/
structure Polling (ι : Type) where
  poller : EPollPoller ι
  size : Nat
  revents : ι → UInt32

namespace Polling

variable {ι : Type} [DecidableEq ι]

def kInitEventListSize : Nat := 16

def new (fd : ι → Int) : Polling ι := ⟨EPollPoller.new fd, kInitEventListSize, fun _ => 0⟩

/-- `static_cast<int>(events_.size())` -/
def maxEvents (size : Nat) : Int := Int.bmod size 4294967296

/-- The channels to handle, and `revents_` set from `events_` in order. -/
def fillActiveChannels (evs : List (ι × UInt32)) (p : Polling ι) : List ι × Polling ι :=
  (evs.map Prod.fst, { p with revents := evs.foldl (fun r e => Function.update r e.1 e.2) p.revents })

/-- `poll` with what `epoll_wait` returns: `none` for -1, or for each entry of
`events_` it fills the channel in `data.ptr` and the mask. -/
def poll (result : Option (List (ι × UInt32))) (p : Polling ι) : List ι × Polling ι :=
  match result with
  | none => ([], p)
  | some evs =>
    if 0 < evs.length then
      let (activeChannels, p) := p.fillActiveChannels evs
      (activeChannels, if evs.length = p.size then { p with size := p.size * 2 } else p)
    else ([], p)

/-- An operation on the interest set, or a `poll` while the descriptors in
`ready` are, with these masks. -/
inductive Step (ι : Type) where
  | update (op : EPollPoller.Op ι)
  | poll (ready : Int → Option UInt32) (evs : Option (List (Int × UInt32 × UInt32 × ι)))

/-- The entries as the poller reads them. -/
def entries (evs : List (Int × UInt32 × UInt32 × ι)) : List (ι × UInt32) := evs.map fun e => (e.2.2.2, e.2.1)

/-- A channel that is registered and ready is not among the active ones. -/
def Misses (fd : ι → Int) (p : Polling ι) (ready : Int → Option UInt32) (evs : List (Int × UInt32 × UInt32 × ι)) :
    Prop :=
  ∃ i, (p.poller.channel i).index = kAdded ∧ ready (fd i) ≠ none ∧ i ∉ (p.poll (some (entries evs))).1

/-- A run, and how many of its polls have left out a channel. -/
structure Watched (ι : Type) where
  polling : Polling ι
  missed : Nat

def Watched.new (fd : ι → Int) : Watched ι := ⟨Polling.new fd, 0⟩

def Watched.next (fd : ι → Int) (s : Watched ι) (a : Step ι) (s' : Watched ι) : Prop :=
  match a with
  | .update op => ∃ poller, op.exec s.polling.poller = ok poller ∧ s' = ⟨{ s.polling with poller }, s.missed⟩
  | .poll _ none => s' = ⟨(s.polling.poll none).2, s.missed⟩
  | .poll ready (some evs) =>
    Epoll.Waited (maxEvents s.polling.size) ready s.polling.poller.interest evs ∧
      s'.polling = (s.polling.poll (some (entries evs))).2 ∧
      (Misses fd s.polling ready evs ∧ s'.missed = s.missed + 1 ∨
        ¬ Misses fd s.polling ready evs ∧ s'.missed = s.missed)

/-- At most `N` channels are registered. -/
def AtMost (N : Nat) (s : Watched ι) (_ : Step ι) : Prop :=
  ∀ is : List ι, is.Nodup → (∀ i ∈ is, (s.polling.poller.channel i).index = kAdded) → is.length ≤ N

/-- The active channels are registered and ready, each is there once and has
its mask; and the vector grows if one is left out. -/
def Reports (fd : ι → Int) (s : Watched ι) : Step ι → Prop
  | .update _ | .poll _ none => True
  | .poll ready (some evs) =>
    let (active, p) := s.polling.poll (some (entries evs))
    active.Nodup ∧
      (∀ i ∈ active, (s.polling.poller.channel i).index = kAdded ∧ ready (fd i) = some (p.revents i)) ∧
      (Misses fd s.polling ready evs → p.size = s.polling.size * 2)

structure Bounded (N : Nat) (s : Watched ι) : Prop where
  missed : kInitEventListSize * 2 ^ s.missed ≤ s.polling.size
  size : s.polling.size ≤ max kInitEventListSize (2 * N)
  cast : maxEvents s.polling.size = s.polling.size

/-! ## The interest set -/

/-- An entry names the channel of its descriptor. -/
structure Owned (fd : ι → Int) (p : EPollPoller ι) : Prop where
  sound : p.Sound fd
  owner {x : Int} {e : UInt32 × ι} : p.interest x = some e → x = fd e.2

variable {fd : ι → Int} {p : EPollPoller ι}

omit [DecidableEq ι] in
theorem new_owned (fd : ι → Int) : Owned fd (EPollPoller.new fd) where
  sound := EPollPoller.new_sound fd
  owner h := absurd h.symm (Option.some_ne_none _)

/-- What an operation leaves names its own channel. -/
theorem Owned.placed (h : Owned fd p) {i : ι} {c : Channel} (hc : c.fd = fd i) {known : Option ι}
    {e : Option (UInt32 × ι)} (he : ∀ a, e = some a → a.2 = i) {x : Int} {a : UInt32 × ι}
    (hx : (p.placed i c known e).interest x = some a) : x = fd a.2 := by
  by_cases hxc : x = c.fd
  · subst hxc
    rw [show (p.placed i c known e).interest c.fd = e from Function.update_self ..] at hx
    rw [he a hx, hc]
  · rw [show (p.placed i c known e).interest x = p.interest x from Function.update_of_ne hxc ..] at hx
    exact h.owner hx

theorem Owned.exec (h : Owned fd p) (hfd : Function.Injective fd) {op : EPollPoller.Op ι} {p' : EPollPoller ι}
    (e : op.exec p = ok p') : Owned fd p' := by
  have hs := h.sound.exec hfd op
  rw [e] at hs
  have hsome : ∀ {i : ι} {m : UInt32} (a : UInt32 × ι), some (m, i) = some a → a.2 = i := fun a he => by
    rw [← Option.some.inj he]
  have hnone : ∀ {i : ι} (a : UInt32 × ι), none = some a → a.2 = i := fun a he => by cases he
  refine ⟨hs, fun {x a} hx => ?_⟩
  cases op with
  | change i c =>
    by_cases hi : (p.channel i).index = kAdded
    · by_cases hm : c.apply (p.channel i).events = KReadEvent
      · rw [EPollPoller.exec_change_read h.sound hi hm] at e
        exact h.placed rfl hnone (Outcome.ok.inj e ▸ hx)
      · rw [EPollPoller.exec_change_of_ne_read h.sound hi hm] at e
        exact h.placed rfl hsome (Outcome.ok.inj e ▸ hx)
    · rw [EPollPoller.exec_change_of_ne h.sound hi] at e
      exact h.placed rfl hsome (Outcome.ok.inj e ▸ hx)
  | removeChannel i =>
    rw [EPollPoller.exec_removeChannel h.sound i] at e
    exact h.placed rfl hnone (Outcome.ok.inj e ▸ hx)

omit [DecidableEq ι] in
/-- Watched are the channels that are added. -/
theorem Owned.index (h : Owned fd p) {i : ι} {x : Int} {m : UInt32} (hx : p.interest x = some (m, i)) :
    x = fd i ∧ (p.channel i).index = kAdded := by
  obtain rfl := h.owner hx
  exact ⟨rfl, (h.sound.interest_iff i).mp (hx ▸ Option.some_ne_none _)⟩

/-! ## One poll -/

variable {q : Polling ι} {ready : Int → Option UInt32} {evs : List (Int × UInt32 × UInt32 × ι)}

/-- The masks are set one by one, each channel's once. -/
theorem foldl_update_of_mem {evs : List (ι × UInt32)} (hd : (evs.map Prod.fst).Nodup) {e : ι × UInt32}
    (he : e ∈ evs) (r : ι → UInt32) : evs.foldl (fun r e => Function.update r e.1 e.2) r e.1 = e.2 := by
  induction evs generalizing r with
  | nil => exact absurd he List.not_mem_nil
  | cons a evs ih =>
    obtain ⟨ha, hd⟩ := List.nodup_cons.mp hd
    rw [List.foldl_cons]
    rcases List.mem_cons.mp he with rfl | he
    · have hkeep : ∀ (evs : List (ι × UInt32)) (r : ι → UInt32), e.1 ∉ evs.map Prod.fst →
          evs.foldl (fun r e => Function.update r e.1 e.2) r e.1 = r e.1 := by
        intro evs
        induction evs with
        | nil => exact fun r _ => rfl
        | cons b evs ih =>
          intro r hn
          rw [List.map_cons, List.mem_cons, not_or] at hn
          rw [List.foldl_cons, ih _ hn.2, Function.update_of_ne hn.1]
      rw [hkeep evs _ ha, Function.update_self]
    · exact ih hd he _

/-- What a poll does. -/
theorem poll_some (hq : 0 < q.size) (evs : List (ι × UInt32)) : q.poll (some evs) =
    (evs.map Prod.fst, { q with
      size := if evs.length = q.size then q.size * 2 else q.size
      revents := evs.foldl (fun r e => Function.update r e.1 e.2) q.revents }) := by
  rw [poll]
  by_cases he : 0 < evs.length
  · rw [if_pos he, fillActiveChannels]
    by_cases hs : evs.length = q.size
    · simp [hs]
    · simp [hs]
  · obtain rfl : evs = [] := List.length_eq_zero_iff.mp (Nat.eq_zero_of_not_pos he)
    have h0 : ¬ ([] : List (ι × UInt32)).length = q.size := hq.ne
    rw [if_neg he, if_neg h0]
    rfl

omit [DecidableEq ι] in
/-- The channels that `epoll_wait` returns. -/
theorem Owned.nodup (h : Owned fd q.poller) {maxEvents : Int}
    (hw : Epoll.Waited maxEvents ready q.poller.interest evs) : ((entries evs).map Prod.fst).Nodup := by
  have hmap : evs.map Prod.fst = ((entries evs).map Prod.fst).map fd := by
    rw [entries, List.map_map, List.map_map]
    refine List.map_congr_left fun e he => ?_
    obtain ⟨x, b, m, i⟩ := e
    exact (h.index (hw.sound he).2).1
  exact (hmap ▸ hw.nodup).of_map fd

omit [DecidableEq ι] in
theorem Owned.of_mem (h : Owned fd q.poller) {maxEvents : Int}
    (hw : Epoll.Waited maxEvents ready q.poller.interest evs) {e : ι × UInt32} (he : e ∈ entries evs) :
    (q.poller.channel e.1).index = kAdded ∧ ready (fd e.1) = some e.2 := by
  obtain ⟨⟨x, b, m, i⟩, hm, rfl⟩ := List.mem_map.mp he
  obtain ⟨hr, hi⟩ := hw.sound hm
  obtain ⟨rfl, ha⟩ := h.index hi
  exact ⟨ha, hr⟩

/-- A poll that leaves a channel out has filled the vector. -/
theorem Owned.full (h : Owned fd q.poller) (hfd : Function.Injective fd) (hq : 0 < q.size)
    (hw : Epoll.Waited q.size ready q.poller.interest evs) (hm : Misses fd q ready evs) : evs.length = q.size := by
  by_contra hne
  obtain ⟨i, hi, hr, hn⟩ := hm
  obtain ⟨⟨m, j⟩, he⟩ := Option.ne_none_iff_exists'.mp ((h.sound.interest_iff i).mpr hi)
  obtain ⟨b, hb⟩ := Option.ne_none_iff_exists'.mp hr
  obtain rfl : i = j := hfd (h.owner he)
  have hlt : (evs.length : Int) < q.size := by
    have := hw.length
    omega
  have hmem : (i, b) ∈ entries evs := List.mem_map.mpr ⟨_, hw.complete hlt hb he, rfl⟩
  rw [poll_some hq] at hn
  exact hn (List.mem_map_of_mem hmem)

/-! ## Runs -/

/-- What every poll keeps, with at most `N` channels registered. -/
structure Inv (fd : ι → Int) (N : Nat) (s : Watched ι) : Prop where
  owned : Owned fd s.polling.poller
  missed : kInitEventListSize * 2 ^ s.missed ≤ s.polling.size
  size : s.polling.size ≤ max kInitEventListSize (2 * N)

variable {N : Nat} {s s' : Watched ι}

omit [DecidableEq ι] in
theorem new_inv (fd : ι → Int) (N : Nat) : Inv fd N (Watched.new fd) :=
  ⟨new_owned fd, Nat.le_refl _, Nat.le_max_left ..⟩

omit [DecidableEq ι] in
theorem Inv.pos (h : Inv fd N s) : 0 < s.polling.size :=
  (Nat.mul_pos (by decide) (Nat.two_pow_pos _)).trans_le h.missed

omit [DecidableEq ι] in
theorem Inv.bounded (h : Inv fd N s) (hN : N < 2 ^ 30) : Bounded N s := by
  refine ⟨h.missed, h.size, Int.bmod_eq_of_le ?_ ?_⟩
  · omega
  · have := h.size
    rw [kInitEventListSize] at this
    omega

omit [DecidableEq ι] in
/-- A full vector holds as many channels as there are entries. -/
theorem Inv.le_of_full (h : Inv fd N s) (hN : ∀ is : List ι, is.Nodup →
    (∀ i ∈ is, (s.polling.poller.channel i).index = kAdded) → is.length ≤ N) {maxEvents : Int}
    (hw : Epoll.Waited maxEvents ready s.polling.poller.interest evs) : evs.length ≤ N := by
  have hle := hN _ (h.owned.nodup hw) fun i hi => by
    obtain ⟨e, he, rfl⟩ := List.mem_map.mp hi
    exact (h.owned.of_mem hw he).1
  rwa [List.length_map, entries, List.length_map] at hle

theorem Inv.next (h : Inv fd N s) (hfd : Function.Injective fd) (hN : N < 2 ^ 30) {a : Step ι}
    (hn : s.next fd a s') (hc : AtMost N s a) : Inv fd N s' := by
  cases a with
  | update op =>
    obtain ⟨poller, e, rfl⟩ := hn
    exact ⟨h.owned.exec hfd e, h.missed, h.size⟩
  | poll ready evs =>
    cases evs with
    | none =>
      obtain rfl : s' = ⟨s.polling, s.missed⟩ := hn
      exact h
    | some evs =>
      obtain ⟨hw, hp, hm⟩ := hn
      rw [(h.bounded hN).cast] at hw
      have hlen := h.le_of_full hc hw
      rw [poll_some h.pos, entries, List.length_map] at hp
      have howned : Owned fd s'.polling.poller := by
        rw [hp]
        exact h.owned
      have hsize : s'.polling.size = if evs.length = s.polling.size then s.polling.size * 2 else s.polling.size := by
        rw [hp]
      have hmissed := h.missed
      refine ⟨howned, ?_, ?_⟩
      · rcases hm with ⟨hm, e⟩ | ⟨_, e⟩
        · rw [e, hsize, if_pos (h.owned.full hfd h.pos hw hm), Nat.pow_succ, ← Nat.mul_assoc]
          exact Nat.mul_le_mul_right 2 hmissed
        · rw [e, hsize]
          split <;> omega
      · rw [hsize]
        split
        · omega
        · exact h.size

theorem Inv.reports (h : Inv fd N s) (hfd : Function.Injective fd) (hN : N < 2 ^ 30) {a : Step ι}
    (hn : s.next fd a s') : Reports fd s a := by
  cases a with
  | update op => trivial
  | poll ready evs =>
    cases evs with
    | none => trivial
    | some evs =>
      obtain ⟨hw, -, -⟩ := hn
      rw [(h.bounded hN).cast] at hw
      have hd := h.owned.nodup hw
      simp only [Reports]
      rw [poll_some h.pos]
      refine ⟨hd, fun i hi => ?_, fun hm => ?_⟩
      · obtain ⟨e, he, rfl⟩ := List.mem_map.mp hi
        simp only [foldl_update_of_mem hd he]
        exact h.owned.of_mem hw he
      · rw [entries, List.length_map]
        exact if_pos (h.owned.full hfd h.pos hw hm)

/-- Over every run with distinct descriptors and at most `N` channels
registered at any time, whatever is ready: each poll reports channels that are
registered and ready, each once and with its mask; one that leaves a channel
out doubles the vector; and there are `log₂ (N / 16) + 1` of these at most, the
vector having no more than `2 N` entries, or 16. -/
theorem polls_report_and_rarely_miss (fd : ι → Int) (hfd : Function.Injective fd) {N : Nat} (hN : N < 2 ^ 30)
    (steps : List (Step ι)) (hm : Run.Meets (Watched.next fd) (AtMost N) steps (Watched.new fd)) :
    Run.Meets (Watched.next fd) (Reports fd) steps (Watched.new fd) ∧
      Run.Throughout (Watched.next fd) (Bounded N) steps (Watched.new fd) := by
  have hC : ∀ (s : Watched ι) (a : Step ι) (s' : Watched ι), Inv fd N s → s.next fd a s' → AtMost N s a →
      Inv fd N s' := fun _ _ _ h hn hc => h.next hfd hN hn hc
  have hD : ∀ (s : Watched ι) (a : Step ι) (s' : Watched ι), Inv fd N s → s.next fd a s' → Reports fd s a :=
    fun _ _ _ h hn => h.reports hfd hN hn
  have hI : ∀ s : Watched ι, Inv fd N s → Bounded N s := fun _ h => h.bounded hN
  exact ⟨Run.meets_of_inv hC hD steps _ (new_inv fd N) hm, Run.throughout_of_meets hI hC steps _ (new_inv fd N) hm⟩

/-! ### One channel too many -/

theorem reaches_updates {ops : List (EPollPoller.Op ι)} : ∀ {s : Watched ι} {poller : EPollPoller ι},
    Outcome.runAll EPollPoller.Op.exec ops s.polling.poller = ok poller →
      Run.Reaches (Watched.next fd) (ops.map .update) s ⟨{ s.polling with poller }, s.missed⟩ := by
  induction ops with
  | nil =>
    intro s poller e
    obtain rfl := Outcome.ok.inj e
    rfl
  | cons op ops ih =>
    intro s poller e
    obtain ⟨p₁, e₁, e⟩ := Outcome.eq_ok_of_andThen e
    exact ⟨⟨{ s.polling with poller := p₁ }, s.missed⟩, ⟨p₁, e₁, rfl⟩, ih e⟩

def fd17 (i : Fin 17) : Int := i.val

def enableAll : List (EPollPoller.Op (Fin 17)) := (List.finRange 17).map fun i => .change i .enableReading

/-- Reading is enabled for 17 channels. -/
def registered : Watched (Fin 17) :=
  ⟨⟨(Outcome.runAll EPollPoller.Op.exec enableAll (.new fd17)).state, 16, fun _ => 0⟩, 0⟩

/-- All of them can be read. -/
def readable (fd : Int) : Option UInt32 := if 0 ≤ fd ∧ fd < 17 then some 1 else none

def readableEvents : List (Int × UInt32 × UInt32 × Fin 17) :=
  (List.finRange 17).map fun i => (fd17 i, 1, KReadEvent, i)

/-- `events_` has room for 16, and for 32 after that. -/
def grown : Watched (Fin 17) := ⟨(registered.polling.poll (some (entries (readableEvents.take 16)))).2, 1⟩

theorem waited_readable {maxEvents : Int} {evs : List (Int × UInt32 × UInt32 × Fin 17)}
    (hs : evs <+: readableEvents) (hn : (evs.length : Int) ≤ maxEvents)
    (hall : (evs.length : Int) < maxEvents → evs = readableEvents) (hpos : 0 < maxEvents) :
    Epoll.Waited maxEvents readable registered.polling.poller.interest evs := by
  have hsound : ∀ e ∈ readableEvents, readable e.1 = some e.2.1 ∧
      registered.polling.poller.interest e.1 = some e.2.2 := by decide +kernel
  have hcomplete : ∀ i : Fin 17, ∀ b a, readable (fd17 i) = some b →
      registered.polling.poller.interest (fd17 i) = some a → (fd17 i, b, a) ∈ readableEvents := by
    intro i b a hb ha
    have hmem : (fd17 i, 1, KReadEvent, i) ∈ readableEvents := List.mem_map_of_mem (List.mem_finRange i)
    obtain ⟨hr, hi⟩ := hsound _ hmem
    obtain rfl := Option.some.inj (hb.symm.trans hr)
    obtain rfl := Option.some.inj (ha.symm.trans hi)
    exact hmem
  refine ⟨hpos, ?_, hn, fun hm => hsound _ (hs.subset hm), fun {x b a} hlt hb ha => ?_⟩
  · have hd : (readableEvents.map Prod.fst).Nodup := by decide
    exact hd.sublist (hs.sublist.map Prod.fst)
  · rw [hall hlt]
    have hx : 0 ≤ x ∧ x < 17 := by
      by_contra hx
      rw [readable, if_neg hx] at hb
      cases hb
    obtain ⟨i, rfl⟩ : ∃ i : Fin 17, fd17 i = x := ⟨⟨x.toNat, by omega⟩, Int.toNat_of_nonneg hx.1⟩
    exact hcomplete i b a hb ha

theorem polls_report_and_rarely_miss_grown :
    Misses fd17 registered.polling readable (readableEvents.take 16) ∧
      Reports fd17 registered (.poll readable (some (readableEvents.take 16))) ∧
      ¬ Misses fd17 grown.polling readable readableEvents ∧
      Reports fd17 grown (.poll readable (some readableEvents)) ∧ Bounded 17 grown := by
  have hfd : Function.Injective fd17 := fun i j h => Fin.ext (Int.ofNat.inj h)
  have hmost : ∀ (s : Watched (Fin 17)) (a : Step (Fin 17)), AtMost 17 s a := fun s a is hd _ => by
    simpa using hd.length_le_card
  have hmissed : Misses fd17 registered.polling readable (readableEvents.take 16) :=
    ⟨16, by decide +kernel, by decide, by decide +kernel⟩
  have hfound : ¬ Misses fd17 grown.polling readable readableEvents := by
    rintro ⟨i, -, -, hn⟩
    revert i
    decide +kernel
  have hmax : maxEvents 16 = 16 ∧ maxEvents 32 = 32 := by decide
  obtain ⟨hreports, hbounded⟩ := polls_report_and_rarely_miss fd17 hfd (by decide)
    (enableAll.map .update ++ [.poll readable (some (readableEvents.take 16)), .poll readable (some readableEvents)])
    (Run.meets_of_forall hmost _ _)
  have hreach : Run.Reaches (Watched.next fd17) (enableAll.map .update) (Watched.new fd17) registered :=
    reaches_updates rfl
  have hfirst : registered.next fd17 (.poll readable (some (readableEvents.take 16))) grown := by
    refine ⟨?_, rfl, .inl ⟨hmissed, rfl⟩⟩
    show Epoll.Waited (maxEvents 16) _ _ _
    rw [hmax.1]
    exact waited_readable (List.take_prefix ..) (by decide) (fun h => absurd h (by decide)) (by decide)
  have hsecond : grown.next fd17 (.poll readable (some readableEvents))
      ⟨(grown.polling.poll (some (entries readableEvents))).2, 1⟩ := by
    refine ⟨?_, rfl, .inr ⟨hfound, rfl⟩⟩
    show Epoll.Waited (maxEvents 32) _ _ _
    rw [hmax.2]
    exact waited_readable (List.prefix_refl _) (by decide) (fun _ => rfl) (by decide)
  obtain ⟨hr₁, hr⟩ := (hreports.after hreach) grown hfirst
  exact ⟨hmissed, hr₁, hfound, (hr _ hsecond).1, ((hbounded.after hreach).2 grown hfirst).head⟩

end Polling

end Mudou.Src
