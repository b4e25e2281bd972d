import Mudou.Lib.Epoll
import Mudou.Lib.Outcome
import Mudou.Lib.Run

/-!
# The poller of `src/src`

`Channel` and `EPollPoller` of `src/src`, with the interest set of `epollfd_`.
`updateChannel` adds a channel that is not registered; of one that is, it
deletes the registration if the mask is `KReadEvent`, and changes the mask
otherwise.

`index`, the map and the interest set agree in every run (`Sound`). But a
channel with a mask is registered, and one without is not, only as long as no
update of a registered channel leaves it `KReadEvent`, and none leaves a
channel without a mask (`inStep_iff_picksUpdate`).
-/

namespace Mudou.Src

open Outcome (ok stopped)

def kNew : Int := -1
def kAdded : Int := 1
def kDeleted : Int := 2

def KNoneEvent : UInt32 := 0
/-- `EPOLLIN | EPOLLPRI` -/
def KReadEvent : UInt32 := 1 ||| 2
/-- `EPOLLOUT` -/
def KWriteEvent : UInt32 := 4

structure Channel where
  fd : Int
  events : UInt32
  index : Int

def Channel.new (fd : Int) : Channel := ⟨fd, KNoneEvent, kNew⟩

def Channel.isKReadEvent (c : Channel) : Bool := c.events == KReadEvent

/-- The functions that change the mask. -/
inductive Change where
  | enableReading
  | disableReading
  | enableWriting
  | disableWriting
  | disableAll

def Change.apply : Change → UInt32 → UInt32
  | .enableReading, events => events ||| KReadEvent
  | .disableReading, events => events &&& ~~~KReadEvent
  | .enableWriting, events => events ||| KWriteEvent
  | .disableWriting, events => events &&& ~~~KWriteEvent
  | .disableAll, _ => KNoneEvent

/-- The poller and the channels `ι` of its loop. -/
structure EPollPoller (ι : Type) where
  channels : Int → Option ι
  channel : ι → Channel
  /-- the interest set: a mask and the channel in `data.ptr` -/
  interest : Int → Option (UInt32 × ι)
  /-- whether an `epoll_ctl` has failed -/
  failed : Bool

namespace EPollPoller

variable {ι : Type} [DecidableEq ι]

def new (fd : ι → Int) : EPollPoller ι where
  channels _ := none
  channel i := Channel.new (fd i)
  interest _ := none
  failed := false

def setChannel (p : EPollPoller ι) (i : ι) (c : Channel) : EPollPoller ι :=
  { p with channel := Function.update p.channel i c }

def setIndex (p : EPollPoller ι) (i : ι) (index : Int) : EPollPoller ι :=
  p.setChannel i { p.channel i with index }

/-- A failed `EPOLL_CTL_DEL` is logged; any other ends the process. -/
def update (op : Epoll.Op) (i : ι) (p : EPollPoller ι) : Outcome (EPollPoller ι) :=
  let c := p.channel i
  match Epoll.ctl op true c.fd (c.events, i) p.interest with
  | some interest => ok { p with interest }
  | none => if op = .del then ok { p with failed := true } else stopped { p with failed := true }

def updateChannel (i : ι) (p : EPollPoller ι) : Outcome (EPollPoller ι) :=
  let c := p.channel i
  if c.index = kNew ∨ c.index = kDeleted then
    let p := if c.index = kNew then { p with channels := Function.update p.channels c.fd (some i) } else p
    (p.setIndex i kAdded).update .add i
  else if c.isKReadEvent then (p.update .del i).andThen fun p => ok (p.setIndex i kDeleted)
  else p.update .mod i

def removeChannel (i : ι) (p : EPollPoller ι) : Outcome (EPollPoller ι) :=
  let c := p.channel i
  let p := { p with channels := Function.update p.channels c.fd none }
  (if c.index = kAdded then p.update .del i else ok p).andThen fun p => ok (p.setIndex i kNew)

/-- A change of a channel's mask with the `updateChannel` after it, or a
`removeChannel`. -/
inductive Op (ι : Type) where
  | change (i : ι) (c : Change)
  | removeChannel (i : ι)

def Op.exec : Op ι → EPollPoller ι → Outcome (EPollPoller ι)
  | .change i c, p =>
    let d := p.channel i
    (p.setChannel i { d with events := c.apply d.events }).updateChannel i
  | .removeChannel i, p => p.removeChannel i

/-- The poller, and the channels removed since their last change. -/
structure Observed (ι : Type) where
  poller : EPollPoller ι
  removed : ι → Bool

def Op.removed (o : Observed ι) : Op ι → ι → Bool
  | .change i _ => Function.update o.removed i false
  | .removeChannel i => Function.update o.removed i true

def Observed.new (fd : ι → Int) : Observed ι := ⟨EPollPoller.new fd, fun _ => false⟩

def Observed.next (o : Observed ι) (op : Op ι) (o' : Observed ι) : Prop :=
  o' = ⟨(op.exec o.poller).state, op.removed o⟩

/-- The interest set is in step with the channels. -/
structure InStep (fd : ι → Int) (o : Observed ι) : Prop where
  registered (i) : o.poller.interest (fd i) ≠ none ↔
    (o.poller.channel i).events ≠ KNoneEvent ∧ o.removed i = false
  mask {i e} : o.poller.interest (fd i) = some e → e = ((o.poller.channel i).events, i)
  added (i) : (o.poller.channel i).index = kAdded ↔ o.poller.interest (fd i) ≠ none
  deleted (i) : (o.poller.channel i).index = kDeleted ↔
    o.poller.channels (fd i) ≠ none ∧ o.poller.interest (fd i) = none
  new (i) : (o.poller.channel i).index = kNew ↔ o.poller.channels (fd i) = none
  failed : o.poller.failed = false

/-- The change leaves a mask, and one that `updateChannel` does not take for
none. -/
def PicksUpdate (o : Observed ι) (op : Op ι) : Prop :=
  ∀ i c, op = .change i c → c.apply (o.poller.channel i).events ≠ KNoneEvent ∧
    ((o.poller.channel i).index = kAdded → c.apply (o.poller.channel i).events ≠ KReadEvent)

/-! ## What the poller knows of a channel -/

/-- A channel is new, added or deleted, and the map and the interest set agree. -/
structure Sound (fd : ι → Int) (p : EPollPoller ι) : Prop where
  descriptor (i) : (p.channel i).fd = fd i
  state (i) :
    (p.channel i).index = kNew ∧ p.channels (fd i) = none ∧ p.interest (fd i) = none ∨
    (p.channel i).index = kAdded ∧ p.channels (fd i) = some i ∧
      p.interest (fd i) = some ((p.channel i).events, i) ∨
    (p.channel i).index = kDeleted ∧ p.channels (fd i) = some i ∧ p.interest (fd i) = none
  failed : p.failed = false

/-- `p` with the channel `i` and what is known of it replaced. -/
def placed (p : EPollPoller ι) (i : ι) (c : Channel) (known : Option ι) (e : Option (UInt32 × ι)) :
    EPollPoller ι where
  channels := Function.update p.channels c.fd known
  channel := Function.update p.channel i c
  interest := Function.update p.interest c.fd e
  failed := p.failed

variable {fd : ι → Int} {p : EPollPoller ι} {i : ι}

omit [DecidableEq ι] in
theorem new_sound (fd : ι → Int) : Sound fd (new fd) := ⟨fun _ => rfl, fun _ => .inl ⟨rfl, rfl, rfl⟩, rfl⟩

omit [DecidableEq ι] in
theorem Sound.interest_iff (h : Sound fd p) (i : ι) :
    p.interest (fd i) ≠ none ↔ (p.channel i).index = kAdded := by
  rcases h.state i with ⟨e, _, hi⟩ | ⟨e, _, hi⟩ | ⟨e, _, hi⟩
  · rw [e, hi]
    exact iff_of_false (fun hn => hn rfl) (by decide)
  · rw [e, hi]
    exact iff_of_true (Option.some_ne_none _) rfl
  · rw [e, hi]
    exact iff_of_false (fun hn => hn rfl) (by decide)

/-- What an operation on `i` leaves as it was. -/
theorem placed_of_ne (hfd : Function.Injective fd) {j : ι} (hj : j ≠ i) {c : Channel} (hc : c.fd = fd i)
    (known : Option ι) (e : Option (UInt32 × ι)) :
    (p.placed i c known e).channel j = p.channel j ∧ (p.placed i c known e).channels (fd j) = p.channels (fd j) ∧
      (p.placed i c known e).interest (fd j) = p.interest (fd j) := by
  have hne : fd j ≠ c.fd := fun he => hj (hfd (he.trans hc))
  exact ⟨Function.update_of_ne hj .., Function.update_of_ne hne .., Function.update_of_ne hne ..⟩

theorem placed_self (p : EPollPoller ι) (i : ι) {c : Channel} (hc : c.fd = fd i) (known : Option ι)
    (e : Option (UInt32 × ι)) : (p.placed i c known e).channel i = c ∧
      (p.placed i c known e).channels (fd i) = known ∧ (p.placed i c known e).interest (fd i) = e := by
  rw [← hc]
  exact ⟨Function.update_self .., Function.update_self .., Function.update_self ..⟩

theorem Sound.placed (h : Sound fd p) (hfd : Function.Injective fd) {c : Channel} (hc : c.fd = fd i)
    {known : Option ι} {e : Option (UInt32 × ι)}
    (hs : c.index = kNew ∧ known = none ∧ e = none ∨ c.index = kAdded ∧ known = some i ∧ e = some (c.events, i) ∨
      c.index = kDeleted ∧ known = some i ∧ e = none) : Sound fd (p.placed i c known e) := by
  refine ⟨fun j => ?_, fun j => ?_, h.failed⟩
  all_goals by_cases hj : j = i
  · subst hj
    rw [(placed_self p j hc known e).1, hc]
  · rw [(placed_of_ne hfd hj hc known e).1]
    exact h.descriptor j
  · subst hj
    obtain ⟨h₁, h₂, h₃⟩ := placed_self p j hc known e
    rw [h₁, h₂, h₃]
    exact hs
  · obtain ⟨h₁, h₂, h₃⟩ := placed_of_ne (p := p) hfd hj hc known e
    rw [h₁, h₂, h₃]
    exact h.state j

/-! ## One operation -/

omit [DecidableEq ι] in
theorem update_add (h : p.interest (p.channel i).fd = none) : p.update .add i =
    ok { p with interest := Function.update p.interest (p.channel i).fd (some ((p.channel i).events, i)) } := by
  simp only [update, Epoll.ctl_add h]

omit [DecidableEq ι] in
theorem update_mod (h : p.interest (p.channel i).fd ≠ none) : p.update .mod i =
    ok { p with interest := Function.update p.interest (p.channel i).fd (some ((p.channel i).events, i)) } := by
  simp only [update, Epoll.ctl_mod h]

omit [DecidableEq ι] in
theorem update_del (h : p.interest (p.channel i).fd ≠ none) : p.update .del i =
    ok { p with interest := Function.update p.interest (p.channel i).fd none } := by
  simp only [update, Epoll.ctl_del h]

/-- The channel with its mask changed. -/
theorem channel_setChannel (p : EPollPoller ι) (i : ι) (c : Channel) : (p.setChannel i c).channel i = c :=
  Function.update_self ..

theorem setIndex_setChannel (p : EPollPoller ι) (i : ι) (c : Channel) (index : Int) :
    (p.setChannel i c).setIndex i index = p.setChannel i { c with index } := by
  rw [setIndex, channel_setChannel, setChannel, setChannel, setChannel]
  simp only [Function.update_idem]

/-- Registering and changing the mask of a channel leave it `placed`. -/
theorem placed_eq (p : EPollPoller ι) (i : ι) (c : Channel) {known : Option ι} (hk : p.channels c.fd = known)
    (e : Option (UInt32 × ι)) : p.placed i c known e =
      { p.setChannel i c with interest := Function.update p.interest c.fd e } := by
  rw [placed, ← hk, Function.update_eq_self]
  rfl

theorem update_add_setChannel {c : Channel} (hk : p.channels c.fd = some i) (hn : p.interest c.fd = none) :
    (p.setChannel i c).update .add i = ok (p.placed i c (some i) (some (c.events, i))) := by
  rw [update_add, channel_setChannel, placed_eq p i c hk]
  · rfl
  · rw [channel_setChannel]
    exact hn

theorem exec_change_of_ne (h : Sound fd p) {c : Change} (hi : (p.channel i).index ≠ kAdded) :
    (Op.change i c).exec p = ok (p.placed i ⟨fd i, c.apply (p.channel i).events, kAdded⟩ (some i)
      (some (c.apply (p.channel i).events, i))) := by
  have hfd := h.descriptor i
  rw [Op.exec, updateChannel]
  simp only [channel_setChannel, hfd]
  rcases h.state i with ⟨e, hc, hn⟩ | ⟨e, _, _⟩ | ⟨e, hc, hn⟩
  · rw [if_pos (.inl e), if_pos e]
    show ((setChannel { p with channels := Function.update p.channels (fd i) (some i) } i _).setIndex i kAdded).update
      .add i = _
    rw [setIndex_setChannel, update_add_setChannel (Function.update_self ..) hn, placed, placed]
    simp only [Function.update_idem]
  · exact absurd e hi
  · rw [if_pos (.inr e), if_neg (by rw [e]; decide), setIndex_setChannel]
    exact update_add_setChannel hc hn

omit [DecidableEq ι] in
theorem Sound.of_added (h : Sound fd p) (hi : (p.channel i).index = kAdded) :
    p.channels (fd i) = some i ∧ p.interest (fd i) ≠ none := by
  refine ⟨?_, (h.interest_iff i).mpr hi⟩
  rcases h.state i with ⟨e, _, _⟩ | ⟨_, hc, _⟩ | ⟨e, _, _⟩
  · exact absurd (hi.symm.trans e) (by decide)
  · exact hc
  · exact absurd (hi.symm.trans e) (by decide)

theorem exec_change_read (h : Sound fd p) {c : Change} (hi : (p.channel i).index = kAdded)
    (hm : c.apply (p.channel i).events = KReadEvent) :
    (Op.change i c).exec p = ok (p.placed i ⟨fd i, KReadEvent, kDeleted⟩ (some i) none) := by
  obtain ⟨hc, hn⟩ := h.of_added hi
  rw [Op.exec, updateChannel]
  simp only [channel_setChannel, h.descriptor i, hm, hi, Channel.isKReadEvent]
  rw [if_neg (by decide), if_pos (show (KReadEvent == KReadEvent) = true from rfl), update_del]
  · show ok (EPollPoller.setIndex _ i kDeleted) = _
    rw [placed_eq p i ⟨fd i, KReadEvent, kDeleted⟩ hc, channel_setChannel]
    show ok { (p.setChannel i ⟨fd i, KReadEvent, kAdded⟩).setIndex i kDeleted with
      interest := Function.update p.interest (fd i) none } = _
    rw [setIndex_setChannel]
  · rw [channel_setChannel]
    exact hn

theorem exec_change_of_ne_read (h : Sound fd p) {c : Change} (hi : (p.channel i).index = kAdded)
    (hm : c.apply (p.channel i).events ≠ KReadEvent) :
    (Op.change i c).exec p = ok (p.placed i ⟨fd i, c.apply (p.channel i).events, kAdded⟩ (some i)
      (some (c.apply (p.channel i).events, i))) := by
  obtain ⟨hc, hn⟩ := h.of_added hi
  rw [Op.exec, updateChannel]
  simp only [channel_setChannel, h.descriptor i, hi, Channel.isKReadEvent]
  rw [if_neg (by decide), if_neg (show ¬ (c.apply (p.channel i).events == KReadEvent) = true by simpa using hm),
    update_mod, channel_setChannel]
  · rw [placed_eq p i ⟨fd i, c.apply (p.channel i).events, kAdded⟩ hc]
    rfl
  · rw [channel_setChannel]
    exact hn

theorem exec_removeChannel (h : Sound fd p) (i : ι) :
    (Op.removeChannel i).exec p = ok (p.placed i ⟨fd i, (p.channel i).events, kNew⟩ none none) := by
  rw [Op.exec, removeChannel]
  simp only [h.descriptor i]
  by_cases hi : (p.channel i).index = kAdded
  · rw [if_pos hi, update_del]
    · show ok (EPollPoller.setIndex _ i kNew) = _
      rw [h.descriptor i, placed, setIndex, setChannel]
      simp only [h.descriptor i]
    · show p.interest (p.channel i).fd ≠ none
      rw [h.descriptor i]
      exact (h.of_added hi).2
  · rw [if_neg hi]
    have hn : p.interest (fd i) = none := not_not.mp fun hn => hi ((h.interest_iff i).mp hn)
    show ok (EPollPoller.setIndex _ i kNew) = _
    rw [placed, setIndex, setChannel]
    simp only [h.descriptor i]
    rw [← hn, Function.update_eq_self]

theorem Sound.exec (h : Sound fd p) (hfd : Function.Injective fd) (op : Op ι) : Sound fd (op.exec p).state := by
  cases op with
  | change i c =>
    by_cases hi : (p.channel i).index = kAdded
    · by_cases hm : c.apply (p.channel i).events = KReadEvent
      · rw [exec_change_read h hi hm]
        exact h.placed hfd rfl (.inr (.inr ⟨rfl, rfl, rfl⟩))
      · rw [exec_change_of_ne_read h hi hm]
        exact h.placed hfd rfl (.inr (.inl ⟨rfl, rfl, rfl⟩))
    · rw [exec_change_of_ne h hi]
      exact h.placed hfd rfl (.inr (.inl ⟨rfl, rfl, rfl⟩))
  | removeChannel i =>
    rw [exec_removeChannel h i]
    exact h.placed hfd rfl (.inl ⟨rfl, rfl, rfl⟩)

/-! ## Runs -/

variable {o o' : Observed ι}

/-- Registered are the channels with a mask that were not removed. -/
def MaskKept (o : Observed ι) (i : ι) : Prop :=
  (o.poller.channel i).index = kAdded ↔ (o.poller.channel i).events ≠ KNoneEvent ∧ o.removed i = false

omit [DecidableEq ι] in
theorem inStep_iff (h : Sound fd o.poller) : InStep fd o ↔ ∀ i, MaskKept o i := by
  refine ⟨fun hs i => (hs.added i).trans (hs.registered i), fun hk => ?_⟩
  refine ⟨fun i => (h.interest_iff i).trans (hk i), fun {i e} he => ?_, fun i => (h.interest_iff i).symm,
    fun i => ?_, fun i => ?_, h.failed⟩
  all_goals rcases h.state i with ⟨e, hc, hi⟩ | ⟨e, hc, hi⟩ | ⟨e, hc, hi⟩
  · exact (Option.some_ne_none _ (he.symm.trans hi)).elim
  · exact Option.some.inj (he.symm.trans hi)
  · exact (Option.some_ne_none _ (he.symm.trans hi)).elim
  · rw [e, hc]
    exact iff_of_false (by decide) fun hn => hn.1 rfl
  · rw [e, hi]
    exact iff_of_false (by decide) fun hn => Option.some_ne_none _ hn.2
  · rw [e, hc, hi]
    exact iff_of_true rfl ⟨Option.some_ne_none _, rfl⟩
  · rw [e, hc]
    exact iff_of_true rfl rfl
  · rw [e, hc]
    exact iff_of_false (by decide) (Option.some_ne_none _)
  · rw [e, hc]
    exact iff_of_false (by decide) (Option.some_ne_none _)

/-- An operation on one channel leaves the others. -/
theorem maskKept_of_ne {j : ι} (hj : j ≠ i) (hk : MaskKept o j) {c : Channel} {known : Option ι}
    {e : Option (UInt32 × ι)} {b : Bool} :
    MaskKept ⟨o.poller.placed i c known e, Function.update o.removed i b⟩ j := by
  have hc : (o.poller.placed i c known e).channel j = o.poller.channel j := Function.update_of_ne hj ..
  rw [MaskKept]
  simp only [hc, Function.update_of_ne hj]
  exact hk

theorem maskKept_self {c : Channel} {known : Option ι} {e : Option (UInt32 × ι)} {b : Bool} :
    MaskKept ⟨o.poller.placed i c known e, Function.update o.removed i b⟩ i ↔
      (c.index = kAdded ↔ c.events ≠ KNoneEvent ∧ b = false) := by
  have hc : (o.poller.placed i c known e).channel i = c := Function.update_self ..
  rw [MaskKept]
  simp only [hc, Function.update_self]

theorem maskKept_next (h : Sound fd o.poller) (hk : ∀ i, MaskKept o i) {op : Op ι} (hn : o.next op o')
    (hp : PicksUpdate o op) (j : ι) : MaskKept o' j := by
  subst hn
  cases op with
  | change i c =>
    obtain ⟨h₀, hr⟩ := hp i c rfl
    have he : ((Op.change i c).exec o.poller).state = o.poller.placed i
        ⟨fd i, c.apply (o.poller.channel i).events, kAdded⟩ (some i)
        (some (c.apply (o.poller.channel i).events, i)) := by
      by_cases hi : (o.poller.channel i).index = kAdded
      · rw [exec_change_of_ne_read h hi (hr hi)]
        rfl
      · rw [exec_change_of_ne h hi]
        rfl
    rw [he]
    by_cases hj : j = i
    · subst hj
      exact maskKept_self.mpr (iff_of_true rfl ⟨h₀, rfl⟩)
    · exact maskKept_of_ne hj (hk j)
  | removeChannel i =>
    rw [exec_removeChannel h i]
    by_cases hj : j = i
    · subst hj
      exact maskKept_self.mpr (iff_of_false (by decide : kNew ≠ kAdded) fun hn => Bool.noConfusion hn.2)
    · exact maskKept_of_ne hj (hk j)

/-- An update that deletes the registration, or leaves one without a mask. -/
theorem picksUpdate_of_maskKept (h : Sound fd o.poller) {op : Op ι} (hn : o.next op o')
    (hk : ∀ i, MaskKept o' i) : PicksUpdate o op := by
  rintro i c rfl
  obtain rfl := hn
  have hk := hk i
  by_cases hi : (o.poller.channel i).index = kAdded
  · by_cases hm : c.apply (o.poller.channel i).events = KReadEvent
    · rw [exec_change_read h hi hm] at hk
      have hd := (maskKept_self.mp hk).mpr ⟨(by decide : KReadEvent ≠ KNoneEvent), rfl⟩
      exact absurd hd (by decide : kDeleted ≠ kAdded)
    · rw [exec_change_of_ne_read h hi hm] at hk
      exact ⟨((maskKept_self.mp hk).mp rfl).1, fun _ => hm⟩
  · rw [exec_change_of_ne h hi] at hk
    exact ⟨((maskKept_self.mp hk).mp rfl).1, fun ha => absurd ha hi⟩

/-- Over every run of the poller with channels of distinct descriptors, the
interest set is in step with them if and only if each change leaves a mask,
and not `KReadEvent` on a registered channel. -/
theorem inStep_iff_picksUpdate (fd : ι → Int) (hfd : Function.Injective fd) (ops : List (Op ι)) :
    Run.Throughout Observed.next (InStep fd) ops (Observed.new fd) ↔
      Run.Meets Observed.next PicksUpdate ops (Observed.new fd) := by
  have hI : ∀ o : Observed ι, Sound fd o.poller ∧ (∀ i, MaskKept o i) → InStep fd o :=
    fun o h => (inStep_iff h.1).mpr h.2
  have hs : ∀ (o : Observed ι) (op : Op ι) (o' : Observed ι), Sound fd o.poller → o.next op o' →
      Sound fd o'.poller := by
    rintro o op o' h rfl
    exact h.exec hfd op
  have hC : ∀ (o : Observed ι) (op : Op ι) (o' : Observed ι), Sound fd o.poller ∧ (∀ i, MaskKept o i) →
      o.next op o' → PicksUpdate o op → Sound fd o'.poller ∧ ∀ i, MaskKept o' i :=
    fun o op o' h hn hp => ⟨hs o op o' h.1 hn, maskKept_next h.1 h.2 hn hp⟩
  have hP : ∀ (o : Observed ι) (op : Op ι) (o' : Observed ι), Sound fd o.poller ∧ (∀ i, MaskKept o i) →
      o.next op o' → InStep fd o' → PicksUpdate o op :=
    fun o op o' h hn hp => picksUpdate_of_maskKept h.1 hn ((inStep_iff (hs o op o' h.1 hn)).mp hp)
  refine Run.throughout_iff hI hC hP ops _ ⟨new_sound fd, fun i => ?_⟩
  exact iff_of_false (by decide : kNew ≠ kAdded) fun hn => hn.1 rfl

/-- Reading and writing enabled on one descriptor. -/
theorem inStep_iff_picksUpdate_readWrite : Run.Throughout Observed.next (InStep fun _ : Unit => 5)
    [.change () .enableReading, .change () .enableWriting] (Observed.new fun _ => 5) := by
  refine (inStep_iff_picksUpdate (fun _ : Unit => 5) (fun _ _ _ => rfl) _).mpr ?_
  rintro o rfl
  refine ⟨?_, ?_⟩
  · rintro i c he
    obtain ⟨rfl, rfl⟩ := Op.change.inj he
    exact ⟨by decide, fun ha => absurd ha (by decide)⟩
  · rintro o rfl
    refine ⟨?_, trivial⟩
    rintro i c he
    obtain ⟨rfl, rfl⟩ := Op.change.inj he
    exact ⟨by decide, fun _ => by decide⟩

/-- Reading enabled twice: the second update deletes the registration. -/
theorem enabledTwice_not_registered : ¬ ∀ ops : List (Op Unit),
    Run.Throughout Observed.next (InStep fun _ => 5) ops (Observed.new fun _ => 5) := by
  intro h
  obtain ⟨-, h⟩ := h [.change () .enableReading, .change () .enableReading]
  obtain ⟨-, h⟩ := h _ rfl
  have h : InStep (fun _ => 5) _ := h _ rfl
  exact (h.registered ()).mpr ⟨by decide, rfl⟩ rfl

end EPollPoller

end Mudou.Src
