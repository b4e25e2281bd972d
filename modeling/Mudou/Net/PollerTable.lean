import Mudou.Lib.Run
import Mudou.Net.Reactor

/-!
# The poller's table and the kernel

`_channels` mirrors the interest set (`Mirrored`) in every state of a run as
long as no channel of a released connection is updated, which would insert it
again, under a descriptor that is closed or another connection's
(`mirrored_iff`). `sendAfterShutdown_stale`: `ShutdownInLoop` runs on a released
connection, and `SendInLoop` then does not see that it was released.
-/

namespace Mudou

namespace Reactor

variable {ι κ ν : Type} {s t : Reactor ι κ ν}

open Connection (releasesRun Carried)
open Outcome (ok)

/-- `ch` is watched with its events, under its own descriptor, and no
connection that was released. -/
structure Registered (s : Reactor ι κ ν) (fd : Nat) (ch : Chan ι) : Prop where
  events : s.poller.interest fd = some (s.events ch)
  key : s.chanFd ch = fd
  file : s.files fd = some (.channel ch)
  alive {i} : ch = .conn i → ∃ c, s.conn i = some c ∧ releasesRun c.log = 0

/-- The table holds exactly the watched descriptors. -/
structure Mirrored (s : Reactor ι κ ν) : Prop where
  keys : ∀ fd, s.poller.channels fd = none ↔ s.poller.interest fd = none
  registered {fd ch} : s.poller.channels fd = some ch → Registered s fd ch

/-- `Poll` finds every descriptor, and an event goes to the channel whose
descriptor it is about. -/
def PollsOwn (s : Reactor ι κ ν) : Prop :=
  ∀ evs : List (Nat × REvents), (∀ ev ∈ evs, s.poller.interest ev.1 ≠ none) →
    ∃ active, s.poller.poll evs = some active ∧ active.map (fun a => (s.chanFd a.1, a.2)) = evs ∧
      ∀ a ∈ active, s.files (s.chanFd a.1) = some (.channel a.1)

/-- The sockets of the connections. -/
structure Sound (s : Reactor ι κ ν) : Prop where
  held {i c} : s.conn i = some c → c.socketOpen = true → s.files (s.fd i) = some (.channel (.conn i))
  closed {i c} : s.conn i = some c → (c.socketOpen = true ↔ releasesRun c.log = 0)

/-- The channel of a released connection is not updated, unless another
connection has its descriptor and is watched with the same events. -/
def SparesReleased (s : Reactor ι κ ν) : Op ι κ ν → Prop
  | .conn i op => ∀ c, s.conn i = some c → op.updates c = true → 0 < releasesRun c.log →
      s.poller.interest (s.fd i) = some (op.run c).state.channel.events
  | _ => True

theorem Mirrored.pollsOwn (h : Mirrored s) : PollsOwn s := by
  intro evs he
  induction evs with
  | nil => exact ⟨[], rfl, rfl, fun _ hm => absurd hm List.not_mem_nil⟩
  | cons ev evs ih =>
    obtain ⟨active, hp, hf, ho⟩ := ih fun ev hm => he ev (List.mem_cons_of_mem _ hm)
    have hk : s.poller.channels ev.1 ≠ none := fun hn => he ev List.mem_cons_self ((h.keys _).mp hn)
    obtain ⟨ch, hc⟩ := Option.ne_none_iff_exists'.mp hk
    refine ⟨(ch, ev.2) :: active, ?_, ?_, ?_⟩
    · rw [Poller.poll] at hp ⊢
      rw [List.mapM_cons, hc, hp]
      rfl
    · rw [List.map_cons, hf, (h.registered hc).key]
    · intro a hm
      rcases List.mem_cons.mp hm with rfl | hm
      · rw [(h.registered hc).key]
        exact (h.registered hc).file
      · exact ho a hm

theorem Sound.ne (h : Sound s) {fd : Nat} {i : ι} (hf : s.files fd ≠ some (.channel (.conn i)))
    {c : Connection κ ν} (hc : s.conn i = some c) (ho : c.socketOpen = true) : s.fd i ≠ fd :=
  fun e => hf (e ▸ h.held hc ho)

theorem Sound.withPoller (h : Sound s) (p : Poller ι) : Sound { s with poller := p } := ⟨h.held, h.closed⟩

theorem files_openFile (fd fd' : Nat) (f : File ι) (s : Reactor ι κ ν) :
    (s.openFile fd f).files fd' = if fd' = fd then some f else s.files fd' := Function.update_apply ..

theorem files_closeFile (fd fd' : Nat) (s : Reactor ι κ ν) :
    (s.closeFile fd).files fd' = if fd' = fd then none else s.files fd' := Function.update_apply ..

theorem Sound.openFile (h : Sound s) {fd : Nat} (hf : s.files fd = none) (f : File ι) :
    Sound (s.openFile fd f) := by
  refine ⟨fun {i c} hc ho => ?_, h.closed⟩
  have hne : s.fd i ≠ fd := h.ne (by rw [hf]; exact (Option.some_ne_none _).symm) hc ho
  show (s.openFile fd f).files (s.fd i) = _
  rw [files_openFile, if_neg hne]
  exact h.held hc ho

theorem Sound.closeFile (h : Sound s) {fd : Nat}
    (hf : ∀ i c, s.conn i = some c → c.socketOpen = true → s.fd i ≠ fd) : Sound (s.closeFile fd) := by
  refine ⟨fun {i c} hc ho => ?_, h.closed⟩
  show (s.closeFile fd).files (s.fd i) = _
  rw [files_closeFile, if_neg (hf i c hc ho)]
  exact h.held hc ho

/-! ## The table -/

/-- A change of what the tables hold at `fd`, and of a channel that is
registered there or nowhere. -/
theorem Mirrored.change (h : Mirrored s) (fd : Nat) (ch₀ : Chan ι)
    (hat : ∀ fd', s.poller.channels fd' = some ch₀ → fd' = fd)
    (hp : ∀ fd', fd' ≠ fd → t.poller.channels fd' = s.poller.channels fd' ∧
      t.poller.interest fd' = s.poller.interest fd' ∧ t.files fd' = s.files fd')
    (hc : ∀ i, ch₀ ≠ .conn i → t.conn i = s.conn i ∧ t.fd i = s.fd i)
    (hk : t.poller.channels fd = none ↔ t.poller.interest fd = none)
    (hr : ∀ ch, t.poller.channels fd = some ch → Registered t fd ch) : Mirrored t := by
  refine ⟨fun fd' => ?_, fun {fd' ch} e => ?_⟩
  · by_cases hfd : fd' = fd
    · exact hfd ▸ hk
    · obtain ⟨h₁, h₂, _⟩ := hp fd' hfd
      rw [h₁, h₂]
      exact h.keys fd'
  · by_cases hfd : fd' = fd
    · exact hfd ▸ hr ch (hfd ▸ e)
    · obtain ⟨h₁, h₂, h₃⟩ := hp fd' hfd
      rw [h₁] at e
      have hne : ch₀ ≠ ch := fun he => hfd (hat fd' (he ▸ e))
      obtain ⟨he, hd, hf, ha⟩ := h.registered e
      cases ch with
      | own fd₀ => exact ⟨h₂.trans he, hd, h₃.trans hf, fun e => by cases e⟩
      | conn j =>
        obtain ⟨hj, hj'⟩ := hc j hne
        refine ⟨?_, hj'.trans hd, h₃.trans hf, fun {i} e => ?_⟩
        · rw [h₂, he, events, events, hj]
        · obtain rfl := Chan.conn.inj e
          rw [hj]
          exact ha rfl

theorem Mirrored.absent (h : Mirrored s) {fd : Nat} (hf : ∀ ch, s.files fd ≠ some (.channel ch)) :
    s.poller.channels fd = none :=
  Option.eq_none_iff_forall_ne_some.mpr fun ch e => hf ch (h.registered e).file

/-- An `Update` of a channel that holds its descriptor. -/
theorem Mirrored.updateEvent_eq (h : Mirrored s) {fd : Nat} {ch : Chan ι}
    (hf : s.files fd = some (.channel ch)) (e : UInt32) :
    s.poller.updateEvent (s.isOpen fd) fd ch e =
      ⟨Function.update s.poller.channels fd (some ch), Function.update s.poller.interest fd (some e)⟩ := by
  cases hc : s.poller.channels fd with
  | none =>
    have ho : s.isOpen fd = true := by rw [isOpen, hf]; rfl
    rw [ho, Poller.updateEvent_add hc ((h.keys fd).mp hc)]
  | some ch' =>
    have hs : some ch' = some ch := by simpa [hf] using (h.registered hc).file.symm
    have hn : s.poller.channels fd ≠ none := by rw [hc]; exact Option.some_ne_none _
    rw [Poller.updateEvent_mod hn (hn ∘ (h.keys fd).mpr), ← hs, ← hc, Function.update_eq_self]

theorem Mirrored.openFile (h : Mirrored s) {fd : Nat} (hf : s.files fd = none) (f : File ι) :
    Mirrored (s.openFile fd f) := by
  have ha : s.poller.channels fd = none := h.absent fun ch => by rw [hf]; exact (Option.some_ne_none _).symm
  refine h.change fd (.own fd) (fun fd' e => (h.registered e).key.symm) (fun fd' hne => ⟨rfl, rfl, ?_⟩)
    (fun _ _ => ⟨rfl, rfl⟩) (h.keys fd) fun ch e => ?_
  · rw [files_openFile, if_neg hne]
  · rw [show (s.openFile fd f).poller = s.poller from rfl, ha] at e
    cases e

theorem Mirrored.closeFile (h : Mirrored s) {fd : Nat} (ha : s.poller.channels fd = none) :
    Mirrored (s.closeFile fd) := by
  refine h.change fd (.own fd) (fun fd' e => (h.registered e).key.symm) (fun fd' hne => ⟨rfl, ?_, ?_⟩)
    (fun _ _ => ⟨rfl, rfl⟩) (iff_of_true ha ?_) fun ch e => ?_
  · exact Function.update_of_ne hne ..
  · rw [files_closeFile, if_neg hne]
  · exact Function.update_self ..
  · rw [show (s.closeFile fd).poller.channels = s.poller.channels from rfl, ha] at e
    cases e

theorem Mirrored.ownChannel (h : Mirrored s) {fd : Nat} (hf : s.files fd = none) :
    Mirrored ((s.openFile fd (.channel (.own fd))).update (.own fd)) := by
  have ho := h.openFile hf (.channel (.own fd))
  have hf' : (s.openFile fd (.channel (.own fd))).files fd = some (.channel (.own fd)) := by
    rw [files_openFile, if_pos rfl]
  have he : ((s.openFile fd (.channel (.own fd))).update (.own fd)).poller = _ := ho.updateEvent_eq hf' 1
  refine ho.change fd (.own fd) (fun fd' e => (ho.registered e).key.symm) (fun fd' hne => ?_)
    (fun _ _ => ⟨rfl, rfl⟩) ?_ fun ch e => ?_
  · rw [he]
    exact ⟨Function.update_of_ne hne .., Function.update_of_ne hne .., rfl⟩
  · rw [he]
    exact iff_of_false (by simp) (by simp)
  · rw [he] at e
    obtain rfl : .own fd = ch := by simpa using e
    refine ⟨?_, rfl, hf', fun e => by cases e⟩
    rw [he]
    exact Function.update_self ..

theorem new_sound : Sound (new : Reactor ι κ ν) :=
  ⟨fun h => (Option.some_ne_none _ h.symm).elim, fun h => (Option.some_ne_none _ h.symm).elim⟩

theorem new_mirrored : Mirrored (new : Reactor ι κ ν) :=
  ⟨fun _ => iff_of_true rfl rfl, fun h => (Option.some_ne_none _ h.symm).elim⟩

/-! ## One step -/

variable [DecidableEq ι]

def next (s : Reactor ι κ ν) (op : Op ι κ ν) (s' : Reactor ι κ ν) : Prop := op.exec s = ok s'

theorem Sound.setConn (h : Sound s) {i : ι} {c d : Connection κ ν} (hc : s.conn i = some c) (hd : Carried c d) :
    Sound (s.setConn i d) := by
  refine ⟨fun {j e} hj ho => ?_, fun {j e} hj => ?_⟩
  · rw [conn_setConn] at hj
    split at hj
    · next hji =>
      subst hji
      obtain rfl := Option.some.inj hj
      exact h.held hc (hd.socketOpen ▸ ho)
    · exact h.held hj ho
  · rw [conn_setConn] at hj
    split at hj
    · obtain rfl := Option.some.inj hj
      rw [hd.socketOpen, hd.released]
      exact h.closed hc
    · exact h.closed hj

theorem Sound.newConnection (h : Sound s) {i : ι} {fd : Nat} {c : Connection κ ν}
    (hf : s.files fd = none) (hc : c.socketOpen = true ↔ releasesRun c.log = 0) :
    Sound ({ s.openFile fd (.channel (.conn i)) with fd := Function.update s.fd i fd }.setConn i c) := by
  have ho := h.openFile hf (.channel (.conn i))
  refine ⟨fun {j d} hj hd => ?_, fun {j d} hj => ?_⟩
  · show (s.openFile fd (.channel (.conn i))).files (Function.update s.fd i fd j) = _
    rw [conn_setConn] at hj
    by_cases hji : j = i
    · rw [hji, Function.update_self, files_openFile, if_pos rfl]
    · rw [if_neg hji] at hj
      rw [Function.update_of_ne hji]
      exact ho.held hj hd
  · rw [conn_setConn] at hj
    split at hj
    · obtain rfl := Option.some.inj hj
      exact hc
    · exact h.closed hj

theorem Sound.releaseInLoop (h : Sound s) {i : ι} {c : Connection κ ν} (hc : s.conn i = some c) :
    Sound (if c.socketOpen then (s.setConn i c.beginRelease).closeFile (s.fd i)
      else s.setConn i c.beginRelease) := by
  obtain ⟨hs, hr, _⟩ := Connection.counts_beginRelease c
  have hb : Sound (s.setConn i c.beginRelease) := by
    refine ⟨fun {j d} hj ho => ?_, fun {j d} hj => ?_⟩
    · rw [conn_setConn] at hj
      split at hj
      · rw [← Option.some.inj hj, hs] at ho
        cases ho
      · exact h.held hj ho
    · rw [conn_setConn] at hj
      split at hj
      · rw [← Option.some.inj hj, hs, hr]
        exact iff_of_false Bool.noConfusion (Nat.succ_ne_zero _)
      · exact h.closed hj
  split
  · next ho =>
    refine hb.closeFile fun j d hj hd he => ?_
    have hf := hb.held hj hd
    change s.fd j = s.fd i at he
    change s.files (s.fd j) = _ at hf
    rw [he, h.held hc ho] at hf
    obtain rfl : i = j := by simpa using hf
    rw [conn_setConn, if_pos rfl] at hj
    rw [← Option.some.inj hj, hs] at hd
    cases hd
  · exact hb

theorem Sound.exec (h : Sound s) (op : Op ι κ ν) : Sound (op.exec s).state := by
  cases op with
  | openFile fd =>
    show Sound (if _ then _ else _)
    split
    · next hf => exact h.openFile hf _
    · exact h
  | closeFile fd =>
    show Sound (if _ then _ else _)
    split
    · next hf => exact h.closeFile fun i c hc ho => h.ne (by rw [hf]; simp) hc ho
    · exact h
  | ownChannel fd =>
    show Sound (if _ then _ else _)
    split
    · next hf => exact (h.openFile hf _).withPoller _
    · exact h
  | newConnection i fd connId onBaseLoop context timeout =>
    show Sound (if _ then _ else _)
    split
    · next hf => exact h.newConnection hf.2 (iff_of_true rfl rfl)
    · exact h
  | conn i op =>
    rw [Op.exec]
    split
    · exact h
    · next c hc =>
      rw [Outcome.state_map]
      have hd := h.setConn hc (op.carried_run c)
      split
      · exact hd.withPoller _
      · exact hd
  | releaseInLoop i =>
    rw [Op.exec]
    split
    · exact h
    · next c hc => exact (h.withPoller _).releaseInLoop hc

theorem events_setConn (i : ι) (c : Connection κ ν) (s : Reactor ι κ ν) :
    (s.setConn i c).events (.conn i) = c.channel.events := by
  rw [events, conn_setConn, if_pos rfl]
  rfl

theorem setConn_of_ne (c : Connection κ ν) (s : Reactor ι κ ν) {i j : ι} (h : Chan.conn i ≠ Chan.conn j) :
    (s.setConn i c).conn j = s.conn j ∧ (s.setConn i c).fd j = s.fd j := by
  rw [conn_setConn, if_neg fun e => h (by rw [e])]
  exact ⟨rfl, rfl⟩

theorem Mirrored.newConnection (h : Mirrored s) {i : ι} {fd : Nat} {c : Connection κ ν} (hi : s.conn i = none)
    (hf : s.files fd = none) :
    Mirrored ({ s.openFile fd (.channel (.conn i)) with fd := Function.update s.fd i fd }.setConn i c) := by
  have ha : s.poller.channels fd = none := h.absent fun ch => by rw [hf]; exact (Option.some_ne_none _).symm
  refine h.change fd (.conn i) (fun fd' e => ?_) (fun fd' hne => ⟨rfl, rfl, ?_⟩) (fun j hne => ⟨?_, ?_⟩)
    (h.keys fd) fun ch e => ?_
  · obtain ⟨c, hc, _⟩ := (h.registered e).alive rfl
    rw [hi] at hc
    cases hc
  · exact Function.update_of_ne hne ..
  · exact (setConn_of_ne c _ hne).1
  · exact Function.update_of_ne (fun e => hne (by rw [e])) ..
  · change s.poller.channels fd = some ch at e
    rw [ha] at e
    cases e

/-- A change of a connection that has its channel's events and is released as
it was, unless its channel is not in the table. -/
theorem Mirrored.setConn (h : Mirrored s) {i : ι} {d : Connection κ ν}
    (hd : s.poller.channels (s.fd i) = some (.conn i) →
      d.channel.events = s.events (.conn i) ∧ releasesRun d.log = 0) : Mirrored (s.setConn i d) := by
  refine h.change (s.fd i) (.conn i) (fun fd' e => (h.registered e).key.symm) (fun fd' hne => ⟨rfl, rfl, rfl⟩)
    (fun j hne => setConn_of_ne d s hne) (h.keys _) fun ch e => ?_
  obtain ⟨he, hk, hf, ha⟩ := h.registered e
  by_cases hch : ch = .conn i
  · subst hch
    obtain ⟨hev, hr⟩ := hd e
    refine ⟨?_, hk, hf, fun {j} e => ⟨d, ?_, hr⟩⟩
    · rw [events_setConn, hev]
      exact he
    · obtain rfl := Chan.conn.inj e
      rw [conn_setConn, if_pos rfl]
  · cases ch with
    | own fd => exact ⟨he, hk, hf, fun e => by cases e⟩
    | conn j =>
      have hj := (setConn_of_ne d s (Ne.symm hch)).1
      refine ⟨?_, hk, hf, fun {k} e => ?_⟩
      · rw [events, hj]
        exact he
      · obtain rfl := Chan.conn.inj e
        rw [hj]
        exact ha rfl

/-- An enabled or disabled event of a connection that was not released. -/
theorem Mirrored.update (h : Mirrored s) {i : ι} {d : Connection κ ν}
    (hf : s.files (s.fd i) = some (.channel (.conn i))) (hr : releasesRun d.log = 0) :
    Mirrored ((s.setConn i d).update (.conn i)) := by
  have he : ((s.setConn i d).update (.conn i)).poller = _ :=
    h.updateEvent_eq hf ((s.setConn i d).events (.conn i))
  refine h.change (s.fd i) (.conn i) (fun fd' e => (h.registered e).key.symm) (fun fd' hne => ?_)
    (fun j hne => setConn_of_ne d s hne) ?_ fun ch e => ?_
  · rw [he]
    exact ⟨Function.update_of_ne hne .., Function.update_of_ne hne .., rfl⟩
  · rw [he]
    exact iff_of_false (by simp) (by simp)
  · rw [he] at e
    obtain rfl : .conn i = ch := by simpa using e
    refine ⟨?_, rfl, hf, fun {j} e => ⟨d, ?_, hr⟩⟩
    · rw [he]
      exact Function.update_self ..
    · obtain rfl := Chan.conn.inj e
      exact (conn_setConn ..).trans (if_pos rfl)

theorem Mirrored.releaseInLoop (h : Mirrored s) {i : ι} {c : Connection κ ν} :
    Mirrored (if c.socketOpen then ((s.remove (.conn i)).setConn i c.beginRelease).closeFile (s.fd i)
      else (s.remove (.conn i)).setConn i c.beginRelease) := by
  have he : (s.remove (.conn i)).poller = _ := Poller.removeEvent_eq ..
  have hn : (s.remove (.conn i)).poller.channels (s.fd i) = none := by
    rw [he]
    exact Function.update_self ..
  have hm : Mirrored (s.remove (.conn i)) := by
    refine h.change (s.fd i) (.conn i) (fun fd' e => (h.registered e).key.symm) (fun fd' hne => ?_)
      (fun j hne => ⟨rfl, rfl⟩) ?_ fun ch e => ?_
    · rw [he]
      exact ⟨Function.update_of_ne hne .., Function.update_of_ne hne .., rfl⟩
    · refine iff_of_true hn ?_
      rw [he]
      exact Function.update_self ..
    · rw [hn] at e
      cases e
  have hs : Mirrored ((s.remove (.conn i)).setConn i c.beginRelease) :=
    hm.setConn fun e => (Option.some_ne_none _ (e.symm.trans hn)).elim
  split
  · exact hs.closeFile hn
  · exact hs

theorem next_conn {i : ι} {c : Connection κ ν} (hc : s.conn i = some c) {op : ConnOp κ ν}
    (hn : next s (.conn i op) t) : ∃ d, op.run c = ok d ∧
      t = if op.updates c then (s.setConn i d).update (.conn i) else s.setConn i d := by
  rw [next, Op.exec, hc] at hn
  simp only at hn
  cases hd : op.run c with
  | ok d =>
    rw [hd] at hn
    exact ⟨d, rfl, (Outcome.ok.inj hn).symm⟩
  | stopped d =>
    rw [hd] at hn
    cases hn

/-- An `Update` that asks for the events that are already watched. -/
theorem Mirrored.update_eq_self (h : Mirrored s) {i : ι} {d : Connection κ ν}
    (hi : s.poller.interest (s.fd i) = some d.channel.events) :
    (s.setConn i d).update (.conn i) = s.setConn i d := by
  have hn : s.poller.interest (s.fd i) ≠ none := by rw [hi]; exact Option.some_ne_none _
  have he : ((s.setConn i d).update (.conn i)).poller = s.poller := by
    refine (Poller.updateEvent_mod (hn ∘ (h.keys _).mp) hn ..).trans ?_
    rw [events_setConn, ← hi]
    show (⟨_, Function.update s.poller.interest (s.fd i) _⟩ : Poller ι) = _
    rw [Function.update_eq_self]
  rw [Reactor.update] at he ⊢
  simp only at he
  rw [he]
  rfl

theorem mirrored_exec (hs : Sound s) (hm : Mirrored s) {op : Op ι κ ν} (hn : next s op t)
    (hc : SparesReleased s op) : Mirrored t := by
  cases op with
  | openFile fd =>
    obtain rfl := Outcome.ok.inj hn
    split
    · next hf => exact hm.openFile hf _
    · exact hm
  | closeFile fd =>
    obtain rfl := Outcome.ok.inj hn
    split
    · next hf => exact hm.closeFile (hm.absent fun ch => by rw [hf]; simp)
    · exact hm
  | ownChannel fd =>
    obtain rfl := Outcome.ok.inj hn
    split
    · next hf => exact hm.ownChannel hf
    · exact hm
  | newConnection i fd connId onBaseLoop context timeout =>
    obtain rfl := Outcome.ok.inj hn
    split
    · next hf => exact hm.newConnection hf.1 hf.2
    · exact hm
  | conn i op =>
    cases hi : s.conn i with
    | none =>
      rw [next, Op.exec, hi] at hn
      exact Outcome.ok.inj hn ▸ hm
    | some c =>
      obtain ⟨d, hd, rfl⟩ := next_conn hi hn
      have hcar : Carried c d := by simpa [hd] using op.carried_run c
      have hset : op.updates c = false ∨ 0 < releasesRun c.log → Mirrored (s.setConn i d) := by
        refine fun hu => hm.setConn fun e => ?_
        obtain ⟨c', hc', hr⟩ := (hm.registered e).alive rfl
        obtain rfl : c = c' := by simpa [hi] using hc'
        have hch := op.channel_run (hu.resolve_right (by omega))
        rw [hd] at hch
        refine ⟨?_, hcar.released.trans hr⟩
        rw [events, hi]
        exact congrArg _ hch
      split
      · next hu =>
        by_cases hr : releasesRun c.log = 0
        · exact hm.update (hs.held hi ((hs.closed hi).mpr hr)) (hcar.released.trans hr)
        · have hw := hc c hi hu (Nat.pos_of_ne_zero hr)
          rw [hd] at hw
          rw [hm.update_eq_self (show _ = some d.channel.events from hw)]
          exact hset (.inr (Nat.pos_of_ne_zero hr))
      · next hu => exact hset (.inl (Bool.eq_false_iff.mpr hu))
  | releaseInLoop i =>
    cases hi : s.conn i with
    | none =>
      rw [next, Op.exec, hi] at hn
      exact Outcome.ok.inj hn ▸ hm
    | some c =>
      rw [next, Op.exec, hi] at hn
      exact Outcome.ok.inj hn ▸ hm.releaseInLoop

/-- The channel of a released connection is inserted, or its events go to the
descriptor's new owner. -/
theorem sparesReleased_of_mirrored (hm : Mirrored s) {op : Op ι κ ν} (hn : next s op t) (ht : Mirrored t) :
    SparesReleased s op := by
  cases op with
  | conn i op =>
    intro c hi hu hr
    obtain ⟨d, hd, e⟩ := next_conn hi hn
    rw [if_pos hu] at e
    have hcar : Carried c d := by simpa [hd] using op.carried_run c
    have hp : t.poller = s.poller.updateEvent (s.isOpen (s.fd i)) (s.fd i) (.conn i) d.channel.events := by
      rw [e, ← events_setConn i d s]
      rfl
    have hti : t.conn i = some d := by
      rw [e]
      exact (conn_setConn ..).trans (if_pos rfl)
    cases hk : s.poller.channels (s.fd i) with
    | none =>
      have htk : t.poller.channels (s.fd i) = some (.conn i) := by
        rw [hp, Poller.updateEvent_absent hk]
        exact Function.update_self ..
      obtain ⟨d', hd', hr'⟩ := (ht.registered htk).alive rfl
      rw [hti] at hd'
      have hcd := hcar.released
      rw [Option.some.inj hd'] at hcd
      omega
    | some ch =>
      have hne : s.poller.channels (s.fd i) ≠ none := by rw [hk]; exact Option.some_ne_none _
      rw [Poller.updateEvent_mod hne (hne ∘ (hm.keys _).mpr)] at hp
      have htk : t.poller.channels (s.fd i) = some ch := by rw [hp]; exact hk
      have hev := (ht.registered htk).events
      have hsame : t.events ch = s.events ch := by
        cases ch with
        | own fd => rfl
        | conn j =>
          have hij : Chan.conn i ≠ Chan.conn j := fun hij => by
            obtain ⟨c', hc', hr'⟩ := (hm.registered hk).alive hij.symm
            rw [hi] at hc'
            obtain rfl := Option.some.inj hc'
            omega
          have hj : t.conn j = s.conn j := by
            rw [e]
            exact (setConn_of_ne d s hij).1
          rw [events, events, hj]
      rw [hp, hsame] at hev
      rw [(hm.registered hk).events, hd]
      exact hev.symm.trans (Function.update_self ..)
  | openFile | closeFile | ownChannel | newConnection | releaseInLoop => trivial

/-! ## Runs -/

/-- Over every run, the table mirrors the kernel, and events reach only their
own channel, in every state, if and only if every step spares the channels of
released connections. -/
theorem mirrored_iff (ops : List (Op ι κ ν)) :
    Run.Throughout next (fun s => Mirrored s ∧ PollsOwn s) ops new ↔ Run.Meets next SparesReleased ops new := by
  have hI : ∀ s : Reactor ι κ ν, Sound s ∧ Mirrored s → Mirrored s ∧ PollsOwn s := fun _ h => ⟨h.2, h.2.pollsOwn⟩
  have hsound : ∀ (s : Reactor ι κ ν) (op : Op ι κ ν) (t : Reactor ι κ ν), Sound s → next s op t → Sound t := by
    intro s op t hs hn
    have h := hs.exec op
    rw [hn] at h
    exact h
  have hC : ∀ (s : Reactor ι κ ν) (op : Op ι κ ν) (t : Reactor ι κ ν), Sound s ∧ Mirrored s → next s op t →
      SparesReleased s op → Sound t ∧ Mirrored t :=
    fun s op t h hn hc => ⟨hsound s op t h.1 hn, mirrored_exec h.1 h.2 hn hc⟩
  have hP : ∀ (s : Reactor ι κ ν) (op : Op ι κ ν) (t : Reactor ι κ ν), Sound s ∧ Mirrored s → next s op t →
      Mirrored t ∧ PollsOwn t → SparesReleased s op :=
    fun _ _ _ h hn ht => sparesReleased_of_mirrored h.2 hn ht.1
  exact Run.throughout_iff hI hC hP ops new ⟨new_sound, new_mirrored⟩

theorem throughout_runAll {P : Reactor ι κ ν → Prop} {ops : List (Op ι κ ν)} (h : Run.Throughout next P ops s)
    (hr : Outcome.runAll Op.exec ops s = ok t) : P t := by
  induction ops generalizing s with
  | nil => exact Outcome.ok.inj hr ▸ h
  | cons op ops ih =>
    rw [Outcome.runAll] at hr
    cases e : op.exec s with
    | ok s' =>
      rw [e] at hr
      exact ih (h.2 s' e) hr
    | stopped s' =>
      rw [e] at hr
      cases hr

/-- A thread calls `Release`, `Shutdown` and `Send`; `ShutdownInLoop` makes the
status of the released connection such that `SendInLoop` enables writing. -/
def sendAfterShutdown : List (Op Nat Unit Unit) :=
  [.newConnection 0 5 1 false () none, .conn 0 .establishedInLoop, .releaseInLoop 0, .conn 0 .removeConnection,
    .conn 0 .beginShutdown, .conn 0 .endShutdown, .conn 0 (.sendInLoop (str "x"))]

theorem sendAfterShutdown_stale :
    ¬ ∀ ops : List (Op Nat Unit Unit), Run.Throughout next (fun s => Mirrored s ∧ PollsOwn s) ops new := by
  intro h
  have hm := (throughout_runAll (h sendAfterShutdown) rfl).1
  have hi : (Outcome.runAll Op.exec sendAfterShutdown new).state.poller.interest 5 = none := rfl
  have hc : (Outcome.runAll Op.exec sendAfterShutdown new).state.poller.channels 5 = some (.conn 0) := rfl
  have hk := (hm.keys 5).mpr hi
  exact Option.some_ne_none _ (hc.symm.trans hk)

end Reactor

end Mudou
