import Mudou.Lib.History
import Mudou.Lib.Run
import Mudou.Net.UserCode
import Mudou.Timer.Denotes

/-!
# The inactivity timer

The steps that touch the timer of a connection, in any order. What a callback
or a task asks for is a step of its own, after the one that runs it.

`Inactivity` is what was asked: whether inactivity release is enabled, and the
ticks since the last enable or event. The timer does just that
(`releasesAsAsked_of_renews`) as long as no enable finds the timer of an
earlier one, cancelled and not destroyed yet: it would refresh it and leave it
cancelled.

After `ReleaseInLoop` the timer is cancelled. It stays so
(`timerSilent_iff`) unless a later enable adds a new one.
-/

namespace Mudou

namespace Connection

variable {κ ν : Type}

open Outcome History TimerWheel

inductive TimerStep where
  | enableInactiveRelease (sec : UInt32)
  | cancelInactiveRelease
  | handleEvent
  | onTime
  | releaseInLoop

def TimerStep.exec : TimerStep → Callback κ ν
  | .enableInactiveRelease sec, c => c.enableInactiveReleaseInLoop sec
  | .cancelInactiveRelease, c => ok c.cancelInactiveReleaseInLoop
  | .handleEvent, c => c.handleEvent none
  | .onTime, c => ok (c.onTime 1)
  | .releaseInLoop, c => c.releaseInLoop none

def TimerStep.next (c : Connection κ ν) (a : TimerStep) (d : Connection κ ν) : Prop := a.exec c = ok d

/-! ## What was asked -/

structure Inactivity where
  enabled : Bool
  /-- the ticks since the last enable or event -/
  idle : Nat

def Inactivity.after (g : Inactivity) : TimerStep → Inactivity
  | .enableInactiveRelease _ => ⟨true, 0⟩
  | .cancelInactiveRelease => { g with enabled := false }
  | .handleEvent => { g with idle := 0 }
  | .onTime => { g with idle := g.idle + 1 }
  | .releaseInLoop => { g with enabled := false }

def inactivity (as : List TimerStep) : Inactivity := as.foldl Inactivity.after ⟨false, 0⟩

/-- The steps before the release, with one period. -/
def TimerStep.OfPeriod (s : UInt32) : TimerStep → Prop
  | .enableInactiveRelease sec => sec = s
  | .releaseInLoop => False
  | _ => True

/-- The timer has called `Release`. -/
def TimerReleased (c : Connection κ ν) : Prop := ∃ late, .release .timer late ∈ c.log

/-- Up to its first call of `Release`, the timer calls it at a tick exactly if
inactivity release is enabled and the period has passed. -/
def ReleasesAsAsked (s : UInt32) (as : List TimerStep) (c : Connection κ ν) : Prop :=
  ∀ pre, pre ++ [.onTime] <+: as → ∃ d, runAll TimerStep.exec pre c = ok d ∧
    (¬ d.TimerReleased →
      ((d.onTime 1).TimerReleased ↔ (inactivity pre).enabled = true ∧ (inactivity pre).idle + 1 = s.toNat))

/-- An enable finds inactivity release enabled already, or no timer. -/
def Renews (c : Connection κ ν) (a : TimerStep) : Prop :=
  ∀ sec, a = .enableInactiveRelease sec →
    c.enableInactiveRelease = true ∨ c.loop.timerWheel.hasTimer c.connId = false

/-! ## A tick -/

/-- `Release` called for each of `ran`. -/
def releaseAll (ran : List (TimerTask TaskFunc)) (c : Connection κ ν) : Connection κ ν :=
  ran.foldl (fun c t => match t.taskCb with | .release => c.release .timer) c

theorem onTime_one (c : Connection κ ν) : c.onTime 1 =
    releaseAll c.loop.timerWheel.runTimerTask.2 (c.setTimerWheel c.loop.timerWheel.runTimerTask.1) := by
  simp [Connection.onTime, TimerWheel.onTime, releaseAll]

theorem releaseAll_frame (ran : List (TimerTask TaskFunc)) : ∀ c : Connection κ ν,
    (releaseAll ran c).connId = c.connId ∧ (releaseAll ran c).enableInactiveRelease = c.enableInactiveRelease ∧
      (releaseAll ran c).loop.timerWheel = c.loop.timerWheel := by
  induction ran with
  | nil => exact fun _ => ⟨rfl, rfl, rfl⟩
  | cons t ran ih => exact fun c => ih (c.release .timer)

theorem mem_releaseAll (ran : List (TimerTask TaskFunc)) : ∀ (c : Connection κ ν) (e : Event ν),
    e ∈ c.log → e ∈ (releaseAll ran c).log := by
  induction ran with
  | nil => exact fun _ _ h => h
  | cons t ran ih => exact fun c e h => ih (c.release .timer) e (List.mem_append_left _ h)

theorem timerReleased_releaseAll (ran : List (TimerTask TaskFunc)) (c : Connection κ ν) :
    (releaseAll ran c).TimerReleased ↔ c.TimerReleased ∨ ran ≠ [] := by
  cases ran with
  | nil => simp [releaseAll]
  | cons t ran =>
    refine iff_of_true ⟨c.releasing, mem_releaseAll ran (c.release .timer) _ ?_⟩ (.inr (List.cons_ne_nil t ran))
    exact List.mem_append_right _ List.mem_cons_self

theorem timerReleased_onTime (c : Connection κ ν) : (c.onTime 1).TimerReleased ↔
    c.TimerReleased ∨ c.loop.timerWheel.runTimerTask.2 ≠ [] := by
  rw [onTime_one, timerReleased_releaseAll]
  rfl

/-! ## The timer does what was asked -/

/-- The connection's timer in the registry, and what was asked: a timer that
is not cancelled and counts the idle ticks, if enabled. -/
structure Tells (s : UInt32) (g : Inactivity) (c : Connection κ ν) (S : Registry TaskFunc) : Prop where
  tracks : Tracks c.loop.timerWheel S
  own : ∀ t ∈ S.timers, t.id = c.connId ∧ t.delay = s
  flag : c.enableInactiveRelease = g.enabled
  enabled : ¬ c.TimerReleased → g.enabled = true → ∃ t ∈ S.timers, t.canceled = false ∧ t.armed + g.idle = S.now
  disabled : ¬ c.TimerReleased → g.enabled = false → ∀ t ∈ S.timers, t.canceled = true

section Asked

variable {s : UInt32} {g : Inactivity} {c d : Connection κ ν} {S : Registry TaskFunc}

theorem new_tells (connId : UInt64) (onBaseLoop : Bool) (context : κ) (timeout : Option UInt32) :
    Tells s ⟨false, 0⟩ (new connId onBaseLoop context timeout : Connection κ ν) ⟨0, []⟩ where
  tracks := new_tracks
  own _ h := absurd h List.not_mem_nil
  flag := rfl
  enabled _ h := Bool.noConfusion h
  disabled _ _ _ h := absurd h List.not_mem_nil

theorem Tells.timer_unique (h : Tells s g c S) {t u : Timer TaskFunc} (ht : t ∈ S.timers) (hu : u ∈ S.timers) :
    t = u := h.tracks.timer_unique ht hu ((h.own t ht).1.trans (h.own u hu).1.symm)

theorem Tells.hasTimer_false (h : Tells s g c S) (hn : c.loop.timerWheel.hasTimer c.connId = false)
    {t : Timer TaskFunc} : t ∉ S.timers := fun ht =>
  Bool.false_ne_true (hn.symm.trans ((h.tracks.hasTimer c.connId).mpr ⟨t, ht, (h.own t ht).1⟩))

/-- A refresh while inactivity release is enabled: the ticks count from now. -/
theorem Tells.timerRefresh (h : Tells s g c S) (hg : g.enabled = true) :
    ∃ d S', c.timerRefresh = ok d ∧ Tells s ⟨true, 0⟩ d S' := by
  obtain ⟨w, e, hw⟩ := timerRefresh_tracks h.tracks c.connId
  refine ⟨c.setTimerWheel w, _, by rw [Connection.timerRefresh, e], hw, ?_, h.flag.trans hg, fun hr _ => ?_, ?_⟩
  · intro u hu
    obtain ⟨t, ht, ⟨_, rfl⟩ | ⟨_, rfl⟩⟩ := mem_modify hu
    · exact h.own t ht
    · exact h.own u ht
  · obtain ⟨t, ht, hc, _⟩ := h.enabled hr hg
    exact ⟨_, List.mem_map_of_mem ht, by rw [if_pos (h.own t ht).1]; exact ⟨hc, rfl⟩⟩
  · exact fun _ hd => Bool.noConfusion hd

theorem Tells.enable (h : Tells s g c S) (h₁ : 1 ≤ s.toNat) (h₂ : s.toNat ≤ 60)
    (hr : c.enableInactiveRelease = true ∨ c.loop.timerWheel.hasTimer c.connId = false) :
    ∃ d S', c.enableInactiveReleaseInLoop s = ok d ∧ Tells s ⟨true, 0⟩ d S' := by
  rw [enableInactiveReleaseInLoop]
  simp only
  by_cases ht : c.loop.timerWheel.hasTimer c.connId = true
  · have hf : c.enableInactiveRelease = true := hr.resolve_right (by rw [ht]; exact Bool.true_eq_false.mp)
    rw [if_pos ht, show ({ c with enableInactiveRelease := true } : Connection κ ν) = c by rw [← hf]]
    exact h.timerRefresh (h.flag.symm.trans hf)
  · have ht := Bool.eq_false_iff.mpr ht
    rw [if_neg (by rw [ht]; exact Bool.false_ne_true)]
    refine ⟨_, _, rfl, timerAdd_tracks h.tracks .release ht h₁ h₂, ?_, rfl, fun _ _ => ?_, ?_⟩
    · intro t hm
      rcases List.mem_cons.mp hm with rfl | hm
      · exact ⟨rfl, rfl⟩
      · exact absurd hm (h.hasTimer_false ht)
    · exact ⟨_, List.mem_cons_self, rfl, rfl⟩
    · exact fun _ hd => Bool.noConfusion hd

theorem Tells.cancel (h : Tells s g c S) :
    ∃ S', Tells s { g with enabled := false } c.cancelInactiveReleaseInLoop S' := by
  rw [cancelInactiveReleaseInLoop]
  simp only
  by_cases ht : c.loop.timerWheel.hasTimer c.connId = true
  · rw [if_pos ht]
    refine ⟨_, timerCancel_tracks h.tracks c.connId, ?_, rfl, fun _ he => Bool.noConfusion he, fun _ _ => ?_⟩
    · intro u hu
      obtain ⟨t, ht, ⟨_, rfl⟩ | ⟨_, rfl⟩⟩ := mem_modify hu
      · exact h.own t ht
      · exact h.own u ht
    · intro u hu
      obtain ⟨t, ht, ⟨_, rfl⟩ | ⟨hne, rfl⟩⟩ := mem_modify hu
      · rfl
      · exact absurd (h.own u ht).1 hne
  · rw [if_neg ht]
    exact ⟨S, h.tracks, h.own, rfl, fun _ he => Bool.noConfusion he,
      fun _ _ t hm => absurd hm (h.hasTimer_false (Bool.eq_false_iff.mpr ht))⟩

theorem Tells.handleEvent (h : Tells s g c S) :
    ∃ d S', c.handleEvent none = ok d ∧ Tells s { g with idle := 0 } d S' := by
  rw [Connection.handleEvent, h.flag]
  cases hg : g.enabled with
  | true =>
    rw [if_pos rfl]
    obtain ⟨d, S', e, hd⟩ := h.timerRefresh hg
    exact ⟨d, S', by rw [e]; rfl, hd⟩
  | false =>
    rw [if_neg Bool.false_ne_true]
    exact ⟨c, S, rfl, h.tracks, h.own, h.flag.trans hg, fun _ he => Bool.noConfusion he,
      fun hr _ => h.disabled hr hg⟩

/-- A tick runs the callback of a timer whose deadline it is. -/
theorem Tells.fires_iff (h : Tells s g c S) : c.loop.timerWheel.runTimerTask.2 ≠ [] ↔
    ∃ t ∈ S.timers, t.deadline = S.now + 1 ∧ t.canceled = false := by
  have hp := (runTimerTask_fired h.tracks).length_eq
  rw [List.length_map, Op.spec, List.length_map] at hp
  rw [← List.length_pos_iff, hp, List.length_pos_iff_exists_mem]
  simp only [List.mem_filter, decide_eq_true_eq]

theorem Tells.onTime (h : Tells s g c S) : ∃ S', Tells s { g with idle := g.idle + 1 } (c.onTime 1) S' := by
  obtain ⟨hid, hf, hw⟩ :=
    releaseAll_frame c.loop.timerWheel.runTimerTask.2 (c.setTimerWheel c.loop.timerWheel.runTimerTask.1)
  rw [← onTime_one] at hid hf hw
  have ht : Tracks (c.onTime 1).loop.timerWheel (Op.spec S .runTimerTask).1 := by
    rw [hw]
    show Tracks c.loop.timerWheel.runTimerTask.1 _
    rw [h.tracks.runTimerTask_eq]
    exact runTimerTask_tracks h.tracks
  have hm : ∀ {t}, t ∈ (Op.spec S .runTimerTask).1.timers ↔ t ∈ S.timers ∧ t.deadline ≠ S.now + 1 := by
    intro t
    simp [Op.spec, List.mem_filter]
  have hc : ¬ (c.onTime 1).TimerReleased →
      ¬ c.TimerReleased ∧ ∀ t ∈ S.timers, t.canceled = false → t.deadline ≠ S.now + 1 := by
    intro hr
    rw [timerReleased_onTime, h.fires_iff, not_or] at hr
    exact ⟨hr.1, fun t ht hc hd => hr.2 ⟨t, ht, hd, hc⟩⟩
  refine ⟨_, ht, fun t htm => ?_, hf.trans h.flag, fun hr he => ?_, fun hr hd t htm => ?_⟩
  · rw [hid]
    exact h.own t (hm.mp htm).1
  · obtain ⟨hr, hn⟩ := hc hr
    obtain ⟨t, htm, hcn, ha⟩ := h.enabled hr he
    refine ⟨t, hm.mpr ⟨htm, hn t htm hcn⟩, hcn, ?_⟩
    show t.armed + (g.idle + 1) = S.now + 1
    omega
  · exact h.disabled (hc hr).1 hd t (hm.mp htm).1

/-- The tick at which the period has passed since the last enable or event. -/
theorem Tells.released_iff (h : Tells s g c S) (hr : ¬ c.TimerReleased) :
    (c.onTime 1).TimerReleased ↔ g.enabled = true ∧ g.idle + 1 = s.toNat := by
  rw [timerReleased_onTime, or_iff_right hr, h.fires_iff]
  constructor
  · rintro ⟨t, ht, hd, hc⟩
    have hg : g.enabled = true := by
      by_contra hg
      exact Bool.false_ne_true (hc.symm.trans (h.disabled hr (Bool.eq_false_iff.mpr hg) t ht))
    obtain ⟨u, hu, _, ha⟩ := h.enabled hr hg
    obtain rfl := h.timer_unique ht hu
    refine ⟨hg, ?_⟩
    rw [Timer.deadline, (h.own t ht).2] at hd
    omega
  · rintro ⟨hg, hi⟩
    obtain ⟨t, ht, hc, ha⟩ := h.enabled hr hg
    refine ⟨t, ht, ?_, hc⟩
    rw [Timer.deadline, (h.own t ht).2]
    omega

theorem Tells.exec (h : Tells s g c S) (h₁ : 1 ≤ s.toNat) (h₂ : s.toNat ≤ 60) {a : TimerStep}
    (ha : a.OfPeriod s) (hr : Renews c a) : ∃ d S', a.exec c = ok d ∧ Tells s (g.after a) d S' := by
  cases a with
  | enableInactiveRelease sec =>
    obtain rfl : sec = s := ha
    exact h.enable h₁ h₂ (hr sec rfl)
  | cancelInactiveRelease =>
    obtain ⟨S', h'⟩ := h.cancel
    exact ⟨_, S', rfl, h'⟩
  | handleEvent => exact h.handleEvent
  | onTime =>
    obtain ⟨S', h'⟩ := h.onTime
    exact ⟨_, S', rfl, h'⟩
  | releaseInLoop => exact False.elim ha

/-- Each of these steps returns, so it is one that `Meets` speaks of. -/
theorem Tells.returns (h : Tells s g c S) {a : TimerStep} (ha : a.OfPeriod s) : ∃ d, a.exec c = ok d := by
  cases a with
  | enableInactiveRelease sec =>
    show ∃ d, c.enableInactiveReleaseInLoop sec = ok d
    rw [enableInactiveReleaseInLoop]
    simp only
    split
    · obtain ⟨w, e, _⟩ := timerRefresh_tracks h.tracks c.connId
      exact ⟨_, by rw [Connection.timerRefresh, e]⟩
    · exact ⟨_, rfl⟩
  | cancelInactiveRelease => exact ⟨_, rfl⟩
  | handleEvent =>
    obtain ⟨d, _, e, _⟩ := h.handleEvent
    exact ⟨d, e⟩
  | onTime => exact ⟨_, rfl⟩
  | releaseInLoop => exact False.elim ha

theorem Tells.run (h₁ : 1 ≤ s.toNat) (h₂ : s.toNat ≤ 60) (as : List TimerStep) :
    ∀ {g : Inactivity} {c : Connection κ ν} {S : Registry TaskFunc}, Tells s g c S →
      (∀ a ∈ as, a.OfPeriod s) → Run.Meets TimerStep.next Renews as c →
        ∃ d S', runAll TimerStep.exec as c = ok d ∧ Tells s (as.foldl Inactivity.after g) d S' := by
  induction as with
  | nil => exact fun h _ _ => ⟨_, _, rfl, h⟩
  | cons a as ih =>
    intro g c S h ha hm
    have hp := ha a List.mem_cons_self
    obtain ⟨d, e⟩ := h.returns hp
    obtain ⟨hr, hm⟩ := hm d e
    obtain ⟨d', S', e', h'⟩ := h.exec h₁ h₂ hp hr
    obtain rfl : d = d' := Outcome.ok.inj (e.symm.trans e')
    obtain ⟨d', S', e', h'⟩ := ih h' (fun b hb => ha b (List.mem_cons_of_mem _ hb)) hm
    exact ⟨d', S', by rw [runAll, e, andThen_ok, e'], h'⟩

/-- In every run with one period in which no enable follows a cancel whose
timer is still in the wheel, the timer releases the connection as asked. -/
theorem releasesAsAsked_of_renews (connId : UInt64) (onBaseLoop : Bool) (context : κ)
    (timeout : Option UInt32) (s : UInt32) (h₁ : 1 ≤ s.toNat) (h₂ : s.toNat ≤ 60) (as : List TimerStep)
    (ha : ∀ a ∈ as, a.OfPeriod s)
    (hm : Run.Meets TimerStep.next Renews as (new connId onBaseLoop context timeout : Connection κ ν)) :
    ReleasesAsAsked s as (new connId onBaseLoop context timeout : Connection κ ν) := by
  rintro pre ⟨suf, rfl⟩
  obtain ⟨d, S, e, h⟩ := Tells.run h₁ h₂ pre (new_tells connId onBaseLoop context timeout)
    (fun a hp => ha a (by simp [hp])) (hm.of_append.of_append)
  exact ⟨d, e, fun hr => h.released_iff hr⟩

/-- A period of two; the event after the first tick puts the release off. -/
theorem releasesAsAsked_of_renews_event : ReleasesAsAsked 2
    [.enableInactiveRelease 2, .onTime, .handleEvent, .onTime, .onTime]
    (new 1 true () none : Connection Unit Unit) := by
  refine releasesAsAsked_of_renews 1 true () none 2 (by decide) (by decide) _ (by simp [TimerStep.OfPeriod]) ?_
  have hn : ∀ {c : Connection Unit Unit} {a}, a = .onTime ∨ a = .handleEvent → Renews c a := by
    rintro c a (rfl | rfl) sec e
    · exact TimerStep.noConfusion e
    · exact TimerStep.noConfusion e
  exact fun _ _ => ⟨fun _ _ => .inr rfl, fun _ _ => ⟨hn (.inl rfl), fun _ _ => ⟨hn (.inr rfl), fun _ _ =>
    ⟨hn (.inl rfl), fun _ _ => ⟨hn (.inl rfl), trivial⟩⟩⟩⟩⟩

/-- Enabled, cancelled and enabled again: the second tick does not release. -/
theorem reenabled_not_released : ¬ ∀ as, (∀ a ∈ as, a.OfPeriod 2) →
    ReleasesAsAsked 2 as (new 1 true () none : Connection Unit Unit) := by
  intro h
  obtain ⟨d, e, hd⟩ := h
    [.enableInactiveRelease 2, .cancelInactiveRelease, .enableInactiveRelease 2, .onTime, .onTime]
    (by simp [TimerStep.OfPeriod])
    [.enableInactiveRelease 2, .cancelInactiveRelease, .enableInactiveRelease 2, .onTime] (List.prefix_refl _)
  have hl : d.log = [] := by
    rw [← Outcome.ok.inj e]
    rfl
  have hw : d.loop.timerWheel.runTimerTask.2.length = 0 := by
    rw [← Outcome.ok.inj e]
    decide +kernel
  have hr : ¬ d.TimerReleased := fun ⟨_, hm⟩ => List.not_mem_nil (hl ▸ hm)
  exact ((timerReleased_onTime d).mp ((hd hr).mpr ⟨rfl, rfl⟩)).elim hr fun hn =>
    hn (List.length_eq_zero_iff.mp hw)

end Asked

/-! ## After the release -/

/-- A call of `Release` by the timer comes before `ReleaseInLoop`. -/
def TimerBefore (pre : List (Event ν)) (e : Event ν) : Prop :=
  (∃ late, e = .release .timer late) → .releaseInLoop ∉ pre

/-- Once `ReleaseInLoop` has run, the wheel holds only cancelled tasks of the
connection, and none has called `Release` since. -/
structure TimerSilent (c : Connection κ ν) : Prop where
  held : .releaseInLoop ∈ c.log → ∀ p pt, c.loop.timerWheel.held p = true →
    c.loop.timerWheel.heap p = some pt → pt.canceled = true
  fired : Always TimerBefore c.log

/-- An enable that runs after `ReleaseInLoop` finds the timer cancelled and
not destroyed yet. -/
def EnablesBefore (c : Connection κ ν) (a : TimerStep) : Prop :=
  ∀ sec, a = .enableInactiveRelease sec → .releaseInLoop ∈ c.log →
    c.loop.timerWheel.hasTimer c.connId = true

/-- The connection's live task, if it has one, is the registered one. -/
structure Only (id : UInt64) (s : Noted TaskFunc) : Prop where
  sound : s.Sound
  task {p pt} : s.wheel.heap p = some pt → s.wheel.timers id = some p

def AllCanceled (w : TimerWheel TaskFunc) : Prop := ∀ p pt, w.heap p = some pt → pt.canceled = true

section Silent

variable {id : UInt64} {s : Noted TaskFunc} {c d : Connection κ ν}

theorem new_only (id : UInt64) : Only id (Noted.new : Noted TaskFunc) :=
  ⟨Noted.new_sound, fun h => (Option.some_ne_none _ h.symm).elim⟩

theorem Only.none_alive (h : Only id s) (hn : s.wheel.hasTimer id = false) (p : Nat) :
    s.wheel.heap p = none := by
  refine Option.eq_none_iff_forall_ne_some.mpr fun pt e => ?_
  rw [hasTimer, h.task e] at hn
  exact Bool.noConfusion hn

theorem Only.timerAdd (h : Only id s) (hn : s.wheel.hasTimer id = false) (delay : UInt32) (cb : TaskFunc) :
    Only id ⟨s.wheel.timerAddInLoop id delay cb, Function.update s.newest id (some s.wheel.next)⟩ := by
  refine ⟨h.sound.timerAdd id delay cb, fun {p pt} e => ?_⟩
  show Function.update s.wheel.timers id _ id = _
  change Function.update s.wheel.heap s.wheel.next _ p = _ at e
  rw [Function.update_self]
  by_cases hp : p = s.wheel.next
  · rw [hp]
  · rw [Function.update_of_ne hp, h.none_alive hn] at e
    exact (Option.some_ne_none _ e.symm).elim

theorem Only.timerRefresh (h : Only id s) {w : TimerWheel TaskFunc}
    (e : s.wheel.timerRefreshInLoop id = some w) : Only id ⟨w, s.newest⟩ ∧ w.heap = s.wheel.heap := by
  refine ⟨⟨h.sound.timerRefresh e, ?_⟩, ?_⟩
  all_goals rcases TimerWheel.Noted.timerRefresh_cases e with rfl | ⟨_, _, _, _, _, _, rfl⟩
  · exact h.task
  · exact h.task
  · rfl
  · rfl

theorem Only.timerCancel (h : Only id s) : Only id ⟨s.wheel.timerCancelInLoop id, s.newest⟩ := by
  have hs := Noted.sameTasks_timerCancel s.wheel id
  refine ⟨h.sound.timerCancel id, fun {p pt} e => ?_⟩
  obtain ⟨pt', e', _⟩ := hs.alive e
  exact (congrFun hs.timers id).trans (h.task e')

/-- A cancel leaves no task that is not cancelled. -/
theorem Only.allCanceled (h : Only id s) : AllCanceled (s.wheel.timerCancelInLoop id) := by
  intro q qt
  cases hid : s.wheel.timers id with
  | none =>
    rw [timerCancelInLoop, hid]
    simp only
    rw [h.none_alive (by rw [hasTimer, hid]; rfl)]
    exact fun e => (Option.some_ne_none _ e.symm).elim
  | some p =>
    obtain ⟨_, pt, hpt, _⟩ := h.sound.registered hid
    rw [timerCancelInLoop_eq hid hpt]
    intro e
    change Function.update s.wheel.heap p _ q = some qt at e
    by_cases hq : q = p
    · rw [hq, Function.update_self] at e
      obtain rfl := Option.some.inj e
      rfl
    · rw [Function.update_of_ne hq] at e
      exact absurd (Option.some.inj ((h.task e).symm.trans hid)) hq

theorem Only.runTimerTask (h : Only id s) : Only id ⟨s.wheel.runTimerTask.1, s.newest⟩ := by
  refine ⟨h.sound.runTimerTask, fun {p pt} e => ?_⟩
  change s.wheel.runTimerTask.1.heap p = some pt at e
  rw [Noted.heap_runTimerTask] at e
  by_cases hd : p ∈ s.wheel.due
  · rw [if_pos hd] at e
    exact (Option.some_ne_none _ e.symm).elim
  · rw [if_neg hd] at e
    refine Noted.timers_runTimerTask.mpr ⟨h.task e, fun q hq qt eq _ => hd ?_⟩
    rwa [Option.some.inj ((h.task e).symm.trans (h.task eq))]

theorem destroyAll_canceled (ps : List Nat) : ∀ {w : TimerWheel TaskFunc}, AllCanceled w →
    (destroyAll ps w).2 = [] := by
  induction ps with
  | nil => exact fun _ => rfl
  | cons p ps ih =>
    intro w h
    have hw : AllCanceled (w.destroy p).1 := by
      intro q qt e
      rw [heap_destroy] at e
      by_cases hq : q = p
      · rw [hq, Function.update_self] at e
        exact (Option.some_ne_none _ e.symm).elim
      · rw [Function.update_of_ne hq] at e
        exact h q qt e
    have hp : (w.destroy p).2 = none := by
      rw [destroy]
      cases e : w.heap p with
      | none => rfl
      | some pt => exact if_pos (h p pt e)
    show (w.destroy p).2.toList ++ (destroyAll ps (w.destroy p).1).2 = []
    rw [hp, ih hw]
    rfl

/-- A tick runs no callback if all tasks are cancelled, and leaves them so. -/
theorem AllCanceled.runTimerTask {w : TimerWheel TaskFunc} (h : AllCanceled w) :
    w.runTimerTask.2 = [] ∧ AllCanceled w.runTimerTask.1 := by
  refine ⟨?_, fun p pt e => ?_⟩
  · rw [runTimerTask_destroyAll]
    exact destroyAll_canceled w.due h
  · rw [Noted.heap_runTimerTask] at e
    by_cases hd : p ∈ w.due
    · rw [if_pos hd] at e
      exact (Option.some_ne_none _ e.symm).elim
    · rw [if_neg hd] at e
      exact h p pt e

/-! ### The invariant -/

/-- The wheel of a connection, with all its tasks cancelled once
`ReleaseInLoop` has run. -/
structure Quiet (c : Connection κ ν) : Prop where
  only : ∃ newest, Only c.connId ⟨c.loop.timerWheel, newest⟩
  canceled : .releaseInLoop ∈ c.log → AllCanceled c.loop.timerWheel
  fired : Always TimerBefore c.log

theorem new_quiet (connId : UInt64) (onBaseLoop : Bool) (context : κ) (timeout : Option UInt32) :
    Quiet (new connId onBaseLoop context timeout : Connection κ ν) where
  only := ⟨_, new_only connId⟩
  canceled h := absurd h List.not_mem_nil
  fired := always_nil

theorem Quiet.silent (h : Quiet c) : TimerSilent c := ⟨fun hr p pt _ e => h.canceled hr p pt e, h.fired⟩

/-- A change of the wheel and of nothing that the invariant reads besides. -/
theorem Quiet.setTimerWheel (h : Quiet c) {b : Bool} {w : TimerWheel TaskFunc}
    (ho : ∃ newest, Only c.connId ⟨w, newest⟩) (hc : .releaseInLoop ∈ c.log → AllCanceled w) :
    Quiet ({ c with enableInactiveRelease := b }.setTimerWheel w) := ⟨ho, hc, h.fired⟩

theorem Quiet.timerRefresh (h : Quiet c) {b : Bool}
    (e : ({ c with enableInactiveRelease := b } : Connection κ ν).timerRefresh = ok d) : Quiet d := by
  rw [Connection.timerRefresh] at e
  split at e
  · cases e
  · next w hw =>
    obtain rfl := Outcome.ok.inj e
    obtain ⟨newest, ho⟩ := h.only
    obtain ⟨ho, hh⟩ := ho.timerRefresh hw
    exact h.setTimerWheel ⟨newest, ho⟩ fun hr p pt e => h.canceled hr p pt (by rw [← e, ← hh])

theorem Quiet.enable (h : Quiet c) {sec : UInt32} (hr : EnablesBefore c (.enableInactiveRelease sec))
    (e : c.enableInactiveReleaseInLoop sec = ok d) : Quiet d := by
  rw [enableInactiveReleaseInLoop] at e
  simp only at e
  by_cases ht : c.loop.timerWheel.hasTimer c.connId = true
  · rw [if_pos ht] at e
    exact h.timerRefresh e
  · rw [if_neg ht] at e
    obtain rfl := Outcome.ok.inj e
    obtain ⟨newest, ho⟩ := h.only
    exact h.setTimerWheel ⟨_, ho.timerAdd (Bool.eq_false_iff.mpr ht) sec .release⟩
      fun hm => absurd (hr sec rfl hm) ht

theorem wheel_cancelInactiveReleaseInLoop (c : Connection κ ν) :
    c.cancelInactiveReleaseInLoop = { c with enableInactiveRelease := false }.setTimerWheel
      (c.loop.timerWheel.timerCancelInLoop c.connId) := by
  rw [cancelInactiveReleaseInLoop]
  simp only
  split
  · rfl
  · next ht =>
    have hn : c.loop.timerWheel.timers c.connId = none :=
      Option.not_isSome_iff_eq_none.mp ht
    rw [timerCancelInLoop, hn]
    rfl

theorem Quiet.cancel (h : Quiet c) : Quiet c.cancelInactiveReleaseInLoop := by
  obtain ⟨newest, ho⟩ := h.only
  rw [wheel_cancelInactiveReleaseInLoop]
  exact h.setTimerWheel ⟨newest, ho.timerCancel⟩ fun _ => ho.allCanceled

theorem releaseInLoop_mem_releaseAll (ran : List (TimerTask TaskFunc)) : ∀ c : Connection κ ν,
    .releaseInLoop ∈ (releaseAll ran c).log → .releaseInLoop ∈ c.log := by
  induction ran with
  | nil => exact fun _ h => h
  | cons t ran ih =>
    intro c h
    have hm : .releaseInLoop ∈ c.log ++ [.release .timer c.releasing] := ih (c.release .timer) h
    simpa using hm

theorem Quiet.onTime (h : Quiet c) : Quiet (c.onTime 1) := by
  obtain ⟨newest, ho⟩ := h.only
  obtain ⟨hid, _, hw⟩ :=
    releaseAll_frame c.loop.timerWheel.runTimerTask.2 (c.setTimerWheel c.loop.timerWheel.runTimerTask.1)
  rw [← onTime_one] at hid hw
  have hlog : .releaseInLoop ∈ (c.onTime 1).log → .releaseInLoop ∈ c.log := by
    rw [onTime_one]
    exact releaseInLoop_mem_releaseAll _ _
  refine ⟨⟨newest, ?_⟩, fun hr => ?_, ?_⟩
  · rw [hid, hw]
    exact ho.runTimerTask
  · rw [hw]
    exact (h.canceled (hlog hr)).runTimerTask.2
  · by_cases hr : .releaseInLoop ∈ c.log
    · rw [onTime_one, (h.canceled hr).runTimerTask.1]
      exact h.fired
    · exact fun pre e hp _ hm => hr (hlog (hp.subset (List.mem_append_left _ hm)))

/-- The connection and its wheel after `ReleaseInLoop`, which cancels the timer. -/
theorem wheel_beginRelease (c : Connection κ ν) : c.beginRelease.connId = c.connId ∧
    c.beginRelease.loop.timerWheel = c.loop.timerWheel.timerCancelInLoop c.connId := by
  have hc : ∀ b : Connection κ ν, b.close.connId = b.connId ∧ b.close.loop = b.loop := by
    intro b
    unfold close
    split
    · exact ⟨rfl, rfl⟩
    · exact ⟨rfl, rfl⟩
  obtain ⟨hid, hl⟩ := hc ({ c with statu := .disconnected }.record .releaseInLoop).remove
  unfold beginRelease
  simp only
  split
  · rw [wheel_cancelInactiveReleaseInLoop]
    exact ⟨hid, by rw [setTimerWheel, hid, hl]; rfl⟩
  · next ht =>
    rw [hl, hid] at ht
    have hn : c.loop.timerWheel.timers c.connId = none := Option.not_isSome_iff_eq_none.mp ht
    refine ⟨hid, ?_⟩
    rw [hl, timerCancelInLoop, hn]
    rfl

theorem timerBefore_of_ne {e : Event ν} (h : ∀ late, e ≠ .release .timer late) (pre : List (Event ν)) :
    TimerBefore pre e := fun ⟨late, he⟩ => absurd he (h late)

theorem removeConnection_frame (c : Connection κ ν) : c.removeConnection.connId = c.connId ∧
    c.removeConnection.loop = c.loop ∧ ∃ es, c.removeConnection.log = c.log ++ es ∧
      ∀ e ∈ es, ∀ pre, TimerBefore pre e := by
  have hs : ∀ pre : List (Event ν), TimerBefore pre .srvClosedCallback := timerBefore_of_ne fun _ h => by cases h
  have he : ∀ pre : List (Event ν), TimerBefore pre .erased := timerBefore_of_ne fun _ h => by cases h
  unfold removeConnection removeConnectionInLoop
  simp only
  split
  · split
    · exact ⟨rfl, rfl, [.srvClosedCallback, .erased], List.append_assoc .., by simpa using ⟨hs, he⟩⟩
    · exact ⟨rfl, rfl, [.srvClosedCallback], rfl, by simpa using hs⟩
  · exact ⟨rfl, rfl, [.srvClosedCallback], rfl, by simpa using hs⟩

theorem Quiet.releaseInLoop (h : Quiet c) (e : c.releaseInLoop none = ok d) : Quiet d := by
  obtain ⟨newest, ho⟩ := h.only
  obtain ⟨hid, hw⟩ := wheel_beginRelease c
  obtain ⟨b, w, hb⟩ := beginRelease_eq c
  obtain ⟨hid', hl', es, hlog, hes⟩ := removeConnection_frame c.beginRelease
  obtain rfl : c.beginRelease.removeConnection = d := Outcome.ok.inj e
  refine ⟨⟨newest, ?_⟩, fun _ => ?_, ?_⟩
  · rw [hid', hid, hl', hw]
    exact ho.timerCancel
  · rw [hl', hw]
    exact ho.allCanceled
  · rw [hlog, show c.beginRelease.log = _ by rw [hb]]
    refine Always.append (Always.append (Always.append h.fired ?_) ?_) hes
    · simpa using timerBefore_of_ne fun _ h => by cases h
    · split
      · simpa using timerBefore_of_ne fun _ h => by cases h
      · exact fun e he => absurd he List.not_mem_nil

theorem Quiet.next (h : Quiet c) {a : TimerStep} (ha : EnablesBefore c a) (hn : TimerStep.next c a d) :
    Quiet d := by
  cases a with
  | enableInactiveRelease sec => exact h.enable ha hn
  | cancelInactiveRelease =>
    obtain rfl := Outcome.ok.inj hn
    exact h.cancel
  | handleEvent =>
    have hn : (if c.enableInactiveRelease then c.timerRefresh else ok c).andThen (callIfSet none) = ok d := hn
    by_cases hf : c.enableInactiveRelease = true
    · rw [if_pos hf] at hn
      cases e : c.timerRefresh with
      | ok d' =>
        rw [e] at hn
        obtain rfl : d' = d := Outcome.ok.inj hn
        exact @Quiet.timerRefresh _ _ c _ h c.enableInactiveRelease e
      | stopped d' =>
        rw [e] at hn
        cases hn
    · rw [if_neg hf] at hn
      obtain rfl : c = d := Outcome.ok.inj hn
      exact h
  | onTime =>
    obtain rfl := Outcome.ok.inj hn
    exact h.onTime
  | releaseInLoop => exact h.releaseInLoop hn

/-- An enable after the release that adds a timer: the wheel holds a task that
is not cancelled. -/
theorem Quiet.enablesBefore (h : Quiet c) {a : TimerStep} (hn : TimerStep.next c a d) (hd : TimerSilent d) :
    EnablesBefore c a := by
  rintro sec rfl hr
  by_contra ht
  have hn : c.enableInactiveReleaseInLoop sec = ok d := hn
  rw [enableInactiveReleaseInLoop] at hn
  simp only [if_neg ht] at hn
  obtain rfl := Outcome.ok.inj hn
  obtain ⟨newest, ho⟩ := h.only
  have ho := ho.timerAdd (Bool.eq_false_iff.mpr ht) sec .release
  have hp : (c.loop.timerWheel.timerAddInLoop c.connId sec .release).heap c.loop.timerWheel.next = _ :=
    Function.update_self ..
  have hc := hd.held hr c.loop.timerWheel.next _ (ho.sound.alive (hp.trans_ne (Option.some_ne_none _))).2 hp
  exact Bool.false_ne_true hc

/-- Over every run, the timer is silent after `ReleaseInLoop` if and only if no
enable that runs after it adds a timer. -/
theorem timerSilent_iff (connId : UInt64) (onBaseLoop : Bool) (context : κ) (timeout : Option UInt32)
    (as : List TimerStep) :
    Run.Throughout TimerStep.next TimerSilent as (new connId onBaseLoop context timeout : Connection κ ν) ↔
      Run.Meets TimerStep.next EnablesBefore as (new connId onBaseLoop context timeout : Connection κ ν) := by
  have hI : ∀ c : Connection κ ν, Quiet c → TimerSilent c := fun c h => h.silent
  have hC : ∀ (c : Connection κ ν) (a : TimerStep) (d : Connection κ ν), Quiet c → TimerStep.next c a d →
      EnablesBefore c a → Quiet d := fun c a d h hn ha => h.next ha hn
  have hP : ∀ (c : Connection κ ν) (a : TimerStep) (d : Connection κ ν), Quiet c → TimerStep.next c a d →
      TimerSilent d → EnablesBefore c a := fun c a d h hn hd => h.enablesBefore hn hd
  exact Run.throughout_iff hI hC hP as _ (new_quiet connId onBaseLoop context timeout)

/-- An enable that was queued before the release and runs after it. -/
theorem enabled_after_release : ¬ ∀ as, Run.Throughout TimerStep.next TimerSilent as
    (new 1 true () none : Connection Unit Unit) := by
  intro h
  obtain ⟨-, h⟩ := h [.releaseInLoop, .enableInactiveRelease 10]
  obtain ⟨-, h⟩ := h _ rfl
  have h : TimerSilent _ := h _ rfl
  exact Bool.false_ne_true (h.held List.mem_cons_self 0 _ (by decide +kernel) rfl)

end Silent

end Connection

end Mudou
