import Mudou.Net.ConnLiveness
import Mudou.Net.Inactivity

/-!
# Idle connections are reaped

A connection on which inactivity release is enabled has a task in its timer
wheel that is not cancelled. If from some moment on only ticks touch the
wheel, the slots that hold the task come up one after the other (`Ahead`), and
with the last of them the task is destroyed and `Release` called. In every
fair run in which ticks keep coming the connection is then closed and erased
(`reaped_of_fair`).

The wheel is `Noted.Sound` in every run with user code (`sane`).
-/

namespace Mudou

namespace TimerWheel

/-- The references to the task at `p` are in the next `k` slots. -/
def Ahead {τ : Type} (w : TimerWheel τ) (p k : Nat) : Prop :=
  ∀ i, p ∈ w.wheel i → (i + 59 - w.tick % 60) % 60 < k

namespace Noted

variable {τ : Type} {s : Noted τ} {p k : Nat} {pt : TimerTask τ}

theorem Sound.not_ahead_zero (h : s.Sound) (hp : s.wheel.heap p = some pt) : ¬ s.wheel.Ahead p 0 := by
  intro ha
  obtain ⟨i, _, hi⟩ := held_iff.mp (h.alive (hp.trans_ne (Option.some_ne_none pt))).2
  exact Nat.not_lt_zero _ (ha i hi)

theorem Sound.ahead_runTimerTask (h : s.Sound) (ha : s.wheel.Ahead p (k + 1)) :
    s.wheel.runTimerTask.1.Ahead p k := by
  intro i hi
  obtain ⟨hw, -, -, ht⟩ := frame_destroyAll s.wheel.due s.wheel.advanced
  rw [runTimerTask_destroyAll] at hi ⊢
  rw [hw, mem_wheel_advanced, h.capacity] at hi
  have hlt := ha i hi.2
  have hi60 := (h.refs hi.2).1
  rw [ht, show s.wheel.advanced.tick = (s.wheel.tick + 1) % 60 by rw [← h.capacity]; rfl]
  have hne := hi.1
  omega

theorem callbacks_destroyAll (ps : List Nat) : ∀ {w : TimerWheel τ}, p ∈ ps → w.heap p = some pt →
    pt.canceled = false → (destroyAll ps w).2 ≠ [] := by
  induction ps with
  | nil => exact fun hm => absurd hm List.not_mem_nil
  | cons q ps ih =>
    intro w hm hp hc
    show (w.destroy q).2.toList ++ (destroyAll ps (w.destroy q).1).2 ≠ []
    by_cases hq : p = q
    · subst hq
      have hd : (w.destroy p).2 = some pt := by
        rw [destroy, hp]
        simp [hc]
      rw [hd]
      exact List.cons_ne_nil _ _
    · have hm := (List.mem_cons.mp hm).resolve_left hq
      refine List.append_ne_nil_of_right_ne_nil _ (ih hm ?_ hc)
      rw [heap_destroy, Function.update_of_ne hq, hp]

/-- A task lives on, or its callback runs. -/
theorem survives_or_fires (hp : s.wheel.heap p = some pt) (hc : pt.canceled = false) :
    s.wheel.runTimerTask.1.heap p = some pt ∨ s.wheel.runTimerTask.2 ≠ [] := by
  by_cases hd : p ∈ s.wheel.due
  · refine .inr ?_
    rw [runTimerTask_destroyAll]
    exact callbacks_destroyAll s.wheel.due hd hp hc
  · refine .inl ?_
    rw [heap_runTimerTask, if_neg hd, hp]

/-- A callback runs, or the task comes nearer to it with each tick. -/
theorem Sound.onTime (times : Nat) : ∀ {s : Noted τ} {k : Nat}, s.Sound → s.wheel.heap p = some pt →
    pt.canceled = false → s.wheel.Ahead p k → (TimerWheel.onTime times s.wheel).2 ≠ [] ∨
      (TimerWheel.onTime times s.wheel).1.heap p = some pt ∧
        ∃ j, (TimerWheel.onTime times s.wheel).1.Ahead p j ∧ j + times = k := by
  induction times with
  | zero => exact fun _ hp _ ha => .inr ⟨hp, _, ha, rfl⟩
  | succ times ih =>
    intro s k h hp hc ha
    cases k with
    | zero => exact absurd ha (h.not_ahead_zero hp)
    | succ k =>
      show s.wheel.runTimerTask.2 ++ (TimerWheel.onTime times s.wheel.runTimerTask.1).2 ≠ [] ∨ _
      rcases survives_or_fires hp hc with hp | hf
      · refine (ih h.runTimerTask hp hc (h.ahead_runTimerTask ha)).imp
          (List.append_ne_nil_of_right_ne_nil _) fun ⟨hp, j, ha, e⟩ => ⟨hp, j, ha, by rw [← e]; rfl⟩
      · exact .inl (List.append_ne_nil_of_left_ne_nil hf _)

theorem Sound.onTime_sound (times : Nat) : ∀ {s : Noted τ}, s.Sound →
    Sound ⟨(TimerWheel.onTime times s.wheel).1, s.newest⟩ := by
  induction times with
  | zero => exact fun h => h
  | succ times ih => exact fun h => ih h.runTimerTask

end Noted

end TimerWheel

namespace Connection

variable {κ ν : Type} {b c d : Connection κ ν} {cbs : Callbacks κ ν} {cb : Option (Callback κ ν)}

open Outcome TimerWheel Endless

/-! ## The wheel in every run -/

def Sane (c : Connection κ ν) : Prop := ∃ newest, Noted.Sound ⟨c.loop.timerWheel, newest⟩

theorem Sane.of_wheel (h : Sane c) (e : d.loop.timerWheel = c.loop.timerWheel) : Sane d := by
  rw [Sane, e]
  exact h

theorem sane_timerRefresh : Keeps Sane (timerRefresh : Callback κ ν) := by
  intro c h
  obtain ⟨newest, h⟩ := h
  rw [timerRefresh]
  cases e : c.loop.timerWheel.timerRefreshInLoop c.connId with
  | none => exact ⟨newest, h⟩
  | some w => exact ⟨newest, h.timerRefresh e⟩

theorem sane_enableInactiveReleaseInLoop (sec : UInt32) :
    Keeps Sane (enableInactiveReleaseInLoop sec : Callback κ ν) := by
  intro c h
  rw [enableInactiveReleaseInLoop]
  simp only
  split
  · exact sane_timerRefresh _ (h.of_wheel rfl)
  · obtain ⟨newest, h⟩ := h
    exact ⟨_, h.timerAdd c.connId sec .release⟩

theorem Sane.cancelInactiveReleaseInLoop (h : Sane c) : Sane c.cancelInactiveReleaseInLoop := by
  obtain ⟨newest, h⟩ := h
  rw [wheel_cancelInactiveReleaseInLoop]
  exact ⟨newest, h.timerCancel c.connId⟩

theorem Sane.sendInLoop (h : Sane c) (data : Bytes) : Sane (c.sendInLoop data) := by
  rcases sendInLoop_cases c data with ⟨_, e⟩ | ⟨_, e | e⟩
  · rw [e]
    exact h
  · rw [e]
    exact h.of_wheel rfl
  · rw [e]
    exact h.of_wheel rfl

theorem Sane.endShutdown (h : Sane c) : Sane c.endShutdown := by
  rcases endShutdown_cases c with ⟨_, e⟩ | ⟨_, e | e⟩
  · rw [e]
    exact h.of_wheel rfl
  · rw [e]
    exact h.of_wheel rfl
  · rw [e]
    exact h

theorem UserCode.keeps_sane {f : Callback κ ν} (h : UserCode f) : Keeps Sane f := by
  induction h with
  | done => exact keeps_ok
  | throw => exact keeps_stopped
  | andThen _ _ hf hg => exact hf.andThen hg
  | branch _ ih => exact .branch ih
  | setInBuffer q => exact fun c h => h.of_wheel rfl
  | setContext x => exact fun c h => h.of_wheel rfl
  | note n => exact fun c h => h.of_wheel rfl
  | send data => exact fun c h => h.sendInLoop data
  | shutdown _ ih =>
    exact keeps_shutdownInLoop (fun c h => h.of_wheel rfl) ih (fun c h => h.endShutdown) fun _ h => h
  | release => exact fun c h => h.of_wheel rfl
  | enableInactiveRelease sec => exact sane_enableInactiveReleaseInLoop sec
  | cancelInactiveRelease => exact fun c h => h.cancelInactiveReleaseInLoop

theorem sane_preserved : EventPreserved UserCode (Sane : Connection κ ν → Prop) where
  call hf := hf.keeps_sane
  shutdown hm := (UserCode.shutdown hm).keeps_sane
  timerRefresh := sane_timerRefresh
  drained h _ _ := h.of_wheel rfl
  release h _ _ := h.of_wheel rfl
  received _ h := h.of_wheel rfl
  handed _ h := h.of_wheel rfl
  disableWrite h _ := h.of_wheel rfl

theorem sane_establishedInLoop (hc : ∀ f, cb = some f → UserCode f) :
    Keeps Sane (establishedInLoop cb : Callback κ ν) :=
  keeps_establishedInLoop fun _ h _ => keeps_callIfSet (fun f e => (hc f e).keeps_sane) _ (h.of_wheel rfl)

theorem sane_releaseInLoop (hc : ∀ f, cb = some f → UserCode f) (h : Sane c) : Sane (c.releaseInLoop cb).state := by
  refine state_releaseInLoop ?_ (fun _ h => h.of_wheel rfl) (fun f e => (hc f e).keeps_sane) fun d h =>
    h.of_wheel (congrArg EventLoop.timerWheel (removeConnection_frame d).2.1)
  obtain ⟨newest, h⟩ := h
  exact ⟨newest, (wheel_beginRelease c).2 ▸ h.timerCancel c.connId⟩

theorem sane_runNextTask (hc : cbs.All UserCode) : Keeps Sane (runNextTask cbs) := by
  intro c h
  rw [runNextTask]
  cases c.loop.functor with
  | nil => exact h
  | cons t functor =>
    have h : Sane { c with loop := { c.loop with functor } } := h.of_wheel rfl
    cases t with
    | release => exact sane_releaseInLoop (fun f e => hc f (by simp [e])) h
    | shutdown => exact (UserCode.shutdown fun f e => hc f (by simp [e])).keeps_sane _ h
    | send data => exact h.sendInLoop data
    | enableInactiveRelease sec => exact sane_enableInactiveReleaseInLoop sec _ h
    | cancelInactiveRelease => exact h.cancelInactiveReleaseInLoop
    | established => exact sane_establishedInLoop (fun f e => hc f (by simp [e])) _ h

theorem wheel_releaseAll (ran : List (TimerTask TaskFunc)) (c : Connection κ ν) :
    (releaseAll ran c).loop.timerWheel = c.loop.timerWheel := (releaseAll_frame ran c).2.2

theorem onTime_eq (times : Nat) (c : Connection κ ν) : c.onTime times =
    releaseAll (c.loop.timerWheel.onTime times).2 (c.setTimerWheel (c.loop.timerWheel.onTime times).1) := rfl

theorem sane_exec {s : Step κ ν} (hs : s.All UserCode) : Keeps Sane s.exec := by
  intro c h
  cases s with
  | handleEvent cbs revents recv send =>
    have hm : ∀ f, cbs.message = some f → UserCode f := fun f e => hs f (by simp [e])
    have he : ∀ f, cbs.event = some f → UserCode f := fun f e => hs f (by simp [e])
    exact sane_preserved.keeps_channelHandleEvent hm he revents recv send c h
  | onTime times =>
    obtain ⟨newest, h⟩ := h
    refine ⟨newest, ?_⟩
    show Noted.Sound ⟨(c.onTime times).loop.timerWheel, newest⟩
    rw [onTime_eq, wheel_releaseAll]
    exact h.onTime_sound times
  | callback f => exact UserCode.keeps_sane hs c h
  | queueInLoop t =>
    show Sane (c.queueFromThread t)
    unfold queueFromThread
    split
    · exact h.of_wheel rfl
    · exact h.of_wheel rfl
  | swapTasks => exact h.of_wheel rfl
  | runTask cbs => exact sane_runNextTask hs c h
  | removeConnectionInLoop =>
    show Sane (if _ then _ else _)
    split
    · have h : Sane { c with removals := c.removals - 1 } := h.of_wheel rfl
      exact state_removeConnectionInLoop h (h.of_wheel rfl)
    · exact h

/-! ## Ticks -/

def Step.times : Step κ ν → Nat
  | .onTime times => times
  | _ => 0

/-- The ticks in the next `k` steps. -/
def ticks (steps : Nat → Step κ ν) (n : Nat) : Nat → Nat
  | 0 => 0
  | k + 1 => ticks steps n k + (steps (n + k)).times

theorem ticks_mono (steps : Nat → Step κ ν) (n : Nat) {k l : Nat} (hk : k ≤ l) :
    ticks steps n k ≤ ticks steps n l := by
  induction l, hk using Nat.le_induction with
  | base => exact Nat.le_refl _
  | succ l _ ih => exact ih.trans (Nat.le_add_right ..)

/-- A task that is not cancelled, all of whose references are in the next `k`
slots. -/
def Armed (k : Nat) (c : Connection κ ν) : Prop :=
  ∃ p pt, c.loop.timerWheel.heap p = some pt ∧ pt.canceled = false ∧ c.loop.timerWheel.Ahead p k

theorem Armed.of_wheel {k : Nat} (h : Armed k c) (e : d.loop.timerWheel = c.loop.timerWheel) : Armed k d := by
  rw [Armed, e]
  exact h

theorem Sane.not_armed_zero (h : Sane c) : ¬ Armed 0 c := by
  rintro ⟨p, pt, hp, _, ha⟩
  obtain ⟨newest, h⟩ := h
  exact h.not_ahead_zero hp ha

/-- A timer of the registry is armed up to its deadline. -/
theorem armed_of_tracks {S : Registry TaskFunc} (h : Tracks c.loop.timerWheel S) {t : Timer TaskFunc}
    (ht : t ∈ S.timers) (hc : t.canceled = false) : Armed (t.deadline - S.now) c := by
  obtain ⟨p, _, hs⟩ := h.timer t ht
  refine ⟨p, _, hs.task, hc, fun i hi => ?_⟩
  have hlt := (h.refs hi).1
  rw [h.tick, Nat.mod_mod]
  have hk := hs.earlier (S.now + 1 + (i + 59 - S.now % 60) % 60) (by omega) (by omega)
    (by rwa [show (S.now + 1 + (i + 59 - S.now % 60) % 60) % 60 = i by omega])
  omega

theorem releases_releaseAll {ran : List (TimerTask TaskFunc)} (hr : ran ≠ []) (c : Connection κ ν) :
    0 < releases (releaseAll ran c).log := by
  obtain ⟨late, hm⟩ := (timerReleased_releaseAll ran c).mpr (.inr hr)
  exact List.countP_pos_iff.mpr ⟨_, hm, rfl⟩

theorem Sane.onTime (h : Sane c) {k : Nat} (ha : Armed k c) (times : Nat) :
    0 < releases (c.onTime times).log ∨ ∃ j, Armed j (c.onTime times) ∧ j + times = k := by
  obtain ⟨newest, h⟩ := h
  obtain ⟨p, pt, hp, hc, ha⟩ := ha
  rw [onTime_eq]
  rcases h.onTime times hp hc ha with hf | ⟨hp, j, ha, e⟩
  · exact .inl (releases_releaseAll hf _)
  · have hj : Armed j (c.setTimerWheel (c.loop.timerWheel.onTime times).1) := ⟨p, pt, hp, hc, ha⟩
    exact .inr ⟨j, hj.of_wheel (wheel_releaseAll _ _), e⟩

/-- From `n` on, and until the socket is closed, only ticks touch the wheel. -/
def IdleFrom (steps : Nat → Step κ ν) (r : Nat → Connection κ ν) (n : Nat) : Prop :=
  ∀ m, n ≤ m → (r m).socketOpen = true →
    (∃ times, steps m = .onTime times) ∨ (r (m + 1)).loop.timerWheel = (r m).loop.timerWheel

namespace Fair

variable {steps : Nat → Step κ ν} {r : Nat → Connection κ ν} (h : Fair steps r)
include h

theorem sane (n : Nat) : Sane (r n) := by
  induction n with
  | zero =>
    obtain ⟨connId, onBaseLoop, context, timeout, e⟩ := h.start
    rw [e]
    exact ⟨_, Noted.new_sound⟩
  | succ n ih =>
    have hd := sane_exec (h.userCode n) (r n) ih
    rwa [h.exec n] at hd

/-- The timer runs down with the ticks. -/
theorem runs_down {n j : Nat} (ha : Armed j (r n)) (hi : IdleFrom steps r n) (k : Nat) :
    0 < releases (r (n + k)).log ∨ ∃ i, Armed i (r (n + k)) ∧ i + ticks steps n k = j := by
  induction k with
  | zero => exact .inr ⟨j, ha, rfl⟩
  | succ k ih =>
    have hlog : 0 < releases (r (n + k)).log → 0 < releases (r (n + (k + 1))).log := fun hr =>
      hr.trans_le (releases_le (h.log (Nat.le_succ (n + k))))
    rcases ih with hr | ⟨i, ha, e⟩
    · exact .inl (hlog hr)
    cases ho : (r (n + k)).socketOpen with
    | false => exact .inl (hlog ((h.accounted _).ledger.releases_of_queued (.inl ho)))
    | true =>
      have hw := hi (n + k) (Nat.le_add_right n k) ho
      cases hs : steps (n + k) with
      | onTime times =>
        have hd : (r (n + k)).onTime times = r (n + (k + 1)) := by
          have he := h.exec (n + k)
          rw [hs] at he
          exact ok.inj he
        rw [← hd]
        refine ((h.sane _).onTime ha times).imp_right fun ⟨i', ha', e'⟩ => ⟨i', ha', ?_⟩
        rw [ticks, hs, Step.times]
        omega
      | handleEvent | callback | queueInLoop | swapTasks | runTask | removeConnectionInLoop =>
        have hw := hw.resolve_left fun ⟨_, e⟩ => by
          rw [hs] at e
          cases e
        exact .inr ⟨i, ha.of_wheel hw, by rw [ticks, hs]; exact e⟩

end Fair

/-- The ticks reach any number, as long as the socket is open. -/
theorem ticks_reach {steps : Nat → Step κ ν} {r : Nat → Connection κ ν}
    (ht : Fairly r steps (fun c => c.socketOpen = true) fun s => 0 < s.times) (n j : Nat) :
    ∃ k, j ≤ ticks steps n k ∨ (r (n + k)).socketOpen = false := by
  induction j with
  | zero => exact ⟨0, .inl (Nat.zero_le _)⟩
  | succ j ih =>
    obtain ⟨k, hj | hc⟩ := ih
    · cases ho : (r (n + k)).socketOpen with
      | false => exact ⟨k, .inr ho⟩
      | true =>
        obtain ⟨m, hm, htick⟩ := ht (n + k) ho
        obtain ⟨l, rfl⟩ := Nat.exists_eq_add_of_le ((Nat.le_add_right n k).trans hm)
        have hkl : k ≤ l := by omega
        rcases htick with htick | hc
        · refine ⟨l + 1, .inl ?_⟩
          have := ticks_mono steps n hkl
          rw [ticks]
          omega
        · exact ⟨l, .inr (Bool.eq_false_iff.mpr hc)⟩
    · exact ⟨k, .inr hc⟩

/-- In every fair run, with any user code: when the connection's timer is
armed and only ticks touch it any more, `Release` has been called as soon as
the last slot that holds it has come up, and if ticks keep coming the
connection is closed and out of the table from some moment on. -/
theorem reaped_of_fair {steps : Nat → Step κ ν} {r : Nat → Connection κ ν} (h : Fair steps r)
    (ht : Fairly r steps (fun c => c.socketOpen = true) fun s => 0 < s.times) {n j : Nat}
    (ha : Armed j (r n)) (hi : IdleFrom steps r n) :
    (∀ k, j ≤ ticks steps n k → 0 < releases (r (n + k)).log) ∧
      ∃ m, n ≤ m ∧ ∀ k, m ≤ k → (r k).socketOpen = false ∧ (r k).inConns = false := by
  have hrel : ∀ k, j ≤ ticks steps n k → 0 < releases (r (n + k)).log := by
    intro k hk
    rcases h.runs_down ha hi k with hr | ⟨i, ha, e⟩
    · exact hr
    · obtain rfl : i = 0 := by omega
      exact absurd ha (h.sane _).not_armed_zero
  refine ⟨hrel, ?_⟩
  obtain ⟨k, hk⟩ := ticks_reach ht n j
  have hr : 0 < releases (r (n + k)).log := hk.elim (hrel k) fun hc =>
    (h.accounted _).ledger.releases_of_queued (.inl hc)
  obtain ⟨m, hm, hc, hin⟩ := (h.closes.trans h.erases) (n + k) hr
  exact ⟨m, (Nat.le_add_right n k).trans hm, fun l hl => ⟨h.closed hl hc, h.erased hl hin⟩⟩

/-- Accepted with a period of two, and idle. -/
def idleSteps : List (Step Unit Unit) :=
  let cbs : Callbacks Unit Unit := ⟨none, none, none, none⟩
  [.swapTasks, .runTask cbs, .runTask cbs, .onTime 1, .onTime 1, .swapTasks, .runTask cbs]

theorem idleSteps_userCode : ∀ s ∈ idleSteps, s.All UserCode := by
  have hn : (⟨none, none, none, none⟩ : Callbacks Unit Unit).All UserCode := userCode_none
  intro s hs
  simp only [idleSteps, List.mem_cons, List.not_mem_nil, or_false] at hs
  rcases hs with rfl | rfl | rfl | rfl | rfl | rfl | rfl
  · trivial
  · exact hn
  · exact hn
  · trivial
  · trivial
  · trivial
  · exact hn

def idleRun : Nat → Connection Unit Unit := statesOf idleSteps (new 1 true () (some 2))

theorem idleRun_fair : Fair (thenIdle idleSteps) idleRun :=
  fair_of_resting idleSteps_userCode rfl ⟨rfl, rfl, rfl, fun hw => Bool.noConfusion hw.2⟩

theorem idleRun_closed (n : Nat) : (idleRun (n + 7)).socketOpen = false :=
  congrArg socketOpen (statesOf_of_le (Nat.le_add_left 7 n))

theorem idleRun_armed : Armed 2 (idleRun 3) := by
  have ht : Tracks (idleRun 3).loop.timerWheel (Op.spec ⟨0, []⟩ (.timerAdd 1 2 .release)).1 :=
    timerAdd_tracks new_tracks TaskFunc.release rfl (by decide) (by decide)
  exact armed_of_tracks ht List.mem_cons_self rfl

theorem idleRun_idleFrom : IdleFrom (thenIdle idleSteps) idleRun 3 := by
  intro m hm ho
  obtain ⟨k, rfl⟩ := Nat.exists_eq_add_of_le' hm
  rcases k with _ | _ | _ | _ | k
  · exact .inl ⟨1, rfl⟩
  · exact .inl ⟨1, rfl⟩
  · exact .inr rfl
  · exact .inr rfl
  · exact absurd (ho.symm.trans (idleRun_closed k)) Bool.noConfusion

theorem reaped_of_fair_idleRun :
    (∀ k, 2 ≤ ticks (thenIdle idleSteps) 3 k → 0 < releases (idleRun (3 + k)).log) ∧
      ∃ m, 3 ≤ m ∧ ∀ k, m ≤ k → (idleRun k).socketOpen = false ∧ (idleRun k).inConns = false :=
  reaped_of_fair idleRun_fair (fun n _ => ⟨n + 7, Nat.le_add_right n 7, .inr (by simp [idleRun_closed])⟩)
    idleRun_armed idleRun_idleFrom

end Connection

end Mudou
