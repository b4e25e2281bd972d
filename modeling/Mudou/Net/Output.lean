import Mathlib.Data.List.TakeWhile
import Mudou.Lib.History
import Mudou.Net.UserCode

/-!
# Outgoing bytes

What `SendInLoop` has accepted is what was handed to the socket followed by
the output buffer (`Balanced.order`). `Release` is called by `ShutdownInLoop`
and `HandleWrite` with an empty output buffer, after a first `ShutdownInLoop`;
so a release that no error, hang-up, timer or user asked for finds flushed
all that was accepted before it (`Balanced.queued`).

`handed_prefix_and_flushed` is the result over every run.
-/

namespace Mudou

namespace Event

variable {ν : Type}

def acceptedBytes : Event ν → Bytes
  | .accepted data => data
  | _ => []

def handedBytes : Event ν → Bytes
  | .handed data => data
  | _ => []

def isShutdownInLoop : Event ν → Bool
  | .shutdownInLoop => true
  | _ => false

def isClosed : Event ν → Bool
  | .closed => true
  | _ => false

/-- A send error, `EPOLLERR` or `EPOLLHUP`, the inactivity timer or the user
releases the connection. -/
def Abrupt : Event ν → Prop
  | .release .shutdownInLoop _ | .release .handleWriteDrained _ => False
  | .release _ _ => True
  | _ => False

end Event

namespace Connection

variable {κ ν : Type} {c d : Connection κ ν} {log : List (Event ν)}

open Outcome History

def accepted (log : List (Event ν)) : Bytes := log.flatMap Event.acceptedBytes

def handed (log : List (Event ν)) : Bytes := log.flatMap Event.handedBytes

def acceptedBeforeShutdown (log : List (Event ν)) : Bytes :=
  accepted (log.takeWhile fun e => !e.isShutdownInLoop)

/-- Unless a release was abrupt, a shutdown has begun and what was accepted
before it has been handed to the socket. -/
def Flushed (log : List (Event ν)) : Prop :=
  (∀ e ∈ log, ¬ e.Abrupt) →
    .shutdownInLoop ∈ log ∧ acceptedBeforeShutdown log <+: handed log

theorem accepted_concat (log : List (Event ν)) (e : Event ν) :
    accepted (log ++ [e]) = accepted log ++ e.acceptedBytes := by
  simp [accepted]

theorem handed_concat (log : List (Event ν)) (e : Event ν) :
    handed (log ++ [e]) = handed log ++ e.handedBytes := by
  simp [handed]

theorem acceptedBeforeShutdown_concat (h : .shutdownInLoop ∈ log) (e : Event ν) :
    acceptedBeforeShutdown (log ++ [e]) = acceptedBeforeShutdown log := by
  rw [acceptedBeforeShutdown, acceptedBeforeShutdown, List.takeWhile_append, if_neg]
  intro he
  have ht : log.takeWhile (fun e => !e.isShutdownInLoop) = log :=
    (List.takeWhile_prefix _).eq_of_length he
  rw [← ht] at h
  exact Bool.noConfusion (List.mem_takeWhile_imp h)

theorem acceptedBeforeShutdown_prefix (log : List (Event ν)) :
    acceptedBeforeShutdown log <+: accepted log := by
  conv => rhs; rw [← List.takeWhile_append_dropWhile (p := fun e => !e.isShutdownInLoop) (l := log)]
  rw [accepted, List.flatMap_append]
  exact List.prefix_append ..

theorem Flushed.concat (h : Flushed log) (e : Event ν) : Flushed (log ++ [e]) := by
  intro ha
  obtain ⟨hs, hp⟩ := h fun e he => ha e (List.mem_append_left _ he)
  refine ⟨List.mem_append_left _ hs, ?_⟩
  rw [acceptedBeforeShutdown_concat hs, handed_concat]
  exact hp.trans (List.prefix_append ..)

/-! ## The invariant -/

/-- What holds of each event of a history. -/
def InOrder (pre : List (Event ν)) (e : Event ν) : Prop :=
  handed (pre ++ [e]) <+: accepted (pre ++ [e]) ∧ (e.isClosed = true → Flushed pre)

structure Balanced (c : Connection κ ν) : Prop where
  order : accepted c.log = handed c.log ++ c.outBuffer
  shutdown : c.statu = .disconnecting → .shutdownInLoop ∈ c.log
  queued : .release ∈ c.loop.functor ++ c.loop.tasks → Flushed c.log
  history : Always InOrder c.log

/-- Nothing happened that the accounts depend on. -/
theorem Balanced.same (h : Balanced c) (hl : d.log = c.log) (ho : d.outBuffer = c.outBuffer)
    (hs : d.statu = .disconnecting → c.statu = .disconnecting)
    (ht : .release ∈ d.loop.functor ++ d.loop.tasks → .release ∈ c.loop.functor ++ c.loop.tasks) :
    Balanced d :=
  ⟨by rw [hl, ho]; exact h.order, fun hd => hl ▸ h.shutdown (hs hd), fun hd => hl ▸ h.queued (ht hd),
    hl ▸ h.history⟩

/-- One event. -/
theorem Balanced.event (h : Balanced c) {e : Event ν} (hl : d.log = c.log ++ [e])
    (ho : handed c.log ++ c.outBuffer ++ e.acceptedBytes = handed c.log ++ e.handedBytes ++ d.outBuffer)
    (hs : d.statu = .disconnecting → .shutdownInLoop ∈ d.log)
    (ht : .release ∈ d.loop.functor ++ d.loop.tasks → Flushed d.log) (hc : e.isClosed = false ∨ Flushed c.log) :
    Balanced d := by
  have order : accepted d.log = handed d.log ++ d.outBuffer := by
    rw [hl, accepted_concat, handed_concat, h.order, ho]
  refine ⟨order, hs, ht, ?_⟩
  rw [hl]
  refine h.history.concat ⟨?_, fun he => ?_⟩
  · rw [← hl, order]
    exact List.prefix_append ..
  · rcases hc with hc | hc
    · rw [hc] at he
      cases he
    · exact hc

/-- An event that is neither accepting nor handing bytes, and changes nothing
else. -/
theorem Balanced.record (h : Balanced c) {e : Event ν} (ha : e.acceptedBytes = []) (hh : e.handedBytes = [])
    (hc : e.isClosed = false ∨ Flushed c.log) : Balanced (c.record e) :=
  h.event rfl (by rw [ha, hh, List.append_nil, List.append_nil]; rfl)
    (fun hs => List.mem_append_left _ (h.shutdown hs)) (fun ht => (h.queued ht).concat e) hc

theorem Balanced.release (h : Balanced c) {caller : Caller}
    (hf : Flushed (c.log ++ [.release caller c.releasing])) : Balanced (c.release caller) :=
  h.event rfl (by simp [Event.acceptedBytes, Event.handedBytes, Connection.release, Connection.record,
    queueInLoop]) (fun hs => List.mem_append_left _ (h.shutdown hs)) (fun _ => hf) (.inl rfl)

/-- A release with an empty output buffer, after a shutdown. -/
theorem Balanced.flushed (h : Balanced c) (ho : c.outBuffer.length = 0) (hs : .shutdownInLoop ∈ c.log) :
    Flushed c.log := by
  intro _
  refine ⟨hs, ?_⟩
  rw [← List.append_nil (handed c.log), ← List.length_eq_zero_iff.mp ho, ← h.order]
  exact acceptedBeforeShutdown_prefix _

theorem Balanced.removeConnectionInLoop (h : Balanced c) : Balanced c.removeConnectionInLoop := by
  apply state_removeConnectionInLoop h
  exact Balanced.event h rfl (by simp [Event.acceptedBytes, Event.handedBytes, Connection.record])
    (fun hs => List.mem_append_left _ (h.shutdown hs)) (fun ht => (h.queued ht).concat _) (.inl rfl)

theorem Balanced.beginRelease (h : Balanced c) (hf : Flushed c.log) : Balanced c.beginRelease := by
  have hr : Balanced ({ c with statu := .disconnected }.record .releaseInLoop) :=
    h.event rfl (by simp [Event.acceptedBytes, Event.handedBytes, Connection.record])
      (fun hs => ConnStatu.noConfusion hs) (fun _ => hf.concat _) (.inl rfl)
  obtain ⟨b, w, e⟩ := beginRelease_eq c
  rw [e]
  cases c.socketOpen with
  | true =>
    exact hr.event rfl (by simp [Event.acceptedBytes, Event.handedBytes, Connection.record])
      (fun hs => ConnStatu.noConfusion hs) (fun _ => (hf.concat _).concat _) (.inr (hf.concat _))
  | false => exact hr.same (List.append_nil _) rfl (fun hs => ConnStatu.noConfusion hs) fun ht => ht

/-! ### The steps -/

/-- An event that moves bytes, with the state of the connection and its tasks as
they were. -/
theorem Balanced.moved (h : Balanced c) {e : Event ν} (hl : d.log = c.log ++ [e]) (hs : d.statu = c.statu)
    (ht : d.loop = c.loop) (hc : e.isClosed = false)
    (ho : handed c.log ++ c.outBuffer ++ e.acceptedBytes = handed c.log ++ e.handedBytes ++ d.outBuffer) :
    Balanced d := by
  refine h.event hl ho (fun hd => ?_) (fun hd => ?_) (.inl hc)
  · rw [hl]
    exact List.mem_append_left _ (h.shutdown (hs ▸ hd))
  · rw [hl]
    exact (h.queued (ht ▸ hd)).concat e

theorem Balanced.sendInLoop (h : Balanced c) (data : Bytes) : Balanced (c.sendInLoop data) := by
  have he : Balanced (c.accept data) :=
    h.moved rfl rfl rfl rfl (by simp [Event.acceptedBytes, Event.handedBytes, accept, Connection.record])
  rcases sendInLoop_cases c data with ⟨_, e⟩ | ⟨_, e | e⟩
  · rw [e]
    exact h
  · rw [e]
    exact he.same rfl rfl (fun hs => hs) fun ht => ht
  · rw [e]
    exact he

theorem Balanced.beginShutdown (h : Balanced c) : Balanced c.beginShutdown :=
  h.event rfl (by simp [Event.acceptedBytes, Event.handedBytes, Connection.beginShutdown, Connection.record])
    (fun _ => List.mem_append_right _ List.mem_cons_self) (fun ht => (h.queued ht).concat _) (.inl rfl)

theorem Balanced.endShutdown (h : Balanced c) (hs : .shutdownInLoop ∈ c.log) : Balanced c.endShutdown := by
  rcases endShutdown_cases c with ⟨ho, e⟩ | ⟨_, e | e⟩
  · rw [e]
    exact h.release ((h.flushed ho hs).concat _)
  · rw [e]
    exact h.same rfl rfl (fun hs => hs) fun ht => ht
  · rw [e]
    exact h

/-- Other releases than those of a graceful close are abrupt. -/
theorem Balanced.releaseAbruptly (h : Balanced c) {caller : Caller} (h₁ : caller ≠ .shutdownInLoop)
    (h₂ : caller ≠ .handleWriteDrained) : Balanced (c.release caller) := by
  refine h.release fun ha => absurd ?_ (ha _ (List.mem_append_right _ List.mem_cons_self))
  cases caller with
  | shutdownInLoop => exact absurd rfl h₁
  | handleWriteDrained => exact absurd rfl h₂
  | handleWriteError | handleClose | timer | user => trivial

theorem Balanced.releaseInLoop (h : Balanced c) {functor : List Task} {closed : Option (Callback κ ν)}
    (e : c.loop.functor = .release :: functor) (hc : ∀ f, closed = some f → Keeps Balanced f) :
    Balanced ({ c with loop := { c.loop with functor } }.releaseInLoop closed).state := by
  have hf : Flushed c.log := h.queued (by rw [e]; exact List.mem_cons_self)
  have hp : Balanced { c with loop := { c.loop with functor } } :=
    h.same rfl rfl (fun hs => hs) fun ht => by
      rw [e]
      exact List.mem_cons_of_mem _ ht
  refine state_releaseInLoop (hp.beginRelease hf) (fun c h => h.record rfl rfl (.inl rfl)) hc fun c h => ?_
  have h : Balanced (c.record .srvClosedCallback) := h.record rfl rfl (.inl rfl)
  show Balanced (if _ then _ else _)
  split
  · exact h.removeConnectionInLoop
  · exact h.same rfl rfl (fun hs => hs) fun ht => ht

theorem Balanced.queueInLoop (h : Balanced c) {t : Task} (ht : t ≠ .release) : Balanced (c.queueInLoop t) :=
  h.same rfl rfl (fun hs => hs) fun hm => by
    rw [Connection.queueInLoop, ← List.append_assoc] at hm
    rcases List.mem_append.mp hm with hm | hm
    · exact hm
    · exact absurd (List.mem_singleton.mp hm).symm ht

theorem balanced_preserved : UserPreserved (Balanced : Connection κ ν → Prop) where
  setTimer b w h := h.same rfl rfl (fun hs => hs) fun ht => ht
  send data h := h.sendInLoop data
  beginShutdown h := h.beginShutdown
  endShutdown h hs := h.endShutdown hs
  drained h ho hs := h.release ((h.flushed ho (h.shutdown hs)).concat _)
  release h h₁ h₂ := h.releaseAbruptly h₁ h₂
  received data h := h.moved rfl rfl rfl rfl (by simp [Event.acceptedBytes, Event.handedBytes, record])
  handed n h := h.moved rfl rfl rfl rfl (by simp [Event.acceptedBytes, Event.handedBytes, record])
  disableWrite h _ := h.same rfl rfl (fun hs => hs) fun ht => ht
  established h _ := h.same rfl rfl (fun hs => ConnStatu.noConfusion hs) fun ht => ht
  runTask h e _ := h.same rfl rfl (fun hs => hs) fun ht => by
    rw [e]
    exact List.mem_cons_of_mem _ ht
  releaseInLoop h e hc := h.releaseInLoop e fun f e => (hc f e).keeps
  removeConnectionInLoop {c} h _ :=
    have h : Balanced { c with removals := c.removals - 1 } := h.same rfl rfl (fun hs => hs) fun ht => ht
    h.removeConnectionInLoop
  swapTasks h := h.same rfl rfl (fun hs => hs) fun ht => by simpa [swapTasks] using ht
  queueInLoop h ht := h.queueInLoop ht
  setInBuffer q h := h.same rfl rfl (fun hs => hs) fun ht => ht
  setContext x h := h.same rfl rfl (fun hs => hs) fun ht => ht
  note n h := h.record rfl rfl (.inl rfl)

theorem new_balanced (connId : UInt64) (onBaseLoop : Bool) (context : κ) (timeout : Option UInt32) :
    Balanced (new connId onBaseLoop context timeout : Connection κ ν) where
  order := rfl
  shutdown h := ConnStatu.noConfusion h
  queued h := by cases timeout <;> simp [new] at h
  history := always_nil

/-- Over every run of a connection, the bytes handed to the socket are at all
times a prefix of those accepted; and when the socket is closed without an
abrupt release before, all that was accepted before the first shutdown has
been handed. -/
theorem handed_prefix_and_flushed (connId : UInt64) (onBaseLoop : Bool) (context : κ)
    (timeout : Option UInt32) (steps : List (Step κ ν)) (hs : ∀ s ∈ steps, s.All UserCode) :
    let log := (run steps (new connId onBaseLoop context timeout)).state.log
    (∀ pre, pre <+: log → handed pre <+: accepted pre) ∧
      ∀ pre, pre ++ [.closed] <+: log → (∀ e ∈ pre, ¬ e.Abrupt) →
        acceptedBeforeShutdown pre <+: handed pre := by
  intro log
  have h := balanced_preserved.keeps_run hs _ (new_balanced connId onBaseLoop context timeout)
  refine ⟨fun pre hp => ?_, fun pre hp ha => ((h.history pre _ hp).2 rfl ha).2⟩
  rcases List.eq_nil_or_concat pre with rfl | ⟨pre, e, rfl⟩
  · exact List.prefix_refl _
  · rw [List.concat_eq_append] at hp ⊢
    exact (h.history pre e hp).1

/-- A payload sent in two parts, the second after the shutdown. -/
def halfSent : List (Step Unit Unit) :=
  let cbs : Callbacks Unit Unit := ⟨none, none, none, none⟩
  [.swapTasks, .runTask cbs, .callback fun c => ok (c.sendInLoop (str "abc")),
    .handleEvent cbs { pollOut := true } (.none true) (.sent 2), .callback (shutdownInLoop none),
    .handleEvent cbs { pollOut := true } (.none true) (.sent 1), .swapTasks, .runTask cbs]

theorem halfSent_userCode : ∀ s ∈ halfSent, s.All UserCode := by
  have hn : (⟨none, none, none, none⟩ : Callbacks Unit Unit).All UserCode := fun f hf => by simp at hf
  intro s hs
  simp only [halfSent, List.mem_cons, List.not_mem_nil, or_false] at hs
  rcases hs with rfl | rfl | rfl | rfl | rfl | rfl | rfl | rfl
  · trivial
  · exact hn
  · exact .send _
  · exact hn
  · exact .shutdown fun f hf => absurd hf (Option.some_ne_none f).symm
  · exact hn
  · trivial
  · exact hn

theorem handed_prefix_and_flushed_halfSent :
    let pre : List (Event Unit) := [.accepted (str "abc"), .handed (str "ab"), .shutdownInLoop,
      .handed (str "c"), .release .handleWriteDrained false, .releaseInLoop]
    handed (pre.take 2) <+: accepted (pre.take 2) ∧ acceptedBeforeShutdown pre <+: handed pre := by
  have h := handed_prefix_and_flushed 1 true () none halfSent halfSent_userCode
  have hl : (run halfSent (new 1 true () none)).state.log = [.accepted (str "abc"), .handed (str "ab"),
      .shutdownInLoop, .handed (str "c"), .release .handleWriteDrained false, .releaseInLoop, .closed,
      .srvClosedCallback, .erased] := rfl
  rw [hl] at h
  exact ⟨h.1 _ ⟨_, rfl⟩, h.2 _ ⟨_, rfl⟩ (by simp [Event.Abrupt])⟩

end Connection

end Mudou
