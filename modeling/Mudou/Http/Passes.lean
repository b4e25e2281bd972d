import Mathlib.Logic.Relation
import Mudou.Http.BodyLength
import Mudou.Http.Stream

/-!
# The passes of the message callback

The loop of `OnMessage`, `Shutdown`, `ShutdownInLoop` and the message callback
without fuel: `Leads` from one pass of the loop to the next or to the first of
a nested call, and `Runs`, the calls that come to an end.

A connection that begins a call waits for a request or for the rest of one
(`Waits`). A pass that completes a request then takes at least a byte
(`Waits.length_lt`): in the state of the body because the body is still too
short. `onMessage_terminates`: every pass has fewer bytes to read than the one
that led to it, and every call comes to an end.
-/

namespace Mudou

open Fifo Outcome Connection

namespace HttpContext

variable {ctx ctx' : HttpContext} {buf buf' : Bytes}

/-- What a context can be when `OnMessage` begins. -/
inductive Waits : HttpContext → Prop where
  | new : Waits .new
  | more {ctx ctx' : HttpContext} {buf buf' : Bytes} : Waits ctx →
      ctx.recvHttpRequest buf = .ok (ctx', buf') → ctx'.respStatu < 400 → ctx'.recvStatu ≠ .recvHttpOver →
      Waits ctx'

theorem Waits.resting (h : ctx.Waits) : ctx.Resting := by
  induction h with
  | new => exact new_resting
  | more _ e _ _ ih => exact ih.recvHttpRequest e

theorem Waits.not_over (h : ctx.Waits) : ctx.recvStatu ≠ .recvHttpOver := by
  cases h with
  | new => decide
  | more _ _ _ ho => exact ho

/-! ## The bytes that are taken -/

theorem length_recvHttpLine (ctx : HttpContext) (buf : Bytes) : (ctx.recvHttpLine buf).2.length ≤ buf.length := by
  have hl := length_popLine_snd_le lf buf
  unfold recvHttpLine
  split
  · exact Nat.le_refl _
  · simp only
    split
    · split <;> exact hl
    · split
      · exact hl
      · split <;> exact hl

theorem length_le (e : ctx.recvHttpRequest buf = .ok (ctx', buf')) : buf'.length ≤ buf.length := by
  by_cases h : ctx.recvStatu = .recvHttpLine
  · rw [recvHttpRequest_line h] at e
    exact (length_recvHttpBody e).trans ((length_recvHttpHead ..).trans (length_recvHttpLine ..))
  · exact length_recvHttpRequest h e

/-- The empty line is read. -/
theorem length_recvHttpHead_lt (h : ctx.recvStatu = .recvHttpHead)
    (hb : (ctx.recvHttpHead buf).1.recvStatu = .recvHttpBody) : (ctx.recvHttpHead buf).2.length < buf.length := by
  rw [recvHttpHead_eq h] at hb ⊢
  by_cases h₀ : (popLine lf buf).1.length = 0
  · rw [if_pos h₀] at hb
    split at hb
    · cases hb
    · rw [h] at hb
      cases hb
  · have hlt := length_popLine_snd_lt h₀
    rw [if_neg h₀]
    split
    · exact hlt
    · split
      · exact hlt
      · split
        · exact hlt
        · exact (length_recvHttpHead ..).trans_lt hlt

/-- A request that is complete has taken a byte since the call began. -/
theorem Waits.length_lt (h : ctx.Waits) (e : ctx.recvHttpRequest buf = .ok (ctx', buf'))
    (hr : ctx'.respStatu < 400) (ho : ctx'.recvStatu = .recvHttpOver) : buf'.length < buf.length := by
  cases hs : ctx.recvStatu with
  | recvHttpLine =>
    have hlt := (size_recvHttpRequest e hr).2 ho
    rwa [size, if_pos hs] at hlt
  | recvHttpHead =>
    rw [recvHttpRequest_head hs] at e
    by_cases hb : (ctx.recvHttpHead buf).1.recvStatu = .recvHttpBody
    · exact (length_recvHttpBody e).trans_lt (length_recvHttpHead_lt hs hb)
    · rw [recvHttpBody_of_ne hb] at e
      obtain ⟨rfl, rfl⟩ := Prod.mk.inj (Except.ok.inj e)
      rw [recvHttpHead, if_neg (not_not_intro hs)] at ho
      rcases recvHeadLoop_statu (buf.length + 1) ctx buf hs with hst | ⟨-, hst | hst⟩
      all_goals
        rw [hst] at ho
        cases ho
  | recvHttpBody =>
    rw [recvHttpRequest_body hs] at e
    obtain ⟨n, hc, hl⟩ := h.resting.body hs
    rw [recvHttpBody_eq hs hc hl.le] at e
    split at e
    · next hle =>
      obtain ⟨-, rfl⟩ := Prod.mk.inj (Except.ok.inj e)
      rw [List.length_drop]
      omega
    · obtain ⟨rfl, -⟩ := Prod.mk.inj (Except.ok.inj e)
      exact absurd (hs.symm.trans ho) (by decide)
  | recvHttpError | recvHttpOver =>
    rw [recvHttpRequest, hs] at e
    obtain ⟨rfl, -⟩ := Prod.mk.inj (Except.ok.inj e)
    exact absurd ho h.not_over

end HttpContext

namespace HttpServer

variable (srv : HttpServer)

/-! ## The recursion -/

/-- The connection as `ShutdownInLoop` passes it to the message callback. -/
def closing (c : HttpConnection) : HttpConnection := (c.record (.note (.shutdown c.inBuffer))).beginShutdown

/-- The pass at `c` answers a request; whether it then closes the connection. -/
inductive Serves : HttpConnection → Bool → HttpConnection → Prop where
  | intro {c : HttpConnection} {context : HttpContext} {inBuffer : Bytes} {req : HttpRequest} {rsp : HttpResponse} :
      c.inBuffer ≠ [] → c.context.recvHttpRequest c.inBuffer = .ok (context, inBuffer) →
      context.respStatu < 400 → context.recvStatu = .recvHttpOver →
      srv.route (served c.log) context.request (.new context.respStatu) = some (req, rsp) →
      Serves c (completeHeaders req rsp).close (srv.answer req rsp (receive context inBuffer c))

/-- The pass at `c` answers a parse error. -/
inductive Fails : HttpConnection → HttpConnection → Prop where
  | intro {c : HttpConnection} {context : HttpContext} {inBuffer : Bytes} : c.inBuffer ≠ [] →
      c.context.recvHttpRequest c.inBuffer = .ok (context, inBuffer) → 400 ≤ context.respStatu →
      Fails c (srv.answerError context inBuffer c)

/-- `OnMessage` comes to an end. `ShutdownInLoop` calls it only with bytes in
the input buffer; without, the call would return at once. -/
inductive Runs : HttpConnection → Outcome HttpConnection → Prop where
  | empty {c : HttpConnection} : c.inBuffer = [] → Runs c (ok c)
  | exception {c : HttpConnection} {e : StolError} : c.inBuffer ≠ [] →
      c.context.recvHttpRequest c.inBuffer = .error e → Runs c (stopped (c.record (.note (.parsed (.exception e)))))
  | more {c : HttpConnection} {context : HttpContext} {inBuffer : Bytes} : c.inBuffer ≠ [] →
      c.context.recvHttpRequest c.inBuffer = .ok (context, inBuffer) → context.respStatu < 400 →
      context.recvStatu ≠ .recvHttpOver → Runs c (ok { c with context, inBuffer })
  | threw {c : HttpConnection} {context : HttpContext} {inBuffer : Bytes} : c.inBuffer ≠ [] →
      c.context.recvHttpRequest c.inBuffer = .ok (context, inBuffer) → context.respStatu < 400 →
      context.recvStatu = .recvHttpOver →
      srv.route (served c.log) context.request (.new context.respStatu) = none →
      Runs c (stopped ((receive context inBuffer c).record (.note .threw)))
  | error {c d e : HttpConnection} : Fails srv c d → Runs (closing d) (ok e) → Runs c (ok e.endShutdown)
  | errorStopped {c d e : HttpConnection} : Fails srv c d → Runs (closing d) (stopped e) → Runs c (stopped e)
  | next {c d : HttpConnection} {o : Outcome HttpConnection} : Serves srv c false d → Runs d o → Runs c o
  | shutdown {c d e : HttpConnection} {o : Outcome HttpConnection} : Serves srv c true d →
      Runs (closing d) (ok e) → Runs e.endShutdown o → Runs c o
  | shutdownStopped {c d e : HttpConnection} : Serves srv c true d → Runs (closing d) (stopped e) →
      Runs c (stopped e)

/-- The pass at `c` leads to the one at `d`: in a nested call, or in the next
round of the loop. -/
inductive Leads : HttpConnection → HttpConnection → Prop where
  | error {c d : HttpConnection} : Fails srv c d → (closing d).inBuffer ≠ [] → Leads c (closing d)
  | nested {c d : HttpConnection} : Serves srv c true d → (closing d).inBuffer ≠ [] → Leads c (closing d)
  | afterShutdown {c d e : HttpConnection} : Serves srv c true d → Runs srv (closing d) (ok e) →
      Leads c e.endShutdown
  | next {c d : HttpConnection} : Serves srv c false d → Leads c d

variable {srv} {c d : HttpConnection} {o : Outcome HttpConnection}

/-! ## What a pass leaves -/

theorem Serves.lt {close : Bool} (h : Serves srv c close d) (hw : c.context.Waits) :
    d.context = .new ∧ d.inBuffer.length < c.inBuffer.length := by
  cases h with
  | @intro context inBuffer req rsp _ e hr ho _ =>
    refine ⟨rfl, ?_⟩
    rw [(srv.at_answer req rsp context inBuffer c).2.1]
    exact hw.length_lt e hr ho

theorem Fails.empty (h : Fails srv c d) : d.context = .new ∧ d.inBuffer = [] := by
  cases h with
  | intro => exact ⟨rfl, rfl⟩

/-- A call leaves a context that waits, and no more bytes than there were. -/
theorem Runs.left (h : Runs srv c o) (hw : c.context.Waits) (hd : o = ok d) :
    d.context.Waits ∧ d.inBuffer.length ≤ c.inBuffer.length := by
  induction h generalizing d with
  | empty =>
    cases hd
    exact ⟨hw, Nat.le_refl _⟩
  | exception | threw | errorStopped | shutdownStopped => cases hd
  | more _ e hr ho =>
    cases hd
    exact ⟨.more hw e hr ho, HttpContext.length_le e⟩
  | @error c d e hf _ ih =>
    cases hd
    obtain ⟨hc, hb⟩ := hf.empty
    have hend := same_endShutdown e
    obtain ⟨hw', hl⟩ := ih (show d.context.Waits from hc ▸ .new) rfl
    rw [show (closing d).inBuffer = [] from hb] at hl
    rw [hend.context, hend.inBuffer]
    exact ⟨hw', hl.trans (Nat.zero_le _)⟩
  | next hs _ ih =>
    obtain ⟨hc, hlt⟩ := hs.lt hw
    obtain ⟨hw', hl⟩ := ih (hc ▸ .new) hd
    exact ⟨hw', hl.trans hlt.le⟩
  | @shutdown c d₁ e o hs _ _ ih₁ ih₂ =>
    obtain ⟨hc, hlt⟩ := hs.lt hw
    have hend := same_endShutdown e
    obtain ⟨hw₁, hl₁⟩ := ih₁ (show d₁.context.Waits from hc ▸ .new) rfl
    obtain ⟨hw₂, hl₂⟩ := ih₂ (hend.context ▸ hw₁) hd
    rw [hend.inBuffer] at hl₂
    exact ⟨hw₂, hl₂.trans (hl₁.trans hlt.le)⟩

theorem Leads.lt (h : Leads srv c d) (hw : c.context.Waits) :
    d.context.Waits ∧ d.inBuffer.length < c.inBuffer.length := by
  cases h with
  | error hf hne => exact absurd hf.empty.2 hne
  | @nested d hs _ =>
    obtain ⟨hc, hlt⟩ := hs.lt hw
    exact ⟨show d.context.Waits from hc ▸ .new, hlt⟩
  | @afterShutdown d e hs hr =>
    obtain ⟨hc, hlt⟩ := hs.lt hw
    obtain ⟨hw', hl⟩ := hr.left (show d.context.Waits from hc ▸ .new) rfl
    have hend := same_endShutdown e
    rw [hend.context, hend.inBuffer]
    exact ⟨hw', hl.trans_lt hlt⟩
  | next hs =>
    obtain ⟨hc, hlt⟩ := hs.lt hw
    exact ⟨hc ▸ .new, hlt⟩

/-! ## Termination -/

theorem shutdown_eq (f : Callback HttpContext HttpEvent) (c : HttpConnection) : HttpServer.shutdown f c =
    (if 0 < (closing c).inBuffer.length then f (closing c) else ok (closing c)).andThen
      fun d => ok d.endShutdown :=
  shutdownInLoop_eq ..

/-- The loop with more fuel than bytes. -/
theorem runs_onMessageLoop (fuel : Nat) : ∀ {c : HttpConnection}, c.context.Waits → c.inBuffer.length < fuel →
    Runs srv c (srv.onMessageLoop fuel c) := by
  induction fuel with
  | zero => exact fun _ hn => absurd hn (Nat.not_lt_zero _)
  | succ fuel ih =>
    intro c hw hn
    have hnested : ∀ {d : HttpConnection}, d.context = .new → d.inBuffer.length < fuel →
        Runs srv (closing d) (if 0 < (closing d).inBuffer.length then srv.onMessageLoop fuel (closing d)
          else ok (closing d)) := by
      intro d hc hlt
      split
      · exact ih (show d.context.Waits from hc ▸ .new) hlt
      · next h0 => exact .empty (List.length_eq_zero_iff.mp (Nat.eq_zero_of_not_pos h0))
    rw [onMessageLoop]
    by_cases h0 : c.inBuffer.length = 0
    · rw [if_pos h0]
      exact .empty (List.length_eq_zero_iff.mp h0)
    · have hne : c.inBuffer ≠ [] := fun e => h0 (List.length_eq_zero_iff.mpr e)
      rw [if_neg h0]
      cases e : c.context.recvHttpRequest c.inBuffer with
      | error err => exact .exception hne e
      | ok r =>
        obtain ⟨context, inBuffer⟩ := r
        simp only
        by_cases hr : 400 ≤ context.respStatu
        · rw [if_pos hr, shutdown_eq]
          have hf : Fails srv c (srv.answerError context inBuffer c) := .intro hne e hr
          obtain ⟨hc, hb⟩ := hf.empty
          have hx := hnested hc (by rw [hb]; exact (Nat.pos_of_ne_zero h0).trans_le (Nat.le_of_lt_succ hn))
          generalize (if 0 < (closing (srv.answerError context inBuffer c)).inBuffer.length then _ else _) = o at hx ⊢
          cases o with
          | ok d => exact .error hf hx
          | stopped d => exact .errorStopped hf hx
        · have hr' := Int.not_le.mp hr
          rw [if_neg hr]
          by_cases ho : context.recvStatu = .recvHttpOver
          · rw [if_neg (not_not_intro ho)]
            cases hroute : srv.route (served c.log) context.request (.new context.respStatu) with
            | none => exact .threw hne e hr' ho hroute
            | some r =>
              obtain ⟨req, rsp⟩ := r
              have hs : Serves srv c (completeHeaders req rsp).close (srv.answer req rsp (receive context inBuffer c)) :=
                .intro hne e hr' ho hroute
              simp only
              generalize srv.answer req rsp (receive context inBuffer c) = d at hs
              obtain ⟨hc, hlt⟩ := hs.lt hw
              have hlt := hlt.trans_le (Nat.le_of_lt_succ hn)
              cases hclose : (completeHeaders req rsp).close with
              | false =>
                rw [hclose] at hs
                exact .next hs (ih (hc ▸ .new) hlt)
              | true =>
                rw [hclose] at hs
                rw [if_pos rfl, shutdown_eq]
                have hx := hnested hc hlt
                generalize (if 0 < (closing d).inBuffer.length then _ else _) = o at hx ⊢
                cases o with
                | stopped e => exact .shutdownStopped hs hx
                | ok e =>
                  have hl := (Leads.afterShutdown hs hx).lt hw
                  exact .shutdown hs hx (ih hl.1 (hl.2.trans_le (Nat.le_of_lt_succ hn)))
          · rw [if_pos ho]
            exact .more hne e hr' ho

theorem runs_onMessage (srv : HttpServer) {c : HttpConnection} (h : c.context.Waits) :
    Runs srv c (srv.onMessage c) := runs_onMessageLoop _ h (by omega)

/-- Whatever is in the input buffer, `OnMessage` comes to an end, and each of
its passes, those of nested calls included, has fewer bytes to read than the
pass that led to it. -/
theorem onMessage_terminates (srv : HttpServer) (c : HttpConnection) (h : c.context.Waits) :
    Runs srv c (srv.onMessage c) ∧ ∀ d e, Relation.ReflTransGen (Leads srv) c d → Leads srv d e →
      e.inBuffer.length < d.inBuffer.length := by
  have hd : ∀ d, Relation.ReflTransGen (Leads srv) c d → d.context.Waits := by
    intro d hcd
    induction hcd with
    | refl => exact h
    | tail _ hl ih => exact (hl.lt ih).1
  exact ⟨runs_onMessage srv h, fun d e hcd hde => (hde.lt (hd d hcd)).2⟩

/-- A request that closes the connection, and part of another. -/
theorem onMessage_terminates_nested :
    let c : HttpConnection := { (new 1 true .new none) with inBuffer := str "GET /a HTTP/1.1\r\n\r\nGET /b" }
    Runs noRoutes c (noRoutes.onMessage c) ∧ ∀ d e, Relation.ReflTransGen (Leads noRoutes) c d →
      Leads noRoutes d e → e.inBuffer.length < d.inBuffer.length :=
  onMessage_terminates noRoutes _ .new

/-! ## Every run -/

/-- Unless a handler has thrown. -/
def WaitsSo (context : HttpContext) (ns : List HttpEvent) : Prop := .threw ∉ ns → context.Waits

theorem waits_messagePreserved (srv : HttpServer) :
    MessagePreserved srv fun c => WaitsSo c.context (notes c.log) where
  more h e hr ho hn := .more (h hn) e hr ho
  exception {c e} h _ hn := by
    rw [notes_record] at hn
    exact h fun hm => hn (List.mem_append_left _ hm)
  error _ _ _ _ := .new
  threw {c context inBuffer} _ _ _ _ _ hn := by
    rw [notes_record] at hn
    exact absurd (List.mem_append_right _ (List.mem_singleton_self _)) hn
  answer _ _ _ _ _ _ := .new
  shutdown {c} h _ hn := by
    rw [notes_record] at hn
    exact h fun hm => hn (List.mem_append_left _ hm)
  diverged {c} h hn := by
    rw [notes_record] at hn
    exact h fun hm => hn (List.mem_append_left _ hm)
  beginShutdown {c} h := (unnoted_beginShutdown c).of (P := WaitsSo) h
  endShutdown {c} h := (unnoted_endShutdown c).of (P := WaitsSo) h

/-- In every run of a connection, until a handler throws. -/
theorem waits_run (srv : HttpServer) (connId : UInt64) (onBaseLoop : Bool) (context : HttpContext)
    (timeout : Option UInt32) (steps : List (Step HttpContext HttpEvent)) (hs : ∀ s ∈ steps, s.OfServer srv) :
    let c := (run (srv.firstTasks ++ steps) (new connId onBaseLoop context timeout)).state
    .threw ∉ notes c.log → c.context.Waits := by
  obtain ⟨c₀, e, -, hc₀, -, -, -⟩ := run_firstTasks srv connId onBaseLoop context timeout
  have h₀ : WaitsSo c₀.context (notes c₀.log) := fun _ => hc₀ ▸ .new
  intro c
  have hc : c = (run steps c₀).state := by
    show (run (srv.firstTasks ++ steps) _).state = _
    rw [run, Outcome.runAll_append, ← run, e]
    rfl
  rw [hc]
  exact (waits_messagePreserved srv).rounds.keeps_run
    (loopPreserved_notes WaitsSo) (fun c _ _ _ => .new) hs c₀ h₀

/-! ## Every stream -/

/-- While the chunks arrive at `c`, `OnMessage` is in a pass at `d`. -/
def PassOf (srv : HttpServer) (c : HttpConnection) (chunks : List Bytes) (d : HttpConnection) : Prop :=
  ∃ xs x ys c₁, chunks = xs ++ x :: ys ∧ srv.feed xs c = ok c₁ ∧
    Relation.ReflTransGen (Leads srv) { c₁ with inBuffer := c₁.inBuffer ++ x } d

/-- A connection at which the first bytes have arrived. -/
def arrived (data : Bytes) : HttpConnection := { (new 1 true .new none) with inBuffer := data }

theorem passOf_arrived (srv : HttpServer) (data : Bytes) : srv.PassOf (new 1 true .new none) [data] (arrived data) :=
  ⟨[], _, [], _, rfl, rfl, .refl⟩

theorem waits_feed (srv : HttpServer) (chunks : List Bytes) : ∀ {c d : HttpConnection}, c.context.Waits →
    srv.feed chunks c = ok d → d.context.Waits := by
  induction chunks with
  | nil =>
    intro c d hw e
    cases e
    exact hw
  | cons x chunks ih =>
    intro c d hw e
    rw [feed, runAll] at e
    cases hx : srv.arrive x c with
    | stopped c₁ =>
      rw [hx] at e
      cases e
    | ok c₁ =>
      rw [hx] at e
      have hc : ({ c with inBuffer := c.inBuffer ++ x } : HttpConnection).context.Waits := hw
      have hr : Runs srv _ (srv.onMessage { c with inBuffer := c.inBuffer ++ x }) := runs_onMessage srv hc
      exact ih (hr.left hc hx).1 e

theorem PassOf.waits {c d : HttpConnection} {chunks : List Bytes} (h : srv.PassOf c chunks d)
    (hw : c.context.Waits) : d.context.Waits := by
  obtain ⟨xs, x, ys, c₁, -, e, hd⟩ := h
  have h₁ := waits_feed srv xs hw e
  induction hd with
  | refl => exact h₁
  | tail _ hl ih => exact (hl.lt ih).1

end HttpServer

end Mudou
