import Mudou.Http.ContextStates
import Mudou.Http.Passes

/-!
# What is left unparsed

`OnMessage` returns with the input buffer empty, or with the beginning of a
line that is not too long yet (`Unparsed`). `RecvHttpLine` and `RecvHttpHead`
ask for more bytes only then, and `RecvHttpBody` only once it has taken all
there are.

`onMessage_unparsed`: over every stream, that is what each call leaves,
those that `ShutdownInLoop` makes included.
-/

namespace Mudou

open Fifo Outcome Connection

namespace HttpContext

variable {ctx ctx' : HttpContext} {buf buf' : Bytes}

structure Unparsed (ctx : HttpContext) (buf : Bytes) : Prop where
  length : buf.length ≤ maxLine
  line : buf ≠ [] → (ctx.recvStatu = .recvHttpLine ∨ ctx.recvStatu = .recvHttpHead) ∧ lf ∉ buf

theorem unparsed_nil (ctx : HttpContext) : ctx.Unparsed [] := ⟨Nat.zero_le _, fun h => absurd rfl h⟩

/-- A line that is not complete, and not too long. -/
theorem unparsed_popLine (hs : ctx.recvStatu = .recvHttpLine ∨ ctx.recvStatu = .recvHttpHead)
    (h₀ : (popLine lf buf).1.length = 0) (hl : ¬ maxLine < (popLine lf buf).2.length) :
    ctx.Unparsed (popLine lf buf).2 := by
  have hm : lf ∉ buf := fun hm => popLine_ne_zero hm h₀
  refine ⟨Nat.not_lt.mp hl, fun _ => ⟨hs, ?_⟩⟩
  rw [popLine_of_not_mem hm]
  exact hm

theorem recvHttpLine_unparsed (hs : ctx.recvStatu = .recvHttpLine)
    (h : (ctx.recvHttpLine buf).1.recvStatu = .recvHttpLine) :
    (ctx.recvHttpLine buf).1.Unparsed (ctx.recvHttpLine buf).2 := by
  rw [recvHttpLine_eq hs] at h ⊢
  by_cases h₀ : (popLine lf buf).1.length = 0
  · by_cases hl : maxLine < (popLine lf buf).2.length
    · rw [if_pos h₀, if_pos hl] at h
      cases h
    · rw [if_pos h₀, if_neg hl]
      exact unparsed_popLine (.inl hs) h₀ hl
  · by_cases hl : maxLine < (popLine lf buf).1.length
    · rw [if_neg h₀, if_pos hl] at h
      cases h
    · rw [if_neg h₀, if_neg hl] at h
      rcases parseHttpLine_cases ctx (popLine lf buf).1 with ⟨request, e⟩ | ⟨request, e⟩
      · rw [e] at h
        cases h
      · rw [e] at h
        cases h

/-- By induction on the bytes: each header line takes some. -/
theorem recvHttpHead_unparsed (n : Nat) : ∀ {ctx : HttpContext} {buf : Bytes}, buf.length ≤ n →
    ctx.recvStatu = .recvHttpHead → (ctx.recvHttpHead buf).1.recvStatu = .recvHttpHead →
      (ctx.recvHttpHead buf).1.Unparsed (ctx.recvHttpHead buf).2 := by
  induction n using Nat.strong_induction_on with
  | _ n ih =>
    intro ctx buf hn hs h
    rw [recvHttpHead_eq hs] at h ⊢
    by_cases h₀ : (popLine lf buf).1.length = 0
    · by_cases hl : maxLine < (popLine lf buf).2.length
      · rw [if_pos h₀, if_pos hl] at h
        cases h
      · rw [if_pos h₀, if_neg hl]
        exact unparsed_popLine (.inr hs) h₀ hl
    · have hlen := length_popLine_snd_lt h₀
      rw [if_neg h₀] at h ⊢
      by_cases hl : maxLine < (popLine lf buf).1.length
      · rw [if_pos hl] at h
        cases h
      · rw [if_neg hl] at h ⊢
        by_cases hb : (popLine lf buf).1 = str "\n" ∨ (popLine lf buf).1 = str "\r\n"
        · rw [if_pos hb] at h
          cases h
        · rw [if_neg hb] at h ⊢
          rcases parseHttpHead_cases ctx (popLine lf buf).1 with ⟨request, e⟩ | e
          · simp only [e] at h ⊢
            exact ih (popLine lf buf).2.length (by omega) (Nat.le_refl _) hs h
          · simp only [e] at h
            cases h

theorem recvHttpBody_unparsed (hs : ctx.recvStatu = .recvHttpBody) (e : ctx.recvHttpBody buf = .ok (ctx', buf'))
    (ho : ctx'.recvStatu ≠ .recvHttpOver) : buf' = [] := by
  unfold recvHttpBody at e
  rw [if_neg (not_not_intro hs)] at e
  split at e
  · cases e
  · simp only at e
    split at e
    · cases e
      exact absurd rfl ho
    · split at e
      · cases e
        exact absurd rfl ho
      · cases e
        rfl

/-- From the header lines on. -/
theorem headBody_unparsed (hs : ctx.recvStatu = .recvHttpHead)
    (e : (ctx.recvHttpHead buf).1.recvHttpBody (ctx.recvHttpHead buf).2 = .ok (ctx', buf'))
    (hne : ctx'.recvStatu ≠ .recvHttpError) (ho : ctx'.recvStatu ≠ .recvHttpOver) : ctx'.Unparsed buf' := by
  by_cases hb : (ctx.recvHttpHead buf).1.recvStatu = .recvHttpBody
  · rw [recvHttpBody_unparsed hb e ho]
    exact unparsed_nil ctx'
  · rw [recvHttpBody_of_ne hb] at e
    have hu := recvHttpHead_unparsed buf.length (Nat.le_refl _) hs
    have hst := recvHeadLoop_statu (buf.length + 1) ctx buf hs
    rw [recvHttpHead, if_neg (not_not_intro hs)] at e hu hb
    obtain ⟨rfl, rfl⟩ := Prod.mk.inj (Except.ok.inj e)
    rcases hst with hst | ⟨-, hst | hst⟩
    · exact absurd hst hne
    · exact hu hst
    · exact absurd hst hb

/-- What `RecvHttpRequest` leaves when it asks for more. -/
theorem Ordered.unparsed (h : ctx.Ordered) (e : ctx.recvHttpRequest buf = .ok (ctx', buf'))
    (hr : ctx'.respStatu < 400) (ho : ctx'.recvStatu ≠ .recvHttpOver) : ctx'.Unparsed buf' := by
  have hne : ctx'.recvStatu ≠ .recvHttpError := fun he =>
    absurd ((h.recvHttpRequest e).error.mp he) (Int.not_le.mpr hr)
  cases hs : ctx.recvStatu with
  | recvHttpLine =>
    rcases recvHttpLine_cases hs buf with hl | ⟨ctx₁, statu, b, -, hl⟩ | ⟨request, b, -, -, hl⟩
    · have hu := @recvHttpLine_unparsed ctx buf hs
      rw [hl] at hu
      rw [recvHttpRequest_line_more hs hl] at e
      cases e
      exact hu hs
    · rw [recvHttpRequest_line_fail hs hl] at e
      cases e
      exact absurd rfl hne
    · rw [recvHttpRequest_line hs, hl] at e
      exact headBody_unparsed rfl e hne ho
  | recvHttpHead =>
    rw [recvHttpRequest_head hs] at e
    exact headBody_unparsed hs e hne ho
  | recvHttpBody =>
    rw [recvHttpRequest_body hs] at e
    rw [recvHttpBody_unparsed hs e ho]
    exact unparsed_nil ctx'
  | recvHttpError =>
    rw [HttpContext.recvHttpRequest, hs] at e
    cases e
    exact absurd hs hne
  | recvHttpOver =>
    rw [HttpContext.recvHttpRequest, hs] at e
    cases e
    exact absurd hs ho

theorem Waits.ordered (h : ctx.Waits) : ctx.Ordered := by
  induction h with
  | new => exact ordered_new
  | more _ e _ _ ih => exact ih.recvHttpRequest e

end HttpContext

namespace HttpServer

variable {srv : HttpServer} {c d : HttpConnection} {o : Outcome HttpConnection}

/-! ## Each call -/

/-- By induction on the call and the calls nested in it. -/
theorem Runs.unparsed (h : Runs srv c o) (hw : c.context.Waits) (hd : o = ok d) :
    d.context.Unparsed d.inBuffer := by
  induction h generalizing d with
  | empty h0 =>
    cases hd
    rw [h0]
    exact HttpContext.unparsed_nil _
  | exception | threw | errorStopped | shutdownStopped => cases hd
  | more _ e hr ho =>
    cases hd
    exact hw.ordered.unparsed e hr ho
  | @error c d e hf _ ih =>
    cases hd
    have hend := same_endShutdown e
    rw [hend.context, hend.inBuffer]
    exact ih (show d.context.Waits from hf.empty.1 ▸ .new) rfl
  | next hs _ ih => exact ih ((hs.lt hw).1 ▸ .new) hd
  | @shutdown c d₁ e o hs hr _ _ ih =>
    exact ih (Leads.lt (.afterShutdown hs hr) hw).1 hd

/-- While a stream arrives in any chunks, at a connection that waits for a
request or for the rest of one: whichever pass it is in, a call that returns
leaves at most the beginning of a line. -/
theorem onMessage_unparsed (srv : HttpServer) (c : HttpConnection) (hw : c.context.Waits) (chunks : List Bytes) :
    ∀ d, srv.PassOf c chunks d → ∀ e, Runs srv d (ok e) → e.context.Unparsed e.inBuffer :=
  fun _ hd _ hr => hr.unparsed (hd.waits hw) rfl

/-- A request that closes the connection, with part of another behind it. -/
theorem onMessage_unparsed_partial : ∃ e, noRoutes.onMessage (arrived (str "GET /a HTTP/1.1\r\n\r\nGET /b")) = ok e ∧
    e.inBuffer = str "GET /b" ∧ e.context.Unparsed e.inBuffer := by
  have h : ∃ e, noRoutes.onMessage (arrived (str "GET /a HTTP/1.1\r\n\r\nGET /b")) = ok e ∧
      e.inBuffer = str "GET /b" := ⟨_, by rfl, by decide +kernel⟩
  obtain ⟨e, he, hb⟩ := h
  have hr : Runs noRoutes (arrived _) (ok e) := he ▸ runs_onMessage noRoutes .new
  exact ⟨e, he, hb, onMessage_unparsed noRoutes _ .new _ _ (passOf_arrived noRoutes _) e hr⟩

end HttpServer

end Mudou
