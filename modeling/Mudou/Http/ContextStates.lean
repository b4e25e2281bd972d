import Mudou.Http.BodyLength

/-!
# The states of a context

What `_recv_statu` says of the status and of the request, whatever bytes the
context has been given. `RecvHttpRequest` is a sequence of three steps, each
of which leaves one state. The request line and the header lines keep the
invariant, except that at the end of the header lines the body may be long
enough already (`AtBody`); `RecvHttpBody` settles that.

`reachable_ordered`: the invariant holds in every state.
-/

namespace Mudou.HttpContext

open Fifo

variable {ctx ctx' : HttpContext} {buf buf' : Bytes}

/-- What the constructor, `RecvHttpRequest` and `ReSet` lead to. -/
inductive Reachable : HttpContext → Prop where
  | new : Reachable .new
  | recvHttpRequest {ctx ctx' : HttpContext} {buf buf' : Bytes} : Reachable ctx →
      ctx.recvHttpRequest buf = .ok (ctx', buf') → Reachable ctx'
  | reSet {ctx : HttpContext} : Reachable ctx → Reachable ctx.reSet

/-- What the request is in each state. After an error it is what was read. -/
def RequestIn : HttpRecvStatu → HttpRequest → Prop
  | .recvHttpError, _ => True
  | .recvHttpLine, r => r = .new
  | .recvHttpHead, r => r.body = []
  | .recvHttpBody, r => ∃ n, r.contentLength = .ok n ∧ r.body.length < n
  | .recvHttpOver, r => r.contentLength = .ok r.body.length

structure Ordered (ctx : HttpContext) : Prop where
  error : ctx.recvStatu = .recvHttpError ↔ 400 ≤ ctx.respStatu
  ok : ctx.recvStatu ≠ .recvHttpError → ctx.respStatu = 200
  request : RequestIn ctx.recvStatu ctx.request

/-- The header lines are read, and nothing of the body. -/
structure AtBody (ctx : HttpContext) : Prop where
  recvStatu : ctx.recvStatu = .recvHttpBody
  respStatu : ctx.respStatu = 200
  body : ctx.request.body = []

/-! ## Each state -/

theorem ordered_fail (ctx : HttpContext) {statu : Int} (h : 400 ≤ statu) : (ctx.fail statu).Ordered :=
  ⟨iff_of_true rfl h, fun hs => absurd rfl hs, trivial⟩

theorem ordered_of_ne (hs : ctx.recvStatu ≠ .recvHttpError) (hr : ctx.respStatu = 200)
    (h : RequestIn ctx.recvStatu ctx.request) : ctx.Ordered :=
  ⟨iff_of_false hs (by omega), fun _ => hr, h⟩

theorem ordered_new : Ordered .new := ordered_of_ne (by decide) rfl rfl

theorem ordered_head (h : ctx.recvStatu = .recvHttpHead) (hr : ctx.respStatu = 200)
    (hb : ctx.request.body = []) : ctx.Ordered :=
  ordered_of_ne (by simp [h]) hr (by rw [h]; exact hb)

theorem ordered_body (h : ctx.recvStatu = .recvHttpBody) (hr : ctx.respStatu = 200) {n : Nat}
    (hc : ctx.request.contentLength = .ok n) (hl : ctx.request.body.length < n) : ctx.Ordered :=
  ordered_of_ne (by simp [h]) hr (by rw [h]; exact ⟨n, hc, hl⟩)

theorem ordered_over (h : ctx.recvStatu = .recvHttpOver) (hr : ctx.respStatu = 200)
    (hc : ctx.request.contentLength = .ok ctx.request.body.length) : ctx.Ordered :=
  ordered_of_ne (by simp [h]) hr (by rw [h]; exact hc)

/-! ## Each step -/

theorem Ordered.recvHttpLine (h : ctx.Ordered) (buf : Bytes) : (ctx.recvHttpLine buf).1.Ordered := by
  by_cases hs : ctx.recvStatu = .recvHttpLine
  · have hr := h.ok (by simp [hs])
    have hn : ctx.request = .new := by simpa only [hs, RequestIn] using h.request
    have hb : (ctx.recvHttpLine buf).1.request.body = [] :=
      emptyBody_carried.recvHttpLine (fun _ _ _ h => h) (by rw [hn]; rfl) buf
    rcases recvHttpLine_cases hs buf with e | ⟨ctx₁, statu, b, h400, e⟩ | ⟨request, b, -, -, e⟩
    · rw [e]
      exact h
    · rw [e]
      exact ordered_fail ctx₁ h400
    · rw [e] at hb ⊢
      exact ordered_head rfl hr hb
  · rw [HttpContext.recvHttpLine, if_pos hs]
    exact h

theorem recvHeadLoop_ordered (fuel : Nat) : ∀ (ctx : HttpContext) (buf : Bytes),
    ctx.recvStatu = .recvHttpHead → ctx.respStatu = 200 → ctx.request.body = [] →
      (recvHeadLoop fuel ctx buf).1.Ordered ∨ (recvHeadLoop fuel ctx buf).1.AtBody := by
  induction fuel with
  | zero => exact fun _ _ hs hr hb => .inl (ordered_head hs hr hb)
  | succ fuel ih =>
    intro ctx buf hs hr hb
    unfold recvHeadLoop
    simp only
    split
    · split
      · exact .inl (ordered_fail ctx (by decide))
      · exact .inl (ordered_head hs hr hb)
    · split
      · exact .inl (ordered_fail ctx (by decide))
      · split
        · exact .inr ⟨rfl, hr, hb⟩
        · rcases parseHttpHead_cases ctx (popLine lf buf).1 with ⟨request, e⟩ | e
          · have hb' : (ctx.parseHttpHead (popLine lf buf).1).1.request.body = [] :=
              emptyBody_carried.parseHttpHead hb _
            rw [e] at hb' ⊢
            exact ih { ctx with request } _ hs hr hb'
          · rw [e]
            exact .inl (ordered_fail ctx (by decide))

theorem Ordered.recvHttpHead (h : ctx.Ordered) (buf : Bytes) :
    (ctx.recvHttpHead buf).1.Ordered ∨ (ctx.recvHttpHead buf).1.AtBody := by
  by_cases hs : ctx.recvStatu = .recvHttpHead
  · have hb : ctx.request.body = [] := by simpa only [hs, RequestIn] using h.request
    rw [HttpContext.recvHttpHead, if_neg (not_not_intro hs)]
    exact recvHeadLoop_ordered _ _ _ hs (h.ok (by simp [hs])) hb
  · rw [HttpContext.recvHttpHead, if_pos hs]
    exact .inl h

/-- A body that is not longer than its length. -/
theorem recvHttpBody_ordered (hs : ctx.recvStatu = .recvHttpBody) (hr : ctx.respStatu = 200) {n : Nat}
    (hc : ctx.request.contentLength = .ok n) (hl : ctx.request.body.length ≤ n)
    (e : ctx.recvHttpBody buf = .ok (ctx', buf')) : ctx'.Ordered := by
  rw [recvHttpBody_eq hs hc hl] at e
  split at e
  · cases e
    refine ordered_over rfl hr (hc.trans ?_)
    simp only [appendBody, List.length_append, List.length_take]
    congr 1
    omega
  · cases e
    refine ordered_body hs hr hc ?_
    simp only [appendBody, List.length_append]
    omega

theorem Ordered.recvHttpBody (h : ctx.Ordered) (e : ctx.recvHttpBody buf = .ok (ctx', buf')) : ctx'.Ordered := by
  by_cases hs : ctx.recvStatu = .recvHttpBody
  · obtain ⟨n, hc, hl⟩ : ∃ n, ctx.request.contentLength = .ok n ∧ ctx.request.body.length < n := by
      simpa only [hs, RequestIn] using h.request
    exact recvHttpBody_ordered hs (h.ok (by simp [hs])) hc hl.le e
  · rw [recvHttpBody_of_ne hs] at e
    cases e
    exact h

theorem AtBody.recvHttpBody (h : ctx.AtBody) (e : ctx.recvHttpBody buf = .ok (ctx', buf')) : ctx'.Ordered := by
  cases hc : ctx.request.contentLength with
  | error err =>
    rw [recvHttpBody_error h.recvStatu hc] at e
    cases e
  | ok n => exact recvHttpBody_ordered h.recvStatu h.respStatu hc (by simp [h.body]) e

theorem Ordered.recvHttpRequest (h : ctx.Ordered) (e : ctx.recvHttpRequest buf = .ok (ctx', buf')) :
    ctx'.Ordered := by
  have hhead : ∀ {c : HttpContext} {b : Bytes}, c.Ordered →
      (c.recvHttpHead b).1.recvHttpBody (c.recvHttpHead b).2 = .ok (ctx', buf') → ctx'.Ordered := by
    intro c b hc e
    rcases hc.recvHttpHead b with hc | hc
    · exact hc.recvHttpBody e
    · exact hc.recvHttpBody e
  cases hs : ctx.recvStatu with
  | recvHttpLine =>
    rw [recvHttpRequest_line hs] at e
    exact hhead (h.recvHttpLine buf) e
  | recvHttpHead =>
    rw [recvHttpRequest_head hs] at e
    exact hhead h e
  | recvHttpBody =>
    rw [recvHttpRequest_body hs] at e
    exact h.recvHttpBody e
  | recvHttpError | recvHttpOver =>
    rw [HttpContext.recvHttpRequest, hs] at e
    cases e
    exact h

/-! ## Every state -/

theorem reachable_ordered (h : ctx.Reachable) : ctx.Ordered := by
  induction h with
  | new | reSet => exact ordered_new
  | recvHttpRequest _ e ih => exact ih.recvHttpRequest e

/-- Two of the three bytes of a body. -/
theorem reachable_ordered_twoOfThree : ∃ ctx buf, new.recvHttpRequest
    (str "POST /a HTTP/1.1\r\nContent-Length: 3\r\n\r\nab") = .ok (ctx, buf) ∧
      ctx.recvStatu = .recvHttpBody ∧ ctx.Ordered := by
  have h : ∃ ctx buf, new.recvHttpRequest (str "POST /a HTTP/1.1\r\nContent-Length: 3\r\n\r\nab") = .ok (ctx, buf) ∧
      ctx.recvStatu = .recvHttpBody := ⟨_, _, by rfl, by decide +kernel⟩
  obtain ⟨ctx, buf, e, hs⟩ := h
  exact ⟨ctx, buf, e, hs, reachable_ordered (.recvHttpRequest .new e)⟩

end Mudou.HttpContext
