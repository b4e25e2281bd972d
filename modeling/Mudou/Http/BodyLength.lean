import Mudou.Http.Parsing

/-!
# The length of the body

What `RecvHttpRequest` makes of a header block and the bytes that follow it,
in any chunks. Between two calls the body is shorter than `ContentLength`
(`Resting`), so that the subtraction of the two never wraps around.

The length is what `std::stol` makes of the header's value: it throws where
there is no number, and takes what has a sign, white space before it or
anything behind it. `exact_iff_declared`: the body is framed as the header
says, and a value that is no length refused, if and only if the value is a
string of digits below 2^63 or there is none.
-/

namespace Mudou

open Fifo

/-- The value of `Content-Length`. -/
def HttpRequest.lengthValue (r : HttpRequest) : Option Bytes :=
  if r.hasHeader (str "Content-Length") then some (r.getHeader (str "Content-Length")) else none

/-- The length that a value declares: 0 without one, and the number that a
string of digits denotes. -/
def declaredLength : Option Bytes → Option Nat
  | none => some 0
  | some v =>
    if v ≠ [] ∧ v.all isDigit ∧ ofDigits v < 9223372036854775808 then some (ofDigits v) else none

theorem HttpRequest.contentLength_lt {r : HttpRequest} {n : Nat} (h : r.contentLength = .ok n) :
    n < 18446744073709551616 := by
  rw [contentLength] at h
  split at h
  · cases hs : stol (r.getHeader (str "Content-Length")) with
    | error e =>
      rw [hs] at h
      cases h
    | ok v =>
      rw [hs] at h
      cases h
      show (v % 18446744073709551616).toNat < _
      omega
  · cases h
    decide

theorem HttpRequest.contentLength_of_declared {r : HttpRequest} {n : Nat}
    (h : declaredLength r.lengthValue = some n) : r.contentLength = .ok n := by
  rw [lengthValue] at h
  rw [contentLength]
  split at h
  · next hh =>
    rw [if_pos hh]
    rw [declaredLength] at h
    split at h
    · next hv =>
      obtain rfl := Option.some.inj h
      rw [stol_digits hv.1 (List.all_eq_true.mp hv.2.1) hv.2.2]
      have hlt := hv.2.2
      generalize ofDigits (r.getHeader (str "Content-Length")) = n at hlt
      have hn : sizeT n = n := by
        rw [sizeT]
        omega
      exact congrArg Except.ok hn
    · cases h
  · next hh =>
    rw [if_neg hh]
    exact congrArg Except.ok (Option.some.inj h)

namespace HttpContext

variable {ctx ctx' : HttpContext} {buf buf' : Bytes}

/-! ## What is missing of the body -/

theorem appendBody_nil (ctx : HttpContext) : ctx.appendBody [] = ctx := by
  rw [appendBody, List.append_nil]

/-- A body that is not longer than its length. -/
theorem recvHttpBody_eq (h : ctx.recvStatu = .recvHttpBody) {n : Nat} (hc : ctx.request.contentLength = .ok n)
    (hl : ctx.request.body.length ≤ n) (buf : Bytes) :
    ctx.recvHttpBody buf =
      if n - ctx.request.body.length ≤ buf.length then
        .ok ({ ctx.appendBody (buf.take (n - ctx.request.body.length)) with recvStatu := .recvHttpOver },
          buf.drop (n - ctx.request.body.length))
      else .ok (ctx.appendBody buf, []) := by
  by_cases hn : n = 0
  · subst hn
    rw [recvHttpBody, if_neg (not_not_intro h), hc, Nat.zero_sub, if_pos (Nat.zero_le _), List.take_zero,
      appendBody_nil, List.drop_zero]
    rfl
  · have hlt := HttpRequest.contentLength_lt hc
    have hs : HttpRequest.sizeT (n - ctx.request.body.length) = n - ctx.request.body.length := by
      rw [HttpRequest.sizeT]
      omega
    rw [recvHttpBody_of_length h hn hc]
    simp only [hs]

/-- The body's state is left for the end only. -/
theorem recvHttpBody_statu (h : ctx.recvStatu = .recvHttpBody) (e : ctx.recvHttpBody buf = .ok (ctx', buf')) :
    ctx'.respStatu = ctx.respStatu ∧ (ctx'.recvStatu = .recvHttpBody ∨ ctx'.recvStatu = .recvHttpOver) := by
  unfold recvHttpBody at e
  rw [if_neg (not_not_intro h)] at e
  split at e
  · cases e
  · simp only at e
    split at e
    · cases e
      exact ⟨rfl, .inr rfl⟩
    · split at e
      · cases e
        exact ⟨rfl, .inr rfl⟩
      · cases e
        exact ⟨rfl, .inl h⟩

/-- Between two calls, the body has not begun or is too short. -/
structure Resting (ctx : HttpContext) : Prop where
  early : ctx.recvStatu = .recvHttpLine ∨ ctx.recvStatu = .recvHttpHead → ctx.request.body = []
  body : ctx.recvStatu = .recvHttpBody →
    ∃ n, ctx.request.contentLength = .ok n ∧ ctx.request.body.length < n

theorem new_resting : new.Resting := ⟨fun _ => rfl, fun h => by cases h⟩

theorem emptyBody_carried : Carried fun r => r.body = [] := ⟨fun _ _ h => h, fun _ _ h => h⟩

theorem resting_of_recvHttpBody (h : ctx.recvStatu = .recvHttpBody) {n : Nat}
    (hc : ctx.request.contentLength = .ok n) (hl : ctx.request.body.length ≤ n)
    (e : ctx.recvHttpBody buf = .ok (ctx', buf')) : ctx'.Resting := by
  rw [recvHttpBody_eq h hc hl] at e
  split at e
  · cases e
    exact ⟨fun h => h.elim (fun h => by cases h) fun h => (by cases h), fun h => by cases h⟩
  · next hlt =>
    cases e
    have hs : (ctx.appendBody buf).recvStatu = .recvHttpBody := h
    refine ⟨fun h => ?_, fun _ => ⟨n, hc, ?_⟩⟩
    · rw [hs] at h
      exact h.elim (fun h => by cases h) fun h => by cases h
    · rw [appendBody, List.length_append]
      omega

/-- The header lines are read, and then the body from its beginning. -/
theorem resting_of_emptyBody (hb : ctx.request.body = []) (e : ctx.recvHttpBody buf = .ok (ctx', buf')) :
    ctx'.Resting := by
  by_cases h : ctx.recvStatu = .recvHttpBody
  · cases hc : ctx.request.contentLength with
    | error err =>
      rw [recvHttpBody_error h hc] at e
      cases e
    | ok n => exact resting_of_recvHttpBody h hc (by rw [hb]; exact Nat.zero_le _) e
  · rw [recvHttpBody_of_ne h] at e
    cases e
    exact ⟨fun _ => hb, fun hs => absurd hs h⟩

theorem Resting.recvHttpRequest (h : ctx.Resting) (e : ctx.recvHttpRequest buf = .ok (ctx', buf')) :
    ctx'.Resting := by
  cases hs : ctx.recvStatu with
  | recvHttpLine =>
    rw [recvHttpRequest_line hs] at e
    have hb := emptyBody_carried.recvHttpLine (fun _ _ _ h => h) (h.early (.inl hs)) buf
    exact resting_of_emptyBody (emptyBody_carried.recvHttpHead hb _) e
  | recvHttpHead =>
    rw [recvHttpRequest_head hs] at e
    exact resting_of_emptyBody (emptyBody_carried.recvHttpHead (h.early (.inr hs)) _) e
  | recvHttpBody =>
    rw [recvHttpRequest_body hs] at e
    obtain ⟨n, hc, hl⟩ := h.body hs
    exact resting_of_recvHttpBody hs hc hl.le e
  | recvHttpError | recvHttpOver =>
    rw [HttpContext.recvHttpRequest, hs] at e
    cases e
    exact h

/-! ## Chunks -/

/-- `RecvHttpRequest` once for each chunk, on what was left and the chunk. -/
def recvAll : List Bytes → HttpContext → Bytes → Except StolError (HttpContext × Bytes)
  | [], ctx, buf => .ok (ctx, buf)
  | chunk :: chunks, ctx, buf =>
    (ctx.recvHttpRequest (buf ++ chunk)).bind fun (ctx, buf) => recvAll chunks ctx buf

theorem recvAll_append (xs ys : List Bytes) : ∀ (ctx : HttpContext) (buf : Bytes),
    recvAll (xs ++ ys) ctx buf = (recvAll xs ctx buf).bind fun r => recvAll ys r.1 r.2 := by
  induction xs with
  | nil => exact fun _ _ => rfl
  | cons x xs ih =>
    intro ctx buf
    rw [List.cons_append, recvAll, recvAll]
    cases ctx.recvHttpRequest (buf ++ x) with
    | error e => rfl
    | ok r => exact ih r.1 r.2

theorem Resting.recvAll (chunks : List Bytes) : ∀ {ctx : HttpContext} {buf : Bytes}, ctx.Resting →
    HttpContext.recvAll chunks ctx buf = .ok (ctx', buf') → ctx'.Resting := by
  induction chunks with
  | nil =>
    intro ctx buf h e
    cases e
    exact h
  | cons x chunks ih =>
    intro ctx buf h e
    rw [HttpContext.recvAll] at e
    cases hx : ctx.recvHttpRequest (buf ++ x) with
    | error err =>
      rw [hx] at e
      cases e
    | ok r =>
      rw [hx] at e
      exact ih (h.recvHttpRequest hx) e

/-- A request that does not fail is received as in one chunk: a failure of its
beginning would be one of the whole. -/
theorem recvAll_eq (chunks : List Bytes) : ∀ {ctx : HttpContext} {buf : Bytes} (x : Bytes), ctx.respStatu < 400 →
    (∀ ctx' buf', ctx.recvHttpRequest (buf ++ (x :: chunks).flatten) = .ok (ctx', buf') → ctx'.respStatu < 400) →
    recvAll (x :: chunks) ctx buf = ctx.recvHttpRequest (buf ++ (x :: chunks).flatten) := by
  induction chunks with
  | nil =>
    intro ctx buf x _ _
    rw [List.flatten_singleton, recvAll]
    cases ctx.recvHttpRequest (buf ++ x) <;> rfl
  | cons y chunks ih =>
    intro ctx buf x hr hw
    have hs := recvHttpRequest_append hr (buf ++ x) (y :: chunks).flatten
    rw [List.flatten_cons, ← List.append_assoc] at hw ⊢
    rw [recvAll]
    cases hx : ctx.recvHttpRequest (buf ++ x) with
    | error e =>
      rw [hx] at hs
      exact hs.symm
    | ok r =>
      obtain ⟨ctx₁, buf₁⟩ := r
      rw [hx] at hs
      simp only at hs
      by_cases h400 : 400 ≤ ctx₁.respStatu
      · rw [if_pos h400] at hs
        obtain ⟨buf₂, hs⟩ := hs
        exact absurd h400 (Int.not_le.mpr (hw _ _ hs))
      · rw [if_neg h400] at hs
        have hr₁ := Int.not_le.mp h400
        show recvAll (y :: chunks) ctx₁ buf₁ = _
        by_cases ho : ctx₁.recvStatu = .recvHttpOver
        · rw [if_pos ho] at hs
          have hover : ∀ b, ctx₁.recvHttpRequest b = .ok (ctx₁, b) := fun b => by
            rw [recvHttpRequest, ho]
          rw [ih y hr₁, hs, hover]
          intro ctx' buf' e
          rw [hover] at e
          cases e
          exact hr₁
        · rw [if_neg ho] at hs
          rw [ih y hr₁, hs]
          intro ctx' buf' e
          exact hw ctx' buf' (hs.trans e)

/-! ## A header block -/

/-- A request line and header lines up to the empty one, as they are read. -/
structure Head where
  block : Bytes
  ctx : HttpContext
  parsed : (new.recvHttpLine block).1.recvHttpHead (new.recvHttpLine block).2 = (ctx, [])
  complete : ctx.recvStatu = .recvHttpBody

def Head.withBody (h : Head) (body : Bytes) (recvStatu : HttpRecvStatu) : HttpContext :=
  { h.ctx with recvStatu, request := { h.ctx.request with body } }

/-- The body is the declared number of bytes that follow the header block, or
as many as there are yet, and a value that declares no length is a bad
request; no call throws, and none subtracts more than there is. -/
structure Head.Exact (h : Head) (chunks : List Bytes) (following : Bytes) : Prop where
  framed : match declaredLength h.ctx.request.lengthValue with
    | some n => recvAll chunks new [] =
        .ok (if n ≤ following.length then (h.withBody (following.take n) .recvHttpOver, following.drop n)
          else (h.withBody following .recvHttpBody, []))
    | none => ∃ ctx buf, recvAll chunks new [] = .ok (ctx, buf) ∧
        ctx.recvStatu = .recvHttpError ∧ ctx.respStatu = 400
  steps : ∀ xs, xs <+: chunks → ∃ ctx buf, recvAll xs new [] = .ok (ctx, buf) ∧
    (ctx.recvStatu = .recvHttpBody → ∀ n, ctx.request.contentLength = .ok n → ctx.request.body.length ≤ n)

/-- Reading header lines fails, waits for more or comes to the body. -/
theorem recvHeadLoop_statu (fuel : Nat) : ∀ (ctx : HttpContext) (buf : Bytes), ctx.recvStatu = .recvHttpHead →
    (recvHeadLoop fuel ctx buf).1.recvStatu = .recvHttpError ∨
      (recvHeadLoop fuel ctx buf).1.respStatu = ctx.respStatu ∧
        ((recvHeadLoop fuel ctx buf).1.recvStatu = .recvHttpHead ∨
          (recvHeadLoop fuel ctx buf).1.recvStatu = .recvHttpBody) := by
  induction fuel with
  | zero => exact fun _ _ h => .inr ⟨rfl, .inl h⟩
  | succ fuel ih =>
    intro ctx buf h
    unfold recvHeadLoop
    simp only
    split
    · split
      · exact .inl rfl
      · exact .inr ⟨rfl, .inl h⟩
    · split
      · exact .inl rfl
      · split
        · exact .inr ⟨rfl, .inr rfl⟩
        · rcases parseHttpHead_cases ctx (popLine lf buf).1 with ⟨request, e⟩ | e
          · rw [e]
            exact ih { ctx with request } _ h
          · rw [e]
            exact .inl rfl

namespace Head

variable (h : Head)
include h

theorem body_nil : h.ctx.request.body = [] := by
  have hb : (new.recvHttpLine h.block).1.request.body = [] :=
    emptyBody_carried.recvHttpLine (fun _ _ _ h => h) rfl h.block
  have hb := emptyBody_carried.recvHttpHead hb (new.recvHttpLine h.block).2
  rwa [h.parsed] at hb

theorem respStatu : h.ctx.respStatu = 200 := by
  have hp := congrArg Prod.fst h.parsed
  have hc := h.complete
  rcases recvHttpLine_cases (show new.recvStatu = .recvHttpLine from rfl) h.block with
    hl | ⟨ctx', statu, b, _, hl⟩ | ⟨request, b, _, _, hl⟩
  · have hne : new.recvStatu ≠ .recvHttpHead := by decide
    rw [hl, recvHttpHead_of_ne hne] at hp
    exact congrArg HttpContext.respStatu hp.symm
  · have he : (ctx'.fail statu).recvStatu = .recvHttpError := rfl
    rw [hl, recvHttpHead_of_ne (by rw [he]; decide)] at hp
    rw [show h.ctx = ctx'.fail statu from hp.symm, he] at hc
    cases hc
  · rw [hl] at hp
    simp only [recvHttpHead, ne_eq, not_true_eq_false, if_false] at hp
    rcases recvHeadLoop_statu (b.length + 1) ⟨new.respStatu, .recvHttpHead, request⟩ b rfl with hr | ⟨hr, -⟩
    · rw [hp, hc] at hr
      cases hr
    · rwa [hp] at hr

/-- What follows the block is the body's. -/
theorem recvHttpRequest_append (x : Bytes) : new.recvHttpRequest (h.block ++ x) = h.ctx.recvHttpBody x := by
  have hblock : new.recvHttpRequest h.block = h.ctx.recvHttpBody [] := by
    rw [recvHttpRequest_line rfl, h.parsed]
  have hs := HttpContext.recvHttpRequest_append (show new.respStatu < 400 by decide) h.block x
  have hr : ¬ (400 : Int) ≤ 200 := by decide
  rw [hblock] at hs
  cases hc : h.ctx.request.contentLength with
  | error e =>
    rw [recvHttpBody_error h.complete hc] at hs ⊢
    exact hs
  | ok n =>
    have hl : h.ctx.request.body.length ≤ n := by
      rw [h.body_nil]
      exact Nat.zero_le n
    have heq := recvHttpBody_eq h.complete hc hl
    by_cases hn : n = 0
    · subst hn
      rw [heq, if_pos (by omega)] at hs
      rw [heq, if_pos (by omega)]
      simpa [appendBody, h.respStatu, hr] using hs
    · have h0 : ¬ n - h.ctx.request.body.length ≤ ([] : Bytes).length := by
        rw [h.body_nil, List.length_nil]
        omega
      rw [heq, if_neg h0, appendBody_nil] at hs
      simp only [h.respStatu, h.complete, hr, if_false, reduceCtorEq] at hs
      rw [hs, List.nil_append, recvHttpRequest_body h.complete]

theorem recvAll_eq {chunks : List Bytes} {following : Bytes} (e : chunks.flatten = h.block ++ following) :
    recvAll chunks new [] = h.ctx.recvHttpBody following := by
  cases chunks with
  | nil =>
    have hb : h.block = [] := (List.append_eq_nil_iff.mp e.symm).1
    have hp := h.parsed
    rw [hb] at hp
    have hc := h.complete
    rw [show h.ctx = new from (congrArg Prod.fst hp).symm] at hc
    cases hc
  | cons x chunks =>
    rw [HttpContext.recvAll_eq chunks x (by decide), List.nil_append, e, h.recvHttpRequest_append]
    intro ctx' buf' er
    rw [List.nil_append, e, h.recvHttpRequest_append] at er
    rw [(recvHttpBody_statu h.complete er).1, h.respStatu]
    decide

theorem exact_of_declared {chunks : List Bytes} {following : Bytes} (e : chunks.flatten = h.block ++ following)
    {n : Nat} (hn : declaredLength h.ctx.request.lengthValue = some n) : h.Exact chunks following := by
  have hc := HttpRequest.contentLength_of_declared hn
  have hl : h.ctx.request.body.length ≤ n := by
    rw [h.body_nil]
    exact Nat.zero_le n
  have hall : recvAll chunks new [] =
      .ok (if n ≤ following.length then (h.withBody (following.take n) .recvHttpOver, following.drop n)
        else (h.withBody following .recvHttpBody, [])) := by
    rw [h.recvAll_eq e, recvHttpBody_eq h.complete hc hl, h.body_nil, List.length_nil, Nat.sub_zero]
    by_cases hlen : n ≤ following.length
    · rw [if_pos hlen, if_pos hlen, appendBody, h.body_nil]
      rfl
    · rw [if_neg hlen, if_neg hlen, appendBody, h.body_nil, withBody, ← h.complete]
      rfl
  refine ⟨?_, ?_⟩
  · rw [hn]
    exact hall
  · rintro xs ⟨ys, rfl⟩
    rw [recvAll_append] at hall
    cases hx : recvAll xs new [] with
    | error err =>
      rw [hx] at hall
      cases hall
    | ok r =>
      refine ⟨r.1, r.2, rfl, fun hb m hm => ?_⟩
      obtain ⟨k, hk, hlt⟩ := (new_resting.recvAll xs hx).body hb
      rw [hk] at hm
      cases hm
      exact hlt.le

/-- In any chunks: the body is framed as the header declares, and a value
that declares nothing is refused, if and only if the value is a string of
digits below 2^63 or there is none. -/
theorem exact_iff_declared (chunks : List Bytes) (following : Bytes)
    (e : chunks.flatten = h.block ++ following) :
    h.Exact chunks following ↔ (declaredLength h.ctx.request.lengthValue).isSome = true := by
  refine ⟨fun hx => ?_, fun hn => ?_⟩
  · cases hn : declaredLength h.ctx.request.lengthValue with
    | some n => rfl
    | none =>
      have hf := hx.framed
      rw [hn, h.recvAll_eq e] at hf
      obtain ⟨ctx, buf, er, hs, -⟩ := hf
      rcases (recvHttpBody_statu h.complete er).2 with hb | hb
      · rw [hb] at hs
        cases hs
      · rw [hb] at hs
        cases hs
  · obtain ⟨n, hn⟩ := Option.isSome_iff_exists.mp hn
    exact h.exact_of_declared e hn

end Head

/-- Three bytes, of which two have arrived with the header block, and one of
the next request. -/
def threeBytes : Head where
  block := str "POST /a HTTP/1.1\r\nContent-Length: 003\r\n\r\n"
  ctx := ⟨200, .recvHttpBody, { HttpRequest.new with
    method := str "POST", path := str "/a", headers := UnorderedMap.empty.insert (str "Content-Length") (str "003") }⟩
  parsed := by decide +kernel
  complete := rfl

theorem exact_iff_declared_threeBytes : threeBytes.Exact
    [str "POST /a HTTP/1.1\r\nContent-Le", str "ngth: 003\r\n\r\nab", str "cG"] (str "abcG") :=
  (threeBytes.exact_iff_declared _ _ (by decide +kernel)).mpr (by decide)

/-- A length that is no number. -/
def abcBytes : Head where
  block := str "POST /a HTTP/1.1\r\nContent-Length: abc\r\n\r\n"
  ctx := ⟨200, .recvHttpBody, { HttpRequest.new with
    method := str "POST", path := str "/a", headers := UnorderedMap.empty.insert (str "Content-Length") (str "abc") }⟩
  parsed := by decide +kernel
  complete := rfl

theorem abcBytes_throws : ¬ ∀ (h : Head) (chunks : List Bytes) (following : Bytes),
    chunks.flatten = h.block ++ following → h.Exact chunks following := by
  intro h
  obtain ⟨ctx, buf, e, -⟩ := (h abcBytes [abcBytes.block] [] rfl).steps _ (List.prefix_refl _)
  have ht : recvAll [abcBytes.block] new [] = .error .invalidArgument := by decide +kernel
  rw [ht] at e
  cases e

end HttpContext

end Mudou
