import Mudou.Http.Serving

/-!
# The advertised connection mode

`WriteReponse` sets the `Connection` header from the request, unless the
handler has set one. After a handler's response `OnMessage` closes the
connection as the header says. After a parse error it always does, but the
header says what the lines read before the error asked for.

`truthful_iff`: in every run the responses advertise what `OnMessage` does
next if and only if no error strikes after `Connection: keep-alive` was read.
-/

namespace Mudou

open Connection

namespace HttpServer

/-- A response that `OnMessage` has written. -/
structure Answer where
  req : HttpRequest
  rsp : HttpResponse
  /-- to a parse error -/
  afterError : Bool
  /-- `Shutdown` was called before another response -/
  shut : Bool

/-- Whether the parser has come to an error, and the responses so far, the
last one first. -/
def answersStep : Bool × List Answer → HttpEvent → Bool × List Answer
  | (_, as), .parsed (.error _) => (true, as)
  | (_, as), .parsed _ => (false, as)
  | (afterError, as), .respond req rsp => (afterError, ⟨req, rsp, afterError, false⟩ :: as)
  | (afterError, a :: as), .shutdown _ => (afterError, { a with shut := true } :: as)
  | s, _ => s

def answers (ns : List HttpEvent) : List Answer := (ns.foldl answersStep (false, [])).2

/-- The response carries `Connection: keep-alive`. -/
def Answer.KeepAlive (srv : HttpServer) (a : Answer) : Prop :=
  (str "Connection", str "keep-alive") ∈ srv.iterate (completeHeaders a.req a.rsp).headers

/-- A response says whether the connection is then closed. -/
def Truthful (srv : HttpServer) (ns : List HttpEvent) : Prop :=
  ∀ a ∈ answers ns, a.KeepAlive srv ↔ a.shut = false

/-- The lines read before an error have not asked for a connection that stays
open. -/
def ErrorsClose (ns : List HttpEvent) : Prop := ∀ a ∈ answers ns, a.afterError = true → a.req.close = true

variable {srv : HttpServer} {c : HttpConnection} {ns : List HttpEvent}

/-! ## The header -/

theorem close_eq_false_iff (rsp : HttpResponse) :
    rsp.close = false ↔ (str "Connection", str "keep-alive") ∈ rsp.headers.entries := by
  rw [UnorderedMap.mem_entries_iff, HttpResponse.close, HttpResponse.hasHeader, HttpResponse.getHeader,
    UnorderedMap.contains]
  cases rsp.headers.find (str "Connection") with
  | none => simp
  | some v => simp

theorem keepAlive_iff (a : Answer) : a.KeepAlive srv ↔ (completeHeaders a.req a.rsp).close = false := by
  rw [close_eq_false_iff]
  exact (srv.iterate_perm _).mem_iff

/-- The headers that are set after `Connection` leave it alone. -/
theorem find_completeHeaders (req : HttpRequest) (rsp : HttpResponse) :
    (completeHeaders req rsp).headers.find (str "Connection") = (rsp.headers.find (str "Connection")).or
      (some (if req.close then str "close" else str "keep-alive")) := by
  have hset : ∀ (r : HttpResponse) (k v : Bytes), k ≠ str "Connection" →
      (r.setHeader k v).headers.find (str "Connection") = r.headers.find (str "Connection") := by
    intro r k v hk
    rw [HttpResponse.setHeader, UnorderedMap.find_insert, if_neg (Ne.symm hk), Option.or_none]
  have hite : ∀ (p : Prop) [Decidable p] (r : HttpResponse) (k v : Bytes), k ≠ str "Connection" →
      (if p then r.setHeader k v else r).headers.find (str "Connection") =
        r.headers.find (str "Connection") := by
    intro p _ r k v hk
    split
    · exact hset r k v hk
    · rfl
  unfold completeHeaders
  simp only
  rw [hite _ _ _ _ (by decide), hite _ _ _ _ (by decide), hite _ _ _ _ (by decide), HttpResponse.setHeader,
    UnorderedMap.find_insert, if_pos rfl]

/-- The error page has no `Connection` header of its own. -/
theorem close_errorHandler (req : HttpRequest) (statu : Int) :
    (completeHeaders req (errorHandler (.new statu))).close = req.close := by
  have hf := find_completeHeaders req (errorHandler (.new statu))
  rw [show (errorHandler (.new statu)).headers.find (str "Connection") = none from rfl, Option.none_or] at hf
  rw [HttpResponse.close, HttpResponse.hasHeader, HttpResponse.getHeader, UnorderedMap.contains, hf]
  cases req.close <;> decide

/-! ## The invariant -/

/-- `OnMessage` closes after an error, and as the response's headers say
after a request. -/
def Modes (ns : List HttpEvent) : Prop :=
  ∀ a ∈ answers ns, (a.shut = true ↔ a.afterError = true ∨ (completeHeaders a.req a.rsp).close = true) ∧
    (a.afterError = true → ∃ statu, a.rsp = errorHandler (.new statu))

theorem answers_append (ns es : List HttpEvent) : answers (ns ++ es) =
    (es.foldl answersStep (ns.foldl answersStep (false, []))).2 := by
  rw [answers, List.foldl_append]

/-- What is parsed is no response. -/
theorem answers_parsed (ns : List HttpEvent) (p : Parsed) : answers (ns ++ [.parsed p]) = answers ns := by
  rw [answers_append]
  cases p <;> rfl

theorem answers_error (ns : List HttpEvent) (statu : Int) (req : HttpRequest) (rsp : HttpResponse) (rest : Bytes) :
    answers (ns ++ [.parsed (.error statu), .respond req rsp, .shutdown rest]) =
      ⟨req, rsp, true, true⟩ :: answers ns := by
  rw [answers_append]
  rfl

theorem answers_request (ns : List HttpEvent) (parsed req : HttpRequest) (rsp : HttpResponse) :
    answers (ns ++ [.parsed (.request parsed), .respond req rsp]) = ⟨req, rsp, false, false⟩ :: answers ns := by
  rw [answers_append]
  rfl

theorem answers_request_shut (ns : List HttpEvent) (parsed req : HttpRequest) (rsp : HttpResponse) (rest : Bytes) :
    answers (ns ++ [.parsed (.request parsed), .respond req rsp, .shutdown rest]) =
      ⟨req, rsp, false, true⟩ :: answers ns := by
  rw [answers_append]
  rfl

theorem Modes.of_eq {ns' : List HttpEvent} (h : Modes ns) (e : answers ns' = answers ns) : Modes ns' :=
  fun a ha => h a (e ▸ ha)

theorem Modes.cons {ns' : List HttpEvent} (h : Modes ns) {a : Answer} (e : answers ns' = a :: answers ns)
    (hs : a.shut = true ↔ a.afterError = true ∨ (completeHeaders a.req a.rsp).close = true)
    (he : a.afterError = true → ∃ statu, a.rsp = errorHandler (.new statu)) : Modes ns' := by
  intro b hb
  rcases List.mem_cons.mp (e ▸ hb) with rfl | hb
  · exact ⟨hs, he⟩
  · exact h b hb

/-- Each way through the loop. -/
theorem modes_roundPreserved (srv : HttpServer) : RoundPreserved srv fun c => Modes (notes c.log) where
  more h _ _ _ := h
  exception {c e} h _ := by
    refine h.of_eq ?_
    rw [notes_record]
    exact answers_parsed _ _
  error {c context inBuffer} h _ _ := by
    refine h.cons (a := ⟨context.request, errorHandler (.new context.respStatu), true, true⟩) ?_ ?_ ?_
    · rw [notes_record, notes_answerError, List.append_assoc]
      exact answers_error ..
    · exact iff_of_true rfl (.inl rfl)
    · exact fun _ => ⟨context.respStatu, rfl⟩
  threw {c context inBuffer} h _ _ _ _ := by
    refine h.of_eq ?_
    rw [notes_record, receive, notes_record, List.append_assoc]
    exact answers_append ..
  answer {c context inBuffer req rsp} h _ _ _ _ := by
    simp only
    cases hc : (completeHeaders req rsp).close with
    | true =>
      refine h.cons (a := ⟨req, rsp, false, true⟩) ?_ (iff_of_true rfl (.inr hc)) fun h => by cases h
      rw [if_pos rfl, notes_record, notes_answer, List.append_assoc]
      exact answers_request_shut ..
    | false =>
      refine h.cons (a := ⟨req, rsp, false, false⟩) ?_ ?_ fun h => by cases h
      · rw [if_neg Bool.false_ne_true, notes_answer]
        exact answers_request ..
      · simp [hc]
  diverged {c} h := by
    refine h.of_eq ?_
    rw [notes_record]
    exact answers_append ..
  beginShutdown {c} h := (unnoted_beginShutdown c).of (P := fun _ ns => Modes ns) h
  endShutdown {c} h := (unnoted_endShutdown c).of (P := fun _ ns => Modes ns) h

theorem Modes.iff_errorsClose (h : Modes ns) : Truthful srv ns ↔ ErrorsClose ns := by
  refine forall₂_congr fun a ha => ?_
  obtain ⟨hs, he⟩ := h a ha
  rw [keepAlive_iff, ← Bool.not_eq_true, ← Bool.not_eq_true, hs, not_or]
  cases hb : a.afterError with
  | true =>
    obtain ⟨statu, hr⟩ := he hb
    rw [hr, close_errorHandler]
    simp
  | false => simp

/-! ## Every run -/

/-- In every run of a connection: the responses carry `Connection: keep-alive`
just when `OnMessage` does not then call `Shutdown`, if and only if it was in
no header that was read before an error. -/
theorem truthful_iff (srv : HttpServer) (connId : UInt64) (onBaseLoop : Bool) (context : HttpContext)
    (timeout : Option UInt32) (steps : List (Step HttpContext HttpEvent)) (hs : ∀ s ∈ steps, s.OfServer srv) :
    let c := (run (srv.firstTasks ++ steps) (new connId onBaseLoop context timeout)).state
    Truthful srv (notes c.log) ↔ ErrorsClose (notes c.log) := by
  intro c
  have hc : Modes (notes c.log) := by
    obtain ⟨c₀, e, -, -, -, -, hl₀⟩ := run_firstTasks srv connId onBaseLoop context timeout
    have h₀ : Modes (notes c₀.log) := by
      rw [hl₀]
      exact fun _ ha => absurd ha List.not_mem_nil
    show Modes (notes (run _ _).state.log)
    rw [run, Outcome.runAll_append, ← run, e]
    exact (modes_roundPreserved srv).keeps_run (loopPreserved_notes fun _ ns => Modes ns)
      (fun c h _ => h) hs c₀ h₀
  exact hc.iff_errorsClose

/-- A request that closes the connection. -/
theorem truthful_iff_closing : Truthful noRoutes (notes (run (noRoutes.firstTasks ++
    oneRead (str "GET /a HTTP/1.1\r\n\r\n")) (new 1 true .new none)).state.log) := by
  refine (truthful_iff noRoutes 1 true .new none _ (oneRead_ofServer _)).mpr fun a ha h => ?_
  obtain rfl : a = ⟨_, _, false, true⟩ := List.mem_singleton.mp ha
  cases h

/-- A header line that is none, after `Connection: keep-alive`. -/
theorem errorAfterKeepAlive_shut : ¬ ∀ steps : List (Step HttpContext HttpEvent),
    (∀ s ∈ steps, s.OfServer noRoutes) →
      Truthful noRoutes (notes (run (noRoutes.firstTasks ++ steps) (new 1 true .new none)).state.log) := by
  intro h
  have h := h (oneRead (str "GET / HTTP/1.1\r\nConnection: keep-alive\r\nbad\r\n")) (oneRead_ofServer _)
  generalize hl : notes (run (noRoutes.firstTasks ++
    oneRead (str "GET / HTTP/1.1\r\nConnection: keep-alive\r\nbad\r\n")) (new 1 true .new none)).state.log = ns at h
  have hm : (answers ns).map (fun a => (a.shut, (completeHeaders a.req a.rsp).close)) = [(true, false)] := by
    rw [← hl]
    decide +kernel
  obtain ⟨a, ha, e⟩ := List.mem_map.mp (hm.symm ▸ List.mem_singleton_self (true, false))
  obtain ⟨hs, hc⟩ := Prod.mk.inj e
  rw [(h a ha).mp ((keepAlive_iff a).mpr hc)] at hs
  cases hs

end HttpServer

end Mudou
