import Mudou.Http.Parsing
import Mudou.Http.Serving
import Mudou.Lib.History

/-!
# After the shutdown

`OnMessage` calls `Shutdown` after a parse error and after a response that
closes the connection. Reading goes on, the loop goes on, and the context is
that of a new connection: what is left in the input buffer and what is
received later (`later`) are parsed like the bytes of another connection
(`Closing.later`).

`nothingServed_of_undecided`: nothing is dispatched or answered any more as
long as these bytes hold no complete request and no error.
`pipelined_served` is a run in which they do.
-/

namespace Mudou

open HttpServer

/-- A request goes to `Route`, or a response is sent. -/
def Event.Serves : Event HttpEvent → Prop
  | .note (.parsed (.request _)) | .note (.respond _ _) => True
  | _ => False

/-- Neither of that, nor bytes, nor a `Shutdown`. -/
def Event.Silent : Event HttpEvent → Prop
  | .received _ | .note (.parsed (.request _)) | .note (.respond _ _) | .note (.shutdown _) => False
  | _ => True

/-- The parser completes a request in the buffer, or finds an error. -/
def HttpContext.Decides (ctx : HttpContext) (buf : Bytes) : Prop :=
  ∃ ctx' buf', ctx.recvHttpRequest buf = .ok (ctx', buf') ∧
    (400 ≤ ctx'.respStatu ∨ ctx'.recvStatu = .recvHttpOver)

theorem HttpContext.Decides.append {ctx : HttpContext} {buf : Bytes} (h : ctx.Decides buf)
    (hr : ctx.respStatu < 400) (x : Bytes) : ctx.Decides (buf ++ x) := by
  obtain ⟨ctx', buf', e, hd⟩ := h
  have hs := recvHttpRequest_append hr buf x
  rw [e] at hs
  simp only at hs
  split at hs
  · obtain ⟨buf'', e'⟩ := hs
    exact ⟨ctx', buf'', e', hd⟩
  · next hn =>
    have ho := hd.resolve_left hn
    rw [if_pos ho] at hs
    exact ⟨ctx', buf' ++ x, hs, hd⟩

namespace HttpServer

open Connection History Outcome

variable {srv : HttpServer} {c d : HttpConnection} {log : List (Event HttpEvent)}

/-- Nothing is dispatched or answered after a `Shutdown`. -/
def NothingServed (log : List (Event HttpEvent)) : Prop :=
  Always (fun pre e => (∃ rest, .note (.shutdown rest) ∈ pre) → ¬ e.Serves) log

def laterStep (s : Option Bytes) (e : Event HttpEvent) : Option Bytes :=
  match s, e with
  | none, .note (.shutdown rest) => some rest
  | some s, .received data => some (s ++ data)
  | s, _ => s

/-- After a first `Shutdown`, what was left in the input buffer and what was
received since. -/
def later (log : List (Event HttpEvent)) : Option Bytes := log.foldl laterStep none

theorem later_concat (log : List (Event HttpEvent)) (e : Event HttpEvent) :
    later (log ++ [e]) = laterStep (later log) e := by
  rw [later, later, List.foldl_concat]

theorem later_append {es : List (Event HttpEvent)} (he : ∀ e ∈ es, ∀ s, laterStep s e = s) :
    HttpServer.later (log ++ es) = HttpServer.later log := by
  rw [HttpServer.later, HttpServer.later, List.foldl_append]
  generalize log.foldl laterStep none = s
  induction es generalizing s with
  | nil => rfl
  | cons e es ih =>
    rw [List.foldl_cons, he e List.mem_cons_self]
    exact ih (fun e hm => he e (List.mem_cons_of_mem _ hm)) s

theorem laterStep_silent {e : Event HttpEvent} (h : e.Silent) (s : Option Bytes) : laterStep s e = s := by
  unfold laterStep
  split
  · exact h.elim
  · exact h.elim
  · rfl

theorem not_serves_of_silent {e : Event HttpEvent} (h : e.Silent) : ¬ e.Serves := by
  unfold Event.Serves
  split
  · exact h.elim
  · exact h.elim
  · exact id

theorem isSome_foldl_laterStep {rest : Bytes} (log : List (Event HttpEvent)) : ∀ s : Option Bytes,
    s.isSome = true ∨ .note (.shutdown rest) ∈ log → (log.foldl laterStep s).isSome = true := by
  induction log with
  | nil => simp
  | cons e log ih =>
    intro s h
    apply ih
    cases s with
    | some s => exact .inl (by unfold laterStep; split <;> rfl)
    | none =>
      rcases h with h | h
      · cases h
      · rcases List.mem_cons.mp h with rfl | h
        · exact .inl rfl
        · exact .inr h

theorem not_mem_of_later (h : later log = none) (rest : Bytes) : .note (.shutdown rest) ∉ log := by
  intro hm
  have hs := isSome_foldl_laterStep log none (.inr hm)
  rw [← later, h] at hs
  exact Bool.noConfusion hs

theorem nothingServed_of_later (h : later log = none) : NothingServed log := by
  intro pre e hp he
  obtain ⟨rest, hm⟩ := he
  exact absurd (hp.subset (List.mem_append_left _ hm)) (not_mem_of_later h rest)

theorem NothingServed.concat (h : NothingServed log) {e : Event HttpEvent} (he : ¬ e.Serves) :
    NothingServed (log ++ [e]) :=
  Always.concat h fun _ => he

/-! ## The invariant -/

structure Closing (c : HttpConnection) : Prop where
  statu : c.statu ≠ .connecting
  context : c.context.respStatu < 400
  later : ∀ s, later c.log = some s → HttpContext.new.Decides s ∨ NothingServed c.log ∧
    ∀ x, c.context.recvHttpRequest (c.inBuffer ++ x) = HttpContext.new.recvHttpRequest (s ++ x)

/-- Nothing happens that matters here. -/
theorem Closing.same (h : Closing c) (hs : d.statu ≠ .connecting) (hc : d.context = c.context)
    (hb : d.inBuffer = c.inBuffer) (hl : d.log = c.log) : Closing d :=
  ⟨hs, hc ▸ h.context, by rw [hl, hc, hb]; exact h.later⟩

theorem Closing.event (h : Closing c) {e : Event HttpEvent} (hs : d.statu ≠ .connecting)
    (hc : d.context = c.context) (hb : d.inBuffer = c.inBuffer) (he : e.Silent) (hl : d.log = c.log ++ [e]) :
    Closing d := by
  refine ⟨hs, hc ▸ h.context, fun s hs => ?_⟩
  rw [hl, later_concat, laterStep_silent he] at hs
  rw [hl, hc, hb]
  rcases h.later s hs with hd | ⟨hn, hx⟩
  · exact .inl hd
  · exact .inr ⟨hn.concat (not_serves_of_silent he), hx⟩

/-- The parser has come to a result. -/
theorem Closing.decided (h : Closing c) (hd : c.context.Decides c.inBuffer) (hs : d.statu ≠ .connecting)
    (hc : d.context.respStatu < 400) (hl : HttpServer.later d.log = HttpServer.later c.log) : Closing d := by
  refine ⟨hs, hc, fun s e => ?_⟩
  rw [hl] at e
  rcases h.later s e with hd' | ⟨_, hx⟩
  · exact .inl hd'
  · have hx := hx []
    rw [List.append_nil, List.append_nil] at hx
    obtain ⟨ctx', buf', e', hr⟩ := hd
    exact .inl ⟨ctx', buf', hx ▸ e', hr⟩

theorem Closing.shutdown (h : Closing c) (hc : c.context = .new) :
    Closing (c.record (.note (.shutdown c.inBuffer))) := by
  refine ⟨h.statu, h.context, fun s e => ?_⟩
  rw [log_record, later_concat] at e
  cases hl : HttpServer.later c.log with
  | none =>
    rw [hl] at e
    cases e
    refine .inr ⟨(nothingServed_of_later hl).concat id, fun x => ?_⟩
    show c.context.recvHttpRequest (c.inBuffer ++ x) = _
    rw [hc]
  | some s' =>
    rw [hl] at e
    cases e
    rcases h.later _ hl with hd | ⟨hn, hx⟩
    · exact .inl hd
    · exact .inr ⟨hn.concat id, hx⟩

theorem Closing.received (h : Closing c) (data : Bytes) :
    Closing ({ c with inBuffer := c.inBuffer ++ data }.record (.received data)) := by
  refine ⟨h.statu, h.context, fun s e => ?_⟩
  rw [log_record, later_concat] at e
  cases hl : HttpServer.later c.log with
  | none =>
    rw [show ({ c with inBuffer := c.inBuffer ++ data } : HttpConnection).log = c.log from rfl, hl] at e
    cases e
  | some s' =>
    rw [show ({ c with inBuffer := c.inBuffer ++ data } : HttpConnection).log = c.log from rfl, hl] at e
    cases e
    rcases h.later _ hl with hd | ⟨hn, hx⟩
    · exact .inl (hd.append (by decide) data)
    · refine .inr ⟨hn.concat id, fun x => ?_⟩
      have hx := hx (data ++ x)
      rw [← List.append_assoc, ← List.append_assoc] at hx
      exact hx

/-! ## What keeps it -/

theorem Closing.release (h : Closing c) (caller : Caller) : Closing (c.release caller) :=
  h.event (e := .release caller c.releasing) h.statu rfl rfl trivial rfl

theorem Closing.sendInLoop (h : Closing c) (data : Bytes) : Closing (c.sendInLoop data) := by
  have ha : Closing (c.accept data) :=
    h.event (e := .accepted data) h.statu rfl rfl trivial rfl
  rcases sendInLoop_cases c data with ⟨_, e⟩ | ⟨_, e | e⟩
  · rw [e]
    exact h
  · rw [e]
    exact ha.same ha.statu rfl rfl rfl
  · rw [e]
    exact ha

theorem Closing.endShutdown (h : Closing c) : Closing c.endShutdown := by
  rcases endShutdown_cases c with ⟨_, e⟩ | ⟨_, e | e⟩
  · rw [e]
    exact h.release _
  · rw [e]
    exact h.same h.statu rfl rfl rfl
  · rw [e]
    exact h

theorem Closing.beginShutdown (h : Closing c) : Closing c.beginShutdown :=
  h.event (e := .shutdownInLoop) (show ConnStatu.disconnecting ≠ _ by decide) rfl rfl trivial rfl

theorem Closing.beginRelease (h : Closing c) : Closing c.beginRelease := by
  obtain ⟨b, w, e⟩ := beginRelease_eq c
  rw [e]
  have hr : Closing ({ c with statu := .disconnected }.record .releaseInLoop) :=
    h.event (e := .releaseInLoop) (show ConnStatu.disconnected ≠ _ by decide) rfl rfl trivial rfl
  cases c.socketOpen with
  | true => exact hr.event hr.statu rfl rfl (e := .closed) trivial rfl
  | false => exact hr.same hr.statu rfl rfl (List.append_nil _)

theorem Closing.removeConnectionInLoop (h : Closing c) : Closing c.removeConnectionInLoop :=
  Connection.state_removeConnectionInLoop h (h.event (e := .erased) h.statu rfl rfl trivial rfl)

theorem Closing.removeConnection (h : Closing c) : Closing c.removeConnection := by
  have hs : Closing (c.record .srvClosedCallback) :=
    h.event (e := .srvClosedCallback) h.statu rfl rfl trivial rfl
  exact Connection.state_removeConnection hs.removeConnectionInLoop (hs.same hs.statu rfl rfl rfl)

theorem closing_loopPreserved : LoopPreserved Closing where
  setTimer b w h := h.same h.statu rfl rfl rfl
  send data h := h.sendInLoop data
  beginShutdown h := h.beginShutdown
  endShutdown h _ := h.endShutdown
  drained h _ _ := h.release _
  release h _ _ := h.release _
  received data h := h.received data
  handed {c} n h := h.event (e := .handed (c.outBuffer.take n)) h.statu rfl rfl trivial rfl
  disableWrite h _ := h.same h.statu rfl rfl rfl
  established h hs := absurd hs h.statu
  runTask h _ _ := h.same h.statu rfl rfl rfl
  releaseInLoop {c functor closed} h _ hc := by
    have h' : Closing { c with loop := { c.loop with functor } } :=
      h.same h.statu rfl rfl rfl
    exact state_releaseInLoop h'.beginRelease
      (fun c h => h.event (e := .closedCallback) h.statu rfl rfl trivial rfl)
      (fun f e => (hc f e).keeps) fun _ h => h.removeConnection
  removeConnectionInLoop {c} h _ := by
    have h' : Closing { c with removals := c.removals - 1 } :=
      h.same h.statu rfl rfl rfl
    exact h'.removeConnectionInLoop
  swapTasks h := h.same h.statu rfl rfl rfl
  queueInLoop h _ := h.same h.statu rfl rfl rfl

/-- A response is neither bytes received nor a shutdown. -/
theorem later_writeReponse (req : HttpRequest) (rsp : HttpResponse) (c : HttpConnection) :
    HttpServer.later (srv.writeReponse req rsp c).log = HttpServer.later c.log := by
  rw [log_writeReponse]
  refine later_append fun e he s => ?_
  rcases List.mem_cons.mp he with rfl | he
  · cases s <;> rfl
  · split at he
    · cases he
    · obtain rfl := List.mem_singleton.mp he
      cases s <;> rfl

/-- What was parsed is neither. -/
theorem later_parsed (log : List (Event HttpEvent)) (p : Parsed) :
    HttpServer.later (log ++ [.note (.parsed p)]) = HttpServer.later log := by
  rw [later_concat]
  cases HttpServer.later log <;> rfl

theorem closing_messagePreserved (srv : HttpServer) : MessagePreserved srv Closing where
  more {c context inBuffer} h e hr ho := by
    refine ⟨h.statu, hr, fun s es => ?_⟩
    rcases h.later s es with hd | ⟨hn, hx⟩
    · exact .inl hd
    · refine .inr ⟨hn, fun x => ?_⟩
      have hs := HttpContext.recvHttpRequest_append h.context c.inBuffer x
      rw [e] at hs
      simp only [if_neg (Int.not_le.mpr hr), if_neg ho] at hs
      rw [← hx x, hs]
  exception {c e} h _ :=
    h.event (e := .note (.parsed (.exception e))) h.statu rfl rfl trivial rfl
  error {c context inBuffer} h e hr := by
    refine h.decided ⟨context, inBuffer, e, .inl hr⟩ ?_ (show HttpContext.new.respStatu < 400 by decide) ?_
    · exact (srv.writeReponse_same ..).1.trans_ne h.statu
    · exact (later_writeReponse ..).trans (later_parsed ..)
  threw {c context inBuffer} h e hr ho _ := by
    refine h.decided ⟨context, inBuffer, e, .inr ho⟩ h.statu hr ?_
    rw [log_record, later_concat, laterStep_silent (by simp [Event.Silent])]
    exact later_parsed c.log _
  answer {c context inBuffer req rsp} h e hr ho _ := by
    refine h.decided ⟨context, inBuffer, e, .inr ho⟩ ?_ (show HttpContext.new.respStatu < 400 by decide) ?_
    · exact (srv.writeReponse_same ..).1.trans_ne h.statu
    · exact (later_writeReponse ..).trans (later_parsed ..)
  shutdown h hc := h.shutdown hc
  diverged h := h.event (e := .note .diverged) h.statu rfl rfl trivial rfl
  beginShutdown h := h.beginShutdown
  endShutdown h := h.endShutdown

/-! ## Every run -/

theorem established_closing (hs : c.statu = .connected) (hc : c.context = .new) (hl : c.log = []) :
    Closing c where
  statu := by
    rw [hs]
    decide
  context := by
    rw [hc]
    decide
  later s e := by
    rw [hl] at e
    cases e

/-- In every run of a connection: once `OnMessage` has called `Shutdown`,
nothing is dispatched or answered, unless the bytes left in the input buffer
then and those received since hold a complete request or an error. -/
theorem nothingServed_of_undecided (srv : HttpServer) (connId : UInt64) (onBaseLoop : Bool)
    (context : HttpContext) (timeout : Option UInt32) (steps : List (Step HttpContext HttpEvent))
    (hs : ∀ s ∈ steps, s.OfServer srv) :
    let c := (run (srv.firstTasks ++ steps) (new connId onBaseLoop context timeout)).state
    (∀ s, later c.log = some s → ¬ HttpContext.new.Decides s) → NothingServed c.log := by
  intro c hu
  have hc : Closing c := by
    obtain ⟨c₀, e, hs₀, hc₀, _, _, hl₀⟩ := run_firstTasks srv connId onBaseLoop context timeout
    show Closing (run _ _).state
    rw [run, Outcome.runAll_append, ← run, e]
    exact (closing_messagePreserved srv).rounds.keeps_run closing_loopPreserved
      (fun c h hs => absurd hs h.statu) hs c₀ (established_closing hs₀ hc₀ hl₀)
  cases hl : later c.log with
  | none => exact nothingServed_of_later hl
  | some s => exact ((hc.later s hl).resolve_left (hu s hl)).1

/-- A request that closes the connection, and part of another. -/
theorem nothingServed_of_undecided_partial : NothingServed
    (run (noRoutes.firstTasks ++ oneRead (str "GET /a HTTP/1.1\r\n\r\nGET /b"))
      (new 1 true .new none)).state.log := by
  refine nothingServed_of_undecided noRoutes 1 true .new none _ (oneRead_ofServer _) fun s hs => ?_
  obtain rfl : str "GET /b" = s := Option.some.inj hs
  intro hd
  obtain ⟨ctx', buf', e, hd⟩ := hd
  obtain rfl : HttpContext.new = ctx' := congrArg Prod.fst (Except.ok.inj e)
  revert hd
  decide

/-- The same with the whole of the other request, which goes to `Route`. -/
theorem pipelined_served : ¬ ∀ steps : List (Step HttpContext HttpEvent),
    (∀ s ∈ steps, s.OfServer noRoutes) →
      NothingServed (run (noRoutes.firstTasks ++ steps) (new 1 true .new none)).state.log := by
  intro h
  have h := h (oneRead (str "GET /a HTTP/1.1\r\n\r\nGET /b HTTP/1.1\r\n\r\n")) (oneRead_ofServer _)
  generalize hl : (run (noRoutes.firstTasks ++
    oneRead (str "GET /a HTTP/1.1\r\n\r\nGET /b HTTP/1.1\r\n\r\n")) (new 1 true .new none)).state.log = log at h
  have hm : .note (.shutdown (str "GET /b HTTP/1.1\r\n\r\n")) ∈ log.take 6 := by
    rw [← hl]
    exact List.mem_of_getElem? (i := 4) rfl
  have he : ∃ req, log[6]? = some (.note (.parsed (.request req))) := by
    rw [← hl]
    exact ⟨_, rfl⟩
  obtain ⟨req, he⟩ := he
  refine h (log.take 6) (.note (.parsed (.request req))) ?_ ⟨_, hm⟩ trivial
  have ht := List.take_add_one (l := log) (i := 6)
  rw [he] at ht
  exact ht ▸ List.take_prefix ..

end HttpServer

end Mudou
