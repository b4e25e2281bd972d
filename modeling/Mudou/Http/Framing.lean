import Mudou.Http.Encoding
import Mudou.Http.RequestLine
import Mudou.Http.Stream
import Mudou.Lib.HttpClient
import Mudou.Net.Output

/-!
# The framing of responses

A client reads the responses that `OnMessage` has sent
(`Mudou.HttpClient`). `WriteReponse` writes a `Content-Length` if and only if
there is a body, so that a client knows where a response ends, unless it has
an empty body where one may be, or a body after `HEAD` (`Framed`).

`selfDelimiting_iff_framed`: the responses of a connection, whatever their
number, are read one for each request just when all of them are framed.
`notFound_unframed` is a run in which neither of two is.
-/

namespace Mudou

open Fifo HttpClient

/-- A response as it is built for a request, before `WriteReponse`. -/
abbrev Exchange := HttpRequest × HttpResponse

namespace Exchange

def isHead (e : Exchange) : Bool := decide (e.1.method = str "HEAD")

/-- What the client is to read. -/
def expected (e : Exchange) : Response := ⟨e.2.statu.toNat, if e.isHead then [] else e.2.body⟩

structure WellBuilt (e : Exchange) : Prop where
  statu : 200 ≤ e.2.statu
  noBody : e.2.statu = 204 ∨ e.2.statu = 304 → e.2.body = []
  header : ∀ h ∈ e.2.headers.entries, (lf ∉ h.1 ∧ lf ∉ h.2) ∧ fieldName h.1 ≠ str "content-length"
  location : e.2.redirectFlag = true → lf ∉ e.2.redirectUrl

/-- The end of the response can be told. -/
def Framed (e : Exchange) : Prop :=
  if e.isHead then e.2.body = []
  else e.2.statu = 204 ∨ e.2.statu = 304 ∨ e.2.body ≠ []

end Exchange

namespace HttpServer

variable (srv : HttpServer) {req : HttpRequest} {rsp : HttpResponse}

/-! ## The headers of a response -/

/-- A property that setting each of the headers keeps. -/
theorem completeHeaders_induct {P : HttpResponse → Prop} (h : P rsp)
    (hconn : ∀ r, ∀ v ∈ [str "close", str "keep-alive"], P r → P (r.setHeader (str "Connection") v))
    (hlen : ∀ r, r.body ≠ [] → P r → P (r.setHeader (str "Content-Length") (toString' r.body.length)))
    (htype : ∀ r, P r → P (r.setHeader (str "Content-Type") (str "application/octet-stream")))
    (hloc : ∀ r, r.redirectFlag = true → P r → P (r.setHeader (str "Location") r.redirectUrl)) :
    P (completeHeaders req rsp) := by
  have hite : ∀ (p : Prop) [Decidable p] (r r' : HttpResponse), P r → (p → P r → P r') →
      P (if p then r' else r) := by
    intro p _ r r' hr hr'
    split
    · next hp => exact hr' hp hr
    · exact hr
  have h₁ : P (rsp.setHeader (str "Connection") (if req.close then str "close" else str "keep-alive")) :=
    hconn _ _ (by split <;> simp) h
  unfold completeHeaders
  exact hite _ _ _ (hite _ _ _ (hite _ _ _ h₁ fun hp => hlen _ hp.1) fun _ => htype _) fun hp => hloc _ hp

/-- A header line as it is written, if it is not the length of the body, has
no other length. -/
structure HeaderOf (rsp : HttpResponse) (h : Bytes × Bytes) : Prop where
  name : lf ∉ h.1
  value : lf ∉ h.2
  length : fieldName h.1 = str "content-length" →
    rsp.body ≠ [] ∧ h = (str "Content-Length", toString' rsp.body.length)

theorem HeaderOf.of {k v : Bytes} (hk : lf ∉ k ∧ fieldName k ≠ str "content-length") (hv : lf ∉ v) :
    HeaderOf rsp (k, v) :=
  ⟨hk.1, hv, fun hl => absurd hl hk.2⟩

/-- What `WriteReponse` has done to a response so far. -/
structure Completes (rsp r : HttpResponse) : Prop where
  statu : r.statu = rsp.statu
  body : r.body = rsp.body
  redirectFlag : r.redirectFlag = rsp.redirectFlag
  redirectUrl : r.redirectUrl = rsp.redirectUrl
  header : ∀ h ∈ r.headers.entries, HeaderOf rsp h

theorem Completes.setHeader {r : HttpResponse} (h : Completes rsp r) {k v : Bytes} (hk : HeaderOf rsp (k, v)) :
    Completes rsp (r.setHeader k v) := by
  refine ⟨h.statu, h.body, h.redirectFlag, h.redirectUrl, fun e he => ?_⟩
  rcases UnorderedMap.mem_insert he with he | rfl
  · exact h.header e he
  · exact hk

theorem lf_toString' (n : Nat) : lf ∉ toString' n := by
  rw [toString', if_neg (by omega)]
  exact fun hm => absurd (isDigit_of_mem_decimal hm) (by decide)

theorem completes_completeHeaders (h : Exchange.WellBuilt (req, rsp)) :
    Completes rsp (completeHeaders req rsp) := by
  refine completeHeaders_induct (P := Completes rsp) ?_ (fun r v hv hr => ?_) (fun r hb hr => ?_) (fun r hr => ?_)
    fun r hf hr => ?_
  · exact ⟨rfl, rfl, rfl, rfl, fun e he => .of ⟨(h.header e he).1.1, (h.header e he).2⟩ (h.header e he).1.2⟩
  · refine hr.setHeader (.of (by decide) ?_)
    revert v
    decide
  · rw [hr.body]
    have hk : lf ∉ str "Content-Length" := by decide
    exact hr.setHeader ⟨hk, lf_toString' _, fun _ => ⟨hr.body ▸ hb, rfl⟩⟩
  · exact hr.setHeader (.of (by decide) (by decide))
  · refine hr.setHeader (.of (by decide) ?_)
    rw [hr.redirectUrl]
    exact h.location (hr.redirectFlag ▸ hf)

/-- A body is written with its length. -/
theorem contentLength_mem (h : Exchange.WellBuilt (req, rsp)) (hb : rsp.body ≠ []) :
    (str "Content-Length", toString' rsp.body.length) ∈ (completeHeaders req rsp).headers.entries := by
  have hmem : ∀ (p : Prop) [Decidable p] (r : HttpResponse) (k v : Bytes) (e : Bytes × Bytes),
      e ∈ r.headers.entries → e ∈ (if p then r.setHeader k v else r).headers.entries := by
    intro p _ r k v e he
    split
    · exact UnorderedMap.mem_insert_of_mem he k v
    · exact he
  have hc : ((rsp.setHeader (str "Connection") (if req.close then str "close" else str "keep-alive")).hasHeader
      (str "Content-Length")) = false := by
    rw [← Bool.not_eq_true, HttpResponse.hasHeader, UnorderedMap.contains_iff]
    intro hm
    obtain ⟨e, he, hk⟩ := List.mem_map.mp hm
    rcases UnorderedMap.mem_insert he with he | rfl
    · exact (h.header e he).2 (by rw [hk]; rfl)
    · have hne : str "Connection" ≠ str "Content-Length" := by decide
      exact hne hk
  have hn : str "Content-Length" ∉ (rsp.setHeader (str "Connection")
      (if req.close then str "close" else str "keep-alive")).headers.entries.map Prod.fst := by
    rw [← UnorderedMap.contains_iff]
    exact Bool.eq_false_iff.mp hc
  unfold completeHeaders
  simp only
  refine hmem _ _ _ _ _ (hmem _ _ _ _ _ ?_)
  rw [if_pos ⟨hb, hc⟩]
  show _ ∈ (UnorderedMap.insert _ _ _).entries
  rw [UnorderedMap.entries_insert hn]
  exact List.mem_append_right _ List.mem_cons_self

/-! ## Reading a response -/

theorem lf_statuDesc (statu : Int) : lf ∉ Util.statuDesc statu := by
  have h : ∀ e ∈ statuMsg, lf ∉ str e.2 := by decide +kernel
  rw [Util.statuDesc]
  split
  · next msg hm =>
    obtain ⟨l₁, l₂, e, _⟩ := List.lookup_eq_some_iff.mp hm
    exact h (statu, msg) (e ▸ List.mem_append_right _ List.mem_cons_self)
  · decide

/-- The bytes that are sent. -/
def text (e : Exchange) : Bytes := srv.rspStr e.1 (completeHeaders e.1 e.2)

def lines (e : Exchange) : List Bytes :=
  (srv.iterate (completeHeaders e.1 e.2).headers).map fun h => h.1 ++ 58 :: sp :: h.2

variable {srv}

theorem text_eq {e : Exchange} (h : e.WellBuilt) : srv.text e =
    e.1.version ++ sp :: (decimal e.2.statu.toNat ++ sp :: Util.statuDesc e.2.statu) ++ crlf ++
      ((srv.lines e).flatMap (· ++ crlf) ++ crlf ++ e.2.body) := by
  have hc : Completes e.2 (completeHeaders e.1 e.2) := completes_completeHeaders h
  have hs : toString' e.2.statu = decimal e.2.statu.toNat := by
    have h200 := h.statu
    rw [toString', if_neg (by omega)]
    congr 1
    omega
  have hl : (srv.lines e).flatMap (· ++ crlf) =
      (srv.iterate (completeHeaders e.1 e.2).headers).flatMap headerLine := by
    rw [lines, List.flatMap_map]
    congr 1
    funext head
    simp [headerLine, str]
  rw [text, rspStr, hc.statu, hc.body, hs, hl]
  simp [str]

theorem contentLength_lines {e : Exchange} (h : e.WellBuilt) :
    contentLength (srv.lines e) = if e.2.body = [] then none else some e.2.body.length := by
  have hc : Completes e.2 (completeHeaders e.1 e.2) := completes_completeHeaders h
  have hp := srv.iterate_perm (completeHeaders e.1 e.2).headers
  have hname : ∀ line ∈ srv.lines e, fieldName line = str "content-length" →
      e.2.body ≠ [] ∧ line = str "Content-Length" ++ 58 :: sp :: decimal e.2.body.length := by
    intro line hm hl
    obtain ⟨head, hh, rfl⟩ := List.mem_map.mp hm
    rw [fieldName_append] at hl
    obtain ⟨hb, rfl⟩ := (hc.header head (hp.subset hh)).length hl
    exact ⟨hb, rfl⟩
  rw [contentLength]
  by_cases hb : e.2.body = []
  · rw [if_pos hb, List.find?_eq_none.mpr]
    · rfl
    · intro line hm hl
      exact (hname line hm (of_decide_eq_true hl)).1 hb
  · rw [if_neg hb]
    have hm : str "Content-Length" ++ 58 :: sp :: decimal e.2.body.length ∈ srv.lines e :=
      List.mem_map.mpr ⟨_, hp.symm.subset (contentLength_mem h hb), rfl⟩
    cases hf : (srv.lines e).find? fun line => fieldName line = str "content-length" with
    | none =>
      refine absurd ?_ (List.find?_eq_none.mp hf _ hm)
      rw [decide_eq_true_eq, fieldName_append]
      decide
    | some line =>
      have hl := List.find?_some hf
      obtain ⟨_, rfl⟩ := hname line (List.mem_of_find?_eq_some hf) (of_decide_eq_true hl)
      rw [Option.bind_some, fieldValue_append (by decide), trim_digits fun c => isDigit_of_mem_decimal,
        number_decimal]

/-- What a client makes of a response and what follows it. -/
theorem readResponse_text (srv : HttpServer) {e : Exchange} (h : e.WellBuilt) (hsp : sp ∉ e.1.version) (hlf : lf ∉ e.1.version)
    (closed : Bool) (rest : Bytes) :
    readResponse closed e.isHead (srv.text e ++ rest) =
      if e.isHead ∨ e.2.statu = 204 ∨ e.2.statu = 304 then some (⟨e.2.statu.toNat, []⟩, e.2.body ++ rest)
      else if e.2.body = [] then
        if closed then some (⟨e.2.statu.toNat, rest⟩, []) else none
      else some (⟨e.2.statu.toNat, e.2.body⟩, rest) := by
  have hc : Completes e.2 (completeHeaders e.1 e.2) := completes_completeHeaders h
  have hline : lf ∉ e.1.version ++ sp :: (decimal e.2.statu.toNat ++ sp :: Util.statuDesc e.2.statu) := by
    simp only [List.mem_append, List.mem_cons, not_or]
    refine ⟨hlf, by decide, fun hm => absurd (isDigit_of_mem_decimal hm) (by decide), by decide, lf_statuDesc _⟩
  have hlines : ∀ line ∈ srv.lines e, line ≠ [] ∧ lf ∉ line := by
    intro line hm
    obtain ⟨head, hh, rfl⟩ := List.mem_map.mp hm
    have hh := hc.header head ((srv.iterate_perm _).subset hh)
    refine ⟨by simp, ?_⟩
    simp only [List.mem_append, List.mem_cons, not_or]
    exact ⟨hh.name, by decide, by decide, hh.value⟩
  have hlen : (srv.lines e).length ≤ ((srv.lines e).flatMap (· ++ crlf)).length := by
    generalize srv.lines e = ls
    induction ls with
    | nil => exact Nat.le_refl _
    | cons l ls ih => simp only [List.flatMap_cons, List.length_append, List.length_cons]; omega
  have h200 := h.statu
  have h204 : e.2.statu.toNat = 204 ↔ e.2.statu = 204 := by omega
  have h304 : e.2.statu.toNat = 304 ↔ e.2.statu = 304 := by omega
  rw [readResponse, text_eq h, List.append_assoc, readLine_crlf hline]
  simp only [Option.bind_some]
  rw [statusCode_line hsp]
  simp only [Option.bind_some]
  rw [List.append_assoc, readHeaders_lines _ _ _ ?_ hlines]
  · simp only [Option.bind_some, contentLength_lines h, h204, h304]
    split
    · rfl
    · split
      · next hb =>
        rw [hb]
        cases closed <;> rfl
      · simp [readBody]
  · simp only [List.length_append]
    omega

end HttpServer

/-! ## The version of a request -/

/-- A version goes into the status line as it is. -/
def HttpRequest.Clean (r : HttpRequest) : Prop := sp ∉ r.version ∧ lf ∉ r.version

theorem HttpRequest.clean_new : HttpRequest.new.Clean := ⟨by decide, by decide⟩

namespace HttpContext

variable {ctx ctx' : HttpContext} {buf buf' : Bytes}

theorem clean_carried : Carried HttpRequest.Clean := ⟨fun _ _ h => h, fun _ _ h => h⟩

theorem clean_lineCarried : LineCarried HttpRequest.Clean := by
  intro _ _ captures _ _ hm _
  obtain ⟨m, p, q, v, e, _, rfl, _, _, _, hv, _⟩ := denotes_requestLine.mp (.of_fullMatch hm)
  have h₄ : Regex.capture (lineCaptures m p q v) 4 = v := by cases q <;> rfl
  show sp ∉ Regex.capture _ 4 ∧ lf ∉ Regex.capture _ 4
  rw [h₄]
  exact ⟨(not_mem_version hv).1 sp (by simp), (not_mem_version hv).1 lf (by simp)⟩

theorem clean_recvHttpRequest (h : ctx.request.Clean) (e : ctx.recvHttpRequest buf = .ok (ctx', buf')) :
    ctx'.request.Clean := by
  by_cases hs : ctx.recvStatu = .recvHttpLine
  · exact clean_carried.recvHttpRequest_line (fun _ h => h) hs (clean_carried.recvHttpLine clean_lineCarried h _) e
  · exact clean_carried.recvHttpRequest_of_ne (fun _ h => h) hs h e

end HttpContext

namespace HttpServer

open Connection Outcome

variable {srv : HttpServer} {c d : HttpConnection} {req : HttpRequest} {rsp : HttpResponse}

theorem version_dispatcher {t : Nat} (handlers : List (RouteRegex × Handler)) :
    ∀ {req req' : HttpRequest} {rsp rsp' : HttpResponse},
      dispatcher t handlers req rsp = some (req', rsp') → req'.version = req.version := by
  induction handlers with
  | nil =>
    intro req req' rsp rsp' e
    cases e
    rfl
  | cons h handlers ih =>
    intro req req' rsp rsp' e
    rw [dispatcher] at e
    split at e
    · have h := ih e
      exact h
    · obtain ⟨r, _, hr⟩ := Option.map_eq_some_iff.mp e
      cases hr
      rfl

theorem version_route {t : Nat} {req' : HttpRequest} {rsp' : HttpResponse}
    (e : srv.route t req rsp = some (req', rsp')) : req'.version = req.version := by
  unfold route at e
  split at e
  · obtain ⟨r, _, hr⟩ := Option.map_eq_some_iff.mp e
    cases hr
    rfl
  · split at e
    · exact version_dispatcher _ e
    · split at e
      · exact version_dispatcher _ e
      · split at e
        · exact version_dispatcher _ e
        · split at e
          · exact version_dispatcher _ e
          · cases e
            rfl

/-! ## What has been sent -/

def exchangeOf : Event HttpEvent → Option Exchange
  | .note (.respond req rsp) => some (req, rsp)
  | _ => none

/-- The responses that were written. -/
def exchanges (log : List (Event HttpEvent)) : List Exchange := log.filterMap exchangeOf

/-- The loop stopped before it could answer. -/
def isUnanswered : Event HttpEvent → Bool
  | .note .threw | .note (.parsed (.exception _)) => true
  | _ => false

/-- The bytes accepted on the connection are those of the responses, one for
each request or error. -/
structure Written (srv : HttpServer) (c : HttpConnection) : Prop where
  statu : c.statu ≠ .disconnected
  clean : c.context.request.Clean
  sent : ∀ e ∈ exchanges c.log, e.1.Clean
  accepted : accepted c.log = (exchanges c.log).flatMap srv.text
  answered : (exchanges c.log).length + c.log.countP isUnanswered = (trace c.log).length

theorem exchanges_append (log log' : List (Event HttpEvent)) :
    exchanges (log ++ log') = exchanges log ++ exchanges log' :=
  List.filterMap_append

/-- What is no response and has no bytes. -/
theorem Written.append (h : Written srv c) (es : List (Event HttpEvent)) (hl : d.log = c.log ++ es)
    (hs : d.statu ≠ .disconnected) (hc : d.context.request.Clean)
    (he : exchanges es = []) (ha : Connection.accepted es = []) (ht : es.countP isUnanswered = (trace es).length) :
    Written srv d := by
  have hex : exchanges d.log = exchanges c.log := by
    rw [hl, exchanges_append, he, List.append_nil]
  refine ⟨hs, hc, hex ▸ h.sent, ?_, ?_⟩
  · rw [hex, ← h.accepted, hl, Connection.accepted, List.flatMap_append]
    exact (congrArg _ ha).trans (List.append_nil _)
  · rw [hex, hl, List.countP_append, trace_append, List.length_append, ← h.answered, ht, Nat.add_assoc]

/-- A response to what has just been parsed. -/
theorem Written.respond (h : Written srv c) (p : Parsed) (rsp : HttpResponse) (hp : isUnanswered (.note (.parsed p)) = false)
    (hr : req.Clean) (hl : d.log = c.log ++ [.note (.parsed p), .note (.respond req rsp),
      .accepted (srv.text (req, rsp))]) (hs : d.statu ≠ .disconnected) (hc : d.context.request.Clean) :
    Written srv d := by
  have hex : exchanges d.log = exchanges c.log ++ [(req, rsp)] := by
    rw [hl, exchanges_append]
    rfl
  refine ⟨hs, hc, fun e he => ?_, ?_, ?_⟩
  · rw [hex] at he
    rcases List.mem_append.mp he with he | he
    · exact h.sent e he
    · obtain rfl := List.mem_singleton.mp he
      exact hr
  · rw [hex, List.flatMap_append, ← h.accepted, hl, Connection.accepted, List.flatMap_append]
    simp [Connection.accepted, Event.acceptedBytes]
  · have hu : List.countP isUnanswered [.note (.parsed p), .note (.respond req rsp),
        .accepted (srv.text (req, rsp))] = 0 := by
      rw [List.countP_cons, hp]
      rfl
    have ht : trace [.note (.parsed p), .note (.respond req rsp), .accepted (srv.text (req, rsp))] = [p] := rfl
    rw [hex, hl, List.countP_append, hu, trace_append, ht, List.length_append, List.length_append,
      ← h.answered]
    exact Nat.add_right_comm ..

theorem written_messagePreserved (srv : HttpServer) : MessagePreserved srv (Written srv) where
  more h e _ _ := h.append [] (List.append_nil _).symm h.statu (HttpContext.clean_recvHttpRequest h.clean e) rfl rfl rfl
  exception {c e} h _ := h.append [.note (.parsed (.exception e))] rfl h.statu h.clean rfl rfl rfl
  error {c context inBuffer} h e _ := by
    have hc := HttpContext.clean_recvHttpRequest h.clean e
    refine h.respond (.error context.respStatu) (errorHandler (.new context.respStatu)) rfl hc ?_ ?_ ?_
    · show (srv.writeReponse _ _ _).log = _
      rw [log_writeReponse, if_neg]
      · exact List.append_assoc ..
      · exact h.statu
    · exact (srv.writeReponse_same ..).1.trans_ne h.statu
    · exact HttpRequest.clean_new
  threw {c context inBuffer} h e _ _ _ := by
    have hc := HttpContext.clean_recvHttpRequest h.clean e
    exact h.append [.note (.parsed (.request context.request)), .note .threw] (List.append_assoc ..)
      h.statu hc rfl rfl rfl
  answer {c context inBuffer req rsp} h e _ _ hr := by
    have hc := HttpContext.clean_recvHttpRequest h.clean e
    have hq : req.Clean := by
      unfold HttpRequest.Clean
      rw [version_route hr]
      exact hc
    refine h.respond (.request context.request) rsp rfl hq ?_ ?_ ?_
    · show (srv.writeReponse _ _ _).log = _
      rw [log_writeReponse, if_neg (show (receive context inBuffer c).statu ≠ _ from h.statu)]
      exact List.append_assoc ..
    · exact (srv.writeReponse_same ..).1.trans_ne h.statu
    · exact HttpRequest.clean_new
  shutdown {c} h _ := h.append [.note (.shutdown c.inBuffer)] rfl h.statu h.clean rfl rfl rfl
  diverged h := h.append [.note .diverged] rfl h.statu h.clean rfl rfl rfl
  beginShutdown h := h.append [.shutdownInLoop] rfl ConnStatu.noConfusion h.clean rfl rfl rfl
  endShutdown {c} h := by
    rcases endShutdown_cases c with ⟨_, e⟩ | ⟨_, e | e⟩
    · rw [e]
      exact h.append [.release .shutdownInLoop c.releasing] rfl h.statu h.clean rfl rfl rfl
    · rw [e]
      exact h.append [] (List.append_nil _).symm h.statu h.clean rfl rfl rfl
    · rw [e]
      exact h

theorem written_feed (srv : HttpServer) (chunks : List Bytes) : Keeps (Written srv) (srv.feed chunks) := by
  refine keeps_runAll fun chunk _ c h => ?_
  refine (written_messagePreserved srv).rounds.good.keeps _ ?_
  exact h.append [] (List.append_nil _).symm h.statu h.clean rfl rfl rfl

/-! ## Reading what has been sent -/

/-- At any moment, whether or not the connection is then closed, the responses
so far are read one by one, as they were built. -/
def SelfDelimiting (srv : HttpServer) (es : List Exchange) : Prop :=
  ∀ closed pre, pre <+: es →
    readResponses closed (pre.map Exchange.isHead) (pre.flatMap srv.text) = some (pre.map Exchange.expected)

theorem readResponse_framed {e : Exchange} (h : e.WellBuilt) (hc : e.1.Clean) (hf : e.Framed) (closed : Bool)
    (rest : Bytes) : readResponse closed e.isHead (srv.text e ++ rest) = some (e.expected, rest) := by
  rw [readResponse_text srv h hc.1 hc.2]
  unfold Exchange.Framed at hf
  unfold Exchange.expected
  by_cases hh : e.isHead = true
  · rw [if_pos hh] at hf
    rw [if_pos (.inl hh), if_pos hh, hf, List.nil_append]
  · rw [if_neg hh] at hf
    rw [if_neg hh]
    by_cases hs : e.2.statu = 204 ∨ e.2.statu = 304
    · rw [if_pos (.inr hs), h.noBody hs, List.nil_append]
    · have hb : e.2.body ≠ [] := by
        rcases hf with hf | hf | hf
        · exact absurd (.inl hf) hs
        · exact absurd (.inr hf) hs
        · exact hf
      rw [if_neg fun ho => ho.elim hh hs, if_neg hb]

/-- While the connection is open, a response that is not framed is not read. -/
theorem readResponses_unframed {e : Exchange} (h : e.WellBuilt) (hc : e.1.Clean) (hf : ¬ e.Framed) :
    readResponses false [e.isHead] (srv.text e) = none := by
  have ht := readResponse_text srv h hc.1 hc.2 false []
  rw [List.append_nil, List.append_nil] at ht
  rw [readResponses, ht]
  unfold Exchange.Framed at hf
  by_cases hh : e.isHead = true
  · rw [if_pos hh] at hf
    rw [if_pos (.inl hh), Option.bind_some]
    show (if _ then _ else none : Option _).map _ = none
    rw [if_neg hf]
    rfl
  · rw [if_neg hh, not_or, not_or, not_not] at hf
    rw [if_neg, if_pos hf.2.2]
    · rfl
    · exact fun ho => ho.elim hh fun ho => ho.elim hf.1 hf.2.1

theorem selfDelimiting_iff {es : List Exchange} (h : ∀ e ∈ es, e.WellBuilt) (hc : ∀ e ∈ es, e.1.Clean) :
    srv.SelfDelimiting es ↔ ∀ e ∈ es, e.Framed := by
  have hread : ∀ closed pre, pre <+: es → (∀ e ∈ pre, e.Framed) → ∀ heads rest,
      readResponses closed (pre.map Exchange.isHead ++ heads) (pre.flatMap srv.text ++ rest) =
        (readResponses closed heads rest).map fun rs => pre.map Exchange.expected ++ rs :=
    fun closed pre hp hf => readResponses_flatMap pre fun e he =>
      readResponse_framed (h e (hp.subset he)) (hc e (hp.subset he)) (hf e he) closed
  refine ⟨fun hd => ?_, fun hf closed pre hp => ?_⟩
  · have hall : ∀ pre, pre <+: es → ∀ e ∈ pre, e.Framed := by
      intro pre
      induction pre using List.reverseRecOn with
      | nil => exact fun _ e he => absurd he List.not_mem_nil
      | append_singleton pre e ih =>
        intro hp
        have hpre := (List.prefix_append pre [e]).trans hp
        have he : e ∈ es := hp.subset (by simp)
        have hf : e.Framed := by
          by_contra hf
          have hd := hd false (pre ++ [e]) hp
          rw [List.map_append, List.flatMap_append, hread false pre hpre (ih hpre), List.map_singleton,
            List.flatMap_singleton, readResponses_unframed (h e he) (hc e he) hf] at hd
          cases hd
        intro x hx
        rcases List.mem_append.mp hx with hx | hx
        · exact ih hpre x hx
        · rw [List.mem_singleton.mp hx]
          exact hf
    exact hall es (List.prefix_refl es)
  · have hr := hread closed pre hp (fun e he => hf e (hp.subset he)) [] []
    rw [List.append_nil, List.append_nil, readResponses, if_pos rfl, Option.map_some, List.append_nil] at hr
    exact hr

/-- The responses sent on a connection, one for each request unless the loop
stops in it, can be read if and only if each of them is framed. -/
theorem selfDelimiting_iff_framed (srv : HttpServer) (c : HttpConnection) (hs : c.statu ≠ .disconnected)
    (hc : c.context = .new) (hl : c.log = []) (chunks : List Bytes) :
    let log := (srv.feed chunks c).state.log
    Connection.accepted log = (exchanges log).flatMap srv.text ∧
      (exchanges log).length + log.countP isUnanswered = (trace log).length ∧
      ((∀ e ∈ exchanges log, e.WellBuilt) →
        (srv.SelfDelimiting (exchanges log) ↔ ∀ e ∈ exchanges log, e.Framed)) := by
  intro log
  have h₀ : Written srv c := by
    refine ⟨hs, ?_, ?_, ?_, ?_⟩
    · rw [hc]
      exact HttpRequest.clean_new
    all_goals rw [hl]
    · exact fun e he => absurd he List.not_mem_nil
    · rfl
    · rfl
  have h := written_feed srv chunks c h₀
  exact ⟨h.accepted, h.answered, fun hb => selfDelimiting_iff hb h.sent⟩

/-- A server whose pages are not empty. -/
def greeter : HttpServer :=
  { noRoutes with
    getRoute := [(fun _ => some [], fun _ _ rsp => some (rsp.setContent (str "hi") (str "text/plain")))] }

/-- A keep-alive request for a page. -/
def getPage : Bytes := str "GET /a HTTP/1.1\r\nConnection: keep-alive\r\n\r\n"

def pageRequest : HttpRequest where
  method := str "GET"
  path := str "/a"
  version := str "HTTP/1.1"
  body := []
  matched := []
  headers := ⟨[(str "Connection", str "keep-alive")], List.nodup_singleton _⟩
  params := .empty

def greeting : HttpResponse := (HttpResponse.new 200).setContent (str "hi") (str "text/plain")

theorem greeting_framed : Exchange.WellBuilt (pageRequest, greeting) ∧ Exchange.Framed (pageRequest, greeting) := by
  refine ⟨⟨by decide, by decide, fun head hm => ?_, fun hr => Bool.noConfusion hr⟩, ?_⟩
  · obtain rfl : head = (str "Content-Type", str "text/plain") := List.mem_singleton.mp hm
    exact ⟨⟨by decide, by decide⟩, by decide⟩
  · rw [Exchange.Framed, if_neg (by decide)]
    exact .inr (.inr (by decide))

theorem selfDelimiting_iff_framed_greeter :
    greeter.SelfDelimiting (exchanges (greeter.feed [getPage, getPage] (new 1 true .new none)).state.log) := by
  have h := selfDelimiting_iff_framed greeter (new 1 true .new none) ConnStatu.noConfusion rfl rfl [getPage, getPage]
  have hl : exchanges (greeter.feed [getPage, getPage] (new 1 true .new none)).state.log =
      [(pageRequest, greeting), (pageRequest, greeting)] := rfl
  simp only [hl] at h ⊢
  refine (h.2.2 fun e he => ?_).mpr fun e he => ?_
  · obtain rfl : e = (pageRequest, greeting) := by simpa using he
    exact greeting_framed.1
  · obtain rfl : e = (pageRequest, greeting) := by simpa using he
    exact greeting_framed.2

/-- What `Dispatcher` leaves of a response. -/
def notFound : HttpResponse := .new 404

/-- Two keep-alive requests for a page that is not there. The first response
does not end. -/
theorem notFound_unframed : ¬ ∀ chunks : List Bytes,
    let log := (noRoutes.feed chunks (new 1 true .new none)).state.log
    (∀ e ∈ exchanges log, e.WellBuilt ∧ e.1.close = false) → noRoutes.SelfDelimiting (exchanges log) := by
  intro h
  have h := h [getPage, getPage]
  have hl : exchanges (noRoutes.feed [getPage, getPage] (new 1 true .new none)).state.log =
      [(pageRequest, notFound), (pageRequest, notFound)] := rfl
  simp only [hl] at h
  have hb : Exchange.WellBuilt (pageRequest, notFound) :=
    ⟨by decide, by decide, fun head hm => absurd hm List.not_mem_nil, fun hr => Bool.noConfusion hr⟩
  have hr := readResponse_text noRoutes hb (by decide) (by decide) true (noRoutes.text (pageRequest, notFound))
  have hd := h (fun e he => by
    obtain rfl : e = (pageRequest, notFound) := by simpa using he
    exact ⟨hb, by decide⟩) true _ (List.prefix_refl _)
  have hd : (readResponse true (Exchange.isHead (pageRequest, notFound)) (noRoutes.text (pageRequest, notFound) ++
      (noRoutes.text (pageRequest, notFound) ++ []))).bind _ = _ := hd
  rw [List.append_nil, hr] at hd
  cases hd

end HttpServer

end Mudou
