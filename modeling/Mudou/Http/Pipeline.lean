import Mudou.Http.Encoding
import Mudou.Http.Grammar
import Mudou.Http.Stream

/-!
# Pipelined requests

`encode` writes a request with what `Mudou.Http.Encoding` has: a text of the
grammar (`written`), which denotes the request, since the entries of the head go
into the maps in order. So parsing it from a new context gives back the request
and leaves what follows (`recvHttpRequest_encode`).

`onMessage_encode`: of a list of encoded requests in the input buffer,
`OnMessage` parses exactly these, as long as `Route` does not throw.
-/

namespace Mudou

open Fifo Util

namespace HttpRequest

open HttpContext

/-- A parameter in the query string. -/
def param (e : Bytes × Bytes) : Bytes := percentEncode e.1 ++ str "=" ++ percentEncode e.2

def queryString (r : HttpRequest) : Option Bytes :=
  if r.params.entries = [] then none else some ((str "&").intercalate (r.params.entries.map param))

def line (r : HttpRequest) : Bytes :=
  r.method ++ str " " ++ percentEncode r.path ++ queryPart r.queryString ++ str " " ++ r.version ++ str "\r\n"

def headLine (e : Bytes × Bytes) : Bytes := e.1 ++ str ": " ++ e.2 ++ str "\r\n"

def encode (r : HttpRequest) : Bytes :=
  r.line ++ r.headers.entries.flatMap headLine ++ str "\r\n" ++ r.body

/-- A request that can be written. The length of a `std::string` is less than
half the range of `size_t`. -/
structure WellFormed (r : HttpRequest) : Prop where
  method : r.method ∈ methodNames
  version : r.version ∈ versions
  matched : r.matched = []
  line : r.line.length ≤ maxLine
  name : ∀ e ∈ r.headers.entries, ¬ str ": " <:+: e.1 ∧ lf ∉ e.1
  value : ∀ e ∈ r.headers.entries, lf ∉ e.2
  headLine : ∀ e ∈ r.headers.entries, (headLine e).length ≤ maxLine
  contentLength : r.headers.find (str "Content-Length") = some (decimal r.body.length) ∨
    r.body = [] ∧ r.headers.find (str "Content-Length") = none
  body : r.body.length < 9223372036854775808

instance (r : HttpRequest) : Decidable r.WellFormed :=
  decidable_of_iff (r.method ∈ methodNames ∧ r.version ∈ versions ∧ r.matched = [] ∧ r.line.length ≤ maxLine ∧
      (∀ e ∈ r.headers.entries, ¬ str ": " <:+: e.1 ∧ lf ∉ e.1) ∧ (∀ e ∈ r.headers.entries, lf ∉ e.2) ∧
      (∀ e ∈ r.headers.entries, (HttpRequest.headLine e).length ≤ maxLine) ∧
      (r.headers.find (str "Content-Length") = some (decimal r.body.length) ∨
        r.body = [] ∧ r.headers.find (str "Content-Length") = none) ∧ r.body.length < 9223372036854775808)
    ⟨fun ⟨hm, hv, hx, hl, hn, hval, hh, hc, hb⟩ => ⟨hm, hv, hx, hl, hn, hval, hh, hc, hb⟩,
      fun h => ⟨h.method, h.version, h.matched, h.line, h.name, h.value, h.headLine, h.contentLength, h.body⟩⟩

variable {r : HttpRequest}

/-! ## The request line -/

theorem param_param (e : Bytes × Bytes) : RequestLine.param (param e) = e := by
  have he : param e = percentEncode e.1 ++ 61 :: percentEncode e.2 := by simp [param, str]
  have hd : ∀ a ∈ percentEncode e.1, decide (a ≠ 61) = true := fun a ha =>
    decide_eq_true fun ea => not_mem_percentEncode (by decide) e.1 (ea ▸ ha)
  have ht : (param e).takeWhile (· ≠ 61) = percentEncode e.1 := by
    rw [he, List.takeWhile_append_of_pos hd, List.takeWhile_cons_of_neg (by decide), List.append_nil]
  have hv : (param e).dropWhile (· ≠ 61) = 61 :: percentEncode e.2 := by
    rw [he, List.dropWhile_append_of_pos hd, List.dropWhile_cons_of_neg (by decide)]
  rw [RequestLine.param, ht, hv, List.tail_cons, urlDecode_percentEncode, urlDecode_percentEncode]

theorem mem_param {e : Bytes × Bytes} {c : Byte} (h : c ∈ param e) : encoded c = true ∨ c = 61 := by
  rw [param, List.mem_append, List.mem_append] at h
  rcases h with (h | h) | h
  · exact .inl (encoded_of_mem h)
  · exact .inr (List.mem_singleton.mp h)
  · exact .inl (encoded_of_mem h)

/-- A query string has only encoded bytes and its separators. -/
theorem mem_queryString {q : Bytes} (h : r.queryString = some q) {c : Byte} (hc : c ∈ q) :
    encoded c = true ∨ c = 61 ∨ c = 38 := by
  unfold queryString at h
  split at h
  · cases h
  · cases h
    rcases mem_intercalate hc with rfl | ⟨p, hp, hcp⟩
    · exact .inr (.inr rfl)
    · obtain ⟨e, _, rfl⟩ := List.mem_map.mp hp
      exact (mem_param hcp).imp_right .inl

theorem split_queryString (r : HttpRequest) :
    (split (r.queryString.getD []) (str "&") []).1 = r.params.entries.map param := by
  unfold queryString
  split
  · next h =>
    rw [h]
    rfl
  · refine split_intercalate fun p hp => ?_
    obtain ⟨e, _, rfl⟩ := List.mem_map.mp hp
    refine ⟨by simp [param, str], fun hm => ?_⟩
    rcases mem_param hm with h | h
    · exact absurd h (by decide)
    · exact absurd h (by decide)

/-- Distinct keys go into an empty map in order. -/
theorem foldl_insert (m : UnorderedMap Bytes Bytes) :
    m.entries.foldl (fun m e => m.insert e.1 e.2) .empty = m := by
  have h := UnorderedMap.entries_foldl_insert m.entries .empty m.nodup
  cases m
  cases hm : List.foldl _ _ _
  rw [hm] at h
  cases h
  rfl

theorem map_toUpper {m : Bytes} (h : m ∈ methodNames) : m.map toUpper = m := by
  revert m
  decide

/-- The parts of the line. -/
def writtenLine (r : HttpRequest) : RequestLine :=
  ⟨r.method, percentEncode r.path ++ queryPart r.queryString, r.version, str "\r\n"⟩

theorem writtenLine_path_query (r : HttpRequest) :
    r.writtenLine.path = percentEncode r.path ∧ r.writtenLine.query = r.queryString :=
  RequestLine.path_query_eq (not_mem_percentEncode (by decide) _) rfl

theorem writtenLine_pieces (r : HttpRequest) : r.writtenLine.pieces = r.params.entries.map param := by
  rw [RequestLine.pieces, (writtenLine_path_query r).2, ← split_queryString r, show str "&" = [38] from rfl, split_byte]

theorem not_mem_queryString {c : Byte} (hc : encoded c = false ∧ c ≠ 61 ∧ c ≠ 38) :
    c ∉ r.queryString.getD [] := by
  cases hq : r.queryString with
  | none => exact List.not_mem_nil
  | some q =>
    intro hm
    rcases mem_queryString hq hm with h | h
    · exact Bool.false_ne_true (hc.1.symm.trans h)
    · exact h.elim hc.2.1 hc.2.2

theorem writtenLine_wellFormed (h : r.WellFormed) : r.writtenLine.WellFormed where
  method := ⟨r.method, h.method, rfl⟩
  version := ⟨r.version, h.version, rfl⟩
  ending := by simp [writtenLine, lineEndings]
  query := by
    rw [(writtenLine_path_query r).2]
    exact not_mem_queryString (by decide)
  pieces piece hm := by
    rw [writtenLine_pieces] at hm
    obtain ⟨e, _, rfl⟩ := List.mem_map.mp hm
    simp [param, str]

theorem isLine_writtenLine (h : r.WellFormed) : IsLine r.writtenLine.text := by
  have hm : ∀ m ∈ methodNames, lf ∉ m := by decide
  have hv : ∀ v ∈ versions, lf ∉ v := by decide
  have hq : lf ∉ queryPart r.queryString := by
    have hq := not_mem_queryString (r := r) (c := lf) (by decide)
    cases e : r.queryString with
    | none => exact List.not_mem_nil
    | some q =>
      rw [e] at hq
      exact fun hm => (List.mem_cons.mp hm).elim (by decide) hq
  refine ⟨r.method ++ sp :: (percentEncode r.path ++ queryPart r.queryString ++ sp :: (r.version ++ [cr])),
    by simp [RequestLine.text, writtenLine, str], ?_⟩
  simp only [List.mem_append, List.mem_cons, not_or]
  exact ⟨hm _ h.method, by decide, ⟨not_mem_percentEncode (by decide) _, hq⟩, by decide, hv _ h.version, by decide,
    List.not_mem_nil⟩

/-! ## The text -/

def writtenHead (e : Bytes × Bytes) : HeaderLine := ⟨e.1, e.2, str "\r\n"⟩

theorem writtenHead_text (e : Bytes × Bytes) : (writtenHead e).text = headLine e := by
  simp [HeaderLine.text, writtenHead, headLine]

/-- What the client writes, as a text of the grammar. -/
def written (r : HttpRequest) : RequestText :=
  ⟨r.writtenLine, r.headers.entries.map writtenHead, str "\r\n", r.body⟩

theorem written_text (r : HttpRequest) : r.written.text = r.encode := by
  have hl : r.writtenLine.text = r.line := by simp [RequestLine.text, writtenLine, line, str]
  have hh : (r.headers.entries.map writtenHead).flatMap HeaderLine.text = r.headers.entries.flatMap headLine := by
    rw [List.flatMap_map]
    exact List.flatMap_congr fun e _ => writtenHead_text e
  simp only [RequestText.text, written, hl, hh, encode, List.append_assoc]

/-- The text denotes the request. -/
theorem written_request (h : r.WellFormed) : r.written.request = r := by
  have hp : (r.writtenLine.pieces.map RequestLine.param) = r.params.entries := by
    rw [writtenLine_pieces, List.map_map]
    exact (List.map_congr_left fun e _ => param_param e).trans (List.map_id _)
  have hh : (r.headers.entries.map writtenHead).foldl (fun m l => m.insert l.key l.val) .empty = r.headers := by
    rw [List.foldl_map]
    exact foldl_insert r.headers
  rw [RequestText.request, RequestText.afterHead, RequestText.afterLine]
  simp only [written]
  rw [hp, hh, foldl_insert, (writtenLine_path_query r).1, urlDecode_percentEncode]
  show { r with method := r.method.map toUpper, matched := [] } = r
  rw [map_toUpper h.method, ← h.matched]

theorem contentLength_eq (h : r.WellFormed) : r.contentLength = .ok r.body.length := by
  unfold HttpRequest.contentLength hasHeader UnorderedMap.contains getHeader
  have hb := h.body
  rcases h.contentLength with hc | ⟨hn, hc⟩
  · rw [hc]
    simp only [Option.isSome_some, if_true, Option.getD_some, stol_decimal hb, Except.map, sizeT]
    congr 1
    omega
  · rw [hc, hn]
    rfl

theorem written_wellFormed (h : r.WellFormed) : r.written.WellFormed where
  line := writtenLine_wellFormed h
  oneLine := isLine_writtenLine h
  heads l hl := by
    obtain ⟨e, he, rfl⟩ := List.mem_map.mp hl
    have hne : str "\r\n" ≠ str "\n" := by decide
    exact ⟨(h.name e he).1, List.mem_cons_of_mem _ List.mem_cons_self, fun hn => absurd hn hne, (h.name e he).2,
      h.value e he⟩
  blank := List.mem_cons_of_mem _ List.mem_cons_self
  short := by
    refine ⟨?_, fun l hl => ?_⟩
    · have hl : r.writtenLine.text = r.line := by simp [RequestLine.text, writtenLine, line, str]
      exact hl ▸ h.line
    · obtain ⟨e, he, rfl⟩ := List.mem_map.mp hl
      rw [writtenHead_text]
      exact h.headLine e he
  body := by
    rw [written_request h]
    exact contentLength_eq h

/-- A request and what follows it. -/
theorem recvHttpRequest_encode (h : r.WellFormed) (rest : Bytes) :
    HttpContext.new.recvHttpRequest (r.encode ++ rest) = .ok (⟨200, .recvHttpOver, r⟩, rest) := by
  have ht := RequestText.recvHttpRequest_text (written_wellFormed h) rest
  rwa [written_text, written_request h] at ht

/-! ## Pipelines -/

/-- The loop over encoded requests, up to one on which `Route` throws. -/
theorem drain_encode (srv : HttpServer) (reqs : List HttpRequest) : ∀ t : Nat,
    (∀ r ∈ reqs, r.WellFormed) →
      Resumable.Drain srv.consume (HttpServer.fresh, t) (reqs.flatMap encode) (reqs.map .request)
          (some ((HttpServer.fresh, t + reqs.length), [])) ∨
        ∃ pre r post, reqs = pre ++ r :: post ∧ srv.route (t + pre.length) r (.new 200) = none ∧
          Resumable.Drain srv.consume (HttpServer.fresh, t) (reqs.flatMap encode)
            ((pre ++ [r]).map .request) none := by
  induction reqs with
  | nil => exact fun t _ => .inl (.nil _)
  | cons r reqs ih =>
    intro t h
    have hne : (r :: reqs).flatMap encode ≠ [] := by simp [encode, line, str]
    have hc : srv.consume (HttpServer.fresh, t) ((r :: reqs).flatMap encode) =
        if srv.route t r (.new 200) = none then .halt (.request r)
        else .emit (.request r) (HttpServer.fresh, t + 1) (reqs.flatMap encode) := by
      rw [HttpServer.consume, List.flatMap_cons]
      show srv.report t (HttpContext.new.recvHttpRequest _) = _
      rw [recvHttpRequest_encode (h r List.mem_cons_self)]
      exact HttpServer.report_over (show (200 : Int) < 400 by decide) rfl
    by_cases hr : srv.route t r (.new 200) = none
    · rw [if_pos hr] at hc
      exact .inr ⟨[], r, reqs, rfl, hr, .halt hne hc⟩
    · rw [if_neg hr] at hc
      rcases ih (t + 1) fun r hr => h r (List.mem_cons_of_mem _ hr) with hd | ⟨pre, r', post, e, hn, hd⟩
      · rw [Nat.add_right_comm] at hd
        exact .inl (.emit hne hc hd)
      · rw [Nat.add_right_comm] at hn
        exact .inr ⟨r :: pre, r', post, by rw [e]; rfl, hn, .emit hne hc hd⟩

/-- Encoded requests in the input buffer are parsed to exactly these, in
order, with nothing left in the buffer and the context; unless `Route` throws
on one of them, after these and it. -/
theorem onMessage_encode (srv : HttpServer) (c : HttpConnection) (hc : c.context = .new)
    (reqs : List HttpRequest) (h : ∀ r ∈ reqs, r.WellFormed) :
    let o := srv.onMessage { c with inBuffer := reqs.flatMap encode }
    (∃ d, o = .ok d ∧ HttpServer.trace d.log = HttpServer.trace c.log ++ reqs.map .request ∧
        d.context = .new ∧ d.inBuffer = []) ∨
      ∃ pre r post d, reqs = pre ++ r :: post ∧ o = .stopped d ∧
        srv.route (HttpServer.served c.log + pre.length) r (.new 200) = none ∧
        HttpServer.trace d.log = HttpServer.trace c.log ++ (pre ++ [r]).map .request := by
  intro o
  have hat : HttpServer.At (HttpServer.fresh, HttpServer.served c.log)
      { c with inBuffer := reqs.flatMap encode } := ⟨hc, rfl⟩
  obtain ⟨es, l, hd, ht, hl⟩ := srv.onMessage_drains hat
  rcases drain_encode srv reqs (HttpServer.served c.log) h with hd' | ⟨pre, r, post, e, hn, hd'⟩
  · obtain ⟨rfl, rfl⟩ := hd.unique hd'
    obtain ⟨d, eo, hs, hb⟩ := hl
    rw [eo] at ht
    exact .inl ⟨d, eo, ht, hs.context, hb⟩
  · obtain ⟨rfl, rfl⟩ := hd.unique hd'
    obtain ⟨d, eo⟩ := hl
    rw [eo] at ht
    exact .inr ⟨pre, r, post, d, e, eo, hn, ht⟩

/-- A request with a parameter, and one with a body. -/
def getItem : HttpRequest where
  method := str "GET"
  path := str "/a b"
  version := str "HTTP/1.1"
  body := []
  matched := []
  headers := ⟨[(str "Connection", str "keep-alive")], by decide⟩
  params := ⟨[(str "k&", str "1+1=2")], by decide⟩

def postItem : HttpRequest where
  method := str "POST"
  path := str "/a"
  version := str "HTTP/1.0"
  body := str "hi"
  matched := []
  headers := ⟨[(str "Connection", str "keep-alive"), (str "Content-Length", str "2")], by decide⟩
  params := .empty

theorem wellFormed_items : ∀ r ∈ [getItem, postItem], r.WellFormed := by decide

theorem route_noRoutes (t : Nat) (req : HttpRequest) (rsp : HttpResponse) :
    HttpServer.noRoutes.route t req rsp ≠ none := by
  have hf : HttpServer.noRoutes.isFileHandler t req = false := rfl
  have hd : HttpServer.dispatcher t [] req rsp ≠ none := Option.some_ne_none _
  rw [HttpServer.route, hf, if_neg Bool.false_ne_true]
  split
  · exact hd
  · split
    · exact hd
    · split
      · exact hd
      · split
        · exact hd
        · exact Option.some_ne_none _

theorem onMessage_encode_items :
    let c : HttpConnection := .new 1 true .new none
    ∃ d, HttpServer.noRoutes.onMessage { c with inBuffer := [getItem, postItem].flatMap encode } = .ok d ∧
      HttpServer.trace d.log = [.request getItem, .request postItem] ∧ d.context = .new ∧ d.inBuffer = [] := by
  intro c
  refine (onMessage_encode HttpServer.noRoutes c rfl [getItem, postItem] wellFormed_items).resolve_right ?_
  rintro ⟨pre, r, post, d, _, _, hn, _⟩
  exact route_noRoutes _ _ _ hn

end HttpRequest

end Mudou
