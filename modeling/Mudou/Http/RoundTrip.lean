import Mudou.Http.Pipeline
import Mudou.Http.Transducer

/-!
# From client to client

Requests that are written with `encode` and arrive in any chunks, among
whatever else happens on the connection, are answered one by one, in order,
as `Route` does; and the responses are read as they were built
(`run_exchanges`).
-/

namespace Mudou

open Outcome Resumable

namespace HttpServer

open Connection HttpContext HttpClient

variable {srv : HttpServer}

/-- A part of a written request, as long as the rest of it has not arrived. -/
theorem undecided_part {r : HttpRequest} (h : r.WellFormed) {part x : Bytes} (hp : part ++ x = r.encode) (hx : x ≠ []) :
    HttpContext.new.Undecided part := by
  have hs := recvHttpRequest_append (show HttpContext.new.respStatu < 400 by decide) part x
  have hw := HttpRequest.recvHttpRequest_encode h []
  rw [List.append_nil] at hw
  rw [hp, hw] at hs
  cases e : HttpContext.new.recvHttpRequest part with
  | error err =>
    rw [e] at hs
    cases hs
  | ok res =>
    obtain ⟨ctx, buf⟩ := res
    rw [e] at hs
    simp only at hs
    by_cases hr : 400 ≤ ctx.respStatu
    · rw [if_pos hr] at hs
      obtain ⟨buf'', hs⟩ := hs
      obtain ⟨rfl, -⟩ := Prod.mk.inj (Except.ok.inj hs)
      exact absurd hr (show ¬ (400 : Int) ≤ 200 by decide)
    · rw [if_neg hr] at hs
      have hr := Int.not_le.mp hr
      by_cases ho : ctx.recvStatu = .recvHttpOver
      · rw [if_pos ho] at hs
        have hb := (Prod.mk.inj (Except.ok.inj hs)).2
        exact absurd (List.append_eq_nil_iff.mp hb.symm).2 hx
      · exact ⟨ctx, buf, e, hr, ho⟩

/-- What `reply` gives for written requests, and part of another. -/
theorem loop_encode (srv : HttpServer) {part : Bytes} (hp : HttpContext.new.Undecided part)
    (reqs : List HttpRequest) : ∀ t n, (∀ r ∈ reqs, r.WellFormed) → reqs.length < n →
      ∃ es, loop srv.reply n (listening, t) (reqs.flatMap HttpRequest.encode ++ part) = (es, none) ∧
        (none ∉ es → es = reqs.mapIdx fun i r => srv.route (t + i) r (.new 200)) := by
  induction reqs with
  | nil =>
    intro t n _ hn
    obtain ⟨n, rfl⟩ := Nat.exists_eq_succ_of_ne_zero (Nat.ne_zero_of_lt hn)
    obtain ⟨ctx, buf, e, hr, ho⟩ := hp
    exact ⟨[], loop_more (reply_more e hr ho), fun _ => rfl⟩
  | cons r reqs ih =>
    intro t n hw hn
    obtain ⟨n, rfl⟩ := Nat.exists_eq_succ_of_ne_zero (Nat.ne_zero_of_lt hn)
    have hw₁ := hw r List.mem_cons_self
    have he : HttpContext.new.recvHttpRequest ((r :: reqs).flatMap HttpRequest.encode ++ part) =
        .ok (⟨200, .recvHttpOver, r⟩, reqs.flatMap HttpRequest.encode ++ part) := by
      rw [List.flatMap_cons, List.append_assoc]
      exact HttpRequest.recvHttpRequest_encode hw₁ _
    have hr : srv.reply (listening, t) _ = _ := reply_over he (show (200 : Int) < 400 by decide) rfl
    simp only at hr
    cases hroute : srv.route t r (.new 200) with
    | none =>
      rw [hroute] at hr
      exact ⟨[none], loop_halt hr, fun hm => absurd (List.mem_singleton_self none) hm⟩
    | some exchange =>
      rw [hroute] at hr
      obtain ⟨es, hl, hes⟩ := ih (t + 1) n (fun r hm => hw r (List.mem_cons_of_mem _ hm)) (by simpa using hn)
      refine ⟨some exchange :: es, by rw [loop_emit hr, hl]; rfl, fun hm => ?_⟩
      have ht : ∀ i, t + 1 + i = t + (i + 1) := fun i => by omega
      simp only [hes fun h => hm (List.mem_cons_of_mem _ h), List.mapIdx_cons, Nat.add_zero, hroute, ht]

theorem length_le_encode (reqs : List HttpRequest) : reqs.length ≤ (reqs.flatMap HttpRequest.encode).length := by
  induction reqs with
  | nil => exact Nat.le_refl _
  | cons r reqs ih =>
    have h1 : 1 ≤ r.encode.length := by simp [HttpRequest.encode, HttpRequest.line, str]; omega
    rw [List.flatMap_cons, List.length_append, List.length_cons]
    omega

theorem clean_of_wellFormed {r : HttpRequest} (h : r.WellFormed) : r.Clean := by
  have hv := h.version
  unfold HttpRequest.Clean
  generalize r.version = v at hv
  revert v
  decide

/-- The responses to written requests, when a part of another has arrived. -/
theorem Idle.exchanges_eq {c : HttpConnection} (h : Idle srv c) {reqs : List HttpRequest} {next : HttpRequest}
    (hw : ∀ r ∈ next :: reqs, r.WellFormed) {part x : Bytes} (hp : part ++ x = next.encode) (hx : x ≠ [])
    (hd : (chunks c.log).flatten = reqs.flatMap HttpRequest.encode ++ part) :
    (exchanges c.log).map some = reqs.mapIdx fun t r => srv.route t r (.new 200) := by
  have hlen := length_le_encode reqs
  obtain ⟨es, hl, hes⟩ := loop_encode srv (undecided_part (hw next List.mem_cons_self) hp hx) reqs 0
    ((chunks c.log).flatten.length + 1) (fun r hm => hw r (List.mem_cons_of_mem _ hm))
    (by rw [hd, List.length_append]; omega)
  rw [← hd] at hl
  have he := h.exchanges_eq_restarts.trans ((reply_stable srv).restarts_eq_reports (reply_shrinking srv) _ hl)
  rw [he, hes (by simp [← he])]
  simp

/-- A client reads them, if nothing else was sent. -/
theorem Idle.read {c : HttpConnection} (h : Idle srv c) {reqs : List HttpRequest} (hw : ∀ r ∈ reqs, r.WellFormed)
    (hex : (exchanges c.log).map some = reqs.mapIdx fun t r => srv.route t r (.new 200))
    (hrel : .releaseInLoop ∉ c.log) (hpay : (payloads c.log).length = reqs.length)
    (hf : ∀ ex ∈ exchanges c.log, ex.WellBuilt ∧ ex.Framed) :
    readResponses false ((exchanges c.log).map Exchange.isHead) (payloads c.log).flatten =
      some ((exchanges c.log).map Exchange.expected) := by
  have hclean : ∀ ex ∈ exchanges c.log, ex.1.Clean := by
    intro ex hm
    have hm : some ex ∈ reqs.mapIdx fun t r => srv.route t r (.new 200) := hex ▸ List.mem_map_of_mem hm
    obtain ⟨t, ht, hroute⟩ := List.mem_mapIdx.mp hm
    unfold HttpRequest.Clean
    rw [version_route hroute]
    exact clean_of_wellFormed (hw _ (List.getElem_mem ht))
  have heq : (exchanges c.log).map srv.text = payloads c.log := by
    refine (h.sent hrel).eq_of_length ?_
    rw [hpay, List.length_map, ← List.length_mapIdx (f := fun t r => srv.route t r (.new 200)), ← hex, List.length_map]
  rw [← heq, ← List.flatMap_def]
  exact (selfDelimiting_iff (fun ex hm => (hf ex hm).1) hclean).mpr (fun ex hm => (hf ex hm).2) false _
    (List.prefix_refl _)

/-- In every run of a connection in which its thread does not end: if the
chunks received, however they are cut, are written requests and part of
another, the responses are what `Route` gives for these requests, one by one.
Until the connection is released, and if nothing else is sent on it, a client
reads them as they were built, provided they are framed. -/
theorem run_exchanges (srv : HttpServer) (connId : UInt64) (onBaseLoop : Bool) (context : HttpContext)
    (timeout : Option UInt32) (steps : List (Step HttpContext HttpEvent)) (hs : ∀ s ∈ steps, s.OfServer srv)
    {c : HttpConnection} (e : run (srv.firstTasks ++ steps) (new connId onBaseLoop context timeout) = ok c)
    (reqs : List HttpRequest) (next : HttpRequest) (hw : ∀ r ∈ next :: reqs, r.WellFormed) {part x : Bytes}
    (hp : part ++ x = next.encode) (hx : x ≠ [])
    (hd : (chunks c.log).flatten = reqs.flatMap HttpRequest.encode ++ part) :
    (exchanges c.log).map some = reqs.mapIdx (fun t r => srv.route t r (.new 200)) ∧
      (.releaseInLoop ∉ c.log → (payloads c.log).length = reqs.length →
        (∀ ex ∈ exchanges c.log, ex.WellBuilt ∧ ex.Framed) →
        readResponses false ((exchanges c.log).map Exchange.isHead) (handed c.log ++ c.outBuffer) =
          some ((exchanges c.log).map Exchange.expected)) := by
  have hi := idle_run srv connId onBaseLoop context timeout hs c e
  have ho := flatten_payloads_run srv connId onBaseLoop context timeout hs
  rw [e] at ho
  have hex := hi.exchanges_eq hw hp hx hd
  refine ⟨hex, fun hrel hpay hf => ?_⟩
  rw [show handed c.log ++ c.outBuffer = (payloads c.log).flatten from ho.symm]
  exact hi.read (fun r hm => hw r (List.mem_cons_of_mem _ hm)) hex hrel hpay hf

/-- Two requests and a part of a third, in chunks that are cut in the midst of
each. -/
def pages : List Bytes :=
  let page := pageRequest.encode
  [page.take 20, page.drop 20 ++ page.take 3, page.drop 3 ++ page.take 30]

def isReleaseInLoop : Event HttpEvent → Bool
  | .releaseInLoop => true
  | _ => false

theorem run_pages : ∃ c, run (greeter.firstTasks ++ greeter.reads pages) (new 1 true .new none) = ok c ∧
    chunks c.log = pages ∧ exchanges c.log = [(pageRequest, greeting), (pageRequest, greeting)] ∧
    (payloads c.log).length = 2 ∧ .releaseInLoop ∉ c.log :=
  ⟨_, rfl, rfl, rfl, rfl, fun hm =>
    List.any_eq_false.mp (show List.any _ isReleaseInLoop = false from rfl) _ hm rfl⟩

theorem pageRequest_wellFormed : pageRequest.WellFormed := by decide

theorem run_exchanges_pages : ∃ c, run (greeter.firstTasks ++ greeter.reads pages) (new 1 true .new none) = ok c ∧
    readResponses false [false, false] (handed c.log ++ c.outBuffer) = some [⟨200, str "hi"⟩, ⟨200, str "hi"⟩] := by
  obtain ⟨c, e, hx, he, hp, hr⟩ := run_pages
  refine ⟨c, e, ?_⟩
  have h := run_exchanges greeter 1 true .new none (greeter.reads pages) (greeter.reads_ofServer pages) e
    [pageRequest, pageRequest] pageRequest (fun r hm => ?_)
    (List.take_append_drop 30 pageRequest.encode) (by decide) (by rw [hx]; decide)
  · have h := h.2 hr hp
    rw [he] at h
    refine h fun ex hm => ?_
    obtain rfl : ex = (pageRequest, greeting) := by simpa using hm
    exact greeting_framed
  · obtain rfl : r = pageRequest := by simpa using hm
    exact pageRequest_wellFormed

end HttpServer

end Mudou
