import Mudou.Http.RoundTrip
import Mudou.Net.ConnLiveness

/-!
# Requests are answered

The runs without end of `ConnLiveness`, for a connection of the server
(`FairRun`). What the responses are is `RoundTrip`; here they reach the socket:
whatever written requests have arrived before a release is called, the
responses to them are all handed to the socket, one by one and whole, unless
the connection is released abruptly (`answered_of_fair`).
-/

namespace Mudou

namespace HttpServer

open Connection Outcome HttpClient

variable {srv : HttpServer} {steps : Nat → Step HttpContext HttpEvent} {r : Nat → HttpConnection}

/-- A fair run of a connection of the server, `Established` first. -/
structure FairRun (srv : HttpServer) (steps : Nat → Step HttpContext HttpEvent) (r : Nat → HttpConnection) : Prop
    extends Fair steps r where
  first : (List.range srv.firstTasks.length).map steps = srv.firstTasks
  ofServer (n : Nat) : (steps n).OfServer srv

namespace FairRun

variable (h : FairRun srv steps r)
include h

theorem run_steps (n : Nat) : run ((List.range n).map steps) (r 0) = ok (r n) := by
  induction n with
  | zero => rfl
  | succ n ih =>
    rw [List.range_succ, List.map_append, run, runAll_append, ← run, ih, andThen_ok, List.map_singleton, runAll,
      h.exec n]
    rfl

theorem idle_add (n : Nat) : Idle srv (r (srv.firstTasks.length + n)) := by
  obtain ⟨connId, onBaseLoop, context, timeout, e⟩ := h.start
  have hrun := h.run_steps (srv.firstTasks.length + n)
  rw [List.range_add, List.map_append, h.first, e] at hrun
  refine idle_run srv connId onBaseLoop context timeout (fun s hs => ?_) _ hrun
  simp only [List.map_map, List.mem_map, List.mem_range] at hs
  obtain ⟨i, _, rfl⟩ := hs
  exact h.ofServer _

theorem log_first : (r srv.firstTasks.length).log = [] := by
  obtain ⟨connId, onBaseLoop, context, timeout, e⟩ := h.start
  have hrun := h.run_steps srv.firstTasks.length
  obtain ⟨c, ec, _, _, _, _, hl⟩ := run_firstTasks srv connId onBaseLoop context timeout
  rw [h.first, e, ec] at hrun
  rw [← ok.inj hrun, hl]

/-- Nothing is heard in the first tasks. -/
theorem exists_idle (n : Nat) : ∃ k, n ≤ k ∧ (r k).log = (r n).log ∧ Idle srv (r k) := by
  by_cases hn : srv.firstTasks.length ≤ n
  · obtain ⟨k, rfl⟩ := Nat.exists_eq_add_of_le hn
    exact ⟨_, Nat.le_refl _, rfl, h.idle_add k⟩
  · have hle := Nat.le_of_not_le hn
    have hl := h.log hle
    rw [h.log_first, List.prefix_nil] at hl
    exact ⟨_, hle, h.log_first.trans hl.symm, h.idle_add 0⟩

end FairRun

/-- In every fair run: when the chunks that have arrived, however they are cut,
are written requests and part of another, and no release has been called, the
responses are what `Route` gives for these requests, one by one, and they are
later handed to the socket, unless a release is abrupt. If nothing else was
sent, and they are framed, a client reads them as they were built. -/
theorem answered_of_fair (h : FairRun srv steps r) {n : Nat} (hn : releases (r n).log = 0)
    (reqs : List HttpRequest) (next : HttpRequest) (hw : ∀ r ∈ next :: reqs, r.WellFormed) {part x : Bytes}
    (hp : part ++ x = next.encode) (hx : x ≠ [])
    (hd : (chunks (r n).log).flatten = reqs.flatMap HttpRequest.encode ++ part) :
    let log := (r n).log
    (exchanges log).map some = reqs.mapIdx (fun t r => srv.route t r (.new 200)) ∧
      ((exchanges log).map srv.text).Sublist (payloads log) ∧
      ((payloads log).length = reqs.length → (∀ ex ∈ exchanges log, ex.WellBuilt ∧ ex.Framed) →
        readResponses false ((exchanges log).map Exchange.isHead) (payloads log).flatten =
          some ((exchanges log).map Exchange.expected)) ∧
      ∃ m, n ≤ m ∧ ((∃ e ∈ (r m).log, e.Abrupt) ∨ (payloads log).flatten <+: handed (r m).log) := by
  intro log
  obtain ⟨k, hk, hlog, hi⟩ := h.exists_idle n
  have hrel : .releaseInLoop ∉ (r k).log := by
    have ha := (h.accounted k).ledger
    refine ha.notMem_releaseInLoop (Bool.not_eq_false _ ▸ fun ho => ?_)
    have hr := ha.releases_of_queued (.inl ho)
    rw [hlog, hn] at hr
    exact absurd hr (Nat.lt_irrefl 0)
  rw [← hlog] at hd hn
  have hex := hi.exchanges_eq hw hp hx hd
  obtain ⟨m, hm, hh⟩ := h.delivers hn
  rw [← flatten_payloads] at hh
  have hread := hi.read (fun r hm => hw r (List.mem_cons_of_mem _ hm)) hex hrel
  have hsent := hi.sent hrel
  rw [hlog] at hex hh hread hsent
  exact ⟨hex, hsent, hread, m, hk.trans hm, hh⟩

/-- The requests of `pages` arrive, and the socket takes what is sent. -/
def pagesSteps : List (Step HttpContext HttpEvent) :=
  greeter.firstTasks ++ (greeter.reads pages ++
    [.handleEvent greeter.callbacks { pollOut := true } (.none true) (.sent 65536)])

def pagesRun : Nat → HttpConnection := statesOf pagesSteps (new 1 true .new none)

theorem pagesSteps_ofServer : ∀ s ∈ pagesSteps, s.OfServer greeter := by
  intro s hs
  rcases List.mem_append.mp hs with hs | hs
  · exact greeter.firstTasks_ofServer s hs
  · rcases List.mem_append.mp hs with hs | hs
    · exact greeter.reads_ofServer pages s hs
    · rw [List.mem_singleton.mp hs]
      rfl

set_option maxRecDepth 4000 in
theorem run_pagesSteps : ∃ c, run pagesSteps (new 1 true .new none) = ok c ∧ Resting c :=
  ⟨_, rfl, rfl, rfl, rfl, fun hw => Bool.noConfusion hw.1⟩

theorem pagesRun_fair : FairRun greeter (thenIdle pagesSteps) pagesRun where
  toFair := by
    obtain ⟨c, e, hc⟩ := run_pagesSteps
    exact fair_of_resting (fun s hs => ofServer_all (pagesSteps_ofServer s hs)) e hc
  first := rfl
  ofServer n := by
    by_cases hn : n < pagesSteps.length
    · rw [thenIdle, List.getD_eq_getElem _ _ hn]
      exact pagesSteps_ofServer _ (List.getElem_mem hn)
    · rw [thenIdle, List.getD_eq_default _ _ (Nat.not_lt.mp hn)]
      trivial

/-- When the chunks have arrived. -/
theorem pagesRun_six : let log := (pagesRun 6).log
    releases log = 0 ∧ chunks log = pages ∧ exchanges log = [(pageRequest, greeting), (pageRequest, greeting)] ∧
      (payloads log).length = 2 :=
  ⟨rfl, rfl, rfl, rfl⟩

theorem answered_of_fair_pages :
    readResponses false [false, false] (payloads (pagesRun 6).log).flatten =
        some [⟨200, str "hi"⟩, ⟨200, str "hi"⟩] ∧
      ∃ m, 6 ≤ m ∧ ((∃ e ∈ (pagesRun m).log, e.Abrupt) ∨
        (payloads (pagesRun 6).log).flatten <+: handed (pagesRun m).log) := by
  obtain ⟨hn, hx, he, hl⟩ := pagesRun_six
  have hw : ∀ r ∈ [pageRequest, pageRequest, pageRequest], r.WellFormed := by
    intro r hr
    obtain rfl : r = pageRequest := by simpa using hr
    exact pageRequest_wellFormed
  obtain ⟨-, -, hread, hm⟩ := answered_of_fair pagesRun_fair hn [pageRequest, pageRequest] pageRequest hw
    (List.take_append_drop 30 pageRequest.encode) (by decide) (by rw [hx]; decide)
  rw [he] at hread
  refine ⟨hread hl fun ex hex => ?_, hm⟩
  obtain rfl : ex = (pageRequest, greeting) := by simpa using hex
  exact greeting_framed

end HttpServer

end Mudou
