import Mudou.Http.Confinement
import Mudou.Http.Framing
import Mudou.Http.Unparsed

/-!
# Static files

`ReadFile` on what the calls of the file system find (`FileCalls`): the file
may be gone since `IsRegular` was asked, and all of it or less may be read.
`FileHandler` leaves the status as it was when `ReadFile` fails, and the body
as `ReadFile` has left it.

`carriesFile_iff`: over every stream, a response for a file carries the file,
or an error if it could not be read, if and only if all of it was read.
-/

namespace Mudou

open Outcome Connection

/-- What the calls of `ReadFile` find. -/
structure FileCalls where
  opened : Bool
  /-- what the file holds when `tellg` tells its size; `none` if the seek to
  the end fails -/
  content : Option Bytes
  /-- the seek back to the start succeeds -/
  rewound : Bool
  /-- how many bytes of that are there to be read, before the end or an error -/
  got : Nat

/-- The file is opened, and all that it holds is read. -/
def FileCalls.Complete (f : FileCalls) : Prop :=
  f.opened = true ∧ f.rewound = true ∧ ∃ content, f.content = some content ∧ content.length ≤ f.got

namespace Util

/-- `resize` fills the body with NUL bytes, and `read` writes over them. -/
def readFile (f : FileCalls) : ReadResult :=
  if f.opened = false then .notOpened
  else
    match f.content with
    -- `tellg` is -1, and `resize` throws
    | none => .throws
    | some content =>
      let fsize := content.length
      -- a stream that has failed reads nothing
      let got := if f.rewound then f.got else 0
      let buf := content.take got ++ List.replicate (fsize - got) 0
      if f.rewound = false ∨ got < fsize then .failed buf else .read buf

theorem readFile_complete {f : FileCalls} (h : f.Complete) : ∃ content, f.content = some content ∧
    readFile f = .read content := by
  obtain ⟨ho, hb, content, hc, hl⟩ := h
  refine ⟨content, hc, ?_⟩
  simp [readFile, ho, hb, hc, Nat.not_lt.mpr hl, List.take_of_length_le hl, Nat.sub_eq_zero_of_le hl]

theorem complete_of_read {f : FileCalls} {buf : Bytes} (h : readFile f = .read buf) : f.Complete := by
  unfold readFile at h
  split at h
  · cases h
  · next ho =>
    split at h
    · cases h
    · next content hc =>
      simp only at h
      by_cases hl : f.rewound = false ∨ (if f.rewound = true then f.got else 0) < content.length
      · rw [if_pos hl] at h
        cases h
      · obtain ⟨hb, hlt⟩ := not_or.mp hl
        have hb : f.rewound = true := by simpa using hb
        rw [if_pos hb] at hlt
        exact ⟨by simpa using ho, hb, content, hc, Nat.not_lt.mp hlt⟩

end Util

namespace HttpServer

variable (srv : HttpServer)

/-- The server with a file system. -/
def onFiles (files : Nat → Bytes → FileCalls) : HttpServer :=
  { srv with readFile := fun t path => Util.readFile (files t path) }

/-- The pass at `c` completes a request that `Route` sends to `FileHandler`. -/
inductive AsksForFile (c : HttpConnection) : HttpContext → Prop where
  | intro {context : HttpContext} {inBuffer : Bytes} : c.inBuffer ≠ [] →
      c.context.recvHttpRequest c.inBuffer = .ok (context, inBuffer) → context.respStatu < 400 →
      context.recvStatu = .recvHttpOver → srv.isFileHandler (served c.log) context.request = true →
      AsksForFile c context

/-- The response that the pass writes then, `none` if `Route` throws. -/
def written (c : HttpConnection) (context : HttpContext) : Option HttpResponse :=
  (srv.route (served c.log) context.request (.new context.respStatu)).map fun r => completeHeaders r.1 r.2

/-- A response with status 200 carries all that the file holds. If the file
cannot be read, the response has an error status, and not what `ReadFile` has
left in the body. -/
structure CarriesFile (f : FileCalls) (written : Option HttpResponse) : Prop where
  whole {rsp} : written = some rsp → rsp.statu = 200 → f.content = some rsp.body
  failed : (∀ buf, Util.readFile f ≠ .read buf) → ∃ rsp, written = some rsp ∧ 400 ≤ rsp.statu ∧
    ∀ buf, Util.readFile f = .failed buf → rsp.body ≠ buf

variable {srv} {files : Nat → Bytes → FileCalls} {c : HttpConnection} {context : HttpContext}

theorem completeHeaders_same (req : HttpRequest) (rsp : HttpResponse) :
    (completeHeaders req rsp).statu = rsp.statu ∧ (completeHeaders req rsp).body = rsp.body :=
  completeHeaders_induct (P := fun r => r.statu = rsp.statu ∧ r.body = rsp.body) ⟨rfl, rfl⟩ (fun _ _ _ h => h)
    (fun _ _ h => h) (fun _ h => h) fun _ _ h => h

/-- Whatever `ReadFile` does, the status is that of the context. -/
theorem statu_fileHandler {t : Nat} {req : HttpRequest} {rsp rsp' : HttpResponse}
    (h : srv.fileHandler t req rsp = some rsp') : rsp'.statu = rsp.statu := by
  unfold fileHandler at h
  simp only at h
  split at h
  all_goals cases h
  all_goals rfl

/-- What is written for a file. -/
theorem written_eq (h : srv.AsksForFile c context) : srv.written c context =
    (srv.fileHandler (served c.log) context.request (.new context.respStatu)).map
      (completeHeaders context.request) := by
  obtain ⟨_, _, _, _, hf⟩ := h
  rw [written, route, if_pos hf, Option.map_map]
  rfl

/-- It is what `OnMessage` passes to `WriteReponse`. -/
theorem written_serves (h : srv.AsksForFile c context) {close : Bool} {d : HttpConnection}
    (hs : Serves srv c close d) :
    ∃ req rsp, srv.written c context = some (completeHeaders req rsp) ∧
      notes d.log = notes c.log ++ [.parsed (.request context.request), .respond req rsp] := by
  obtain ⟨_, e, _, _, _⟩ := h
  obtain @⟨context', _, req, rsp, _, e', _, _, hr⟩ := hs
  obtain ⟨rfl, -⟩ := Prod.mk.inj (Except.ok.inj (e.symm.trans e'))
  refine ⟨req, rsp, ?_, ?_⟩
  · rw [written, hr]
    rfl
  · rw [notes_answer]

theorem respStatu_asksForFile (hw : c.context.Waits) (h : srv.AsksForFile c context) : context.respStatu = 200 := by
  obtain ⟨_, e, _, ho, _⟩ := h
  exact (hw.ordered.recvHttpRequest e).ok (by simp [ho])

theorem statu_written (hw : c.context.Waits) (h : srv.AsksForFile c context) {rsp : HttpResponse}
    (e : srv.written c context = some rsp) : rsp.statu = 200 := by
  rw [written_eq h] at e
  obtain ⟨rsp', hr, rfl⟩ := Option.map_eq_some_iff.mp e
  rw [(completeHeaders_same ..).1, statu_fileHandler hr]
  exact respStatu_asksForFile hw h

/-- At one request. -/
theorem AsksForFile.carries_iff_complete (h : (srv.onFiles files).AsksForFile c context) (hw : c.context.Waits) :
    CarriesFile (files (served c.log) (srv.reqPath context.request.path)) ((srv.onFiles files).written c context) ↔
      (files (served c.log) (srv.reqPath context.request.path)).Complete := by
  generalize hfile : files (served c.log) (srv.reqPath context.request.path) = f
  constructor
  · intro hc
    by_contra hn
    have hf : ∀ buf, Util.readFile f ≠ .read buf := fun buf e => hn (Util.complete_of_read e)
    obtain ⟨rsp, e, h400, -⟩ := hc.failed hf
    rw [statu_written hw h e] at h400
    exact absurd h400 (by decide)
  · intro hc
    obtain ⟨content, e, hr⟩ := Util.readFile_complete hc
    refine ⟨fun {rsp} hrsp _ => ?_, fun hf => absurd hr (hf content)⟩
    rw [written_eq h, fileHandler] at hrsp
    have hrf : (srv.onFiles files).readFile (served c.log) ((srv.onFiles files).reqPath context.request.path) =
        .read content := by
      rw [← hr, ← hfile]
      rfl
    simp only [hrf, Option.map_some, Option.some.injEq] at hrsp
    rw [e, ← hrsp, (completeHeaders_same ..).2]
    rfl

/-- For every request for a file, in every stream and with any outcome of the
calls: the response carries the file or an error if and only if the file is
opened and all that it holds is read. -/
theorem carriesFile_iff (srv : HttpServer) (files : Nat → Bytes → FileCalls) (c : HttpConnection)
    (hw : c.context.Waits) (chunks : List Bytes) :
    ∀ d, (srv.onFiles files).PassOf c chunks d → ∀ context, (srv.onFiles files).AsksForFile d context →
      (CarriesFile (files (served d.log) (srv.reqPath context.request.path)) ((srv.onFiles files).written d context) ↔
        (files (served d.log) (srv.reqPath context.request.path)).Complete) :=
  fun _ hd _ h => h.carries_iff_complete (hd.waits hw)

theorem asksForFile_arrived (files : Nat → Bytes → FileCalls) : ∃ context,
    (wwwroot.onFiles files).AsksForFile (arrived (str "GET /a HTTP/1.1\r\n\r\n")) context :=
  ⟨_, .intro (by decide) rfl (by decide +kernel) (by decide +kernel)
    (show wwwroot.isFileHandler 0 _ = true by decide +kernel)⟩

/-- A file of four bytes. -/
theorem carriesFile_iff_read : ∃ context,
    CarriesFile ⟨true, some (str "body"), true, 4⟩
      ((wwwroot.onFiles fun _ _ => ⟨true, some (str "body"), true, 4⟩).written
        (arrived (str "GET /a HTTP/1.1\r\n\r\n")) context) := by
  obtain ⟨context, h⟩ := asksForFile_arrived fun _ _ => ⟨true, some (str "body"), true, 4⟩
  exact ⟨context, (carriesFile_iff wwwroot _ _ .new _ _ (passOf_arrived _ _) context h).mpr
    ⟨rfl, rfl, str "body", rfl, by decide⟩⟩

/-- A file that is gone after `IsRegular`. -/
theorem vanished_written : ¬ ∀ (srv : HttpServer) (files : Nat → Bytes → FileCalls) (chunks : List Bytes),
    ∀ d, (srv.onFiles files).PassOf (new 1 true .new none) chunks d →
      ∀ context, (srv.onFiles files).AsksForFile d context →
        CarriesFile (files (served d.log) (srv.reqPath context.request.path))
          ((srv.onFiles files).written d context) := by
  intro h
  obtain ⟨context, ha⟩ := asksForFile_arrived fun _ _ => ⟨false, none, false, 0⟩
  have hc := h wwwroot (fun _ _ => ⟨false, none, false, 0⟩) _ _ (passOf_arrived _ _) context ha
  obtain ⟨rsp, e, h400, -⟩ := hc.failed fun _ e => by cases e
  rw [statu_written .new ha e] at h400
  exact absurd h400 (by decide)

end HttpServer

end Mudou
