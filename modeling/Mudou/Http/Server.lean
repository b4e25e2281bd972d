import Mudou.Http.Context
import Mudou.Net.UserCode

/-!
# The HTTP server

`HttpServer` of `source/http.hpp`. What is outside the program may differ
from one request to the next: a handler, `stat` and the reading of a file get
the number of requests that the connection has served before. The headers of
a response are written in the order in which the map is iterated, some
permutation of its entries.

`onMessage` is the message callback of a connection. Its loop and its nested
calls through `Shutdown` take fuel, which `stopped` with `diverged` would show
to have run out.
-/

namespace Mudou

open Outcome (ok stopped)

/-- What parsing ends in, as often as it comes to an end. -/
inductive Parsed where
  | request (req : HttpRequest)
  | error (statu : Int)
  | exception (e : StolError)
  deriving DecidableEq

inductive HttpEvent where
  | parsed (p : Parsed)
  /-- `Route` threw -/
  | threw
  | respond (req : HttpRequest) (rsp : HttpResponse)
  /-- `OnMessage` calls `Shutdown`, with this input left -/
  | shutdown (rest : Bytes)
  | diverged

/-- `std::regex_match` of a path with the regex of a route: its groups. -/
abbrev RouteRegex := Bytes → Option (List Bytes)

/-- A functor of a route on the `t`-th request; `none` if it throws. -/
abbrev Handler := Nat → HttpRequest → HttpResponse → Option HttpResponse

/-- What `Util::ReadFile` does, with what is then in the buffer. -/
inductive ReadResult where
  | notOpened
  | failed (buf : Bytes)
  | read (buf : Bytes)
  | throws

structure HttpServer where
  getRoute : List (RouteRegex × Handler)
  postRoute : List (RouteRegex × Handler)
  putRoute : List (RouteRegex × Handler)
  deleteRoute : List (RouteRegex × Handler)
  baseDir : Bytes
  isRegular : Nat → Bytes → Bool
  readFile : Nat → Bytes → ReadResult
  iterate : UnorderedMap Bytes Bytes → List (Bytes × Bytes)
  iterate_perm : ∀ m, (iterate m).Perm m.entries

abbrev HttpConnection := Connection HttpContext HttpEvent

namespace HttpServer

open Util

/-- A server without routes and files. -/
def noRoutes : HttpServer where
  getRoute := []
  postRoute := []
  putRoute := []
  deleteRoute := []
  baseDir := []
  isRegular _ _ := false
  readFile _ _ := .notOpened
  iterate m := m.entries
  iterate_perm _ := .refl _

def errorHandler (rsp : HttpResponse) : HttpResponse :=
  rsp.setContent (str "<html>" ++ str "<head>" ++
    str "<meta http-equiv='Content-Type' content='text/html;charset=utf-8'>" ++ str "</head>" ++
    str "<body>" ++ str "<h1>" ++ toString' rsp.statu ++ str " " ++ statuDesc rsp.statu ++ str "</h1>" ++
    str "</body>" ++ str "</html>") (str "text/html")

/-! ## Writing a response -/

/-- The headers that `WriteReponse` adds. -/
def completeHeaders (req : HttpRequest) (rsp : HttpResponse) : HttpResponse :=
  let rsp := rsp.setHeader (str "Connection") (if req.close then str "close" else str "keep-alive")
  let rsp := if rsp.body ≠ [] ∧ rsp.hasHeader (str "Content-Length") = false then
    rsp.setHeader (str "Content-Length") (toString' rsp.body.length) else rsp
  let rsp := if rsp.body ≠ [] ∧ rsp.hasHeader (str "Content-Type") = false then
    rsp.setHeader (str "Content-Type") (str "application/octet-stream") else rsp
  if rsp.redirectFlag then rsp.setHeader (str "Location") rsp.redirectUrl else rsp

def headerLine (head : Bytes × Bytes) : Bytes := head.1 ++ str ": " ++ head.2 ++ str "\r\n"

variable (srv : HttpServer)

def rspStr (req : HttpRequest) (rsp : HttpResponse) : Bytes :=
  req.version ++ str " " ++ toString' rsp.statu ++ str " " ++ statuDesc rsp.statu ++ str "\r\n" ++
    (srv.iterate rsp.headers).flatMap headerLine ++ str "\r\n" ++ rsp.body

def writeReponse (req : HttpRequest) (rsp : HttpResponse) (c : HttpConnection) : HttpConnection :=
  (c.record (.note (.respond req rsp))).sendInLoop (srv.rspStr req (completeHeaders req rsp))

/-! ## Routing -/

/-- The name of the file for a path. -/
def reqPath (path : Bytes) : Bytes :=
  let reqPath := srv.baseDir ++ path
  if path.getLast? = some 47 then reqPath ++ str "index.html" else reqPath

def isFileHandler (t : Nat) (req : HttpRequest) : Bool :=
  if srv.baseDir = [] then false
  else if req.method ≠ str "GET" ∧ req.method ≠ str "HEAD" then false
  else if validPath req.path = false then false
  else srv.isRegular t (srv.reqPath req.path)

def fileHandler (t : Nat) (req : HttpRequest) (rsp : HttpResponse) : Option HttpResponse :=
  let reqPath := srv.reqPath req.path
  match srv.readFile t reqPath with
  | .notOpened => some rsp
  | .failed buf => some { rsp with body := buf }
  | .read buf => some ({ rsp with body := buf }.setHeader (str "Content-Type") (extMime reqPath))
  | .throws => none

/-- The loop over the routes of a method. -/
def dispatcher (t : Nat) : List (RouteRegex × Handler) → HttpRequest → HttpResponse →
    Option (HttpRequest × HttpResponse)
  | [], req, rsp => some (req, { rsp with statu := 404 })
  | (re, functor) :: handlers, req, rsp =>
    match re req.path with
    | none => dispatcher t handlers { req with matched := [] } rsp
    | some groups =>
      (functor t { req with matched := groups } rsp).map fun rsp => ({ req with matched := groups }, rsp)

def route (t : Nat) (req : HttpRequest) (rsp : HttpResponse) : Option (HttpRequest × HttpResponse) :=
  if srv.isFileHandler t req then (srv.fileHandler t req rsp).map fun rsp => (req, rsp)
  else if req.method = str "GET" ∨ req.method = str "HEAD" then dispatcher t srv.getRoute req rsp
  else if req.method = str "POST" then dispatcher t srv.postRoute req rsp
  else if req.method = str "PUT" then dispatcher t srv.putRoute req rsp
  else if req.method = str "DELETE" then dispatcher t srv.deleteRoute req rsp
  else some (req, { rsp with statu := 405 })

/-! ## The message callback -/

def parsedOf : Event HttpEvent → Option Parsed
  | .note (.parsed p) => some p
  | _ => none

/-- What was parsed on the connection so far. -/
def trace (log : List (Event HttpEvent)) : List Parsed := log.filterMap parsedOf

/-- The number of requests served. -/
def served (log : List (Event HttpEvent)) : Nat :=
  (trace log).countP fun p => match p with
    | .request _ => true
    | _ => false

/-- What the loop does about a parse error, up to its `Shutdown`. -/
def answerError (context : HttpContext) (inBuffer : Bytes) (c : HttpConnection) : HttpConnection :=
  let c := { c with context, inBuffer }.record (.note (.parsed (.error context.respStatu)))
  let c := srv.writeReponse context.request (errorHandler (.new context.respStatu)) c
  { c with context := context.reSet, inBuffer := [] }

/-- A request is complete. -/
def receive (context : HttpContext) (inBuffer : Bytes) (c : HttpConnection) : HttpConnection :=
  { c with context, inBuffer }.record (.note (.parsed (.request context.request)))

/-- What the loop does once `Route` has returned. -/
def answer (req : HttpRequest) (rsp : HttpResponse) (c : HttpConnection) : HttpConnection :=
  { srv.writeReponse req rsp c with context := c.context.reSet }

/-- `conn->Shutdown()`. -/
def shutdown (onMessage : Callback HttpContext HttpEvent) : Callback HttpContext HttpEvent := fun c =>
  (c.record (.note (.shutdown c.inBuffer))).shutdownInLoop (some onMessage)

/-- The `while` loop of `OnMessage`; `Shutdown` runs at once, on the loop's
thread, and may call `OnMessage` again. -/
def onMessageLoop : Nat → Callback HttpContext HttpEvent
  | 0, c => stopped (c.record (.note .diverged))
  | fuel + 1, c =>
    if c.inBuffer.length = 0 then ok c
    else
      match c.context.recvHttpRequest c.inBuffer with
      | .error e => stopped (c.record (.note (.parsed (.exception e))))
      | .ok (context, inBuffer) =>
        if 400 ≤ context.respStatu then
          shutdown (onMessageLoop fuel) (srv.answerError context inBuffer c)
        else if context.recvStatu ≠ .recvHttpOver then ok { c with context, inBuffer }
        else
          match srv.route (served c.log) context.request (.new context.respStatu) with
          | none => stopped ((receive context inBuffer c).record (.note .threw))
          | some (req, rsp) =>
            let c := srv.answer req rsp (receive context inBuffer c)
            (if (completeHeaders req rsp).close then shutdown (onMessageLoop fuel) c
              else ok c).andThen (onMessageLoop fuel)

def onMessage : Callback HttpContext HttpEvent := fun c => srv.onMessageLoop (c.inBuffer.length + 2) c

def onConnected : Callback HttpContext HttpEvent := fun c => ok { c with context := .new }

/-- The callbacks of the server's connections. -/
def callbacks : Callbacks HttpContext HttpEvent := ⟨some onConnected, some srv.onMessage, none, none⟩

end HttpServer

end Mudou
