import Mudou.Http.Message
import Mudou.Lib.Fifo
import Mudou.Lib.Regex

/-!
# Receiving a request

`HttpContext` of `source/http.hpp`. The input buffer is a byte queue
(`Mudou.Buffer`). The results of `RecvHttpLine`, `RecvHttpHead` and
`RecvHttpBody` are left out, since `RecvHttpRequest` drops them; an exception
of `std::stol` is the error of an `Except`.
-/

namespace Mudou

open Fifo Util

inductive HttpRecvStatu where
  | recvHttpError
  | recvHttpLine
  | recvHttpHead
  | recvHttpBody
  | recvHttpOver
  deriving DecidableEq

structure HttpContext where
  respStatu : Int
  recvStatu : HttpRecvStatu
  request : HttpRequest
  deriving DecidableEq

namespace HttpContext

def maxLine : Nat := 8192

def new : HttpContext := ⟨200, .recvHttpLine, .new⟩

def reSet (_ : HttpContext) : HttpContext := new

def fail (ctx : HttpContext) (statu : Int) : HttpContext :=
  { ctx with recvStatu := .recvHttpError, respStatu := statu }

/-! ## The request line -/

def toLower (c : Byte) : Byte := if 65 ≤ c ∧ c ≤ 90 then c + 32 else c
def toUpper (c : Byte) : Byte := if 97 ≤ c ∧ c ≤ 122 then c - 32 else c

/-- A literal, whatever its case. -/
def lit (s : String) : Regex Byte := .chars ((str s).map fun c x => toLower x == toLower c)

def methods : Regex Byte :=
  .alt (lit "GET") (.alt (lit "HEAD") (.alt (lit "POST") (.alt (lit "PUT") (lit "DELETE"))))

/-- `(GET|HEAD|POST|PUT|DELETE) ([^?]*)(?:\?(.*))? (HTTP/1\.[01])(?:\n|\r\n)?` -/
def requestLine : Regex Byte :=
  .seq (.group 1 methods) <| .seq (lit " ") <| .seq (.group 2 (.many fun c => c != 63)) <|
  .seq (.opt (.seq (lit "?") (.group 3 (.many fun c => c != lf && c != cr)))) <| .seq (lit " ") <|
  .seq (.group 4 (.seq (lit "HTTP/1.") (.chars [fun c => c == 48 || c == 49]))) <|
  .opt (.alt (lit "\n") (lit "\r\n"))

/-- The loop over the pieces of the query string. -/
def setParams : List Bytes → HttpContext → HttpContext × Bool
  | [], ctx => (ctx, true)
  | piece :: query, ctx =>
    match find (str "=") piece with
    | none => (ctx.fail 400, false)
    | some pos =>
      let key := urlDecode true (piece.take pos)
      let val := urlDecode true (piece.drop (pos + 1))
      setParams query { ctx with request := ctx.request.setParam key val }

def parseHttpLine (ctx : HttpContext) (line : Bytes) : HttpContext × Bool :=
  match requestLine.fullMatch line with
  | none => (ctx.fail 400, false)
  | some captures =>
    let request := { ctx.request with
      method := (Regex.capture captures 1).map toUpper
      path := urlDecode false (Regex.capture captures 2)
      version := Regex.capture captures 4 }
    setParams (split (Regex.capture captures 3) (str "&") []).1 { ctx with request }

def recvHttpLine (ctx : HttpContext) (buf : Bytes) : HttpContext × Bytes :=
  if ctx.recvStatu ≠ .recvHttpLine then (ctx, buf)
  else
    let (line, buf) := popLine lf buf
    if line.length = 0 then
      if maxLine < buf.length then (ctx.fail 414, buf) else (ctx, buf)
    else if maxLine < line.length then (ctx.fail 414, buf)
    else
      match ctx.parseHttpLine line with
      | (ctx, false) => (ctx, buf)
      | (ctx, true) => ({ ctx with recvStatu := .recvHttpHead }, buf)

/-! ## The header lines -/

/-- `line.back() == c` and then `line.pop_back()`. -/
def popBack (c : Byte) (line : Bytes) : Bytes := if line.getLast? = some c then line.dropLast else line

def parseHttpHead (ctx : HttpContext) (line : Bytes) : HttpContext × Bool :=
  let line := popBack cr (popBack lf line)
  match find (str ": ") line with
  | none => (ctx.fail 400, false)
  | some pos => ({ ctx with request := ctx.request.setHeader (line.take pos) (line.drop (pos + 2)) }, true)

/-- The loop of `RecvHttpHead`. Each round takes a line off the buffer, so
that more rounds than bytes are never needed. -/
def recvHeadLoop : Nat → HttpContext → Bytes → HttpContext × Bytes
  | 0, ctx, buf => (ctx, buf)
  | fuel + 1, ctx, buf =>
    let (line, buf) := popLine lf buf
    if line.length = 0 then
      if maxLine < buf.length then (ctx.fail 414, buf) else (ctx, buf)
    else if maxLine < line.length then (ctx.fail 414, buf)
    else if line = str "\n" ∨ line = str "\r\n" then ({ ctx with recvStatu := .recvHttpBody }, buf)
    else
      match ctx.parseHttpHead line with
      | (ctx, false) => (ctx, buf)
      | (ctx, true) => recvHeadLoop fuel ctx buf

def recvHttpHead (ctx : HttpContext) (buf : Bytes) : HttpContext × Bytes :=
  if ctx.recvStatu ≠ .recvHttpHead then (ctx, buf) else recvHeadLoop (buf.length + 1) ctx buf

/-! ## The body -/

def appendBody (ctx : HttpContext) (data : Bytes) : HttpContext :=
  { ctx with request := { ctx.request with body := ctx.request.body ++ data } }

def recvHttpBody (ctx : HttpContext) (buf : Bytes) : Except StolError (HttpContext × Bytes) :=
  if ctx.recvStatu ≠ .recvHttpBody then .ok (ctx, buf)
  else
    match ctx.request.contentLength with
    | .error e => .error e
    | .ok contentLength =>
      if contentLength = 0 then .ok ({ ctx with recvStatu := .recvHttpOver }, buf)
      else
        -- the difference of two `size_t`
        let realLen := HttpRequest.sizeT (contentLength - ctx.request.body.length)
        if realLen ≤ buf.length then
          .ok ({ ctx.appendBody (buf.take realLen) with recvStatu := .recvHttpOver }, buf.drop realLen)
        else .ok (ctx.appendBody buf, [])

/-- The cases of the `switch` fall through. -/
def recvHttpRequest (ctx : HttpContext) (buf : Bytes) : Except StolError (HttpContext × Bytes) :=
  match ctx.recvStatu with
  | .recvHttpLine =>
    let (ctx, buf) := ctx.recvHttpLine buf
    let (ctx, buf) := ctx.recvHttpHead buf
    ctx.recvHttpBody buf
  | .recvHttpHead =>
    let (ctx, buf) := ctx.recvHttpHead buf
    ctx.recvHttpBody buf
  | .recvHttpBody => ctx.recvHttpBody buf
  | .recvHttpError | .recvHttpOver => .ok (ctx, buf)

end HttpContext

end Mudou
