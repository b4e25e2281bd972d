import Mudou.Http.Util
import Mudou.Lib.Decimal
import Mudou.Lib.UnorderedMap

/-!
# Requests and responses

`HttpRequest` and `HttpResponse` of `source/http.hpp`.
-/

namespace Mudou

structure HttpRequest where
  method : Bytes
  path : Bytes
  version : Bytes
  body : Bytes
  /-- what the groups of the route's regex matched -/
  matched : List Bytes
  headers : UnorderedMap Bytes Bytes
  params : UnorderedMap Bytes Bytes
  deriving DecidableEq

namespace HttpRequest

def new : HttpRequest := ⟨[], [], str "HTTP/1.1", [], [], .empty, .empty⟩

def setHeader (r : HttpRequest) (key val : Bytes) : HttpRequest :=
  { r with headers := r.headers.insert key val }

def hasHeader (r : HttpRequest) (key : Bytes) : Bool := r.headers.contains key

def getHeader (r : HttpRequest) (key : Bytes) : Bytes := (r.headers.find key).getD []

def setParam (r : HttpRequest) (key val : Bytes) : HttpRequest :=
  { r with params := r.params.insert key val }

/-- A `long` as a `size_t`. -/
def sizeT (n : Int) : Nat := (n % 18446744073709551616).toNat

def contentLength (r : HttpRequest) : Except StolError Nat :=
  if r.hasHeader (str "Content-Length") then (stol (r.getHeader (str "Content-Length"))).map sizeT
  else .ok 0

/-- Whether the connection is to be closed after the response. -/
def close (r : HttpRequest) : Bool :=
  !(r.hasHeader (str "Connection") && decide (r.getHeader (str "Connection") = str "keep-alive"))

end HttpRequest

structure HttpResponse where
  statu : Int
  redirectFlag : Bool
  body : Bytes
  redirectUrl : Bytes
  headers : UnorderedMap Bytes Bytes
  deriving DecidableEq

namespace HttpResponse

def new (statu : Int) : HttpResponse := ⟨statu, false, [], [], .empty⟩

def setHeader (r : HttpResponse) (key val : Bytes) : HttpResponse :=
  { r with headers := r.headers.insert key val }

def hasHeader (r : HttpResponse) (key : Bytes) : Bool := r.headers.contains key

def getHeader (r : HttpResponse) (key : Bytes) : Bytes := (r.headers.find key).getD []

def setContent (r : HttpResponse) (body type : Bytes) : HttpResponse :=
  { r with body := body }.setHeader (str "Content-Type") type

def close (r : HttpResponse) : Bool :=
  !(r.hasHeader (str "Connection") && decide (r.getHeader (str "Connection") = str "keep-alive"))

end HttpResponse

end Mudou
