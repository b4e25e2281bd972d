import Mudou.Net.Connection

/-!
# The errno of a thread

`Socket::Recv` and `Socket::Send` of `source/server.hpp` on a thread whose
`errno` is what the system calls before have left in it. `recv` sets it when
it fails, and leaves it alone when the peer has closed and it returns 0. But
`Recv` asks for `errno` in both cases, where `Send` asks only after a failure
(`send_own`): a close is seen if and only if the `errno` left by the earlier
calls is neither `EAGAIN` nor `EINTR` (`recv_own_iff`).
-/

namespace Mudou

open Outcome (ok)

abbrev Errno := Nat

def eintr : Errno := 4
def eagain : Errno := 11

def Errno.retry (errno : Errno) : Bool := errno = eagain || errno = eintr

/-- What a system call returns, and what it leaves in `errno` if it sets it. -/
structure SysCall where
  ret : Int
  errno : Option Errno

/-- `errno` after some calls. -/
def errnoAfter (errno : Errno) (calls : List SysCall) : Errno :=
  calls.foldl (fun errno call => call.errno.getD errno) errno

/-- A call of `recv`: it returns bytes, 0 for a peer that has closed, or -1. -/
inductive RecvCall where
  | bytes (data : Bytes) (ne : data ≠ [])
  | closed
  | fail (errno : Errno)

def RecvCall.call : RecvCall → SysCall
  | .bytes data _ => ⟨data.length, none⟩
  | .closed => ⟨0, none⟩
  | .fail errno => ⟨-1, some errno⟩

/-- What is in the array that `recv` fills. -/
def RecvCall.data : RecvCall → Bytes
  | .bytes data _ => data
  | _ => []

/-- A call of `send`. -/
inductive SendCall where
  | sent (n : Nat)
  | fail (errno : Errno)

def SendCall.call : SendCall → SysCall
  | .sent n => ⟨n, none⟩
  | .fail errno => ⟨-1, some errno⟩

namespace Socket

/-- `Recv`, on a thread with this `errno`. -/
def recv (errno : Errno) (r : RecvCall) : Int :=
  if r.call.ret ≤ 0 then if (errnoAfter errno [r.call]).retry then 0 else -1 else r.call.ret

/-- `Send`. -/
def send (errno : Errno) (r : SendCall) : Int :=
  if r.call.ret < 0 then if (errnoAfter errno [r.call]).retry then 0 else -1 else r.call.ret

/-- The answer that the call alone accounts for: no `errno` but the one it
sets. -/
def ownRecv (r : RecvCall) : Int := recv 0 r

def ownSend (r : SendCall) : Int := send 0 r

theorem send_own (errno : Errno) (r : SendCall) : send errno r = ownSend r := by
  cases r with
  | sent n =>
    have hn : ∀ errno, send errno (.sent n) = n := by
      intro errno
      have hn : ¬ (n : Int) < 0 := by omega
      exact if_neg hn
    rw [ownSend, hn, hn]
  | fail e => rfl

theorem recv_bytes (errno : Errno) (data : Bytes) (ne : data ≠ []) : recv errno (.bytes data ne) = data.length := by
  have hn : ¬ (data.length : Int) ≤ 0 := by
    have := List.length_pos_iff.mpr ne
    omega
  exact if_neg hn

theorem recv_closed (errno : Errno) : recv errno .closed = if errno.retry then 0 else -1 := rfl

theorem recv_fail (errno e : Errno) : recv errno (.fail e) = if e.retry then 0 else -1 := rfl

/-- Only a close is answered by what was left in `errno`. -/
theorem recv_own (errno : Errno) {r : RecvCall} (h : r = .closed → errno.retry = false) :
    recv errno r = ownRecv r := by
  cases r with
  | bytes data ne => rw [ownRecv, recv_bytes, recv_bytes]
  | closed => rw [ownRecv, recv_closed, recv_closed, h rfl]; rfl
  | fail e => rfl

end Socket

/-- The same call for `Connection.handleRead`. -/
def RecvCall.result (errno : Errno) : RecvCall → RecvResult
  | .bytes data _ => .bytes data
  | .closed => .none errno.retry
  | .fail e => .none e.retry

namespace Connection

variable {κ ν : Type}

/-- `HandleRead` on a thread with this `errno`; the socket is open. -/
def handleReadOn (errno : Errno) (message : Option (Callback κ ν)) (r : RecvCall) (c : Connection κ ν) :
    Outcome (Connection κ ν) :=
  let ret := Socket.recv errno r
  if ret < 0 then c.shutdownInLoop message
  else
    let data := r.data.take ret.toNat
    let c := { c with inBuffer := c.inBuffer ++ data }.record (.received data)
    if 0 < c.inBuffer.length then call message c else ok c

theorem handleReadOn_eq (errno : Errno) (message : Option (Callback κ ν)) (r : RecvCall) {c : Connection κ ν}
    (h : c.socketOpen = true) : c.handleReadOn errno message r = c.handleRead message (r.result errno) := by
  cases r with
  | bytes data ne =>
    have hn : ¬ (data.length : Int) < 0 := by omega
    simp only [handleReadOn, Socket.recv_bytes, handleRead, RecvCall.result, nonBlockRecv, h, if_true,
      if_neg hn, Int.toNat_natCast, RecvCall.data, List.take_length]
  | closed =>
    simp only [handleReadOn, Socket.recv_closed, handleRead, RecvCall.result, nonBlockRecv, h, RecvCall.data]
    cases errno.retry <;> rfl
  | fail e =>
    simp only [handleReadOn, Socket.recv_fail, handleRead, RecvCall.result, nonBlockRecv, h, RecvCall.data]
    cases e.retry <;> rfl

/-- A close that is seen. -/
theorem handleReadOn_closed {errno : Errno} (h : errno.retry = false) (message : Option (Callback κ ν))
    (c : Connection κ ν) : c.handleReadOn errno message .closed = c.shutdownInLoop message := by
  simp only [handleReadOn, Socket.recv_closed, h]
  rfl

/-- After any calls on the thread: a close makes `Recv` answer -1 and
`HandleRead` shut the connection down, and every call of `recv` is answered as
it alone accounts for, if and only if the calls have left neither `EAGAIN` nor
`EINTR`. -/
theorem recv_own_iff (errno : Errno) (calls : List SysCall) (message : Option (Callback κ ν))
    (c : Connection κ ν) :
    (Socket.recv (errnoAfter errno calls) .closed = -1 ∧
        c.handleReadOn (errnoAfter errno calls) message .closed = c.shutdownInLoop message ∧
        ∀ r, Socket.recv (errnoAfter errno calls) r = Socket.ownRecv r) ↔
      errnoAfter errno calls ≠ eagain ∧ errnoAfter errno calls ≠ eintr := by
  have hr : errnoAfter errno calls ≠ eagain ∧ errnoAfter errno calls ≠ eintr ↔
      (errnoAfter errno calls).retry = false := by
    simp [Errno.retry]
  rw [hr]
  constructor
  · rintro ⟨h, -, -⟩
    rw [Socket.recv_closed] at h
    cases hb : (errnoAfter errno calls).retry with
    | true =>
      rw [hb] at h
      cases h
    | false => rfl
  · intro h
    refine ⟨?_, handleReadOn_closed h message c, fun r => Socket.recv_own _ fun _ => h⟩
    rw [Socket.recv_closed, h]
    rfl

/-- A `send` on another socket has failed with `EAGAIN`; then the peer closes. -/
theorem staleErrno_notSeen : ¬ ∀ (errno : Errno) (calls : List SysCall),
    Socket.recv (errnoAfter errno calls) .closed = -1 := by
  intro h
  exact absurd (h 0 [SendCall.call (.fail eagain)]) (by decide)

end Connection

end Mudou
