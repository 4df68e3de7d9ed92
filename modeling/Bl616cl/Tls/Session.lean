import Bl616cl.Lib.Word
import Bl616cl.Tls.WiFiClientSecure

/-!
# The calls of a TLS session

The part of WiFiClientSecure that reads and writes. mbedTLS is a parameter, `Ssl`: a call into it is
a tree of the socket calls that it makes through `tls_send` and `tls_recv`, and the socket is the
sequence of what `lwip_send` and `lwip_recv` return. The `do` and `while` loops of the class are
bounded by a number of tries; `none` says that the call has not returned within them.
-/

namespace Bl616cl.Tls

open Bl616cl.Lib

/-- `MBEDTLS_ERR_SSL_CONN_EOF` and `MBEDTLS_ERR_SSL_PEER_CLOSE_NOTIFY`. -/
def errSslConnEof : Int := -0x7280
def errSslPeerCloseNotify : Int := -0x7880

/-- The codes on which the loops go on. -/
def wants (ret : Int) : Bool := ret == errSslWantRead || ret == errSslWantWrite

theorem neg_of_wants {ret : Int} (h : wants ret = true) : ret < 0 := by
  have hor : ret = errSslWantRead ∨ ret = errSslWantWrite := by simpa [wants] using h
  rcases hor with rfl | rfl <;> decide

/-- What `lwip_send` or `lwip_recv` returns, and the bytes that are received. -/
structure LwipResult where
  ret : Int
  bytes : List UInt8

def LwipResult.received (r : LwipResult) : List UInt8 := if 0 < r.ret then r.bytes else []

def tlsSend (r : LwipResult) : Int := if r.ret < 0 then errSslWantWrite else r.ret

def tlsRecv (r : LwipResult) : Int :=
  if r.ret < 0 then errSslWantRead else if r.ret = 0 then errSslConnEof else r.ret

/-- A call into mbedTLS: it returns, with what it has put into the caller's buffer, or it calls one
of the bio callbacks and goes on with what that returns. -/
inductive Io (σ : Type) where
  | done (ssl : σ) (ret : Int) (data : List UInt8)
  | send (buf : List UInt8) (next : Int → Io σ)
  | recv (len : Nat) (next : Int → List UInt8 → Io σ)

structure Answer (σ : Type) where
  ssl : σ
  ret : Int
  data : List UInt8
  /-- The bytes that its `lwip_recv` calls have taken from the socket. -/
  received : List UInt8
  /-- The number of socket calls so far. -/
  calls : Nat

namespace Io

variable {σ : Type}

def run (net : Nat → LwipResult) : Io σ → Nat → Answer σ
  | .done ssl ret data, i => ⟨ssl, ret, data, [], i⟩
  | .send _ next, i => (next (tlsSend (net i))).run net (i + 1)
  | .recv _ next, i =>
    let a := (next (tlsRecv (net i)) (net i).received).run net (i + 1)
    { a with received := (net i).received ++ a.received }

end Io

/-- `do { ret = call(ssl); } while (ret == WANT_READ || ret == WANT_WRITE)`, from the inside of the
call `io`. -/
def retry {σ : Type} (call : σ → Io σ) (net : Nat → LwipResult) :
    Nat → Io σ → Nat → Option (Answer σ)
  | 0, _, _ => none
  | tries + 1, io, i =>
    let a := io.run net i
    if wants a.ret then
      (retry call net tries (call a.ssl) a.calls).map fun b =>
        { b with received := a.received ++ b.received }
    else some a

/-- mbedTLS on an SSL context. -/
structure Ssl (σ : Type) where
  handshake : σ → Io σ
  read : σ → Nat → Io σ
  write : σ → List UInt8 → Io σ
  closeNotify : σ → Io σ
  sessionReset : σ → σ
  /-- The decrypted bytes that have not been read; `ssl_get_bytes_avail` counts them. -/
  pending : σ → List UInt8

/-- Records of one byte, in the clear; the context holds what has been received of the next. -/
def Ssl.byteRecords : Ssl (List UInt8) where
  handshake ssl := .send [22] fun c => .done ssl (if c < 0 then c else 0) []
  read ssl _ :=
    match ssl with
    | [] => .recv 5 fun c bytes =>
      if c ≤ 0 then .done [] c []
      else match bytes with
        | [] => .done [] 0 []
        | b :: bytes => .done bytes 1 [b]
    | b :: ssl => .done ssl 1 [b]
  write ssl buf := .send buf fun c => .done ssl c []
  closeNotify ssl := .send [21] fun c => .done ssl c []
  sessionReset _ := []
  pending _ := []

structure Session (σ : Type) where
  ssl : σ
  sockfd : Int
  tlsSetup : Bool
  handshakeDone : Bool
  lastError : Int
  peekBuf : UInt8
  peekLen : Nat

/-- The end of a call: what it returns and what it puts into the caller's buffer. -/
structure Reply (σ : Type) where
  session : Session σ
  ret : Int
  data : List UInt8
  received : List UInt8

namespace Session

variable {σ : Type} (P : Ssl σ) (s : Session σ) (tries : Nat) (net : Nat → LwipResult)

/-- `WiFiClient::stop`. -/
def closeSocket : Session σ := { s with sockfd := if 0 ≤ s.sockfd then -1 else s.sockfd }

/-- `stop`, whose close notification makes the socket calls from the `i`th on. -/
def stop (i : Nat) : Session σ :=
  let s :=
    if s.tlsSetup then
      let ssl := if s.handshakeDone then ((P.closeNotify s.ssl).run net i).ssl else s.ssl
      { s with ssl := P.sessionReset ssl, tlsSetup := false }
    else s
  closeSocket { s with handshakeDone := false, peekLen := 0, lastError := 0 }

def available (select : Int) : Int :=
  if !s.handshakeDone || s.sockfd < 0 then 0
  else if 0 < select then 1
  else toInt32 (P.pending s.ssl).length

/-- `read(buffer, size)`; the flag says that the buffer is not the null pointer. -/
def readBuf (buffer : Bool) (size : Nat) : Option (Reply σ) :=
  if !buffer || size == 0 || !s.handshakeDone then some ⟨s, -1, [], []⟩
  else if 0 < s.peekLen then
    if size = 1 then some ⟨{ s with peekLen := 0 }, 1, [s.peekBuf], []⟩
    else
      let a := (P.read s.ssl (size - 1)).run net 0
      let s' := { s with peekLen := 0, ssl := a.ssl }
      if a.ret ≤ 0 then some ⟨s', 1, [s.peekBuf], a.received⟩
      else some ⟨s', a.ret + 1, s.peekBuf :: a.data, a.received⟩
  else
    (retry (fun ssl => P.read ssl size) net tries (P.read s.ssl size) 0).map fun a =>
      if a.ret ≤ 0 then
        let s' := { s with ssl := a.ssl, lastError := a.ret }
        if a.ret = errSslConnEof ∨ a.ret = errSslPeerCloseNotify then
          ⟨s'.stop P net a.calls, -1, [], a.received⟩
        else ⟨s', -1, [], a.received⟩
      else ⟨{ s with ssl := a.ssl }, a.ret, a.data, a.received⟩

def read : Option (Reply σ) :=
  (s.readBuf P tries net true 1).map fun r =>
    { r with ret := if r.ret = 1 then (r.data.headD 0).toNat else -1 }

def peek : Option (Reply σ) :=
  if 0 < s.peekLen then some ⟨s, s.peekBuf.toNat, [], []⟩
  else if !s.handshakeDone then some ⟨s, -1, [], []⟩
  else
    (retry (fun ssl => P.read ssl 1) net tries (P.read s.ssl 1) 0).map fun a =>
      let s' := { s with ssl := a.ssl, peekBuf := a.data.headD s.peekBuf }
      if a.ret = 1 then ⟨{ s' with peekLen := 1 }, s'.peekBuf.toNat, [], a.received⟩
      else ⟨s', -1, [], a.received⟩

/-- The loop of `write`, from the inside of the call `io` after `sent` bytes. -/
def writeLoop (buf : List UInt8) : Nat → Session σ → Io σ → Nat → Nat → Option (Session σ × Nat)
  | 0, _, _, _, _ => none
  | tries + 1, s, io, sent, i =>
    let a := io.run net i
    let s' := { s with ssl := a.ssl }
    if wants a.ret then writeLoop buf tries s' (P.write a.ssl (buf.drop sent)) sent a.calls
    else if a.ret ≤ 0 then some ({ s' with lastError := a.ret }, sent)
    else
      let sent := sent + a.ret.toNat
      if sent < buf.length then
        writeLoop buf tries s' (P.write a.ssl (buf.drop sent)) sent a.calls
      else some (s', sent)

/-- `write(buffer, size)`; `none` is the null pointer. -/
def write (buffer : Option (List UInt8)) : Option (Session σ × Nat) :=
  match buffer with
  | none => some (s, 0)
  | some buf =>
    if buf.isEmpty || !s.handshakeDone then some (s, 0)
    else s.writeLoop P net buf tries (P.write s.ssl buf) 0 0

/-- `connected`, with what the `lwip_recv` of `WiFiClient::connected` returns. Its `stop` is the
virtual one. -/
def connected (probe : Int) : Session σ × Int :=
  if !s.handshakeDone then (s, 0)
  else if s.sockfd < 0 then (s, 0)
  else if 0 < probe then (s, 1)
  else if probe = 0 then (s.stop P net 0, 0)
  else (s, 1)

end Session

end Bl616cl.Tls
