import Bl616cl.Lib.Word
import Bl616cl.Net.Lwip

/-!
# WiFiClient

A stream socket: how it is opened, moved, read from and closed. `connect` puts the new socket into
the non-blocking mode and waits for the connection in a loop, with a time limit.
-/

namespace Bl616cl.Net

open Bl616cl.Lib

structure WiFiClient where
  sockfd : Int

/-- A round of the loop in `connect_to_addr`: `millis()`, and what `lwip_select` and
`lwip_getsockopt(SO_ERROR)` give. -/
structure Poll where
  now : UInt32
  select : Int
  soError : Int

/-- What the calls of a `connect` return. At the end of the list of rounds the time is up. -/
structure ConnectResults where
  socket : Option NewSocket
  connect : Int
  start : UInt32
  polls : List Poll

/-- lwIP's `EINPROGRESS`. -/
def eInProgress : Int := 115

/-- The loop of `connect_to_addr`. -/
def pollConnect (timeout : Int) (start : UInt32) : List Poll → Bool
  | [] => false
  | p :: polls =>
    let remaining := timeout - toInt32 (p.now - start).toNat
    if remaining ≤ 0 then false
    else if p.select ≤ 0 then false
    else if p.soError = 0 then true
    else if p.soError ≠ eInProgress then false
    else pollConnect timeout start polls

def connectToAddr (net : Lwip) (fd : Int) (addr : Addr) (timeout : Int) (r : ConnectResults) :
    Lwip × Int :=
  let flags := net.getFlags fd
  let net := (net.setFlags fd (flags ||| oNonblock)).lwipConnect fd addr
  if r.connect = 0 then (net.setFlags fd flags, 0)
  else if pollConnect timeout r.start r.polls then (net.setFlags fd flags, 0)
  else (net, -1)

namespace WiFiClient

def initial : WiFiClient := ⟨-1⟩

/-- `WiFiClient(int fd)`. -/
def ofFd (fd : Int) : WiFiClient := ⟨fd⟩

variable (c : WiFiClient) (net : Lwip)

def stop : WiFiClient × Lwip := if 0 ≤ c.sockfd then (⟨-1⟩, net.lwipClose c.sockfd) else (c, net)

/-- The move constructor: the new object and the other one. -/
def move (other : WiFiClient) : WiFiClient × WiFiClient := (⟨other.sockfd⟩, ⟨-1⟩)

/-- `operator=` from an object that is not this one. -/
def moveAssign (other : WiFiClient) : (WiFiClient × WiFiClient) × Lwip :=
  ((⟨other.sockfd⟩, ⟨-1⟩), (c.stop net).2)

/-- Both `connect`s, once the address is known. -/
def connectOn (addr : Addr) (timeout : Int) (r : ConnectResults) : (WiFiClient × Lwip) × Int :=
  let stopped := if 0 ≤ c.sockfd then c.stop net else (c, net)
  let new := stopped.2.lwipSocket r.socket
  let c : WiFiClient := ⟨new.1⟩
  if new.1 < 0 then ((c, new.2), 0)
  else
    let connected := connectToAddr new.2 new.1 addr timeout r
    if connected.2 ≠ 0 then (c.stop connected.1, 0) else ((c, connected.1), 1)

def connectIp (ip : IPAddress) (port : UInt16) (timeout : Int) (r : ConnectResults) :
    (WiFiClient × Lwip) × Int :=
  c.connectOn net ⟨ip, port⟩ timeout r

def connectHost (host : Option Text) (port : UInt16) (timeout : Int)
    (numeric dns : Option IPAddress) (r : ConnectResults) : (WiFiClient × Lwip) × Int :=
  if noHost host then ((c, net), 0)
  else match lwipResolveHost numeric dns port with
    | none => ((c, net), 0)
    | some addr => c.connectOn net addr timeout r

/-- `read()` and `connected()` are given what their `lwip_recv` returns, and `read` the byte. -/
def read (ret : Int) (value : UInt8) : (WiFiClient × Lwip) × Int :=
  if ret ≤ 0 then (if ret = 0 then c.stop net else (c, net), -1)
  else ((c, net), value.toNat)

/-- `read(buffer, size)`; the flag says that the buffer is not the null pointer. -/
def readBuf (buffer : Bool) (size : Nat) (ret : Int) : (WiFiClient × Lwip) × Int :=
  if !buffer || size == 0 || c.sockfd < 0 then ((c, net), -1)
  else if ret ≤ 0 then (if ret = 0 then c.stop net else (c, net), -1)
  else ((c, net), ret)

def connected (ret : Int) : (WiFiClient × Lwip) × Int :=
  if c.sockfd < 0 then ((c, net), 0)
  else if 0 < ret then ((c, net), 1)
  else if ret = 0 then (c.stop net, 0)
  else ((c, net), 1)

def status : Int := if 0 ≤ c.sockfd then 1 else 0

end WiFiClient

end Bl616cl.Net
