import Bl616cl.Net.WiFiClient

/-!
# WiFiServer

A listening socket, and the clients it accepts.
-/

namespace Bl616cl.Net

structure WiFiServer where
  port : UInt16
  sockfd : Int

/-- What the lwIP calls of a `begin` return. -/
structure ListenResults where
  socket : Option NewSocket
  bindOk : Bool
  listenOk : Bool

namespace WiFiServer

/-- `WiFiServer(port)`; the default constructor has port 0. -/
def initial (port : UInt16) : WiFiServer := ⟨port, -1⟩

variable (s : WiFiServer) (net : Lwip)

def endServer : WiFiServer × Lwip :=
  if 0 ≤ s.sockfd then ({ s with sockfd := -1 }, net.lwipClose s.sockfd) else (s, net)

/-- `begin(port)`; `FIONBIO` makes the socket non-blocking. -/
def beginPort (port : UInt16) (r : ListenResults) : WiFiServer × Lwip :=
  let ended := if 0 ≤ s.sockfd then s.endServer net else (s, net)
  let new := ended.2.lwipSocket r.socket
  let s : WiFiServer := ⟨port, new.1⟩
  if new.1 < 0 then (s, new.2)
  else if !r.bindOk then s.endServer new.2
  else if !r.listenOk then s.endServer new.2
  else (s, new.2.setFlags new.1 (new.2.getFlags new.1 ||| oNonblock))

def begin (r : ListenResults) : WiFiServer × Lwip := s.beginPort net s.port r

/-- `accept` and `available`. -/
def accept (new : Option NewSocket) : WiFiClient × Lwip :=
  if s.sockfd < 0 then (.initial, net)
  else
    let client := net.lwipSocket new
    if client.1 < 0 then (.initial, client.2) else (.ofFd client.1, client.2)

end WiFiServer

end Bl616cl.Net
