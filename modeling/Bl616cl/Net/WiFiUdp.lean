import Bl616cl.Lib.Memory
import Bl616cl.Lib.Word
import Bl616cl.Net.Lwip

/-!
# WiFiUDP

A datagram socket with a transmit buffer, filled by `write` and sent by `endPacket`, and a receive
buffer, filled by `parsePacket` and emptied by `read`. `size_t` arithmetic is that of 32-bit words.
-/

namespace Bl616cl.Net

open Bl616cl.Lib

/-- `WIFI_UDP_TX_BUFFER_SIZE` and `WIFI_UDP_RX_BUFFER_SIZE`. -/
def udpTxBufferSize : Nat := 1460
def udpRxBufferSize : Nat := 1460

structure WiFiUDP where
  sockfd : Int
  txBuffer : Nat → UInt8
  txLen : Nat
  txIp : IPAddress
  txPort : UInt16
  txMulticast : Bool
  rxBuffer : Nat → UInt8
  rxLen : Nat
  rxIndex : Nat
  remoteIp : IPAddress
  remotePort : UInt16
  multicastIp : IPAddress
  multicastPort : UInt16

/-- What the lwIP calls of a `begin` return. -/
structure BeginResults where
  socket : Option NewSocket
  bindOk : Bool
  /-- `IP_ADD_MEMBERSHIP`. -/
  joinOk : Bool

/-- A datagram that has arrived. -/
structure Datagram where
  source : Addr
  payload : List UInt8

namespace WiFiUDP

/-- The constructor; the buffers are what the memory held. -/
def initial (txBuffer rxBuffer : Nat → UInt8) : WiFiUDP where
  sockfd := -1
  txBuffer := txBuffer
  txLen := 0
  txIp := 0
  txPort := 0
  txMulticast := false
  rxBuffer := rxBuffer
  rxLen := 0
  rxIndex := 0
  remoteIp := 0
  remotePort := 0
  multicastIp := 0
  multicastPort := 0

variable (u : WiFiUDP) (net : Lwip) (r : BeginResults)

def stop : WiFiUDP × Lwip :=
  let closed :=
    if 0 ≤ u.sockfd then ({ u with sockfd := -1 }, net.lwipClose u.sockfd) else (u, net)
  ({ closed.1 with txLen := 0, rxLen := 0, rxIndex := 0 }, closed.2)

/-- `stop` where there is a socket. -/
def stopOpen : WiFiUDP × Lwip := if 0 ≤ u.sockfd then u.stop net else (u, net)

/-- The two `begin`s, which differ in the address they bind, and `beginMulticast` up to its
`IP_ADD_MEMBERSHIP`. -/
def beginOn : (WiFiUDP × Lwip) × Bool :=
  let stopped := u.stopOpen net
  let new := stopped.2.lwipSocket r.socket
  let u := { stopped.1 with sockfd := new.1 }
  if new.1 < 0 then ((u, new.2), false)
  else if !r.bindOk then (u.stop new.2, false)
  else ((u, new.2), true)

def begin (_port : UInt16) := u.beginOn net r
def beginIp (_ip : IPAddress) (_port : UInt16) := u.beginOn net r

def beginMulticast (ip : IPAddress) (port : UInt16) : (WiFiUDP × Lwip) × Bool :=
  let bound := u.beginOn net r
  if !bound.2 then bound
  else if !r.joinOk then (bound.1.1.stop bound.1.2, false)
  else (({ bound.1.1 with multicastIp := ip, multicastPort := port }, bound.1.2), true)

def beginPacket : WiFiUDP × Bool :=
  if u.sockfd < 0 then (u, false) else ({ u with txLen := 0, txMulticast := false }, true)

def beginMulticastPacket : WiFiUDP × Bool :=
  if u.sockfd < 0 then (u, false)
  else ({ u with
    txLen := 0
    txIp := u.multicastIp
    txPort := u.multicastPort
    txMulticast := true }, true)

def beginPacketIp (ip : IPAddress) (port : UInt16) : WiFiUDP × Bool :=
  if u.sockfd < 0 then (u, false)
  else ({ u with txLen := 0, txIp := ip, txPort := port, txMulticast := false }, true)

def beginPacketHost (host : Option Text) (port : UInt16) (numeric dns : Option IPAddress) :
    WiFiUDP × Bool :=
  if u.sockfd < 0 || noHost host then (u, false)
  else match lwipResolveHost numeric dns port with
    | none => (u, false)
    | some addr =>
      ({ u with txLen := 0, txIp := addr.ip, txPort := port, txMulticast := false }, true)

/-- The destination of the packet. -/
def dest : Addr := ⟨u.txIp, u.txPort⟩

/-- The packet in the transmit buffer. -/
def packet : List UInt8 := Memory.read u.txBuffer 0 u.txLen

/-- `endPacket`, with what `lwip_sendto` returns: what is handed to it, and the return value. -/
def endPacket (ret : Int) : Option (Addr × List UInt8) × Bool :=
  if u.sockfd < 0 then (none, false)
  else if u.txLen = 0 then (none, true)
  else (some (u.dest, u.packet), ret == toInt32 u.txLen)

/-- `write(buffer, size)`; `none` is the null pointer. -/
def write (buffer : Option (List UInt8)) : WiFiUDP × Nat :=
  match buffer with
  | none => (u, 0)
  | some bytes =>
    if bytes.length = 0 then (u, 0)
    else
      let size := min bytes.length (sub32 udpTxBufferSize u.txLen)
      ({ u with
        txBuffer := Memory.write u.txBuffer u.txLen (bytes.take size)
        txLen := add32 u.txLen size }, size)

def availableForWrite : Int := toInt32 (sub32 udpTxBufferSize u.txLen)

/-- `parsePacket`; `lwip_recvfrom` gives as much of the datagram as the buffer holds. -/
def parsePacket (arriving : Option Datagram) : WiFiUDP × Int :=
  if u.sockfd < 0 then (u, 0)
  else
    let empty := { u with rxLen := 0, rxIndex := 0 }
    match arriving with
    | none => (empty, 0)
    | some d =>
      let received := d.payload.take udpRxBufferSize
      let rxBuffer := Memory.write u.rxBuffer 0 received
      if received.length = 0 then ({ empty with rxBuffer := rxBuffer }, 0)
      else ({ u with
        rxBuffer := rxBuffer
        rxLen := received.length
        rxIndex := 0
        remoteIp := d.source.ip
        remotePort := d.source.port }, received.length)

def available : Int := toInt32 (sub32 u.rxLen u.rxIndex)

/-- `read()`; `none` is `-1`. -/
def read : WiFiUDP × Option UInt8 :=
  if u.rxIndex ≥ u.rxLen then (u, none)
  else ({ u with rxIndex := add32 u.rxIndex 1 }, some (u.rxBuffer u.rxIndex))

/-- `read(buffer, size)`: its return value, and the bytes it stores; the flag says that the buffer
is not the null pointer. -/
def readBuf (buffer : Bool) (size : Nat) : WiFiUDP × Int × List UInt8 :=
  if !buffer || size == 0 then (u, 0, [])
  else
    let count := min (sub32 u.rxLen u.rxIndex) size
    if count = 0 then (u, -1, [])
    else ({ u with rxIndex := add32 u.rxIndex count }, toInt32 count,
      Memory.read u.rxBuffer u.rxIndex count)

/-- `peek()`; `none` is `-1`. -/
def peek : Option UInt8 := if u.rxIndex ≥ u.rxLen then none else some (u.rxBuffer u.rxIndex)

end WiFiUDP

end Bl616cl.Net
