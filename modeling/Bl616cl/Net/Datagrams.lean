import Bl616cl.Lib.Run
import Bl616cl.Net.WiFiUdp

/-!
# Datagrams sent and delivered

The calls on one WiFiUDP object, next to the bytes that `write` has accepted, what has been handed
to `lwip_sendto`, and the datagram that `parsePacket` has received last. `endPacket` leaves the
transmit buffer and the destination as they are, and so does a failed `beginPacket`;
`datagrams_iff` says which calls make a wrong datagram of that. What the calls amount to (`Talk`) is
told from their arguments and the results of the lwIP calls alone.
-/

namespace Bl616cl.Net

open Bl616cl.Lib

/-- What has been handed to `lwip_sendto`, with what is known of the packet at that time. The bytes
that `write` accepts are numbered. -/
structure Sent where
  dest : Addr
  bytes : List UInt8
  /-- The destinations given on the socket. -/
  given : List Addr
  /-- The number of the first byte accepted since the last successful `beginPacket`, and the one
  after the last. -/
  first : Nat
  last : Nat
  /-- `lwip_sendto` has not failed. -/
  ok : Bool

inductive UdpCall where
  | begin (r : BeginResults) (port : UInt16)
  | beginIp (r : BeginResults) (ip : IPAddress) (port : UInt16)
  | beginMulticast (r : BeginResults) (ip : IPAddress) (port : UInt16)
  | beginPacket
  | beginMulticastPacket
  | beginPacketIp (ip : IPAddress) (port : UInt16)
  | beginPacketHost (host : Option Text) (port : UInt16) (numeric dns : Option IPAddress)
  | write (buffer : Option (List UInt8))
  | endPacket (ret : Int)
  | parsePacket (arriving : Option Datagram)
  | read
  | readBuf (buffer : Bool) (size : Nat)
  | peek
  | stop

/-- The bytes that have been received and not yet read. -/
def WiFiUDP.unread (u : WiFiUDP) : List UInt8 :=
  Memory.read u.rxBuffer u.rxIndex (u.rxLen - u.rxIndex)

/-- An object and what it has been used for. -/
structure Exchange where
  udp : WiFiUDP
  net : Lwip
  /-- The destinations given on the socket now open. -/
  given : List Addr
  /-- All bytes that `write` has accepted. -/
  accepted : List UInt8
  /-- How many of them there were at the last successful `beginPacket`. -/
  packetStart : Nat
  /-- The datagrams handed to `lwip_sendto`, the last one first. -/
  sent : List Sent
  /-- The datagram of the last `parsePacket`, and what has been read of it. -/
  arrived : List UInt8
  returned : List UInt8

namespace Exchange

def initial (txBuffer rxBuffer : Nat → UInt8) (net : Lwip) : Exchange :=
  ⟨.initial txBuffer rxBuffer, net, [], [], 0, [], [], []⟩

variable (x : Exchange)

/-- A `begin` or `stop`, with the destinations it gives if it succeeds. -/
def reopen (result : (WiFiUDP × Lwip) × Bool) (dests : List Addr) : Exchange :=
  { x with
    udp := result.1.1
    net := result.1.2
    given := if result.2 then dests else []
    arrived := []
    returned := [] }

/-- A `beginPacket`, with the destinations it gives if it succeeds. -/
def newPacket (result : WiFiUDP × Bool) (dests : List Addr) : Exchange :=
  if result.2 then
    { x with udp := result.1, given := dests ++ x.given, packetStart := x.accepted.length }
  else { x with udp := result.1 }

def endPacket (ret : Int) : Exchange :=
  match (x.udp.endPacket ret).1 with
  | none => x
  | some (dest, bytes) =>
    { x with sent :=
        ⟨dest, bytes, x.given, x.packetStart, x.accepted.length, decide (0 ≤ ret)⟩ :: x.sent }

def step : UdpCall → Exchange
  | .begin r port => x.reopen (x.udp.begin x.net r port) []
  | .beginIp r ip port => x.reopen (x.udp.beginIp x.net r ip port) []
  | .beginMulticast r ip port => x.reopen (x.udp.beginMulticast x.net r ip port) [⟨ip, port⟩]
  | .beginPacket => x.newPacket x.udp.beginPacket []
  | .beginMulticastPacket => x.newPacket x.udp.beginMulticastPacket []
  | .beginPacketIp ip port => x.newPacket (x.udp.beginPacketIp ip port) [⟨ip, port⟩]
  | .beginPacketHost host port numeric dns =>
    x.newPacket (x.udp.beginPacketHost host port numeric dns)
      (lwipResolveHost numeric dns port).toList
  | .write buffer =>
    let r := x.udp.write buffer
    { x with udp := r.1, accepted := x.accepted ++ (buffer.getD []).take r.2 }
  | .endPacket ret => x.endPacket ret
  | .parsePacket arriving =>
    { x with
      udp := (x.udp.parsePacket arriving).1
      arrived := if x.udp.sockfd < 0 then [] else (arriving.map Datagram.payload).getD []
      returned := [] }
  | .read => { x with udp := x.udp.read.1, returned := x.returned ++ x.udp.read.2.toList }
  | .readBuf buffer size =>
    let r := x.udp.readBuf buffer size
    { x with udp := r.1, returned := x.returned ++ r.2.2 }
  | .peek => x
  | .stop => x.reopen (x.udp.stop x.net, false) []

/-- The object is as good as a datagram interface. -/
structure Faithful (x : Exchange) : Prop where
  txFits : x.udp.txLen ≤ udpTxBufferSize
  rxFits : x.udp.rxIndex ≤ x.udp.rxLen ∧ x.udp.rxLen ≤ udpRxBufferSize
  given : ∀ d ∈ x.sent, d.dest ∈ d.given
  whole : ∀ d ∈ x.sent, d.bytes = (x.accepted.take d.last).drop d.first
  /-- No byte is in two datagrams. -/
  once : x.sent.Pairwise fun new old => new.ok = true → old.ok = true → old.last ≤ new.first
  delivered : x.returned ++ x.udp.unread = x.arrived
  peeked : x.udp.peek = (x.arrived.drop x.returned.length).head?

end Exchange

/-! ## The calls alone -/

/-- What a sketch has asked for, told from its calls. -/
structure Talk where
  isOpen : Bool
  /-- The destination of the last `beginPacket` on an open socket. -/
  dest : Addr
  /-- The group of the last successful `beginMulticast`. -/
  group : Addr
  /-- The destinations given on the socket now open. -/
  given : List Addr
  /-- The bytes written since the last `beginPacket`, `begin` or `stop` that discards them. -/
  held : Nat
  /-- Bytes have been discarded by a `begin` or `stop` since the last `beginPacket`. -/
  lost : Bool
  /-- A datagram has been sent since. -/
  sent : Bool

namespace Talk

def initial : Talk := ⟨false, ⟨0, 0⟩, ⟨0, 0⟩, [], 0, false, false⟩

variable (t : Talk)

def stop : Talk := { t with isOpen := false, given := [], held := 0, lost := t.lost || t.held != 0 }

/-- `stop` where a socket is open. -/
def stopOpen : Talk := if t.isOpen then t.stop else { t with given := [] }

/-- A `begin` that gives these destinations; the new socket is closed if the rest fails. -/
def begin (r : BeginResults) (restOk : Bool) (dests : List Addr) : Talk :=
  if r.socket.isNone then t.stopOpen
  else if !restOk then t.stopOpen.stop
  else { t.stopOpen with isOpen := true, given := dests }

/-- A `beginPacket` to `dest`, which gives these destinations. -/
def newPacket (dest : Addr) (dests : List Addr) : Talk :=
  if t.isOpen then
    { t with dest := dest, given := dests ++ t.given, held := 0, lost := false, sent := false }
  else t

def step : UdpCall → Talk
  | .begin r _ | .beginIp r _ _ => t.begin r r.bindOk []
  | .beginMulticast r ip port =>
    let t := t.begin r (r.bindOk && r.joinOk) [⟨ip, port⟩]
    if t.isOpen then { t with group := ⟨ip, port⟩ } else t
  | .beginPacket => t.newPacket t.dest []
  | .beginMulticastPacket => t.newPacket t.group []
  | .beginPacketIp ip port => t.newPacket ⟨ip, port⟩ [⟨ip, port⟩]
  | .beginPacketHost host port numeric dns =>
    if noHost host then t
    else match lwipResolveHost numeric dns port with
      | none => t
      | some addr => t.newPacket addr [addr]
  | .write buffer =>
    { t with held := t.held + min (buffer.getD []).length (udpTxBufferSize - t.held) }
  | .endPacket ret =>
    if t.isOpen && t.held != 0 && decide (0 ≤ ret) then { t with sent := true } else t
  | .stop => t.stop
  | .parsePacket _ | .read | .readBuf _ _ | .peek => t

/-- An `endPacket` of written bytes is to a destination given on the socket now open, comes before
any `begin` or `stop` has discarded some of them, and is the first that succeeds; a datagram that is
received fits. -/
def Orderly : UdpCall → Prop
  | .endPacket ret => t.isOpen = true → t.held ≠ 0 →
      t.dest ∈ t.given ∧ t.lost = false ∧ (0 ≤ ret → t.sent = false)
  | .parsePacket arriving => t.isOpen = true →
      ∀ d, arriving = some d → d.payload.length ≤ udpRxBufferSize
  | _ => True

instance (t : Talk) (a : UdpCall) : Decidable (t.Orderly a) := by
  cases a with
  | parsePacket arriving =>
    cases arriving with
    | none => exact isTrue fun _ _ h => absurd h.symm (Option.some_ne_none _)
    | some d =>
      exact decidable_of_iff (t.isOpen = true → d.payload.length ≤ udpRxBufferSize)
        ⟨fun h hopen _ he => Option.some.inj he ▸ h hopen, fun h hopen => h hopen d rfl⟩
  | _ => unfold Orderly; infer_instance

end Talk

/-! ## The invariant -/

namespace Exchange

/-- Nothing is lost in this call: what `endPacket` sends has its destination from the socket now
open and is all that was accepted since the last successful `beginPacket`, none of it sent yet; what
is received fits. -/
def Sound (x : Exchange) : UdpCall → Prop
  | .endPacket ret => 0 ≤ x.udp.sockfd → x.udp.txLen ≠ 0 →
      x.udp.dest ∈ x.given ∧ x.udp.txLen = x.accepted.length - x.packetStart ∧
        (0 ≤ ret → ∀ d ∈ x.sent, d.ok = true → d.last ≤ x.packetStart)
  | .parsePacket arriving => 0 ≤ x.udp.sockfd →
      ∀ d, arriving = some d → d.payload.length ≤ udpRxBufferSize
  | _ => True

/-- What holds of the datagrams sent, the transmit buffer and the receive buffer. -/
structure SentOk (accepted : List UInt8) (sent : List Sent) : Prop where
  given : ∀ d ∈ sent, d.dest ∈ d.given
  whole : ∀ d ∈ sent, d.bytes = (accepted.take d.last).drop d.first
  once : sent.Pairwise fun new old => new.ok = true → old.ok = true → old.last ≤ new.first
  last_le : ∀ d ∈ sent, d.last ≤ accepted.length

structure TxOk (u : WiFiUDP) (accepted : List UInt8) (packetStart : Nat) : Prop where
  fits : u.txLen ≤ udpTxBufferSize
  since : packetStart + u.txLen ≤ accepted.length
  packet : u.packet = accepted.drop (accepted.length - u.txLen)

structure RxOk (u : WiFiUDP) (arrived returned : List UInt8) : Prop where
  index_le : u.rxIndex ≤ u.rxLen
  fits : u.rxLen ≤ udpRxBufferSize
  delivered : returned ++ u.unread = arrived
  closed : u.sockfd < 0 → u.rxLen = 0

/-- The invariant over runs. -/
structure Inv (x : Exchange) : Prop where
  sent : SentOk x.accepted x.sent
  tx : TxOk x.udp x.accepted x.packetStart
  rx : RxOk x.udp x.arrived x.returned

/-- The transmit side of the object is as the calls would have it, when `since` bytes have been
accepted since the last successful `beginPacket`. -/
structure Follows (u : WiFiUDP) (since : Nat) (t : Talk) : Prop where
  dest : t.dest = u.dest
  group : t.group = ⟨u.multicastIp, u.multicastPort⟩
  held : t.held = u.txLen
  lost : t.lost = false ↔ u.txLen = since

/-- The object and its history are. -/
structure Tracks (x : Exchange) (t : Talk) : Prop where
  follows : Follows x.udp (x.accepted.length - x.packetStart) t
  isOpen : t.isOpen = decide (0 ≤ x.udp.sockfd)
  given : t.given = x.given
  sent : t.sent = false ↔ ∀ d ∈ x.sent, d.ok = true → d.last ≤ x.packetStart

end Exchange

/-! ## Calls -/

namespace WiFiUDP

variable {u : WiFiUDP} {net : Lwip} {r : BeginResults}

/-- What a call that is about the socket leaves of the buffers. -/
structure Emptied (u u' : WiFiUDP) : Prop where
  txBuffer : u'.txBuffer = u.txBuffer
  txLen : u'.txLen = 0 ∨ u'.txLen = u.txLen
  rxLen : u'.rxLen = 0
  rxIndex : u'.rxIndex = 0

theorem emptied_stop (u : WiFiUDP) (net : Lwip) : Emptied u (u.stop net).1 := by
  unfold stop
  split <;> exact ⟨rfl, Or.inl rfl, rfl, rfl⟩

theorem Emptied.stop {u' : WiFiUDP} (h : Emptied u u') (net : Lwip) :
    Emptied u (u'.stop net).1 := by
  obtain ⟨htx, -, hrx, hindex⟩ := emptied_stop u' net
  refine ⟨htx.trans h.txBuffer, Or.inl ?_, hrx, hindex⟩
  unfold WiFiUDP.stop
  rfl

/-- `stop` is skipped only without a socket, when the receive buffer is empty. -/
theorem emptied_beginOn (net : Lwip) (r : BeginResults) (hindex : u.rxIndex ≤ u.rxLen)
    (hclosed : u.sockfd < 0 → u.rxLen = 0) :
    Emptied u (u.beginOn net r).1.1 := by
  have hstopped : Emptied u (u.stopOpen net).1 := by
    unfold stopOpen
    split
    · exact emptied_stop u net
    · next hfd =>
      have hzero := hclosed (by omega)
      have hindexZero : u.rxIndex = 0 := by omega
      exact ⟨rfl, Or.inr rfl, hzero, hindexZero⟩
  unfold beginOn
  dsimp only
  split
  · exact ⟨hstopped.txBuffer, hstopped.txLen, hstopped.rxLen, hstopped.rxIndex⟩
  · split
    · have hopened : ∀ fd, Emptied u { (u.stopOpen net).1 with sockfd := fd } := fun fd =>
        ⟨hstopped.txBuffer, hstopped.txLen, hstopped.rxLen, hstopped.rxIndex⟩
      exact (hopened _).stop _
    · exact ⟨hstopped.txBuffer, hstopped.txLen, hstopped.rxLen, hstopped.rxIndex⟩

theorem emptied_beginMulticast (hindex : u.rxIndex ≤ u.rxLen)
    (hclosed : u.sockfd < 0 → u.rxLen = 0) (ip : IPAddress) (port : UInt16) :
    Emptied u (u.beginMulticast net r ip port).1.1 := by
  have hbound := emptied_beginOn net r hindex hclosed
  unfold beginMulticast
  dsimp only
  split
  · exact hbound
  · split
    · exact hbound.stop _
    · exact ⟨hbound.txBuffer, hbound.txLen, hbound.rxLen, hbound.rxIndex⟩

theorem packet_of_zero (h : u.txLen = 0) : u.packet = [] := by
  rw [packet, h, Memory.read_zero]

theorem write_eq (hfits : u.txLen ≤ udpTxBufferSize) (bytes : List UInt8) :
    u.write (some bytes) =
      ({ u with
        txBuffer := Memory.write u.txBuffer u.txLen (bytes.take (udpTxBufferSize - u.txLen))
        txLen := u.txLen + min bytes.length (udpTxBufferSize - u.txLen) },
        min bytes.length (udpTxBufferSize - u.txLen)) := by
  have hspace : sub32 udpTxBufferSize u.txLen = udpTxBufferSize - u.txLen :=
    sub32_of_le hfits (by decide)
  have hsize : udpTxBufferSize = 1460 := rfl
  by_cases hnil : bytes.length = 0
  · obtain rfl := List.length_eq_zero_iff.mp hnil
    have hwrite : Memory.write u.txBuffer u.txLen [] = u.txBuffer := by
      funext k
      simp [Memory.write]
    simp [write, hwrite]
  · have hadd : add32 u.txLen (min bytes.length (udpTxBufferSize - u.txLen)) =
        u.txLen + min bytes.length (udpTxBufferSize - u.txLen) := add32_of_lt (by omega)
    have htake : bytes.take (min bytes.length (udpTxBufferSize - u.txLen)) =
        bytes.take (udpTxBufferSize - u.txLen) := by
      rw [List.take_eq_take_iff]
      omega
    simp only [write, hnil, if_false, hspace, hadd, htake]

theorem count_eq (hindex : u.rxIndex ≤ u.rxLen) (hfits : u.rxLen ≤ udpRxBufferSize) :
    sub32 u.rxLen u.rxIndex = u.rxLen - u.rxIndex := by
  have hsize : udpRxBufferSize = 1460 := rfl
  exact sub32_of_le hindex (by omega)

theorem peek_eq (hindex : u.rxIndex ≤ u.rxLen) : u.peek = u.unread.head? := by
  unfold peek unread
  split
  · next hend =>
    rw [show u.rxLen - u.rxIndex = 0 by omega]
    rfl
  · next hmore =>
    rw [show u.rxLen - u.rxIndex = u.rxLen - u.rxIndex - 1 + 1 by omega, Memory.read_succ]
    rfl

/-- The receive buffer after `count` bytes have been read. -/
def advance (u : WiFiUDP) (count : Nat) : WiFiUDP := { u with rxIndex := u.rxIndex + count }

theorem unread_advance {count : Nat} (h : u.rxIndex + count ≤ u.rxLen) :
    u.unread = Memory.read u.rxBuffer u.rxIndex count ++ (u.advance count).unread := by
  unfold unread advance
  dsimp only
  rw [← Memory.read_add]
  congr 1
  omega

theorem readBuf_eq (hindex : u.rxIndex ≤ u.rxLen) (hfits : u.rxLen ≤ udpRxBufferSize)
    (buffer : Bool) (size : Nat) : ∃ count, u.rxIndex + count ≤ u.rxLen ∧
      (u.readBuf buffer size).1 = u.advance count ∧
      (u.readBuf buffer size).2.2 = Memory.read u.rxBuffer u.rxIndex count := by
  unfold readBuf
  split
  · exact ⟨0, by omega, rfl, rfl⟩
  · dsimp only
    rw [count_eq hindex hfits]
    split
    · exact ⟨0, by omega, rfl, rfl⟩
    · refine ⟨min (u.rxLen - u.rxIndex) size, by omega, ?_, rfl⟩
      have hsize : udpRxBufferSize = 1460 := rfl
      rw [add32_of_lt (by omega)]
      rfl

theorem read_eq (hindex : u.rxIndex ≤ u.rxLen) (hfits : u.rxLen ≤ udpRxBufferSize) :
    ∃ count, u.rxIndex + count ≤ u.rxLen ∧ u.read.1 = u.advance count ∧
      u.read.2.toList = Memory.read u.rxBuffer u.rxIndex count := by
  unfold read
  split
  · exact ⟨0, by omega, rfl, rfl⟩
  · have hsize : udpRxBufferSize = 1460 := rfl
    rw [add32_of_lt (by omega)]
    exact ⟨1, by omega, rfl, rfl⟩

end WiFiUDP

/-! ## Runs -/

namespace Exchange

open WiFiUDP (Emptied)

variable {x : Exchange}

theorem TxOk.emptied {u u' : WiFiUDP} {accepted : List UInt8} {packetStart : Nat}
    (h : TxOk u accepted packetStart) (he : Emptied u u') : TxOk u' accepted packetStart := by
  obtain ⟨hfits, hsince, hpacket⟩ := h
  obtain hzero | hsame := he.txLen
  · refine ⟨by omega, by omega, ?_⟩
    rw [WiFiUDP.packet_of_zero hzero, hzero]
    simp
  · refine ⟨by omega, by omega, ?_⟩
    rw [hsame, ← hpacket, WiFiUDP.packet, WiFiUDP.packet, he.txBuffer, hsame]

theorem RxOk.emptied {u u' : WiFiUDP} (he : Emptied u u') : RxOk u' [] [] := by
  obtain ⟨-, -, hlen, hindex⟩ := he
  refine ⟨by omega, by omega, ?_, fun _ => hlen⟩
  simp [WiFiUDP.unread, hlen]

theorem Inv.reopen (h : Inv x) (result : (WiFiUDP × Lwip) × Bool)
    (he : Emptied x.udp result.1.1) (dests : List Addr) : Inv (x.reopen result dests) :=
  ⟨h.sent, h.tx.emptied he, RxOk.emptied he⟩

/-- What the forms of `beginPacket` leave: no packet where they succeed, and else everything. -/
structure NewPacket (u : WiFiUDP) (result : WiFiUDP × Bool) : Prop where
  failed : result.2 = false → result.1 = u
  txLen : result.2 = true → result.1.txLen = 0
  sockfd : result.1.sockfd = u.sockfd
  rxBuffer : result.1.rxBuffer = u.rxBuffer
  rxLen : result.1.rxLen = u.rxLen
  rxIndex : result.1.rxIndex = u.rxIndex

theorem RxOk.congr {u u' : WiFiUDP} {arrived returned : List UInt8} (h : RxOk u arrived returned)
    (hsockfd : u'.sockfd = u.sockfd) (hbuffer : u'.rxBuffer = u.rxBuffer)
    (hlen : u'.rxLen = u.rxLen) (hindex : u'.rxIndex = u.rxIndex) :
    RxOk u' arrived returned := by
  obtain ⟨hle, hfits, hdelivered, hclosed⟩ := h
  refine ⟨by omega, by omega, ?_, ?_⟩
  · rw [← hdelivered, WiFiUDP.unread, WiFiUDP.unread, hbuffer, hlen, hindex]
  · rw [hsockfd, hlen]
    exact hclosed

theorem Inv.newPacket (h : Inv x) {result : WiFiUDP × Bool} (hnew : NewPacket x.udp result)
    (dests : List Addr) : Inv (x.newPacket result dests) := by
  have hrx := h.rx.congr hnew.sockfd hnew.rxBuffer hnew.rxLen hnew.rxIndex
  unfold Exchange.newPacket
  split
  · next hok =>
    have hzero := hnew.txLen hok
    refine ⟨h.sent, ⟨by simp [hzero], by simp [hzero], ?_⟩, hrx⟩
    simp [WiFiUDP.packet_of_zero, hzero]
  · next hfailed =>
    have hsame := hnew.failed (by simpa using hfailed)
    exact ⟨h.sent, hsame ▸ h.tx, hrx⟩

theorem newPacket_beginPacket (u : WiFiUDP) : NewPacket u u.beginPacket := by
  unfold WiFiUDP.beginPacket
  split <;> constructor <;> simp

theorem newPacket_beginMulticastPacket (u : WiFiUDP) : NewPacket u u.beginMulticastPacket := by
  unfold WiFiUDP.beginMulticastPacket
  split <;> constructor <;> simp

theorem newPacket_beginPacketIp (u : WiFiUDP) (ip : IPAddress) (port : UInt16) :
    NewPacket u (u.beginPacketIp ip port) := by
  unfold WiFiUDP.beginPacketIp
  split <;> constructor <;> simp

theorem newPacket_beginPacketHost (u : WiFiUDP) (host : Option Text) (port : UInt16)
    (numeric dns : Option IPAddress) : NewPacket u (u.beginPacketHost host port numeric dns) := by
  unfold WiFiUDP.beginPacketHost
  split
  · constructor <;> simp
  · split <;> constructor <;> simp

theorem drop_append_take {α : Type*} {accepted bytes : List α} {len size : Nat}
    (hlen : len ≤ accepted.length) (hsize : size ≤ bytes.length) :
    (accepted ++ bytes.take size).drop ((accepted ++ bytes.take size).length - (len + size)) =
      accepted.drop (accepted.length - len) ++ bytes.take size := by
  have hdrop : (accepted ++ bytes.take size).length - (len + size) = accepted.length - len := by
    rw [List.length_append, List.length_take]
    omega
  rw [hdrop, List.drop_append_of_le_length (by omega)]

/-- What has been sent is not touched by bytes accepted later. -/
theorem SentOk.append {accepted : List UInt8} {sent : List Sent} (h : SentOk accepted sent)
    (more : List UInt8) : SentOk (accepted ++ more) sent := by
  obtain ⟨hgiven, hwhole, honce, hlast⟩ := h
  refine ⟨hgiven, fun d hd => ?_, honce, fun d hd => ?_⟩
  · rw [List.take_append_of_le_length (hlast d hd)]
    exact hwhole d hd
  · have := hlast d hd
    rw [List.length_append]
    omega

theorem Inv.write (h : Inv x) (buffer : Option (List UInt8)) :
    Inv (x.step (.write buffer)) := by
  cases buffer with
  | none => simpa [step, WiFiUDP.write] using h
  | some bytes =>
    obtain ⟨hfits, hsince, hpacket⟩ := h.tx
    simp only [step, WiFiUDP.write_eq hfits, Option.getD_some]
    set size := min bytes.length (udpTxBufferSize - x.udp.txLen) with hsize
    have htake : bytes.take (udpTxBufferSize - x.udp.txLen) = bytes.take size := by
      rw [List.take_eq_take_iff]
      omega
    have hlength : (bytes.take size).length = size := by
      rw [List.length_take]
      omega
    refine ⟨h.sent.append _, ⟨?_, ?_, ?_⟩, h.rx.congr rfl rfl rfl rfl⟩
    · dsimp only
      omega
    · rw [List.length_append, hlength]
      dsimp only
      omega
    · rw [drop_append_take (by omega) (by omega), ← hpacket, htake]
      have happend := Memory.read_write_append x.udp.txBuffer 0 x.udp.txLen (bytes.take size)
      rw [hlength, Nat.zero_add] at happend
      exact happend

theorem whole_iff {accepted : List UInt8} {first len : Nat} (h : first + len ≤ accepted.length) :
    accepted.drop (accepted.length - len) = (accepted.take accepted.length).drop first ↔
      len = accepted.length - first := by
  rw [List.take_length]
  constructor
  · intro heq
    have hlength := congrArg List.length heq
    simp only [List.length_drop] at hlength
    omega
  · intro hlen
    congr 1
    omega

theorem Inv.endPacket (h : Inv x) {ret : Int} (hc : Sound x (.endPacket ret)) :
    Inv (x.endPacket ret) := by
  unfold Exchange.endPacket WiFiUDP.endPacket
  split
  · exact h
  · next dest bytes hsend =>
    split at hsend
    · cases hsend
    · split at hsend
      · cases hsend
      · next hfd hlen =>
        obtain ⟨rfl, rfl⟩ : x.udp.dest = dest ∧ x.udp.packet = bytes := by simpa using hsend
        obtain ⟨hgiven, hwhole, honce⟩ := hc (by omega) hlen
        obtain ⟨-, hsince, hpacket⟩ := h.tx
        refine ⟨⟨?_, ?_, ?_, ?_⟩, h.tx, h.rx⟩
        · simpa [hgiven] using h.sent.given
        · simp only [List.forall_mem_cons]
          exact ⟨hpacket.trans ((whole_iff hsince).2 hwhole), h.sent.whole⟩
        · refine List.pairwise_cons.2 ⟨fun d hd hok hdok => ?_, h.sent.once⟩
          exact honce (by simpa using hok) d hd hdok
        · simpa using h.sent.last_le

theorem Inv.parsePacket (h : Inv x) {arriving : Option Datagram}
    (hc : Sound x (.parsePacket arriving)) : Inv (x.step (.parsePacket arriving)) := by
  obtain ⟨hindex, hfits, hdelivered, hclosed⟩ := h.rx
  simp only [step, WiFiUDP.parsePacket]
  by_cases hfd : x.udp.sockfd < 0
  · have hzero := hclosed hfd
    simp only [hfd, if_true]
    refine ⟨h.sent, h.tx, hindex, hfits, ?_, hclosed⟩
    simp [WiFiUDP.unread, hzero]
  · simp only [hfd, if_false]
    cases arriving with
    | none =>
      refine ⟨h.sent, ⟨h.tx.fits, h.tx.since, h.tx.packet⟩, by simp, by simp, ?_, by simp⟩
      simp [WiFiUDP.unread]
    | some d =>
      have hlength := hc (by omega) d rfl
      have htake : d.payload.take udpRxBufferSize = d.payload := List.take_of_length_le hlength
      simp only [htake]
      split
      · next hnil =>
        refine ⟨h.sent, ⟨h.tx.fits, h.tx.since, h.tx.packet⟩, by simp, by simp, ?_, by simp⟩
        simp [WiFiUDP.unread, List.length_eq_zero_iff.mp hnil]
      · refine ⟨h.sent, ⟨h.tx.fits, h.tx.since, h.tx.packet⟩, by simp, hlength, ?_, ?_⟩
        · simp [WiFiUDP.unread]
        · intro hneg
          exact absurd hneg hfd

theorem Inv.advance (h : Inv x) {count : Nat} (hcount : x.udp.rxIndex + count ≤ x.udp.rxLen) :
    Inv { x with
      udp := x.udp.advance count
      returned := x.returned ++ Memory.read x.udp.rxBuffer x.udp.rxIndex count } := by
  obtain ⟨hindex, hfits, hdelivered, hclosed⟩ := h.rx
  refine ⟨h.sent, ⟨h.tx.fits, h.tx.since, h.tx.packet⟩, hcount, hfits, ?_, hclosed⟩
  rw [List.append_assoc, ← WiFiUDP.unread_advance hcount]
  exact hdelivered

theorem Inv.step (h : Inv x) {a : UdpCall} (hc : Sound x a) : Inv (x.step a) := by
  obtain ⟨hindex, hfits, -, hclosed⟩ := h.rx
  cases a with
  | begin | beginIp => exact h.reopen _ (WiFiUDP.emptied_beginOn _ _ hindex hclosed) _
  | beginMulticast => exact h.reopen _ (WiFiUDP.emptied_beginMulticast hindex hclosed _ _) _
  | beginPacket => exact h.newPacket (newPacket_beginPacket _) _
  | beginMulticastPacket => exact h.newPacket (newPacket_beginMulticastPacket _) _
  | beginPacketIp => exact h.newPacket (newPacket_beginPacketIp _ _ _) _
  | beginPacketHost => exact h.newPacket (newPacket_beginPacketHost _ _ _ _ _) _
  | write buffer => exact h.write buffer
  | endPacket => exact h.endPacket hc
  | parsePacket => exact h.parsePacket hc
  | read =>
    obtain ⟨count, hcount, hudp, hbytes⟩ := WiFiUDP.read_eq hindex hfits
    simp only [Exchange.step, hudp, hbytes]
    exact h.advance hcount
  | readBuf buffer size =>
    obtain ⟨count, hcount, hudp, hbytes⟩ := WiFiUDP.readBuf_eq hindex hfits buffer size
    simp only [Exchange.step, hudp, hbytes]
    exact h.advance hcount
  | peek => exact h
  | stop => exact h.reopen (_, false) (WiFiUDP.emptied_stop x.udp x.net) _

theorem Inv.faithful (h : Inv x) : Faithful x where
  txFits := h.tx.fits
  rxFits := ⟨h.rx.index_le, h.rx.fits⟩
  given := h.sent.given
  whole := h.sent.whole
  once := h.sent.once
  delivered := h.rx.delivered
  peeked := by
    rw [WiFiUDP.peek_eq h.rx.index_le, ← h.rx.delivered, List.drop_left]

theorem Inv.initial (txBuffer rxBuffer : Nat → UInt8) (net : Lwip) :
    Inv (initial txBuffer rxBuffer net) := by
  refine ⟨⟨?_, ?_, ?_, ?_⟩, ⟨?_, ?_, ?_⟩, ⟨?_, ?_, ?_, ?_⟩⟩ <;>
    simp [Exchange.initial, WiFiUDP.initial, WiFiUDP.packet, WiFiUDP.unread]

/-- A datagram that has been sent as it should be tells that the call was orderly. -/
theorem sound_of_faithful (h : Inv x) {a : UdpCall} (hf : Faithful (x.step a)) :
    Sound x a := by
  cases a with
  | endPacket ret =>
    intro hfd hlen
    have hsend : (x.udp.endPacket ret).1 = some (x.udp.dest, x.udp.packet) := by
      simp [WiFiUDP.endPacket, hlen, Int.not_lt.2 hfd]
    simp only [Exchange.step, Exchange.endPacket, hsend] at hf
    have hsent := hf.whole _ List.mem_cons_self
    refine ⟨hf.given _ List.mem_cons_self, ?_, fun hret d hd hok => ?_⟩
    · rw [← whole_iff h.tx.since, ← h.tx.packet]
      exact hsent
    · exact (List.pairwise_cons.1 hf.once).1 d hd (by simpa using hret) hok
  | parsePacket arriving =>
    rintro hfd d rfl
    have hdelivered := congrArg List.length hf.delivered
    have hopen := Int.not_lt.2 hfd
    simp only [Exchange.step, WiFiUDP.parsePacket, hopen, if_false] at hdelivered
    split at hdelivered
    · next hnil =>
      simp only [List.length_take] at hnil
      have hsize : udpRxBufferSize = 1460 := rfl
      omega
    · simp only [WiFiUDP.unread, List.nil_append, Memory.length_read, List.length_take,
        Option.map_some, Option.getD_some] at hdelivered
      omega
  | _ => trivial

/-! ### Beside the calls -/

variable {t : Talk}

theorem Follows.stop {u : WiFiUDP} {since : Nat} (h : Follows u since t) (hle : u.txLen ≤ since)
    (net : Lwip) : Follows (u.stop net).1 since t.stop := by
  obtain ⟨hdest, hgroup, hheld, hlost⟩ := h
  have hsame : (u.stop net).1.dest = u.dest ∧ (u.stop net).1.multicastIp = u.multicastIp ∧
      (u.stop net).1.multicastPort = u.multicastPort ∧ (u.stop net).1.txLen = 0 := by
    unfold WiFiUDP.stop
    split <;> exact ⟨rfl, rfl, rfl, rfl⟩
  obtain ⟨hdest', hip, hport, hzero⟩ := hsame
  refine ⟨hdest.trans hdest'.symm, by rw [hip, hport]; exact hgroup, hzero.symm, ?_⟩
  rw [hzero, Talk.stop, Bool.or_eq_false_iff, hlost, bne_eq_false_iff_eq, hheld]
  omega

theorem Follows.sockfd {u : WiFiUDP} {since : Nat} (h : Follows u since t) (fd : Int) :
    Follows { u with sockfd := fd } since t :=
  ⟨h.dest, h.group, h.held, h.lost⟩

theorem sockfd_stop (u : WiFiUDP) (net : Lwip) : ¬ 0 ≤ (u.stop net).1.sockfd := by
  unfold WiFiUDP.stop
  split
  · exact fun h : (0 : Int) ≤ -1 => absurd h (by decide)
  · next hfd => exact hfd

/-- What a `begin` or `stop` leaves of the socket, next to what the calls say. -/
structure Reopened (u : WiFiUDP) (since : Nat) (ok : Bool) (dests : List Addr) (t : Talk) :
    Prop where
  follows : Follows u since t
  isOpen : t.isOpen = decide (0 ≤ u.sockfd)
  given : t.given = if ok then dests else []

theorem Follows.reopened_stop {u : WiFiUDP} {since : Nat} (h : Follows u since t)
    (hle : u.txLen ≤ since) (net : Lwip) (dests : List Addr) :
    Reopened (u.stop net).1 since false dests t.stop :=
  ⟨h.stop hle net, (decide_eq_false (sockfd_stop u net)).symm, rfl⟩

theorem txLen_stopOpen_le (u : WiFiUDP) (net : Lwip) : (u.stopOpen net).1.txLen ≤ u.txLen := by
  unfold WiFiUDP.stopOpen
  split
  · exact Nat.zero_le _
  · exact Nat.le_refl _

theorem Follows.reopened_stopOpen {u : WiFiUDP} {since : Nat} (h : Follows u since t)
    (hle : u.txLen ≤ since) (hopen : t.isOpen = decide (0 ≤ u.sockfd)) (net : Lwip) :
    Reopened (u.stopOpen net).1 since false [] t.stopOpen := by
  by_cases hfd : 0 ≤ u.sockfd
  · rw [WiFiUDP.stopOpen, if_pos hfd, Talk.stopOpen, hopen, if_pos (decide_eq_true hfd)]
    exact h.reopened_stop hle net []
  · have hclosed : ¬ t.isOpen = true := by rw [hopen, decide_eq_false hfd]; decide
    rw [WiFiUDP.stopOpen, if_neg hfd, Talk.stopOpen, if_neg hclosed]
    exact ⟨⟨h.dest, h.group, h.held, h.lost⟩, hopen, rfl⟩

theorem isOpen_stopOpen (t : Talk) : t.stopOpen.isOpen = false := by
  unfold Talk.stopOpen
  split
  · rfl
  · next h => simpa using h

/-- The socket of a `begin` is not made, or closed again, or bound. -/
theorem beginOn_cases (u : WiFiUDP) (net : Lwip) (r : BeginResults) :
    (r.socket = none ∧ u.beginOn net r =
        (({ (u.stopOpen net).1 with sockfd := -1 }, (u.stopOpen net).2), false)) ∨
      ∃ new net', r.socket = some new ∧
        (r.bindOk = false ∧ u.beginOn net r =
            ({ (u.stopOpen net).1 with sockfd := new.fd }.stop net', false) ∨
          r.bindOk = true ∧ u.beginOn net r =
            (({ (u.stopOpen net).1 with sockfd := new.fd }, net'), true)) := by
  cases hsocket : r.socket with
  | none => exact .inl ⟨rfl, by simp [WiFiUDP.beginOn, Lwip.lwipSocket, hsocket]⟩
  | some new =>
    refine .inr ⟨new, ((u.stopOpen net).2.lwipSocket (some new)).2, rfl, ?_⟩
    have hfd := new.not_fd_neg
    cases hbind : r.bindOk with
    | false => exact .inl ⟨rfl, by simp [WiFiUDP.beginOn, Lwip.lwipSocket, hsocket, hbind, hfd]⟩
    | true => exact .inr ⟨rfl, by simp [WiFiUDP.beginOn, Lwip.lwipSocket, hsocket, hbind, hfd]⟩

theorem begin_opened {r : BeginResults} {new : NewSocket} (hsocket : r.socket = some new)
    (t : Talk) (dests : List Addr) :
    t.begin r true dests = { t.stopOpen with isOpen := true, given := dests } := by
  simp [Talk.begin, hsocket]

theorem Follows.beginOn {u : WiFiUDP} {since : Nat} (h : Follows u since t) (hle : u.txLen ≤ since)
    (hopen : t.isOpen = decide (0 ≤ u.sockfd)) (net : Lwip) (r : BeginResults) (dests : List Addr) :
    Reopened (u.beginOn net r).1.1 since (u.beginOn net r).2 dests (t.begin r r.bindOk dests) := by
  obtain ⟨hfollows, -, hgiven⟩ := h.reopened_stopOpen hle hopen net
  have hle' := Nat.le_trans (txLen_stopOpen_le u net) hle
  rcases beginOn_cases u net r with ⟨hsocket, hbegin⟩ | ⟨new, net', hsocket, hrest⟩
  · have htalk : t.begin r r.bindOk dests = t.stopOpen := by simp [Talk.begin, hsocket]
    rw [hbegin, htalk]
    exact ⟨hfollows.sockfd (-1), isOpen_stopOpen t, hgiven⟩
  · rcases hrest with ⟨hbind, hbegin⟩ | ⟨hbind, hbegin⟩
    · have htalk : t.begin r r.bindOk dests = t.stopOpen.stop := by
        simp [Talk.begin, hsocket, hbind]
      rw [hbegin, htalk]
      exact (hfollows.sockfd new.fd).reopened_stop hle' net' dests
    · rw [hbegin, hbind, begin_opened hsocket]
      refine ⟨⟨hfollows.dest, hfollows.group, hfollows.held, hfollows.lost⟩, ?_, rfl⟩
      exact (decide_eq_true (Int.natCast_nonneg new.fd)).symm

theorem begin_failed {u : WiFiUDP} {net : Lwip} {r : BeginResults}
    (hfailed : (u.beginOn net r).2 = false) (t : Talk) (joinOk : Bool) (dests : List Addr) :
    t.begin r (r.bindOk && joinOk) dests = t.begin r r.bindOk dests ∧
      (t.begin r r.bindOk dests).isOpen = false := by
  rcases beginOn_cases u net r with ⟨hsocket, -⟩ | ⟨new, net', hsocket, hrest⟩
  · simp [Talk.begin, hsocket, isOpen_stopOpen]
  · rcases hrest with ⟨hbind, -⟩ | ⟨-, hbegin⟩
    · simp [Talk.begin, hsocket, hbind, Talk.stop]
    · rw [hbegin] at hfailed
      cases hfailed

theorem begin_bound {u : WiFiUDP} {net : Lwip} {r : BeginResults}
    (hok : (u.beginOn net r).2 = true) : (∃ new, r.socket = some new) ∧ r.bindOk = true := by
  rcases beginOn_cases u net r with ⟨-, hbegin⟩ | ⟨new, net', hsocket, hrest⟩
  · rw [hbegin] at hok
    cases hok
  · rcases hrest with ⟨-, hbegin⟩ | ⟨hbind, -⟩
    · rw [hbegin] at hok
      cases hok
    · exact ⟨⟨new, hsocket⟩, hbind⟩

theorem Follows.beginMulticast {u : WiFiUDP} {since : Nat} (h : Follows u since t)
    (hle : u.txLen ≤ since) (hopen : t.isOpen = decide (0 ≤ u.sockfd)) (net : Lwip)
    (r : BeginResults) (he : Emptied u (u.beginOn net r).1.1) (ip : IPAddress) (port : UInt16) :
    Reopened (u.beginMulticast net r ip port).1.1 since (u.beginMulticast net r ip port).2
      [⟨ip, port⟩] (t.step (.beginMulticast r ip port)) := by
  have hbound := h.beginOn hle hopen net r [⟨ip, port⟩]
  have hle' : (u.beginOn net r).1.1.txLen ≤ since := by
    rcases he.txLen with hzero | hsame <;> omega
  simp only [WiFiUDP.beginMulticast, Talk.step]
  cases hok : (u.beginOn net r).2 with
  | false =>
    obtain ⟨hsame, hclosed⟩ := begin_failed hok t r.joinOk [⟨ip, port⟩]
    rw [hok] at hbound
    simp only [Bool.not_false, if_true, hok, hsame, hclosed, Bool.false_eq_true, if_false]
    exact hbound
  | true =>
    obtain ⟨⟨new, hsocket⟩, hbind⟩ := begin_bound hok
    rw [hbind, begin_opened hsocket] at hbound
    cases hjoin : r.joinOk with
    | false =>
      have htalk : t.begin r (r.bindOk && false) [⟨ip, port⟩] = t.stopOpen.stop := by
        simp [Talk.begin, hsocket]
      have hclosed : t.stopOpen.stop.isOpen = false := rfl
      simp only [Bool.not_true, Bool.not_false, if_true, if_false, htalk, hclosed,
        Bool.false_eq_true]
      exact hbound.follows.reopened_stop hle' _ _
    | true =>
      rw [hbind, Bool.and_true, begin_opened hsocket]
      simp only [Bool.not_true, if_true, if_false, Bool.false_eq_true]
      exact ⟨⟨hbound.follows.dest, rfl, hbound.follows.held, hbound.follows.lost⟩, hbound.isOpen,
        rfl⟩

theorem sent_begin (t : Talk) (r : BeginResults) (restOk : Bool) (dests : List Addr) :
    (t.begin r restOk dests).sent = t.sent := by
  unfold Talk.begin Talk.stopOpen
  split_ifs <;> rfl

theorem sent_beginMulticast (t : Talk) (r : BeginResults) (ip : IPAddress) (port : UInt16) :
    (t.step (.beginMulticast r ip port)).sent = t.sent := by
  simp only [Talk.step]
  split <;> exact sent_begin t r _ _

theorem Tracks.reopen (ht : Tracks x t) {result : (WiFiUDP × Lwip) × Bool} {dests : List Addr}
    {t' : Talk} (hsent : t'.sent = t.sent)
    (hr : Reopened result.1.1 (x.accepted.length - x.packetStart) result.2 dests t') :
    Tracks (x.reopen result dests) t' :=
  ⟨hr.follows, hr.isOpen, hr.given, hsent ▸ ht.sent⟩

/-- The result of a `beginPacket` to `dest`. -/
structure Addressed (u : WiFiUDP) (dest : Addr) (result : WiFiUDP × Bool) : Prop where
  ok : result.2 = decide (0 ≤ u.sockfd)
  dest : result.2 = true → dest = result.1.dest
  group : Addr.mk result.1.multicastIp result.1.multicastPort = ⟨u.multicastIp, u.multicastPort⟩

theorem addressed_beginPacket (u : WiFiUDP) : Addressed u u.dest u.beginPacket := by
  unfold WiFiUDP.beginPacket
  split
  · next hfd => exact ⟨(decide_eq_false (Int.not_le.mpr hfd)).symm, fun h => (by cases h), rfl⟩
  · next hfd => exact ⟨(decide_eq_true (Int.not_lt.mp hfd)).symm, fun _ => rfl, rfl⟩

theorem addressed_beginMulticastPacket (u : WiFiUDP) :
    Addressed u ⟨u.multicastIp, u.multicastPort⟩ u.beginMulticastPacket := by
  unfold WiFiUDP.beginMulticastPacket
  split
  · next hfd => exact ⟨(decide_eq_false (Int.not_le.mpr hfd)).symm, fun h => (by cases h), rfl⟩
  · next hfd => exact ⟨(decide_eq_true (Int.not_lt.mp hfd)).symm, fun _ => rfl, rfl⟩

theorem addressed_beginPacketIp (u : WiFiUDP) (ip : IPAddress) (port : UInt16) :
    Addressed u ⟨ip, port⟩ (u.beginPacketIp ip port) := by
  unfold WiFiUDP.beginPacketIp
  split
  · next hfd => exact ⟨(decide_eq_false (Int.not_le.mpr hfd)).symm, fun h => (by cases h), rfl⟩
  · next hfd => exact ⟨(decide_eq_true (Int.not_lt.mp hfd)).symm, fun _ => rfl, rfl⟩

theorem addressed_beginPacketHost (u : WiFiUDP) {host : Option Text} {port : UInt16}
    {numeric dns : Option IPAddress} {addr : Addr} (hhost : noHost host = false)
    (hresolve : lwipResolveHost numeric dns port = some addr) :
    Addressed u addr (u.beginPacketHost host port numeric dns) := by
  obtain ⟨ip, -, hip⟩ := Option.map_eq_some_iff.mp hresolve
  simp only [WiFiUDP.beginPacketHost, hhost, Bool.or_false, decide_eq_true_eq, hresolve]
  split
  · next hfd => exact ⟨(decide_eq_false (Int.not_le.mpr hfd)).symm, fun h => (by cases h), rfl⟩
  · next hfd => exact ⟨(decide_eq_true (Int.not_lt.mp hfd)).symm, fun _ => by rw [← hip]; rfl, rfl⟩

theorem Tracks.newPacket (ht : Tracks x t) (h : Inv x) {result : WiFiUDP × Bool}
    (hnew : NewPacket x.udp result) {dest : Addr} (ha : Addressed x.udp dest result)
    (dests : List Addr) : Tracks (x.newPacket result dests) (t.newPacket dest dests) := by
  unfold Exchange.newPacket Talk.newPacket
  rw [ht.isOpen, ← ha.ok]
  cases hresult : result.2 with
  | false =>
    simp only [Bool.false_eq_true, if_false]
    rw [hnew.failed hresult]
    exact ht
  | true =>
    have hzero := hnew.txLen hresult
    have hopen : decide (0 ≤ x.udp.sockfd) = true := ha.ok ▸ hresult
    simp only [if_true]
    refine ⟨⟨ha.dest hresult, ht.follows.group.trans ha.group.symm, hzero.symm, ?_⟩, ?_,
      by rw [ht.given], ?_⟩
    · simp [hzero]
    · rw [hnew.sockfd, hopen]
    · exact ⟨fun _ d hd _ => h.sent.last_le d hd, fun _ => rfl⟩

theorem Tracks.beginPacketHost (ht : Tracks x t) (h : Inv x) (host : Option Text) (port : UInt16)
    (numeric dns : Option IPAddress) : Tracks (x.step (.beginPacketHost host port numeric dns))
      (t.step (.beginPacketHost host port numeric dns)) := by
  have hnew := newPacket_beginPacketHost x.udp host port numeric dns
  simp only [Exchange.step, Talk.step]
  have hrefused : (x.udp.beginPacketHost host port numeric dns).2 = false → ∀ dests,
      x.newPacket (x.udp.beginPacketHost host port numeric dns) dests = x := by
    intro hfalse dests
    rw [Exchange.newPacket, hfalse, if_neg Bool.false_ne_true, hnew.failed hfalse]
  cases hhost : noHost host with
  | true =>
    rw [hrefused (by simp [WiFiUDP.beginPacketHost, hhost]), if_pos rfl]
    exact ht
  | false =>
    rw [if_neg Bool.false_ne_true]
    cases hresolve : lwipResolveHost numeric dns port with
    | none =>
      rw [hrefused ?_]
      · exact ht
      · simp only [WiFiUDP.beginPacketHost, hresolve]
        split <;> rfl
    | some addr => exact ht.newPacket h hnew (addressed_beginPacketHost x.udp hhost hresolve) [addr]

theorem Tracks.write (ht : Tracks x t) (h : Inv x) (buffer : Option (List UInt8)) :
    Tracks (x.step (.write buffer)) (t.step (.write buffer)) := by
  cases buffer with
  | none => simpa [Exchange.step, Talk.step, WiFiUDP.write] using ht
  | some bytes =>
    have hsince := h.tx.since
    have hheld := ht.follows.held
    simp only [Exchange.step, Talk.step, WiFiUDP.write_eq h.tx.fits, Option.getD_some]
    refine ⟨⟨ht.follows.dest, ht.follows.group, by rw [hheld], ?_⟩, ht.isOpen, ht.given, ht.sent⟩
    rw [ht.follows.lost, List.length_append, List.length_take]
    dsimp only
    omega

theorem Tracks.endPacket (ht : Tracks x t) (h : Inv x) (ret : Int) :
    Tracks (x.step (.endPacket ret)) (t.step (.endPacket ret)) := by
  obtain ⟨⟨hdest, hgroup, hheld, hlost⟩, hopen, hgiven, hsent⟩ := ht
  have hsince := h.tx.since
  simp only [Exchange.step, Talk.step, Exchange.endPacket, WiFiUDP.endPacket]
  by_cases hfd : x.udp.sockfd < 0
  · have hclosed : t.isOpen = false := hopen.trans (decide_eq_false (Int.not_le.mpr hfd))
    simp only [hfd, if_true, hclosed, Bool.false_and, Bool.false_eq_true, if_false]
    exact ⟨⟨hdest, hgroup, hheld, hlost⟩, hopen, hgiven, hsent⟩
  by_cases hzero : x.udp.txLen = 0
  · have hnone : (t.held != 0) = false := bne_eq_false_iff_eq.mpr (hheld.trans hzero)
    simp only [hfd, hzero, if_true, if_false, hnone, Bool.and_false, Bool.false_and,
      Bool.false_eq_true]
    exact ⟨⟨hdest, hgroup, hheld, hlost⟩, hopen, hgiven, hsent⟩
  have hready : (t.isOpen && t.held != 0) = true := by
    rw [hopen, hheld, decide_eq_true (Int.not_lt.mp hfd), Bool.true_and, bne_iff_ne]
    exact hzero
  simp only [hfd, hzero, if_false, hready, Bool.true_and, decide_eq_true_eq]
  split
  · next hret =>
    refine ⟨⟨hdest, hgroup, hheld, hlost⟩, hopen, hgiven, ?_⟩
    refine iff_of_false (fun e => by cases e) fun hall => ?_
    have hlast := hall _ List.mem_cons_self (decide_eq_true hret)
    dsimp only at hlast
    omega
  · next hret =>
    refine ⟨⟨hdest, hgroup, hheld, hlost⟩, hopen, hgiven, ?_⟩
    simp [hsent, hret]

theorem Tracks.parsePacket (ht : Tracks x t) (arriving : Option Datagram) :
    Tracks (x.step (.parsePacket arriving)) t := by
  have hsame : (x.udp.parsePacket arriving).1.sockfd = x.udp.sockfd ∧
      Follows (x.udp.parsePacket arriving).1 (x.accepted.length - x.packetStart) t := by
    unfold WiFiUDP.parsePacket
    dsimp only
    split_ifs
    · exact ⟨rfl, ht.follows⟩
    · split
      · exact ⟨rfl, ht.follows.dest, ht.follows.group, ht.follows.held, ht.follows.lost⟩
      · split_ifs <;>
        exact ⟨rfl, ht.follows.dest, ht.follows.group, ht.follows.held, ht.follows.lost⟩
  have hopen : t.isOpen = decide (0 ≤ (x.udp.parsePacket arriving).1.sockfd) := by
    rw [hsame.1, ht.isOpen]
  exact ⟨hsame.2, hopen, ht.given, ht.sent⟩

theorem Tracks.advance (ht : Tracks x t) (count : Nat) (returned : List UInt8) :
    Tracks { x with udp := x.udp.advance count, returned := returned } t :=
  ⟨⟨ht.follows.dest, ht.follows.group, ht.follows.held, ht.follows.lost⟩, ht.isOpen, ht.given,
    ht.sent⟩

theorem Tracks.step (ht : Tracks x t) (h : Inv x) (a : UdpCall) :
    Tracks (x.step a) (t.step a) := by
  have hle : x.udp.txLen ≤ x.accepted.length - x.packetStart := by
    have hsince := h.tx.since
    omega
  have hdest : Addressed x.udp t.dest x.udp.beginPacket :=
    ht.follows.dest ▸ addressed_beginPacket x.udp
  have hgroup : Addressed x.udp t.group x.udp.beginMulticastPacket :=
    ht.follows.group ▸ addressed_beginMulticastPacket x.udp
  cases a with
  | begin r port =>
    exact ht.reopen (sent_begin ..) (ht.follows.beginOn hle ht.isOpen x.net r [])
  | beginIp r ip port =>
    exact ht.reopen (sent_begin ..) (ht.follows.beginOn hle ht.isOpen x.net r [])
  | beginMulticast r ip port =>
    have he := WiFiUDP.emptied_beginOn x.net r h.rx.index_le h.rx.closed
    exact ht.reopen (sent_beginMulticast ..)
      (ht.follows.beginMulticast hle ht.isOpen x.net r he ip port)
  | beginPacket => exact ht.newPacket h (newPacket_beginPacket _) hdest []
  | beginMulticastPacket => exact ht.newPacket h (newPacket_beginMulticastPacket _) hgroup []
  | beginPacketIp ip port =>
    exact ht.newPacket h (newPacket_beginPacketIp _ _ _) (addressed_beginPacketIp x.udp ip port) _
  | beginPacketHost host port numeric dns => exact ht.beginPacketHost h host port numeric dns
  | write buffer => exact ht.write h buffer
  | endPacket ret => exact ht.endPacket h ret
  | parsePacket arriving => exact ht.parsePacket arriving
  | read =>
    obtain ⟨count, -, hudp, hbytes⟩ := WiFiUDP.read_eq h.rx.index_le h.rx.fits
    simp only [Exchange.step, hudp, hbytes]
    exact ht.advance count _
  | readBuf buffer size =>
    obtain ⟨count, -, hudp, hbytes⟩ := WiFiUDP.readBuf_eq h.rx.index_le h.rx.fits buffer size
    simp only [Exchange.step, hudp, hbytes]
    exact ht.advance count _
  | peek => exact ht
  | stop =>
    obtain ⟨hfollows, hopen, hgiven⟩ := ht.follows.reopened_stop hle x.net []
    exact ⟨hfollows, hopen, hgiven, ht.sent⟩

theorem Tracks.initial (txBuffer rxBuffer : Nat → UInt8) (net : Lwip) :
    Tracks (initial txBuffer rxBuffer net) .initial := by
  refine ⟨⟨rfl, rfl, rfl, ?_⟩, rfl, rfl, ?_⟩ <;>
    simp [Exchange.initial, Talk.initial, WiFiUDP.initial]

/-- The condition on the calls is the one on the object. -/
theorem Tracks.sound_iff_orderly (ht : Tracks x t) (a : UdpCall) : Sound x a ↔ t.Orderly a := by
  cases a with
  | endPacket ret =>
    simp only [Sound, Talk.Orderly, ht.isOpen, ht.follows.dest, ht.given, ht.follows.held,
      ht.follows.lost, ht.sent, decide_eq_true_eq]
  | parsePacket arriving => simp only [Sound, Talk.Orderly, ht.isOpen, decide_eq_true_eq]
  | _ => exact Iff.rfl

/-- A `WiFiUDP` sends and delivers whole datagrams in every state of a run if and only if each
`endPacket` of written bytes is to a destination given on the socket now open, finds none of them
discarded and is the first that succeeds, and no datagram is received that does not fit. -/
theorem datagrams_iff (txBuffer rxBuffer : Nat → UInt8) (net : Lwip) (as : List UdpCall) :
    Along (fun x a => step x a) Faithful (initial txBuffer rxBuffer net) as ↔
      Meets (fun t a => Talk.step t a) Talk.Orderly .initial as :=
  along_iff_meets_beside (R := fun x t => Inv x ∧ Tracks x t)
    (fun _ _ a h hc => ⟨h.1.step ((h.2.sound_iff_orderly a).mpr hc), h.2.step h.1 a⟩)
    (fun _ _ h => h.1.faithful)
    (fun _ _ a h hc hf => hc ((h.2.sound_iff_orderly a).mp (sound_of_faithful h.1 hf)))
    ⟨Inv.initial txBuffer rxBuffer net, Tracks.initial txBuffer rxBuffer net⟩

/-- A socket is bound. -/
def bound : BeginResults := ⟨some ⟨3, ⟨0, none⟩⟩, true, true⟩

/-- Two packets are sent, the first of them on a second try, and an answer is read; then there is
another socket. -/
def exchange : List UdpCall :=
  [.begin bound 5000, .beginPacketIp 0x0100A8C0 6000, .write (some [1, 2]), .write (some [3]),
    .endPacket (-1), .endPacket 3, .beginPacket, .write (some [4]), .endPacket 1,
    .parsePacket (some ⟨⟨0x0100A8C0, 6000⟩, [5, 6, 7]⟩), .peek, .read, .readBuf true 8,
    .parsePacket none, .stop, .beginMulticast bound 0x010000E0 5353, .beginMulticastPacket,
    .write (some [8]), .endPacket 1, .stop]

theorem faithful_exchange : Along (fun x a => step x a) Faithful
    (initial (fun _ => 0) (fun _ => 0) .initial) exchange :=
  (datagrams_iff _ _ _ _).mpr (by decide)

/-- A packet is ended twice. -/
def endedTwice : List UdpCall :=
  [.begin bound 5000, .beginPacketIp 0x0100A8C0 6000, .write (some [1]), .endPacket 1,
    .endPacket 1]

theorem not_faithful_endedTwice : ¬ Along (fun x a => step x a) Faithful
    (initial (fun _ => 0) (fun _ => 0) .initial) endedTwice := by
  intro h
  exact absurd h.last.once (by decide)

end Exchange

end Bl616cl.Net
