import Bl616cl.Net.WiFiClient

/-!
# What a connect leaves

Both forms of `WiFiClient::connect` through one function of the peer, the property `Left` of what a
connect leaves behind when it returns, and that `WiFiClient`'s does.
-/

namespace Bl616cl.Net

/-- Whom to connect to: an address, or a name with what `lwip_getaddrinfo` finds for it. -/
inductive Peer where
  | ip (address : IPAddress)
  | host (name : Option Text) (numeric dns : Option IPAddress)

namespace Peer

/-- The address that a connect uses, if the name resolves. -/
def addr (port : UInt16) : Peer → Option Addr
  | .ip address => some ⟨address, port⟩
  | .host name numeric dns => if noHost name then none else lwipResolveHost numeric dns port

/-- The socket that a connect creates, if it gets to it. -/
def created (peer : Peer) (port : UInt16) (r : ConnectResults) : Option NewSocket :=
  (peer.addr port).bind fun _ => r.socket

end Peer

/-- `connect_to_addr` gets a connection. -/
def ConnectResults.connects (r : ConnectResults) (timeout : Int) : Prop :=
  r.connect = 0 ∨ pollConnect timeout r.start r.polls = true

/-- What a connect that returns `ret` should leave: the client and the sockets, and what
`connected` returns then for each result of its `lwip_recv`. `reached` says that the peer took the
connection. -/
structure Left (gaveUp : Prop) (created : Option NewSocket) (addr : Option Addr) (reached : Prop)
    (c : WiFiClient) (net : Lwip) (connected : Int → Int) (ret : Int) : Prop where
  returns : ret = 0 ∨ ret = 1
  reached : ret = 1 → reached
  closed : ret = 0 → gaveUp → c.sockfd = -1 ∧ c.status = 0 ∧
    ∀ new, created = some new → net.sockets new.fd = none
  opened : ret = 1 → ∃ new, created = some new ∧ c.sockfd = new.fd ∧
    net.sockets c.sockfd = some ⟨new.socket.flags, addr⟩ ∧ addr.isSome ∧
    ∀ probe, probe ≠ 0 → connected probe = 1

namespace Lwip

variable {net : Lwip} {fd : Int}

theorem sockets_lwipSocket (net : Lwip) (new : NewSocket) :
    (net.lwipSocket (some new)).2.sockets new.fd = some new.socket := by
  simp [lwipSocket]

theorem sockets_lwipClose : (net.lwipClose fd).sockets fd = none := by
  unfold lwipClose
  cases hfd : net.sockets fd with
  | none => dsimp only; split <;> exact hfd
  | some s => simp

theorem sockets_modify {s : Socket} {f : Socket → Socket} (h : net.sockets fd = some s) :
    (net.modify fd f).sockets fd = some (f s) := by
  simp [modify, h]

end Lwip

/-- Where `connect_to_addr` succeeds, the socket has its flags back. -/
theorem connectToAddr_eq {net : Lwip} {fd : Int} {s : Socket} (addr : Addr) (timeout : Int)
    (r : ConnectResults) (hs : net.sockets fd = some s) :
    (connectToAddr net fd addr timeout r).2 = 0 ∧ r.connects timeout ∧
      (connectToAddr net fd addr timeout r).1.sockets fd = some ⟨s.flags, some addr⟩ ∨
    (connectToAddr net fd addr timeout r).2 = -1 ∧ ¬ r.connects timeout := by
  have hflags : net.getFlags fd = s.flags := by simp [Lwip.getFlags, hs]
  have hnonblock := Lwip.sockets_modify (f := fun s => { s with flags := s.flags ||| oNonblock }) hs
  have hrestored : (((net.setFlags fd (s.flags ||| oNonblock)).lwipConnect fd addr).setFlags fd
      s.flags).sockets fd = some ⟨s.flags, some addr⟩ :=
    Lwip.sockets_modify (Lwip.sockets_modify (Lwip.sockets_modify hs))
  unfold connectToAddr ConnectResults.connects
  dsimp only
  rw [hflags]
  split
  · next hret => exact Or.inl ⟨rfl, Or.inl hret, hrestored⟩
  · next hret =>
    split
    · next hpoll => exact Or.inl ⟨rfl, Or.inr hpoll, hrestored⟩
    · next hpoll => exact Or.inr ⟨rfl, by simp [hret, hpoll]⟩

namespace WiFiClient

/-- `connect`. -/
def connect (c : WiFiClient) (net : Lwip) (peer : Peer) (port : UInt16) (timeout : Int)
    (r : ConnectResults) : (WiFiClient × Lwip) × Int :=
  match peer with
  | .ip address => c.connectIp net address port timeout r
  | .host name numeric dns => c.connectHost net name port timeout numeric dns r

variable {c : WiFiClient} {net : Lwip}

theorem connect_eq (c : WiFiClient) (net : Lwip) (peer : Peer) (port : UInt16) (timeout : Int)
    (r : ConnectResults) : c.connect net peer port timeout r =
    match peer.addr port with
    | none => ((c, net), 0)
    | some addr => c.connectOn net addr timeout r := by
  cases peer with
  | ip address => rfl
  | host name numeric dns =>
    simp only [connect, connectHost, Peer.addr]
    split <;> rfl

/-- Without a socket, or without a connection on it. -/
structure Refused (c' : WiFiClient) (net' : Lwip) (r : ConnectResults) : Prop where
  sockfd : c'.sockfd = -1
  socket : ∀ new, r.socket = some new → net'.sockets new.fd = none

/-- With a connection to `addr`. -/
structure Connected (c' : WiFiClient) (net' : Lwip) (r : ConnectResults) (addr : Addr)
    (new : NewSocket) : Prop where
  created : r.socket = some new
  sockfd : c'.sockfd = new.fd
  socket : net'.sockets new.fd = some ⟨new.socket.flags, some addr⟩

theorem connectOn_cases (c : WiFiClient) (net : Lwip) (addr : Addr) (timeout : Int)
    (r : ConnectResults) :
    ((c.connectOn net addr timeout r).2 = 0 ∧ ¬ (r.socket.isSome ∧ r.connects timeout) ∧
      Refused (c.connectOn net addr timeout r).1.1 (c.connectOn net addr timeout r).1.2 r) ∨
    ((c.connectOn net addr timeout r).2 = 1 ∧ r.connects timeout ∧ ∃ new,
      Connected (c.connectOn net addr timeout r).1.1 (c.connectOn net addr timeout r).1.2 r addr
        new) := by
  unfold connectOn
  dsimp only
  generalize (if 0 ≤ c.sockfd then c.stop net else (c, net)) = stopped
  cases hsocket : r.socket with
  | none => exact Or.inl ⟨rfl, by simp, rfl, by simp [hsocket]⟩
  | some new =>
    have hs := Lwip.sockets_lwipSocket stopped.2 new
    simp only [Lwip.lwipSocket_some, new.not_fd_neg, if_false]
    rcases connectToAddr_eq addr timeout r hs with
      ⟨hret, hconnects, hopen⟩ | ⟨hret, hrefused⟩
    · rw [if_neg (by simp [hret])]
      exact Or.inr ⟨rfl, hconnects, new, hsocket, rfl, hopen⟩
    · rw [if_pos (by simp [hret])]
      have hstop : ∀ net' : Lwip, (⟨new.fd⟩ : WiFiClient).stop net' =
          (⟨-1⟩, net'.lwipClose new.fd) := fun net' => if_pos (by simp)
      refine Or.inl ⟨rfl, fun h => hrefused h.2, ?_, ?_⟩
      · rw [hstop]
      · intro new' hnew'
        obtain rfl : new = new' := by simpa [hsocket] using hnew'
        rw [hstop]
        exact Lwip.sockets_lwipClose

theorem connected_of_open (h : 0 ≤ c.sockfd) {probe : Int} (hprobe : probe ≠ 0) :
    (c.connected net probe).2 = 1 := by
  simp only [connected, if_neg (show ¬ c.sockfd < 0 by omega), hprobe, if_false]
  split
  · rfl
  · rfl

theorem status_of_closed (h : c.sockfd = -1) : c.status = 0 := by
  rw [status, h]
  rfl

/-- Every connect of a `WiFiClient` leaves what it should. -/
theorem left_connect (c : WiFiClient) (net : Lwip) (peer : Peer) (port : UInt16) (timeout : Int)
    (r : ConnectResults) :
    Left ((peer.addr port).isSome ∧ (0 ≤ c.sockfd ∨ r.socket.isSome)) (peer.created port r)
      (peer.addr port) (r.connects timeout) (c.connect net peer port timeout r).1.1
      (c.connect net peer port timeout r).1.2
      (fun probe => ((c.connect net peer port timeout r).1.1.connected
        (c.connect net peer port timeout r).1.2 probe).2)
      (c.connect net peer port timeout r).2 := by
  rw [connect_eq, Peer.created]
  cases haddr : peer.addr port with
  | none => exact ⟨Or.inl rfl, nofun, fun _ h => absurd h.1 (by simp), nofun⟩
  | some addr =>
    simp only [Option.bind_some]
    rcases connectOn_cases c net addr timeout r with
      ⟨hret, -, hrefused⟩ | ⟨hret, hconnects, new, hopen⟩
    · have hstatus := status_of_closed hrefused.sockfd
      exact ⟨Or.inl hret, fun h => by omega,
        fun _ _ => ⟨hrefused.sockfd, hstatus, hrefused.socket⟩, fun h => by omega⟩
    · refine ⟨Or.inr hret, fun _ => hconnects, fun h => by omega, fun _ => ?_⟩
      refine ⟨new, hopen.created, hopen.sockfd, hopen.sockfd ▸ hopen.socket, rfl, ?_⟩
      intro probe hprobe
      exact connected_of_open (by rw [hopen.sockfd]; omega) hprobe

end WiFiClient

end Bl616cl.Net
