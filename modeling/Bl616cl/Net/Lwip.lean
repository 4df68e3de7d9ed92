import Mathlib.Logic.Function.Basic
import Mathlib.Tactic.Common

/-!
# lwIP sockets

The descriptors that are open, with the socket behind each. The results of the lwIP calls are given
to the functions that make them; here is what a call changes. A host name is the list of its
characters, `none` the null pointer.
-/

namespace Bl616cl.Net

/-- An `IPAddress` as its `uint32_t`, in network byte order. -/
abbrev IPAddress := UInt32

structure Addr where
  ip : IPAddress
  port : UInt16
  deriving DecidableEq, Repr

abbrev Text := List UInt8

/-- `O_NONBLOCK`. -/
def oNonblock : UInt32 := 1

structure Socket where
  /-- The file status flags that `lwip_fcntl` gets and sets. -/
  flags : UInt32
  /-- The address it has been connected to. -/
  peer : Option Addr
  deriving DecidableEq, Repr

/-- A socket that `lwip_socket` or `lwip_accept` has returned. -/
structure NewSocket where
  fd : Nat
  socket : Socket

theorem NewSocket.not_fd_neg (new : NewSocket) : ¬ (new.fd : Int) < 0 := by omega

structure Lwip where
  sockets : Int → Option Socket
  /-- The descriptors that have ever been returned. -/
  returned : Int → Bool
  /-- How many times `lwip_close` has been called on one of these that was not open. -/
  misclosed : Nat

namespace Lwip

def initial : Lwip := ⟨fun _ => none, fun _ => false, 0⟩

variable (net : Lwip)

/-- `lwip_socket` and `lwip_accept`; `none` where they fail. -/
def lwipSocket (result : Option NewSocket) : Int × Lwip :=
  match result with
  | none => (-1, net)
  | some new =>
    (new.fd, { net with
      sockets := Function.update net.sockets new.fd (some new.socket)
      returned := Function.update net.returned new.fd true })

theorem lwipSocket_some (new : NewSocket) : (net.lwipSocket (some new)).1 = new.fd := by
  rw [lwipSocket]

def lwipClose (fd : Int) : Lwip :=
  match net.sockets fd with
  | none => if net.returned fd then { net with misclosed := net.misclosed + 1 } else net
  | some _ => { net with sockets := Function.update net.sockets fd none }

/-- A change to an open socket. -/
def modify (fd : Int) (f : Socket → Socket) : Lwip :=
  { net with sockets := Function.update net.sockets fd ((net.sockets fd).map f) }

/-- `lwip_fcntl(fd, F_GETFL, 0)`. -/
def getFlags (fd : Int) : UInt32 := ((net.sockets fd).map Socket.flags).getD 0

/-- `lwip_fcntl(fd, F_SETFL, flags)`. -/
def setFlags (fd : Int) (flags : UInt32) : Lwip := net.modify fd fun s => { s with flags := flags }

/-- `lwip_connect`, whatever it returns. -/
def lwipConnect (fd : Int) (addr : Addr) : Lwip :=
  net.modify fd fun s => { s with peer := some addr }

end Lwip

/-- `lwip_resolve_host`: what `lwip_getaddrinfo` finds for a numeric name, or else for any. -/
def lwipResolveHost (numeric dns : Option IPAddress) (port : UInt16) : Option Addr :=
  (numeric.or dns).map fun ip => ⟨ip, port⟩

/-- `host == nullptr || host[0] == '\0'`. -/
def noHost (host : Option Text) : Bool := host.all List.isEmpty

end Bl616cl.Net
