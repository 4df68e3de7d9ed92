import Bl616cl.Net.WiFiServer
import Bl616cl.Net.WiFiUdp

/-!
# The objects of a sketch

Any number of WiFiClient, WiFiServer and WiFiUDP objects, and the statements that make them, copy or
move them, call them and destroy them. WiFiClient is move-only; the other two have the implicit copy
operations, which copy the descriptor.
-/

namespace Bl616cl.Net

inductive Obj where
  | client (c : WiFiClient)
  | server (s : WiFiServer)
  | udp (u : WiFiUDP)

namespace Obj

def sockfd : Obj → Int
  | .client c => c.sockfd
  | .server s => s.sockfd
  | .udp u => u.sockfd

/-- The descriptor that an object holds. -/
def held (o : Obj) : Option Int := if 0 ≤ o.sockfd then some o.sockfd else none

/-- `stop` or `end`, as the destructor calls it. -/
def stop (net : Lwip) : Obj → Obj × Lwip
  | .client c => (.client (c.stop net).1, (c.stop net).2)
  | .server s => (.server (s.endServer net).1, (s.endServer net).2)
  | .udp u => (.udp (u.stop net).1, (u.stop net).2)

/-- Whether the class has a copy constructor and a copy assignment. -/
def copyable : Obj → Bool
  | .client _ => false
  | _ => true

/-- Whether one object can be assigned to the other. -/
def sameClass : Obj → Obj → Bool
  | .client _, .client _ => true
  | .server _, .server _ => true
  | .udp _, .udp _ => true
  | _, _ => false

end Obj

/-- The objects there are, and lwIP. -/
structure World where
  net : Lwip
  objs : Nat → Option Obj

/-- A statement of the sketch. Where one object is made from another, the new one comes first. -/
inductive Stmt where
  | newClient (i : Nat)
  | newClientFd (i : Nat) (fd : Int)
  | newServer (i : Nat) (port : UInt16)
  | newUdp (i : Nat) (txBuffer rxBuffer : Nat → UInt8)
  | move (i j : Nat)
  | moveAssign (i j : Nat)
  | copy (i j : Nat)
  | copyAssign (i j : Nat)
  | connectIp (i : Nat) (ip : IPAddress) (port : UInt16) (timeout : Int) (r : ConnectResults)
  | connectHost (i : Nat) (host : Option Text) (port : UInt16) (timeout : Int)
    (numeric dns : Option IPAddress) (r : ConnectResults)
  | read (i : Nat) (ret : Int) (value : UInt8)
  | readBuf (i : Nat) (buffer : Bool) (size : Nat) (ret : Int)
  | connected (i : Nat) (ret : Int)
  | beginServer (i : Nat) (r : ListenResults)
  | beginPort (i : Nat) (port : UInt16) (r : ListenResults)
  | accept (i j : Nat) (new : Option NewSocket)
  | beginUdp (i : Nat) (port : UInt16) (r : BeginResults)
  | beginUdpIp (i : Nat) (ip : IPAddress) (port : UInt16) (r : BeginResults)
  | beginMulticast (i : Nat) (ip : IPAddress) (port : UInt16) (r : BeginResults)
  | readUdp (i : Nat)
  | stop (i : Nat)
  | destroy (i : Nat)

namespace World

def initial : World := ⟨.initial, fun _ => none⟩

variable (w : World)

/-- What an object holds. -/
def holds (i : Nat) : Option Int := (w.objs i).bind Obj.held

/-- An object and the network after a call on it. -/
def put (i : Nat) (r : Obj × Lwip) : World := ⟨r.2, Function.update w.objs i (some r.1)⟩

/-- A new object, where there is none. -/
def create (i : Nat) (o : Obj) : World :=
  if (w.objs i).isNone then w.put i (o, w.net) else w

/-- A call on a client, on a server, on a `WiFiUDP`. -/
def onClient (i : Nat) (f : WiFiClient → WiFiClient × Lwip) : World :=
  match w.objs i with
  | some (.client c) => w.put i (.client (f c).1, (f c).2)
  | _ => w

def onServer (i : Nat) (f : WiFiServer → WiFiServer × Lwip) : World :=
  match w.objs i with
  | some (.server s) => w.put i (.server (f s).1, (f s).2)
  | _ => w

def onUdp (i : Nat) (f : WiFiUDP → WiFiUDP × Lwip) : World :=
  match w.objs i with
  | some (.udp u) => w.put i (.udp (f u).1, (f u).2)
  | _ => w

def move (i j : Nat) : World :=
  match w.objs i, w.objs j with
  | none, some (.client other) =>
    let moved := WiFiClient.move other
    (w.put i (.client moved.1, w.net)).put j (.client moved.2, w.net)
  | _, _ => w

def moveAssign (i j : Nat) : World :=
  if i = j then w
  else match w.objs i, w.objs j with
    | some (.client c), some (.client other) =>
      let moved := c.moveAssign w.net other
      (w.put i (.client moved.1.1, moved.2)).put j (.client moved.1.2, moved.2)
    | _, _ => w

/-- The implicit copy constructor, and the implicit assignment, which calls no `stop`. -/
def copy (i j : Nat) : World :=
  match w.objs i, w.objs j with
  | none, some o => if o.copyable then w.put i (o, w.net) else w
  | _, _ => w

def copyAssign (i j : Nat) : World :=
  match w.objs i, w.objs j with
  | some o, some o' => if o'.copyable && o.sameClass o' then w.put i (o', w.net) else w
  | _, _ => w

def accept (i j : Nat) (new : Option NewSocket) : World :=
  match w.objs i, w.objs j with
  | none, some (.server s) => w.put i (.client (s.accept w.net new).1, (s.accept w.net new).2)
  | _, _ => w

def stop (i : Nat) : World :=
  match w.objs i with
  | some o => w.put i (o.stop w.net)
  | none => w

/-- The destructor. -/
def destroy (i : Nat) : World :=
  { w.stop i with objs := Function.update (w.stop i).objs i none }

def step : Stmt → World
  | .newClient i => w.create i (.client .initial)
  | .newClientFd i fd => w.create i (.client (.ofFd fd))
  | .newServer i port => w.create i (.server (.initial port))
  | .newUdp i txBuffer rxBuffer => w.create i (.udp (.initial txBuffer rxBuffer))
  | .move i j => w.move i j
  | .moveAssign i j => w.moveAssign i j
  | .copy i j => w.copy i j
  | .copyAssign i j => w.copyAssign i j
  | .connectIp i ip port timeout r => w.onClient i fun c => (c.connectIp w.net ip port timeout r).1
  | .connectHost i host port timeout numeric dns r =>
    w.onClient i fun c => (c.connectHost w.net host port timeout numeric dns r).1
  | .read i ret value => w.onClient i fun c => (c.read w.net ret value).1
  | .readBuf i buffer size ret => w.onClient i fun c => (c.readBuf w.net buffer size ret).1
  | .connected i ret => w.onClient i fun c => (c.connected w.net ret).1
  | .beginServer i r => w.onServer i fun s => s.begin w.net r
  | .beginPort i port r => w.onServer i fun s => s.beginPort w.net port r
  | .accept i j new => w.accept i j new
  | .beginUdp i port r => w.onUdp i fun u => (u.begin w.net r port).1
  | .beginUdpIp i ip port r => w.onUdp i fun u => (u.beginIp w.net r ip port).1
  | .beginMulticast i ip port r => w.onUdp i fun u => (u.beginMulticast w.net r ip port).1
  | .readUdp i => w.onUdp i fun u => (u.read.1, w.net)
  | .stop i => w.stop i
  | .destroy i => w.destroy i

end World

end Bl616cl.Net
