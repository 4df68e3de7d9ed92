import Bl616cl.Lib.Owner
import Bl616cl.Lib.Run
import Bl616cl.Net.Connect
import Bl616cl.Net.World

/-!
# Descriptors and their owners

The calls of a sketch's objects on the ledger of the descriptors that lwIP returns: each leaves it
alone, closes what its object holds, or does so and takes a new one. `owners_iff` says when every
descriptor is held by exactly one object until it is closed.
-/

namespace Bl616cl.Net

open Bl616cl.Lib

/-! ## Calls and the ledger of descriptors -/

/-- The descriptors of lwIP as a ledger. -/
def Lwip.ledger (net : Lwip) : Ledger Int where
  live fd := (net.sockets fd).isSome
  returned := net.returned
  misclosed := net.misclosed

namespace Lwip

variable {net : Lwip} {fd : Int}

theorem ledger_lwipClose : (net.lwipClose fd).ledger = net.ledger.close fd := by
  cases hfd : net.sockets fd with
  | none =>
    cases hreturned : net.returned fd <;> simp [lwipClose, Ledger.close, ledger, hfd, hreturned]
  | some s =>
    simp only [lwipClose, Ledger.close, ledger, hfd, Option.isSome_some, if_true, Ledger.mk.injEq,
      and_true]
    funext k
    by_cases hk : k = fd
    · subst hk
      simp
    · simp [hk]

theorem ledger_lwipSocket (new : NewSocket) :
    (net.lwipSocket (some new)).2.ledger = net.ledger.take new.fd := by
  simp only [lwipSocket, Ledger.take, ledger, Ledger.mk.injEq, and_true]
  funext k
  by_cases hk : k = (new.fd : Int)
  · subst hk
    simp
  · simp [hk]

theorem ledger_modify (f : Socket → Socket) : (net.modify fd f).ledger = net.ledger := by
  simp only [modify, ledger, Ledger.mk.injEq, and_true]
  funext k
  by_cases hk : k = fd
  · subst hk
    simp
  · simp [hk]

theorem ledger_connectToAddr (addr : Addr) (timeout : Int) (r : ConnectResults) :
    (connectToAddr net fd addr timeout r).1.ledger = net.ledger := by
  unfold connectToAddr
  dsimp only
  split
  · simp only [setFlags, lwipConnect, ledger_modify]
  · split <;> simp only [setFlags, lwipConnect, ledger_modify]

end Lwip

/-- A call on an object leaves its descriptor and the ledger as they are. -/
def Keeps (o : Obj) (net : Lwip) (r : Obj × Lwip) : Prop :=
  r.2.ledger = net.ledger ∧ r.1.held = o.held

/-- It closes the descriptor and gets the one of `new`, to keep or to close it again. -/
def Reopens (o : Obj) (net : Lwip) (new : Option NewSocket) (r : Obj × Lwip) : Prop :=
  ∃ keep, (r.2.ledger, r.1.held) =
    net.ledger.reopen o.held (new.map fun new => (new.fd : Int)) keep

/-- The descriptor is closed, in `r`. -/
def Closes (o : Obj) (net : Lwip) (r : Obj × Lwip) : Prop :=
  r.2.ledger = net.ledger.release o.held ∧ r.1.held = none

namespace Obj

variable {o : Obj} {net : Lwip}

theorem held_of_open (h : 0 ≤ o.sockfd) : o.held = some o.sockfd := if_pos h

theorem held_of_closed (h : ¬ 0 ≤ o.sockfd) : o.held = none := if_neg h

theorem closes_stop (o : Obj) (net : Lwip) : Closes o net (o.stop net) := by
  by_cases hfd : 0 ≤ o.sockfd
  · have hheld := held_of_open hfd
    rw [Closes, hheld, Ledger.release, Option.elim_some, ← Lwip.ledger_lwipClose]
    cases o with
    | client c =>
      have hfd : 0 ≤ c.sockfd := hfd
      simp [stop, WiFiClient.stop, hfd, held, sockfd]
    | server s =>
      have hfd : 0 ≤ s.sockfd := hfd
      simp [stop, WiFiServer.endServer, hfd, held, sockfd]
    | udp u =>
      have hfd : 0 ≤ u.sockfd := hfd
      simp [stop, WiFiUDP.stop, hfd, held, sockfd]
  · have hheld := held_of_closed hfd
    rw [Closes, hheld]
    cases o with
    | client c =>
      have hfd : ¬ 0 ≤ c.sockfd := hfd
      simp [stop, WiFiClient.stop, hfd, held, sockfd, Ledger.release]
    | server s =>
      have hfd : ¬ 0 ≤ s.sockfd := hfd
      simp [stop, WiFiServer.endServer, hfd, held, sockfd, Ledger.release]
    | udp u =>
      have hfd : ¬ 0 ≤ u.sockfd := hfd
      simp [stop, WiFiUDP.stop, hfd, held, sockfd, Ledger.release]

theorem reopens_of_closes {r : Obj × Lwip} (h : Closes o net r) : Reopens o net none r :=
  ⟨true, by rw [h.1, h.2]; rfl⟩

/-- `stop` where there is a socket closes too. -/
theorem ledger_guarded {α : Type} {stopped : α × Lwip} {a : α}
    (hstop : stopped.2 = (o.stop net).2) :
    (if 0 ≤ o.sockfd then stopped else (a, net)).2.ledger = net.ledger.release o.held := by
  split
  · rw [hstop]
    exact (closes_stop o net).1
  · next hfd =>
    rw [held_of_closed hfd]
    rfl

variable {o' : Obj} {stopped net' : Lwip} {new : NewSocket}

theorem reopens_kept (hstopped : stopped.ledger = net.ledger.release o.held)
    (hfd : o'.sockfd = new.fd) (hnet : net'.ledger = (stopped.lwipSocket (some new)).2.ledger) :
    Reopens o net (some new) (o', net') := by
  have hheld : o'.held = some (new.fd : Int) := by
    rw [held_of_open (by rw [hfd]; omega), hfd]
  refine ⟨true, ?_⟩
  rw [hheld, hnet, Lwip.ledger_lwipSocket, hstopped]
  rfl

theorem reopens_dropped (o' : Obj) (hstopped : stopped.ledger = net.ledger.release o.held)
    (hfd : o'.sockfd = new.fd) (hnet : net'.ledger = (stopped.lwipSocket (some new)).2.ledger) :
    Reopens o net (some new) (o'.stop net') := by
  have hheld : o'.held = some (new.fd : Int) := by
    rw [held_of_open (by rw [hfd]; omega), hfd]
  obtain ⟨hledger, hnone⟩ := closes_stop o' net'
  refine ⟨false, ?_⟩
  rw [hledger, hnone, hheld, hnet, Lwip.ledger_lwipSocket, hstopped]
  rfl

theorem reopens_connectOn (c : WiFiClient) (net : Lwip) (addr : Addr) (timeout : Int)
    (r : ConnectResults) : Reopens (.client c) net r.socket
      (.client (c.connectOn net addr timeout r).1.1, (c.connectOn net addr timeout r).1.2) := by
  have hstopped : (if 0 ≤ c.sockfd then c.stop net else (c, net)).2.ledger =
      net.ledger.release (Obj.client c).held := ledger_guarded (o := .client c) rfl
  unfold WiFiClient.connectOn
  dsimp only
  generalize (if 0 ≤ c.sockfd then c.stop net else (c, net)) = stopped at hstopped ⊢
  cases hsocket : r.socket with
  | none => exact reopens_of_closes ⟨hstopped, rfl⟩
  | some new =>
    simp only [Lwip.lwipSocket_some, new.not_fd_neg, if_false]
    split
    · exact reopens_dropped (.client ⟨new.fd⟩) hstopped rfl
        (Lwip.ledger_connectToAddr _ _ _)
    · exact reopens_kept hstopped rfl (Lwip.ledger_connectToAddr _ _ _)

theorem reopens_beginPort (s : WiFiServer) (net : Lwip) (port : UInt16) (r : ListenResults) :
    Reopens (.server s) net r.socket
      (.server (s.beginPort net port r).1, (s.beginPort net port r).2) := by
  have hstopped : (if 0 ≤ s.sockfd then s.endServer net else (s, net)).2.ledger =
      net.ledger.release (Obj.server s).held := ledger_guarded (o := .server s) rfl
  unfold WiFiServer.beginPort
  dsimp only
  generalize (if 0 ≤ s.sockfd then s.endServer net else (s, net)) = stopped at hstopped ⊢
  cases hsocket : r.socket with
  | none => exact reopens_of_closes ⟨hstopped, rfl⟩
  | some new =>
    simp only [Lwip.lwipSocket_some, new.not_fd_neg, if_false]
    split
    · exact reopens_dropped (.server ⟨port, new.fd⟩) hstopped rfl rfl
    · split
      · exact reopens_dropped (.server ⟨port, new.fd⟩) hstopped rfl rfl
      · exact reopens_kept hstopped rfl (Lwip.ledger_modify _)

/-- A `WiFiUDP` that a `begin` has given its socket, with the network at that time. -/
def Bound (u : WiFiUDP) (net : Lwip) (new : NewSocket) (u' : WiFiUDP) (net' : Lwip) : Prop :=
  u'.sockfd = new.fd ∧ ∃ stopped : Lwip, stopped.ledger = net.ledger.release (Obj.udp u).held ∧
    net'.ledger = (stopped.lwipSocket (some new)).2.ledger

theorem reopens_beginOn (u : WiFiUDP) (net : Lwip) (r : BeginResults) :
    Reopens (.udp u) net r.socket (.udp (u.beginOn net r).1.1, (u.beginOn net r).1.2) ∧
      ((u.beginOn net r).2 = true → ∃ new, r.socket = some new ∧
        Bound u net new (u.beginOn net r).1.1 (u.beginOn net r).1.2) := by
  have hstopped : (u.stopOpen net).2.ledger = net.ledger.release (Obj.udp u).held :=
    ledger_guarded (o := .udp u) rfl
  unfold WiFiUDP.beginOn
  dsimp only
  cases hsocket : r.socket with
  | none => exact ⟨reopens_of_closes ⟨hstopped, rfl⟩, nofun⟩
  | some new =>
    simp only [Lwip.lwipSocket_some, new.not_fd_neg, if_false]
    split
    · exact ⟨reopens_dropped (.udp { (u.stopOpen net).1 with sockfd := new.fd })
        hstopped rfl rfl, nofun⟩
    · exact ⟨reopens_kept hstopped rfl rfl, fun _ => ⟨new, rfl, rfl, _, hstopped, rfl⟩⟩

theorem reopens_beginMulticast (u : WiFiUDP) (net : Lwip) (r : BeginResults) (ip : IPAddress)
    (port : UInt16) : Reopens (.udp u) net r.socket
      (.udp (u.beginMulticast net r ip port).1.1, (u.beginMulticast net r ip port).1.2) := by
  obtain ⟨hreopens, hbound⟩ := reopens_beginOn u net r
  unfold WiFiUDP.beginMulticast
  dsimp only
  split
  · exact hreopens
  · next hok =>
    obtain ⟨new, hsocket, hfd, stopped, hstopped, hnet⟩ := hbound (by simpa using hok)
    rw [hsocket]
    split
    · exact reopens_dropped (.udp (u.beginOn net r).1.1) hstopped hfd hnet
    · exact reopens_kept hstopped hfd hnet

end Obj

/-! ## Runs -/

namespace World

/-- Every descriptor that lwIP has returned is held by exactly one object, or closed and held by
none; none has been closed twice. -/
def Owned (w : World) : Prop := Sole w.net.ledger w.holds

/-- No object but `i` holds the descriptor that lwIP returns. -/
def Unshared (w : World) (i : Nat) (new : Option NewSocket) : Prop :=
  ∀ s, new = some s → ∀ j, j ≠ i → w.holds j ≠ some (s.fd : Int)

/-- An object is given or copied no descriptor that lwIP has returned, nor is one assigned to an
object that holds such a descriptor; and lwIP returns no descriptor that another object holds. -/
def OneHolder (w : World) : Stmt → Prop
  | .newClientFd i fd => w.objs i = none → w.net.ledger.Foreign (Obj.client (.ofFd fd)).held
  | .copy i j => w.objs i = none → ∀ o, w.objs j = some o → o.copyable = true →
      w.net.ledger.Foreign o.held
  | .copyAssign i j => i ≠ j → ∀ o o', w.objs i = some o → w.objs j = some o' →
      o'.copyable = true → o.sameClass o' = true →
      w.net.ledger.Foreign o.held ∧ w.net.ledger.Foreign o'.held
  | .connectIp i _ _ _ r => (∃ c, w.objs i = some (.client c)) → w.Unshared i r.socket
  | .connectHost i host port _ numeric dns r => (∃ c, w.objs i = some (.client c)) →
      w.Unshared i ((Peer.host host numeric dns).created port r)
  | .beginServer i r | .beginPort i _ r =>
    (∃ s, w.objs i = some (.server s)) → w.Unshared i r.socket
  | .accept i j new => w.objs i = none → (∃ s, w.objs j = some (.server s) ∧ 0 ≤ s.sockfd) →
      w.Unshared i new
  | .beginUdp i _ r | .beginUdpIp i _ _ r | .beginMulticast i _ _ r =>
    (∃ u, w.objs i = some (.udp u)) → w.Unshared i r.socket
  | _ => True

variable {w : World} {i j : Nat} {o : Obj} {r : Obj × Lwip} {new : Option NewSocket}

theorem holds_put : (w.put i r).holds = Function.update w.holds i r.1.held := by
  funext k
  by_cases hk : k = i
  · subst hk
    simp [put, holds]
  · simp [put, holds, hk]

theorem holds_eq (hi : w.objs i = some o) : w.holds i = o.held := by
  rw [holds, hi]
  rfl

theorem holds_none (hi : w.objs i = none) : w.holds i = none := by
  rw [holds, hi]
  rfl

theorem owned_put_of_keeps (h : w.Owned) (hi : w.objs i = some o) (hr : Keeps o w.net r) :
    (w.put i r).Owned := by
  rw [Owned, holds_put, hr.2, ← holds_eq hi, Function.update_eq_self]
  exact hr.1 ▸ h

theorem owned_put_of_closes (h : w.Owned) (hi : w.objs i = some o) (hr : Closes o w.net r) :
    (w.put i r).Owned := by
  have hledger : (w.put i r).net.ledger = w.net.ledger.release o.held := hr.1
  rw [Owned, holds_put, hr.2, hledger, ← holds_eq hi]
  exact h.release

theorem owned_put_iff_of_reopens (h : w.Owned) (hi : w.holds i = o.held)
    (hr : Reopens o w.net new r) : (w.put i r).Owned ↔ w.Unshared i new := by
  obtain ⟨keep, hr⟩ := hr
  obtain ⟨hledger, hheld⟩ := Prod.mk.inj hr
  have hnet : (w.put i r).net.ledger = _ := hledger
  rw [Owned, holds_put, hheld, hnet, ← hi]
  refine h.reopen_iff.trans ⟨fun hfree s hs => hfree s.fd (by simp [hs]), fun hfree f hf => ?_⟩
  obtain ⟨s, hs, rfl⟩ := Option.map_eq_some_iff.mp hf
  exact hfree s hs

theorem owned_onClient {f : WiFiClient → WiFiClient × Lwip} (h : w.Owned)
    (hf : ∀ c, Keeps (.client c) w.net (.client (f c).1, (f c).2) ∨
      Closes (.client c) w.net (.client (f c).1, (f c).2)) : (w.onClient i f).Owned := by
  unfold onClient
  split
  · next c hi =>
    rcases hf c with hkeeps | hcloses
    · exact owned_put_of_keeps h hi hkeeps
    · exact owned_put_of_closes h hi hcloses
  · exact h

theorem owned_onClient_iff {f : WiFiClient → WiFiClient × Lwip} (h : w.Owned)
    (hf : ∀ c, Reopens (.client c) w.net new (.client (f c).1, (f c).2)) :
    (w.onClient i f).Owned ↔ ((∃ c, w.objs i = some (.client c)) → w.Unshared i new) := by
  unfold onClient
  split
  · next c hi =>
    rw [owned_put_iff_of_reopens h (holds_eq hi) (hf c)]
    exact ⟨fun hfree _ => hfree, fun hfree => hfree ⟨c, hi⟩⟩
  · next hnot =>
    refine iff_of_true h ?_
    rintro ⟨c, hc⟩
    exact absurd hc (hnot c)

theorem owned_onServer_iff {f : WiFiServer → WiFiServer × Lwip} (h : w.Owned)
    (hf : ∀ s, Reopens (.server s) w.net new (.server (f s).1, (f s).2)) :
    (w.onServer i f).Owned ↔ ((∃ s, w.objs i = some (.server s)) → w.Unshared i new) := by
  unfold onServer
  split
  · next s hi =>
    rw [owned_put_iff_of_reopens h (holds_eq hi) (hf s)]
    exact ⟨fun hfree _ => hfree, fun hfree => hfree ⟨s, hi⟩⟩
  · next hnot =>
    refine iff_of_true h ?_
    rintro ⟨s, hs⟩
    exact absurd hs (hnot s)

theorem owned_onUdp_iff {f : WiFiUDP → WiFiUDP × Lwip} (h : w.Owned)
    (hf : ∀ u, Reopens (.udp u) w.net new (.udp (f u).1, (f u).2)) :
    (w.onUdp i f).Owned ↔ ((∃ u, w.objs i = some (.udp u)) → w.Unshared i new) := by
  unfold onUdp
  split
  · next u hi =>
    rw [owned_put_iff_of_reopens h (holds_eq hi) (hf u)]
    exact ⟨fun hfree _ => hfree, fun hfree => hfree ⟨u, hi⟩⟩
  · next hnot =>
    refine iff_of_true h ?_
    rintro ⟨u, hu⟩
    exact absurd hu (hnot u)

theorem owned_create_iff (h : w.Owned) :
    (w.create i o).Owned ↔ (w.objs i = none → w.net.ledger.Foreign o.held) := by
  unfold create
  split
  · next hnew =>
    have hi : w.objs i = none := by simpa using hnew
    have hnet : (w.put i (o, w.net)).net.ledger = w.net.ledger := rfl
    rw [Owned, holds_put, hnet, Sole.new_iff h (holds_none hi)]
    simp [hi]
  · next hold =>
    refine iff_of_true h fun hi => absurd ?_ hold
    simp [hi]

theorem owned_stop (h : w.Owned) (i : Nat) : (w.stop i).Owned := by
  unfold stop
  split
  · next o hi => exact owned_put_of_closes h hi (Obj.closes_stop o w.net)
  · exact h

theorem owned_destroy (h : w.Owned) (i : Nat) : (w.destroy i).Owned := by
  have hstopped := owned_stop h i
  have hholds : (w.stop i).holds i = none := by
    unfold stop
    split
    · rw [holds_put, Function.update_self, (Obj.closes_stop _ w.net).2]
    · next hi => exact holds_none hi
  have hsame : (w.destroy i).holds = (w.stop i).holds := by
    funext k
    by_cases hk : k = i
    · subst hk
      rw [hholds]
      simp [destroy, holds]
    · simp [destroy, holds, hk]
  have hnet : (w.destroy i).net = (w.stop i).net := rfl
  rw [Owned, hsame, hnet]
  exact hstopped

theorem owned_move (h : w.Owned) (i j : Nat) : (w.move i j).Owned := by
  unfold move
  split
  · next other hi hj =>
    have hij : j ≠ i := by
      rintro rfl
      simp [hi] at hj
    have hmoved := h.transfer hij (holds_none hi)
    rw [Owned, holds_put, holds_put]
    have hheld : (Obj.client (WiFiClient.move other).1).held = w.holds j := (holds_eq hj).symm
    rw [hheld]
    exact hmoved
  · exact h

theorem owned_moveAssign (h : w.Owned) (i j : Nat) : (w.moveAssign i j).Owned := by
  unfold moveAssign
  split
  · exact h
  · next hij =>
    split
    · next c other hi hj =>
      have hstopped := h.release (i := i)
      have hmoved := hstopped.transfer (i := j) (j := i) (Ne.symm hij) (by simp)
      rw [Function.update_of_ne (Ne.symm hij), Function.update_idem, holds_eq hi,
        ← (Obj.closes_stop (.client c) w.net).1] at hmoved
      rw [Owned, holds_put, holds_put]
      have hheld : (Obj.client (c.moveAssign w.net other).1.1).held = w.holds j :=
        (holds_eq hj).symm
      rw [hheld]
      exact hmoved
    · exact h

theorem owned_copy_iff (h : w.Owned) : (w.copy i j).Owned ↔ w.OneHolder (.copy i j) := by
  unfold copy
  split
  · next o hi hj =>
    have hnet : (w.put i (o, w.net)).net.ledger = w.net.ledger := rfl
    split
    · next hcopyable =>
      rw [Owned, holds_put, hnet, Sole.new_iff h (holds_none hi)]
      simp [OneHolder, hi, hj, hcopyable]
    · next hcopyable => exact iff_of_true h (by simp [OneHolder, hj, hcopyable])
  · next hnot => exact iff_of_true h fun hi o hj => absurd hj (hnot o hi)

theorem owned_copyAssign_iff (h : w.Owned) :
    (w.copyAssign i j).Owned ↔ w.OneHolder (.copyAssign i j) := by
  unfold copyAssign
  split
  · next o o' hi hj =>
    split
    · next hassign =>
      by_cases hij : i = j
      · subst hij
        obtain rfl : o = o' := Option.some.inj (hi.symm.trans hj)
        exact iff_of_true (owned_put_of_keeps h hi ⟨rfl, rfl⟩) fun hne => absurd rfl hne
      · have hnet : (w.put i (o', w.net)).net.ledger = w.net.ledger := rfl
        have hboth : o'.copyable = true ∧ o.sameClass o' = true := by simpa using hassign
        rw [Owned, holds_put, hnet, ← holds_eq hj, Sole.copy_iff h hij, holds_eq hi, holds_eq hj]
        simp [OneHolder, hi, hj, hij, hboth]
    · next hassign =>
      refine iff_of_true h fun _ o₁ o₂ hi' hj' hcopyable hsame => absurd ?_ hassign
      obtain rfl : o = o₁ := Option.some.inj (hi.symm.trans hi')
      obtain rfl : o' = o₂ := Option.some.inj (hj.symm.trans hj')
      simp [hcopyable, hsame]
  · next hnot => exact iff_of_true h fun _ o o' hi hj => absurd hj (hnot o o' hi)

theorem accept_some {s : WiFiServer} {net : Lwip} {new : NewSocket} (hfd : ¬ s.sockfd < 0) :
    s.accept net (some new) = (.ofFd new.fd, (net.lwipSocket (some new)).2) := by
  simp only [WiFiServer.accept, hfd, Lwip.lwipSocket_some, new.not_fd_neg, if_false]

theorem owned_accept_iff (h : w.Owned) :
    (w.accept i j new).Owned ↔ w.OneHolder (.accept i j new) := by
  unfold accept
  split
  · next s hi hj =>
    by_cases hfd : s.sockfd < 0
    · refine iff_of_true ?_ fun _ ⟨s', hs', hopen⟩ => ?_
      · have haccept : s.accept w.net new = (.initial, w.net) := if_pos hfd
        rw [haccept, Owned, holds_put]
        exact (Sole.new_iff h (holds_none hi)).mpr nofun
      · obtain rfl : s = s' := by simpa [hj] using hs'
        omega
    · have hreopens : Reopens (.client .initial) w.net new
          (.client (s.accept w.net new).1, (s.accept w.net new).2) := by
        cases new with
        | none => exact ⟨true, by simp [WiFiServer.accept, hfd, Lwip.lwipSocket]; rfl⟩
        | some new =>
          rw [accept_some hfd]
          have hstopped : w.net.ledger = w.net.ledger.release (Obj.client .initial).held := rfl
          exact Obj.reopens_kept hstopped rfl rfl
      rw [owned_put_iff_of_reopens (o := .client .initial) h (holds_none hi) hreopens]
      simp [OneHolder, hi, hj, Int.not_lt.mp hfd]
  · next hnot =>
    exact iff_of_true h fun hi ⟨s, hs, _⟩ => absurd hs (hnot s hi)

theorem owned_connectHost_iff {host : Option Text} {port : UInt16} {timeout : Int}
    {numeric dns : Option IPAddress} {r : ConnectResults} (h : w.Owned) :
    (w.step (.connectHost i host port timeout numeric dns r)).Owned ↔
      w.OneHolder (.connectHost i host port timeout numeric dns r) := by
  have hconnect : ∀ c : WiFiClient, c.connectHost w.net host port timeout numeric dns r =
      c.connect w.net (.host host numeric dns) port timeout r := fun _ => rfl
  simp only [step, hconnect, WiFiClient.connect_eq, OneHolder, Peer.created]
  cases (Peer.host host numeric dns).addr port with
  | none =>
    exact iff_of_true (owned_onClient h fun c => Or.inl ⟨rfl, rfl⟩) fun _ => by simp [Unshared]
  | some addr => exact owned_onClient_iff h fun c => Obj.reopens_connectOn c w.net _ _ _

theorem read_stops (c : WiFiClient) (net : Lwip) (ret : Int) (value : UInt8) :
    (c.read net ret value).1 = (c, net) ∨ (c.read net ret value).1 = c.stop net := by
  unfold WiFiClient.read
  split
  · split
    · exact Or.inr rfl
    · exact Or.inl rfl
  · exact Or.inl rfl

theorem readBuf_stops (c : WiFiClient) (net : Lwip) (buffer : Bool) (size : Nat) (ret : Int) :
    (c.readBuf net buffer size ret).1 = (c, net) ∨
      (c.readBuf net buffer size ret).1 = c.stop net := by
  unfold WiFiClient.readBuf
  split
  · exact Or.inl rfl
  · split
    · split
      · exact Or.inr rfl
      · exact Or.inl rfl
    · exact Or.inl rfl

theorem connected_stops (c : WiFiClient) (net : Lwip) (ret : Int) :
    (c.connected net ret).1 = (c, net) ∨ (c.connected net ret).1 = c.stop net := by
  unfold WiFiClient.connected
  split
  · exact Or.inl rfl
  · split
    · exact Or.inl rfl
    · split
      · exact Or.inr rfl
      · exact Or.inl rfl

theorem owned_onClient_stops {f : WiFiClient → WiFiClient × Lwip} (h : w.Owned)
    (hf : ∀ c, f c = (c, w.net) ∨ f c = c.stop w.net) : (w.onClient i f).Owned := by
  refine owned_onClient h fun c => ?_
  rcases hf c with he | he
  · rw [he]
    exact Or.inl ⟨rfl, rfl⟩
  · rw [he]
    exact Or.inr (Obj.closes_stop (.client c) w.net)

theorem owned_readUdp (h : w.Owned) (i : Nat) : (w.step (.readUdp i)).Owned := by
  simp only [step, onUdp]
  split
  · next u hi =>
    have hsame : (Obj.udp u.read.1).held = (Obj.udp u).held := by
      unfold WiFiUDP.read
      split <;> rfl
    exact owned_put_of_keeps h hi ⟨rfl, hsame⟩
  · exact h

theorem owned_step_iff (h : w.Owned) (a : Stmt) : (w.step a).Owned ↔ w.OneHolder a := by
  cases a with
  | newClient | newServer | newUdp =>
    exact iff_of_true ((owned_create_iff h).mpr fun _ => nofun) trivial
  | newClientFd i fd => exact owned_create_iff h
  | move i j => exact iff_of_true (owned_move h i j) trivial
  | moveAssign i j => exact iff_of_true (owned_moveAssign h i j) trivial
  | copy i j => exact owned_copy_iff h
  | copyAssign i j => exact owned_copyAssign_iff h
  | connectIp => exact owned_onClient_iff h fun c => Obj.reopens_connectOn c w.net _ _ _
  | connectHost i host port timeout numeric dns r => exact owned_connectHost_iff h
  | read i ret value =>
    exact iff_of_true (owned_onClient_stops h fun c => read_stops c w.net _ _) trivial
  | readBuf i buffer size ret =>
    exact iff_of_true (owned_onClient_stops h fun c => readBuf_stops c w.net _ _ _) trivial
  | connected i ret =>
    exact iff_of_true (owned_onClient_stops h fun c => connected_stops c w.net _) trivial
  | beginServer => exact owned_onServer_iff h fun s => Obj.reopens_beginPort s w.net _ _
  | beginPort => exact owned_onServer_iff h fun s => Obj.reopens_beginPort s w.net _ _
  | accept i j new => exact owned_accept_iff h
  | beginUdp | beginUdpIp => exact owned_onUdp_iff h fun u => (Obj.reopens_beginOn u w.net _).1
  | beginMulticast => exact owned_onUdp_iff h fun u => Obj.reopens_beginMulticast u w.net _ _ _
  | readUdp i => exact iff_of_true (owned_readUdp h i) trivial
  | stop i => exact iff_of_true (owned_stop h i) trivial
  | destroy i => exact iff_of_true (owned_destroy h i) trivial

/-- Every descriptor has exactly one owner, in every state of a run, if and only if no statement
gives, copies or assigns away a descriptor that lwIP has returned. -/
theorem owners_iff (as : List Stmt) :
    Along World.step Owned initial as ↔ Meets World.step OneHolder initial as := by
  refine along_iff_meets (V := fun _ _ => True) (fun w a h _ => (owned_step_iff h a).mpr)
    (fun _ h => h) (fun w a h _ hc hp => hc ((owned_step_iff h a).mp hp)) ?_
    (meets_of_forall (fun _ _ => trivial) _ _)
  exact ⟨nofun, nofun, nofun, nofun, rfl⟩

/-- A `WiFiUDP` with a socket is copied. -/
theorem not_owned_copied : ¬ Along World.step Owned initial
    [.newUdp 0 (fun _ => 0) (fun _ => 0), .beginUdp 0 5000 ⟨some ⟨3, ⟨0, none⟩⟩, true, true⟩,
      .copy 1 0] := by
  intro h
  exact absurd (h.last.inj 3 0 1 (by decide) (by decide) (by decide)) (by decide)

end World

end Bl616cl.Net
