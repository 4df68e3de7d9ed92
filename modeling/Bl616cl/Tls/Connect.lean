import Bl616cl.Net.Connect
import Bl616cl.Tls.Pairing

/-!
# What a secure connect leaves

`WiFiClientSecure::connect` on top of `WiFiClient`'s. Where `WiFiClient::connect` closes its socket
when a later step fails, this one returns from `do_tls_handshake` with the socket open and perhaps
the TLS session marked set up: `left_iff`.
-/

namespace Bl616cl.Tls

open Bl616cl.Net (Lwip Peer ConnectResults NewSocket Left)

variable {Cert Key Env : Type}

/-- The object with its base. -/
structure SecureClient (Cert Key : Type) where
  tls : WiFiClientSecure Cert Key
  tcp : Net.WiFiClient

/-- The target of a connect to this peer. -/
def target : Peer → Target
  | .ip _ => .ip
  | .host name _ _ => .host name

namespace SecureClient

variable (s : SecureClient Cert Key) (net : Lwip)

def stop : SecureClient Cert Key × Lwip :=
  let closed := s.tcp.stop net
  (⟨s.tls.stop, closed.1⟩, closed.2)

variable [DecidableEq Cert]

/-- `connect`. The `stop` of a failing `WiFiClient::connect` is the virtual one, which finds no TLS
session after the one here. -/
def connect (M : Platform Cert Key Env) (e : Env) (peer : Peer) (port : UInt16) (timeout : Int)
    (r : ConnectResults) : (SecureClient Cert Key × Lwip) × Option Int :=
  let stopped := s.stop net
  let tcp := stopped.1.tcp.connect stopped.2 peer port timeout r
  if tcp.2 = 0 then ((⟨stopped.1.tls, tcp.1.1⟩, tcp.1.2), some 0)
  else
    let shaken := WiFiClientSecure.doTlsHandshake M e stopped.1.tls (target peer).name
    ((⟨shaken.1, tcp.1.1⟩, tcp.1.2), shaken.2.ret)

omit [DecidableEq Cert] in
/-- `connected`, with what the `lwip_recv` of `WiFiClient::connected` returns. -/
def connected (probe : Int) : Int :=
  if !s.tls.handshakeDone then 0 else (s.tcp.connected net probe).2

end SecureClient

namespace WiFiClientSecure

variable {M : Platform Cert Key Env} {e : Env} {c : WiFiClientSecure Cert Key} {t : Target}

theorem loaded_ret (hnamed : t ≠ .host none ∧ t ≠ .host (some [])) :
    (loaded M e c t).2 = 0 ↔ ∀ h, t.name = some h → (M.sslSetHostname e none h).2 = 0 := by
  rw [loaded, loadHostname_ret, filter_name hnamed]

variable [DecidableEq Cert]

/-- No step of the TLS setup fails, and the handshake, if it ends, ends with the peer accepted. -/
structure Accepts (M : Platform Cert Key Env) (e : Env) (c : WiFiClientSecure Cert Key)
    (t : Target) : Prop where
  setsUp : SetsUp M c.settings c.pkKey e
  hostname : ∀ h, t.name = some h → (M.sslSetHostname e none h).2 = 0
  accepted : ∀ ret, handshakeLoop (M.sslHandshake e (viewBefore M e c t)) = some ret →
    ret = 0 ∧ (c.settings.insecure = true ∨ M.sslGetVerifyResult e (viewBefore M e c t) = 0)

theorem handshake_done : (handshake M e c).2.ret = some 1 →
    (handshake M e c).1.handshakeDone = true := by
  unfold handshake
  cases handshakeLoop (M.sslHandshake e c.view) with
  | none => simp
  | some ret =>
    dsimp only
    split
    · simp
    · split <;> simp

/-- A handshake that does not get as far as `mbedtls_ssl_handshake` returns 0. -/
theorem doTlsHandshake_cases (hnamed : t ≠ .host none ∧ t ≠ .host (some [])) :
    ((doTlsHandshake M e c.stop t.name).2.ret = some 0 ∧
      ¬ (SetsUp M c.settings c.pkKey e ∧
        ∀ h, t.name = some h → (M.sslSetHostname e none h).2 = 0)) ∨
    (doTlsHandshake M e c.stop t.name = handshake M e (loaded M e c t).1 ∧
      (loaded M e c t).1.view = viewBefore M e c t ∧ SetsUp M c.settings c.pkKey e ∧
        ∀ h, t.name = some h → (M.sslSetHostname e none h).2 = 0) := by
  by_cases hup : SetsUp M c.settings c.pkKey e
  · obtain ⟨hseed, hconfig, hca, hown, hsetup⟩ := setsUp_iff.mp hup
    by_cases hhost : (loaded M e c t).2 = 0
    · have hset := (loaded_ret hnamed).mp hhost
      refine Or.inr ⟨?_, view_loaded hnamed hca hown hset, hup, hset⟩
      rw [doTlsHandshake_eq]
      simp only [hseed, hconfig, hca, hown, hsetup, hhost, ne_eq, not_true, if_false]
    · refine Or.inl ⟨?_, fun h => hhost ((loaded_ret hnamed).mpr h.2)⟩
      rw [doTlsHandshake_eq]
      simp only [hseed, hconfig, hca, hown, hsetup, hhost, ne_eq, not_true, if_false,
        not_false_eq_true, if_true]
      rfl
  · refine Or.inl ⟨?_, fun h => hup h.1⟩
    rw [doTlsHandshake_eq]
    split_ifs with hseed hconfig hca hown hsetup hhost
    any_goals rfl
    all_goals
      rw [not_not] at hseed hconfig hca hown hsetup
      exact absurd (setsUp_iff.mpr ⟨hseed, hconfig, hca, hown, hsetup⟩) hup

theorem handshake_ret {ret : Int} (h : (handshake M e c).2.ret = some ret) :
    ret = 0 ∨ ret = 1 := by
  rw [handshake_outcome] at h
  obtain ⟨code, -, rfl⟩ := Option.map_eq_some_iff.mp h
  split
  · exact Or.inr rfl
  · exact Or.inl rfl

theorem doTlsHandshake_returns (hnamed : t ≠ .host none ∧ t ≠ .host (some [])) {ret : Int}
    (h : (doTlsHandshake M e c.stop t.name).2.ret = some ret) : ret = 0 ∨ ret = 1 := by
  rcases doTlsHandshake_cases (M := M) (e := e) (c := c) hnamed with ⟨hret, -⟩ | ⟨heq, -⟩
  · rw [hret] at h
    exact Or.inl (Option.some.inj h).symm
  · exact handshake_ret (heq ▸ h)

/-- `do_tls_handshake` fails exactly if the peer is not accepted. -/
theorem doTlsHandshake_ret (hnamed : t ≠ .host none ∧ t ≠ .host (some [])) :
    ((doTlsHandshake M e c.stop t.name).2.ret = some 0 ↔ ¬ Accepts M e c t) ∧
      ((doTlsHandshake M e c.stop t.name).2.ret = some 1 →
        (doTlsHandshake M e c.stop t.name).1.handshakeDone = true) := by
  rcases doTlsHandshake_cases (M := M) (e := e) (c := c) hnamed with
    ⟨hret, hnot⟩ | ⟨heq, hview, hup, hset⟩
  · rw [hret]
    refine ⟨?_, by simp⟩
    simp only [true_iff]
    exact fun h => hnot ⟨h.setsUp, h.hostname⟩
  · rw [heq]
    refine ⟨?_, handshake_done⟩
    rw [handshake_outcome, hview, loaded_settings]
    cases hloop : handshakeLoop (M.sslHandshake e (viewBefore M e c t)) with
    | none =>
      have haccepts : Accepts M e c t := ⟨hup, hset, by simp [hloop]⟩
      simp [haccepts]
    | some ret =>
      simp only [Option.map_some, Option.some.injEq]
      split
      · next hok =>
        have haccepts : Accepts M e c t := ⟨hup, hset, by simpa [hloop] using hok⟩
        simp [haccepts]
      · next hbad =>
        simp only [true_iff]
        exact fun h => hbad (h.accepted ret hloop)

end WiFiClientSecure

namespace SecureClient

open WiFiClientSecure

variable {M : Platform Cert Key Env} {e : Env} {s : SecureClient Cert Key} {net : Lwip}
  {peer : Peer} {port : UInt16} {timeout : Int} {r : ConnectResults}

theorem named_of_addr {addr : Net.Addr} (h : peer.addr port = some addr) :
    target peer ≠ .host none ∧ target peer ≠ .host (some []) := by
  cases peer with
  | ip address => exact ⟨nofun, nofun⟩
  | host name numeric dns =>
    constructor
    · rintro ⟨⟩
      simp [Peer.addr, Net.noHost] at h
    · rintro ⟨⟩
      simp [Peer.addr, Net.noHost] at h

theorem stop_sockfd :
    (s.stop net).1.tcp.sockfd = if 0 ≤ s.tcp.sockfd then -1 else s.tcp.sockfd := by
  simp only [stop, Net.WiFiClient.stop]
  split <;> rfl

variable [DecidableEq Cert]

/-- What a connect leaves if it returns: as on a `WiFiClient`, with its TLS session. -/
def LeftBy (M : Platform Cert Key Env) (e : Env) (s : SecureClient Cert Key) (net : Lwip)
    (peer : Peer) (port : UInt16) (timeout : Int) (r : ConnectResults) : Prop :=
  ∀ s' net' ret, s.connect net M e peer port timeout r = ((s', net'), some ret) →
    Left (0 ≤ s.tcp.sockfd ∨ (peer.created port r).isSome) (peer.created port r) (peer.addr port)
      (r.connects timeout) s'.tcp net' (fun probe => s'.connected net' probe) ret ∧
    (ret = 0 → 0 ≤ s.tcp.sockfd ∨ (peer.created port r).isSome → s'.tls.tlsSetup = false)

theorem leftBy_of_refused (hret : ((s.stop net).1.tcp.connect (s.stop net).2 peer port timeout
    r).2 = 0) : LeftBy M e s net peer port timeout r := by
  intro s' net' ret hconnect
  simp only [connect, hret, if_true, Prod.mk.injEq, Option.some.injEq] at hconnect
  obtain ⟨⟨rfl, rfl⟩, rfl⟩ := hconnect
  refine ⟨⟨Or.inl rfl, nofun, fun _ hgaveUp => ?_, nofun⟩, fun _ _ => rfl⟩
  rw [Net.WiFiClient.connect_eq] at hret ⊢
  cases haddr : peer.addr port with
  | none =>
    have hcreated : peer.created port r = none := by simp [Peer.created, haddr]
    rw [hcreated] at hgaveUp
    have hopen : 0 ≤ s.tcp.sockfd := by simpa using hgaveUp
    have hclosed : (s.stop net).1.tcp.sockfd = -1 := by rw [stop_sockfd, if_pos hopen]
    exact ⟨hclosed, Net.WiFiClient.status_of_closed hclosed, by simp [hcreated]⟩
  | some addr =>
    rw [haddr] at hret
    rcases Net.WiFiClient.connectOn_cases (s.stop net).1.tcp (s.stop net).2 addr timeout r with
      ⟨-, -, hrefused⟩ | ⟨hone, -⟩
    · refine ⟨hrefused.sockfd, Net.WiFiClient.status_of_closed hrefused.sockfd, ?_⟩
      simpa [Peer.created, haddr] using hrefused.socket
    · dsimp only at hret
      omega

theorem leftBy_iff_of_connected {addr : Net.Addr} {new : NewSocket}
    (haddr : peer.addr port = some addr)
    (hret : ((s.stop net).1.tcp.connect (s.stop net).2 peer port timeout r).2 = 1)
    (hconnects : r.connects timeout)
    (hopen : Net.WiFiClient.Connected
      ((s.stop net).1.tcp.connect (s.stop net).2 peer port timeout r).1.1
      ((s.stop net).1.tcp.connect (s.stop net).2 peer port timeout r).1.2 r addr new) :
    LeftBy M e s net peer port timeout r ↔ Accepts M e s.tls (target peer) := by
  obtain ⟨hfails, hdone⟩ :=
    doTlsHandshake_ret (M := M) (e := e) (c := s.tls) (named_of_addr haddr)
  have hcreated : peer.created port r = some new := by
    simp [Peer.created, haddr, hopen.created]
  have hconnect : s.connect net M e peer port timeout r =
      ((⟨(doTlsHandshake M e s.tls.stop (target peer).name).1,
          ((s.stop net).1.tcp.connect (s.stop net).2 peer port timeout r).1.1⟩,
        ((s.stop net).1.tcp.connect (s.stop net).2 peer port timeout r).1.2),
        (doTlsHandshake M e s.tls.stop (target peer).name).2.ret) := by
    simp only [connect, hret]
    rfl
  constructor
  · intro h
    by_contra hnot
    obtain ⟨⟨-, -, hclosed, -⟩, -⟩ := h _ _ 0 (by rw [hconnect, hfails.mpr hnot])
    have hfd := (hclosed rfl (Or.inr (by rw [hcreated]; rfl))).1
    have hnew := hopen.sockfd
    dsimp only at hfd
    omega
  · intro h s' net' ret hreturned
    rw [hconnect] at hreturned
    obtain ⟨⟨rfl, rfl⟩, hcode⟩ : (_ ∧ _) ∧ _ := by simpa using hreturned
    have hone : ret = 1 := by
      rcases doTlsHandshake_returns (named_of_addr haddr) hcode with rfl | rfl
      · exact absurd h (hfails.mp hcode)
      · rfl
    subst hone
    refine ⟨⟨Or.inr rfl, fun _ => hconnects, by simp, fun _ => ?_⟩, by simp⟩
    refine ⟨new, hcreated, hopen.sockfd, ?_, by rw [haddr]; rfl, fun probe hprobe => ?_⟩
    · rw [haddr]
      exact hopen.sockfd ▸ hopen.socket
    · have hnonneg : 0 ≤ ((s.stop net).1.tcp.connect (s.stop net).2 peer port timeout
          r).1.1.sockfd := by
        rw [hopen.sockfd]
        omega
      simp [connected, hdone hcode, Net.WiFiClient.connected_of_open hnonneg hprobe]

/-- Every connect of a `WiFiClient` leaves what it should. One of a `WiFiClientSecure` does if and
only if it gets no TCP connection, or nothing fails on it from there on. -/
theorem left_iff :
    (∀ (c : Net.WiFiClient) (net : Lwip) (peer : Peer) (port : UInt16) (timeout : Int)
      (r : ConnectResults),
      Left ((peer.addr port).isSome ∧ (0 ≤ c.sockfd ∨ r.socket.isSome)) (peer.created port r)
        (peer.addr port) (r.connects timeout) (c.connect net peer port timeout r).1.1
        (c.connect net peer port timeout r).1.2
        (fun probe => ((c.connect net peer port timeout r).1.1.connected
          (c.connect net peer port timeout r).1.2 probe).2)
        (c.connect net peer port timeout r).2) ∧
    ∀ (M : Platform Cert Key Env) (e : Env) (s : SecureClient Cert Key) (net : Lwip) (peer : Peer)
      (port : UInt16) (timeout : Int) (r : ConnectResults),
      LeftBy M e s net peer port timeout r ↔
        ((peer.created port r).isSome → r.connects timeout → Accepts M e s.tls (target peer)) := by
  refine ⟨Net.WiFiClient.left_connect, fun M e s net peer port timeout r => ?_⟩
  cases haddr : peer.addr port with
  | none =>
    have hcreated : peer.created port r = none := by simp [Peer.created, haddr]
    refine iff_of_true (leftBy_of_refused ?_) (by simp [hcreated])
    rw [Net.WiFiClient.connect_eq, haddr]
  | some addr =>
    have hcreated : peer.created port r = r.socket := by simp [Peer.created, haddr]
    have heq : (s.stop net).1.tcp.connect (s.stop net).2 peer port timeout r =
        (s.stop net).1.tcp.connectOn (s.stop net).2 addr timeout r := by
      rw [Net.WiFiClient.connect_eq, haddr]
    rcases Net.WiFiClient.connectOn_cases (s.stop net).1.tcp (s.stop net).2 addr timeout r with
      ⟨hzero, hrefused, -⟩ | ⟨hone, hconnects, new, hopen⟩
    · refine iff_of_true (leftBy_of_refused (heq ▸ hzero)) fun hsocket hconnects => ?_
      rw [hcreated] at hsocket
      exact absurd ⟨hsocket, hconnects⟩ hrefused
    · rw [leftBy_iff_of_connected haddr (heq ▸ hone) hconnects (heq ▸ hopen), hcreated]
      simp [hopen.created, hconnects]

/-- The TCP connection is there, but the server's certificate is not trusted. -/
theorem not_left_untrusted : ¬ LeftBy demo 2
    ⟨(WiFiClientSecure.initial : WiFiClientSecure Nat Nat).step demo (.setCACert (some [1])), ⟨-1⟩⟩
    .initial (.ip 0x0100A8C0) 443 3000 ⟨some ⟨3, ⟨0, none⟩⟩, 0, 0, []⟩ := by
  intro h
  exact absurd (h _ _ 0 rfl).1.closed (by decide)

end SecureClient

end Bl616cl.Tls
