import Bl616cl.Tls.Independence
import Bl616cl.Tls.Session

/-!
# The retry loops on a dead socket

`tls_send` and `tls_recv` turn every socket error into a code that says to try again. On a socket
where every call fails, a loop ends only with a call into mbedTLS that needs no socket:
`retry_loops_end_iff`.
-/

namespace Bl616cl.Tls

namespace Io

variable {σ : Type}

/-- The call goes on to use the socket. -/
def Asks : Io σ → Prop
  | .done _ _ _ => False
  | .send _ _ | .recv _ _ => True

/-- The call is about to return, and not with a code to try again. -/
def Final : Io σ → Prop
  | .done _ ret _ => wants ret = false
  | .send _ _ | .recv _ _ => False

/-- The call passes a code to try again on unchanged, and after it the next one uses the socket. -/
def Obeys (call : σ → Io σ) : Io σ → Prop
  | .done ssl ret _ => wants ret = true → (call ssl).Asks
  | .send _ next =>
    (∀ c, wants c = true → ∃ ssl, next c = .done ssl c []) ∧ ∀ c, (next c).Obeys call
  | .recv _ next =>
    (∀ c bytes, wants c = true → ∃ ssl, next c bytes = .done ssl c []) ∧
      ∀ c bytes, (next c bytes).Obeys call

end Io

/-- What the retry loops rely on mbedTLS for. -/
structure Ssl.Obeys {σ : Type} (P : Ssl σ) : Prop where
  handshake : ∀ ssl, (P.handshake ssl).Obeys P.handshake
  read : ∀ ssl size, (P.read ssl size).Obeys fun ssl => P.read ssl size
  write : ∀ ssl buf, (P.write ssl buf).Obeys fun ssl => P.write ssl buf
  /-- Nothing is written without the socket. -/
  write_done : ∀ ssl buf ssl' ret data, P.write ssl buf = .done ssl' ret data → ret ≤ 0

/-- Every socket call fails. -/
def Dead (net : Nat → LwipResult) : Prop := ∀ i, (net i).ret < 0

/-- It returns within some number of tries. -/
def Returns {α : Type} (f : Nat → Option α) : Prop := ∃ tries, f tries ≠ none

/-- The results of the successive calls. -/
def attempts {σ : Type} (call : σ → Io σ) (net : Nat → LwipResult) : Nat → Io σ → Nat → List Int
  | 0, _, _ => []
  | tries + 1, io, i =>
    let a := io.run net i
    a.ret :: attempts call net tries (call a.ssl) a.calls

/-- The platform whose handshakes run over the socket; `setup` is the SSL context before. -/
def Platform.overSocket {Cert Key Env σ : Type} (M : Platform Cert Key Env) (P : Ssl σ)
    (setup : Env → View Cert Key → σ) (net : Nat → LwipResult) (tries : Nat) :
    Platform Cert Key Env :=
  { M with sslHandshake := fun e v => attempts P.handshake net tries (P.handshake (setup e v)) 0 }

variable {σ : Type} {P : Ssl σ} {net : Nat → LwipResult} {call : σ → Io σ} {io : Io σ} {i : Nat}

/-! ## One call -/

theorem tlsSend_dead (h : Dead net) : tlsSend (net i) = errSslWantWrite := if_pos (h i)

theorem tlsRecv_dead (h : Dead net) : tlsRecv (net i) = errSslWantRead := if_pos (h i)

theorem received_dead (h : Dead net) : (net i).received = [] :=
  if_neg (Int.not_lt.mpr (Int.le_of_lt (h i)))

/-- A call that needs the socket is turned back, and so is the next. -/
theorem run_asks (hdead : Dead net) (hobeys : io.Obeys call) (h : io.Asks) :
    wants (io.run net i).ret = true ∧ (call (io.run net i).ssl).Asks := by
  cases io with
  | done ssl ret data => cases h
  | send buf next =>
    obtain ⟨hback, hnext⟩ := hobeys
    obtain ⟨ssl, hssl⟩ := hback errSslWantWrite rfl
    have hdone := hnext errSslWantWrite
    rw [hssl] at hdone
    simp only [Io.run, tlsSend_dead hdead, hssl]
    exact ⟨rfl, hdone rfl⟩
  | recv len next =>
    obtain ⟨hback, hnext⟩ := hobeys
    obtain ⟨ssl, hssl⟩ := hback errSslWantRead [] rfl
    have hdone := hnext errSslWantRead []
    rw [hssl] at hdone
    simp only [Io.run, tlsRecv_dead hdead, received_dead hdead, hssl]
    exact ⟨rfl, hdone rfl⟩

/-- A call that is not about to return for good is followed by one that needs the socket. -/
theorem run_not_final (hdead : Dead net) (hobeys : io.Obeys call) (h : ¬ io.Final) :
    wants (io.run net i).ret = true ∧ (call (io.run net i).ssl).Asks := by
  cases io with
  | done ssl ret data =>
    have hwants : wants ret = true := Bool.not_eq_false _ ▸ h
    exact ⟨hwants, hobeys hwants⟩
  | send buf next => exact run_asks hdead hobeys trivial
  | recv len next => exact run_asks hdead hobeys trivial

theorem run_final (h : io.Final) : wants (io.run net i).ret = false := by
  cases io with
  | done ssl ret data => exact h
  | send buf next => cases h
  | recv len next => cases h

theorem not_final_of_asks (h : io.Asks) : ¬ io.Final := by
  cases io <;> simp_all [Io.Asks, Io.Final]

/-! ## The loops -/

theorem retry_asks (hdead : Dead net) (hcall : ∀ ssl, (call ssl).Obeys call)
    (hobeys : io.Obeys call) (h : ¬ io.Final) (tries : Nat) :
    retry call net tries io i = none := by
  induction tries generalizing io i with
  | zero => rfl
  | succ tries ih =>
    obtain ⟨hwants, hasks⟩ := run_not_final (i := i) hdead hobeys h
    rw [retry]
    simp only [hwants, ite_true]
    rw [ih (hcall _) (not_final_of_asks hasks)]
    rfl

theorem retry_returns_iff (hdead : Dead net) (hcall : ∀ ssl, (call ssl).Obeys call)
    (hobeys : io.Obeys call) : (Returns fun tries => retry call net tries io i) ↔ io.Final := by
  constructor
  · rintro ⟨tries, htries⟩
    by_contra h
    exact htries (retry_asks hdead hcall hobeys h tries)
  · intro h
    refine ⟨1, ?_⟩
    simp [retry, run_final h]

/-! ## The calls -/

theorem handshakeLoop_attempts (tries : Nat) :
    WiFiClientSecure.handshakeLoop (attempts call net tries io i) =
      (retry call net tries io i).map fun a => a.ret := by
  induction tries generalizing io i with
  | zero => rfl
  | succ tries ih =>
    rw [attempts, WiFiClientSecure.handshakeLoop, retry]
    by_cases hwants : wants (io.run net i).ret = true
    · have hgo : (io.run net i).ret = errSslWantRead ∨ (io.run net i).ret = errSslWantWrite := by
        simpa [wants] using hwants
      simp only [hwants, ite_true, if_pos hgo, ih, Option.map_map]
      rfl
    · have hstop : ¬ ((io.run net i).ret = errSslWantRead ∨
          (io.run net i).ret = errSslWantWrite) := by
        simpa [wants] using hwants
      simp [hwants, if_neg hstop]

section Handshake

open WiFiClientSecure

variable {Cert Key Env : Type} [DecidableEq Cert] (M : Platform Cert Key Env) (e : Env)
  (c : WiFiClientSecure Cert Key) (hostname : Option Text)

/-- A handshake that does not return has got to its loop, and stays there. -/
theorem doTlsHandshake_ret (hs : Env → View Cert Key → List Int) :
    (doTlsHandshake { M with sslHandshake := hs } e c hostname).2.ret = none ↔
      ∃ v, (doTlsHandshake M e c hostname).2.view = some v ∧ handshakeLoop (hs e v) = none := by
  have hca : ∀ c : WiFiClientSecure Cert Key,
      loadCa { M with sslHandshake := hs } e c = loadCa M e c := fun _ => rfl
  have hown : ∀ c : WiFiClientSecure Cert Key,
      loadOwn { M with sslHandshake := hs } e c = loadOwn M e c := fun _ => rfl
  have hhost : ∀ c : WiFiClientSecure Cert Key,
      loadHostname { M with sslHandshake := hs } e c = loadHostname M e c := fun _ => rfl
  simp only [doTlsHandshake, hca, hown, hhost]
  split_ifs
  all_goals simp [fail, handshake_outcome]

theorem doTlsHandshake_returns_iff (hdead : Dead net) (hP : P.Obeys)
    (setup : Env → View Cert Key → σ) :
    (Returns fun tries => (doTlsHandshake (M.overSocket P setup net tries) e c hostname).2.ret) ↔
      ∀ v, (doTlsHandshake M e c hostname).2.view = some v → (P.handshake (setup e v)).Final := by
  have hret : ∀ tries, (doTlsHandshake (M.overSocket P setup net tries) e c hostname).2.ret = none ↔
      ∃ v, (doTlsHandshake M e c hostname).2.view = some v ∧
        retry P.handshake net tries (P.handshake (setup e v)) 0 = none := by
    intro tries
    have h := doTlsHandshake_ret M e c hostname fun e v =>
      attempts P.handshake net tries (P.handshake (setup e v)) 0
    simp only [handshakeLoop_attempts, Option.map_eq_none_iff] at h
    exact h
  unfold Returns
  simp only [ne_eq, hret, not_exists, not_and]
  cases hview : (doTlsHandshake M e c hostname).2.view with
  | none => simp
  | some v =>
    have hiff := retry_returns_iff (i := 0) hdead hP.handshake (hP.handshake (setup e v))
    simpa [Returns] using hiff

end Handshake

theorem readBuf_returns_iff (hdead : Dead net) (hP : P.Obeys) (s : Session σ) (buffer : Bool)
    (size : Nat) : (Returns fun tries => s.readBuf P tries net buffer size) ↔
      (buffer = true → size ≠ 0 → s.handshakeDone = true → s.peekLen = 0 →
        (P.read s.ssl size).Final) := by
  by_cases hguard : buffer = true ∧ size ≠ 0 ∧ s.handshakeDone = true
  · obtain ⟨hbuffer, hsize, hdone⟩ := hguard
    by_cases hpeek : s.peekLen = 0
    · have hiff := retry_returns_iff (i := 0) hdead (hP.read · size) (hP.read s.ssl size)
      simpa [Returns, Session.readBuf, hbuffer, hsize, hdone, hpeek] using hiff
    · refine iff_of_true ⟨0, ?_⟩ fun _ _ _ h => absurd h hpeek
      simp only [Session.readBuf, hbuffer, hdone, Nat.pos_of_ne_zero hpeek]
      split_ifs <;> simp
  · refine iff_of_true ⟨0, ?_⟩ fun hbuffer hsize hdone => absurd ⟨hbuffer, hsize, hdone⟩ hguard
    have hout : (!buffer || size == 0 || !s.handshakeDone) = true := by
      cases buffer <;> cases hdone : s.handshakeDone <;> simp_all
    simp [Session.readBuf, hout]

theorem peek_returns_iff (hdead : Dead net) (hP : P.Obeys) (s : Session σ) :
    (Returns fun tries => s.peek P tries net) ↔
      (s.handshakeDone = true → s.peekLen = 0 → (P.read s.ssl 1).Final) := by
  by_cases hpeek : s.peekLen = 0
  · cases hdone : s.handshakeDone with
    | true =>
      have hiff := retry_returns_iff (i := 0) hdead (hP.read · 1) (hP.read s.ssl 1)
      simpa [Returns, Session.peek, hpeek, hdone] using hiff
    | false =>
      refine iff_of_true ⟨0, ?_⟩ fun h => by (cases h)
      simp [Session.peek, hpeek, hdone]
  · refine iff_of_true ⟨0, ?_⟩ fun _ h => absurd h hpeek
    simp [Session.peek, Nat.pos_of_ne_zero hpeek]

/-- The call in the loop of `write` is about to return, and the next, if there is one, needs no
socket. -/
def WriteFinal (P : Ssl σ) (buf : List UInt8) (sent : Nat) : Io σ → Prop
  | .done ssl ret _ => wants ret = false ∧ (ret ≤ 0 ∨ buf.length ≤ sent + ret.toNat ∨
      (P.write ssl (buf.drop (sent + ret.toNat))).Final)
  | .send _ _ | .recv _ _ => False

theorem writeLoop_stuck (hdead : Dead net) (hP : P.Obeys) {buf : List UInt8} {sent : Nat}
    (hobeys : io.Obeys fun ssl => P.write ssl (buf.drop sent)) (h : ¬ io.Final) (tries : Nat)
    (s : Session σ) : s.writeLoop P net buf tries io sent i = none := by
  induction tries generalizing io i s with
  | zero => rfl
  | succ tries ih =>
    obtain ⟨hwants, hasks⟩ := run_not_final (i := i) hdead hobeys h
    rw [Session.writeLoop]
    simp only [hwants, ite_true]
    exact ih (hP.write _ _) (not_final_of_asks hasks) _

theorem writeLoop_final (hP : P.Obeys) {bytes : List UInt8} {ssl : σ}
    (h : (P.write ssl bytes).Final) (s : Session σ) (buf : List UInt8) (sent : Nat) :
    s.writeLoop P net buf 1 (P.write ssl bytes) sent i ≠ none := by
  cases hio : P.write ssl bytes with
  | done ssl' ret data =>
    rw [hio] at h
    have hret : ret ≤ 0 := hP.write_done ssl bytes ssl' ret data hio
    have hwants : wants ret = false := h
    simp [Session.writeLoop, Io.run, hwants, hret]
  | send bytes next => exact absurd h (by simp [hio, Io.Final])
  | recv len next => exact absurd h (by simp [hio, Io.Final])

theorem writeLoop_returns_iff (hdead : Dead net) (hP : P.Obeys) (s : Session σ) (buf : List UInt8)
    (sent : Nat) (hobeys : io.Obeys fun ssl => P.write ssl (buf.drop sent)) :
    (Returns fun tries => s.writeLoop P net buf tries io sent i) ↔ WriteFinal P buf sent io := by
  by_cases hfinal : io.Final
  · cases io with
    | done ssl ret data =>
      have hwants : wants ret = false := hfinal
      by_cases hend : ret ≤ 0 ∨ buf.length ≤ sent + ret.toNat
      · refine iff_of_true ⟨1, ?_⟩ ⟨hwants, or_assoc.mp (Or.inl hend)⟩
        by_cases hret : ret ≤ 0
        · simp [Session.writeLoop, Io.run, hwants, hret]
        · have hlen : ¬ sent + ret.toNat < buf.length := Nat.not_lt.mpr (hend.resolve_left hret)
          simp [Session.writeLoop, Io.run, hwants, hret, hlen]
      · obtain ⟨hret, hlen⟩ := not_or.mp hend
        have hnext : ∀ tries, s.writeLoop P net buf (tries + 1) (.done ssl ret data) sent i =
            ({ s with ssl := ssl } : Session σ).writeLoop P net buf tries
              (P.write ssl (buf.drop (sent + ret.toNat))) (sent + ret.toNat) i := by
          intro tries
          simp [Session.writeLoop, Io.run, hwants, hret, Nat.not_le.mp hlen]
        constructor
        · rintro ⟨tries, htries⟩
          refine ⟨hwants, Or.inr (Or.inr (Classical.byContradiction fun hstuck => htries ?_))⟩
          cases tries with
          | zero => rfl
          | succ tries =>
            show s.writeLoop P net buf (tries + 1) (.done ssl ret data) sent i = none
            rw [hnext]
            exact writeLoop_stuck hdead hP (hP.write _ _) hstuck tries _
        · rintro ⟨-, hor⟩
          have hlast := (hor.resolve_left hret).resolve_left hlen
          refine ⟨2, ?_⟩
          show s.writeLoop P net buf (1 + 1) (.done ssl ret data) sent i ≠ none
          rw [hnext]
          exact writeLoop_final hP hlast _ buf _
    | send bytes next => cases hfinal
    | recv len next => cases hfinal
  · refine iff_of_false ?_ ?_
    · rintro ⟨tries, htries⟩
      exact htries (writeLoop_stuck hdead hP hobeys hfinal tries s)
    · cases io with
      | done ssl ret data => exact fun h => hfinal h.1
      | send bytes next => exact id
      | recv len next => exact id

theorem write_returns_iff (hdead : Dead net) (hP : P.Obeys) (s : Session σ)
    (buffer : Option (List UInt8)) : (Returns fun tries => s.write P tries net buffer) ↔
      ∀ buf, buffer = some buf → buf ≠ [] → s.handshakeDone = true →
        (P.write s.ssl buf).Final := by
  cases buffer with
  | none => exact iff_of_true ⟨0, by simp [Session.write]⟩ fun buf h => by cases h
  | some buf =>
    by_cases hguard : buf ≠ [] ∧ s.handshakeDone = true
    · obtain ⟨hbuf, hdone⟩ := hguard
      have hwrite : ∀ tries, s.write P tries net (some buf) =
          s.writeLoop P net buf tries (P.write s.ssl buf) 0 0 := by
        intro tries
        simp [Session.write, hbuf, hdone]
      simp only [hwrite]
      have hobeys : (P.write s.ssl buf).Obeys fun ssl => P.write ssl (buf.drop 0) :=
        hP.write s.ssl buf
      constructor
      · rintro ⟨tries, htries⟩ _ ⟨⟩ - -
        by_contra hstuck
        exact htries (writeLoop_stuck hdead hP hobeys hstuck tries s)
      · exact fun h => ⟨1, writeLoop_final hP (h buf rfl hbuf hdone) s buf 0⟩
    · refine iff_of_true ⟨0, ?_⟩ fun b hb hbuf hdone => absurd ⟨?_, hdone⟩ hguard
      · have hout : (buf.isEmpty || !s.handshakeDone) = true := by
          simpa [or_iff_not_imp_left] using hguard
        simp only [Session.write, hout]
        simp
      · rintro rfl
        exact hbuf (Option.some.inj hb).symm

/-- **Retry loops**: on a socket where every call fails, each function returns exactly if it does
not get to its loop or the first call there is answered without the socket; so does a loop that is
inside any call when the socket dies. -/
theorem retry_loops_end_iff {Cert Key Env : Type} [DecidableEq Cert] {P : Ssl σ} (hP : P.Obeys)
    {net : Nat → LwipResult} (hdead : Dead net) :
    (∀ (M : Platform Cert Key Env) (setup : Env → View Cert Key → σ) e c hostname,
      (Returns fun tries =>
        (WiFiClientSecure.doTlsHandshake (M.overSocket P setup net tries) e c hostname).2.ret) ↔
      ∀ v, (WiFiClientSecure.doTlsHandshake M e c hostname).2.view = some v →
        (P.handshake (setup e v)).Final) ∧
    (∀ (s : Session σ) buffer size,
      (Returns fun tries => s.readBuf P tries net buffer size) ↔
      (buffer = true → size ≠ 0 → s.handshakeDone = true → s.peekLen = 0 →
        (P.read s.ssl size).Final)) ∧
    (∀ s : Session σ, (Returns fun tries => s.peek P tries net) ↔
      (s.handshakeDone = true → s.peekLen = 0 → (P.read s.ssl 1).Final)) ∧
    (∀ (s : Session σ) buffer, (Returns fun tries => s.write P tries net buffer) ↔
      ∀ buf, buffer = some buf → buf ≠ [] → s.handshakeDone = true →
        (P.write s.ssl buf).Final) ∧
    (∀ io i, io.Obeys P.handshake →
      ((Returns fun tries => retry P.handshake net tries io i) ↔ io.Final)) ∧
    (∀ size io i, (io.Obeys fun ssl => P.read ssl size) →
      ((Returns fun tries => retry (fun ssl => P.read ssl size) net tries io i) ↔ io.Final)) ∧
    (∀ (s : Session σ) buf sent io i, (io.Obeys fun ssl => P.write ssl (buf.drop sent)) →
      ((Returns fun tries => s.writeLoop P net buf tries io sent i) ↔
        WriteFinal P buf sent io)) := by
  refine ⟨?_, ?_, ?_, ?_, ?_, ?_, ?_⟩
  · exact fun M setup e c hostname => doTlsHandshake_returns_iff M e c hostname hdead hP setup
  · exact fun s buffer size => readBuf_returns_iff hdead hP s buffer size
  · exact fun s => peek_returns_iff hdead hP s
  · exact fun s buffer => write_returns_iff hdead hP s buffer
  · exact fun io i hobeys => retry_returns_iff hdead hP.handshake hobeys
  · exact fun size io i hobeys => retry_returns_iff hdead (hP.read · size) hobeys
  · exact fun s buf sent io i hobeys => writeLoop_returns_iff hdead hP s buf sent hobeys

theorem byteRecords_obeys : Ssl.byteRecords.Obeys where
  handshake ssl := by
    refine ⟨fun c hc => ⟨ssl, ?_⟩, fun c _ => trivial⟩
    simp only [if_pos (neg_of_wants hc)]
  read ssl size := by
    cases ssl with
    | nil =>
      refine ⟨fun c bytes hc => ⟨[], if_pos (Int.le_of_lt (neg_of_wants hc))⟩, fun c bytes => ?_⟩
      dsimp only
      split_ifs
      · exact fun _ => trivial
      · cases bytes with
        | nil => exact fun hwants => by cases hwants
        | cons b bytes => exact fun hwants => by cases hwants
    | cons b ssl => exact fun hwants => by cases hwants
  write ssl buf := ⟨fun c hc => ⟨ssl, rfl⟩, fun c hc => trivial⟩
  write_done ssl buf ssl' ret data h := by cases h

/-- An established session with these bytes received, and a socket that has been reset. -/
def resetSession (ssl : List UInt8) : Session (List UInt8) := ⟨ssl, 3, true, true, 0, 0, 0⟩
def resetSocket (_ : Nat) : LwipResult := ⟨-1, []⟩

theorem resetSocket_dead : Dead resetSocket := fun _ => (by decide : (-1 : Int) < 0)

theorem read_resetSession :
    (¬ Returns fun tries => (resetSession []).readBuf .byteRecords tries resetSocket true 4) ∧
      Returns fun tries => (resetSession [7]).readBuf .byteRecords tries resetSocket true 4 := by
  obtain ⟨-, hread, -⟩ :=
    @retry_loops_end_iff _ Nat Nat Nat _ _ byteRecords_obeys _ resetSocket_dead
  constructor
  · exact fun h => (hread _ _ _).mp h rfl (by decide) rfl rfl
  · exact (hread _ _ _).mpr fun _ _ _ _ => rfl

/-- A read on a session whose connection has been reset. -/
theorem read_hangs : ¬ ∀ (P : Ssl (List UInt8)) (net : Nat → LwipResult), P.Obeys → Dead net →
    ∀ (s : Session (List UInt8)) buffer size,
      Returns fun tries => s.readBuf P tries net buffer size := by
  intro h
  have hreturns := h .byteRecords resetSocket byteRecords_obeys resetSocket_dead
    (resetSession []) true 4
  exact (readBuf_returns_iff resetSocket_dead byteRecords_obeys _ _ _).mp hreturns
    rfl (by decide) rfl rfl

end Bl616cl.Tls
