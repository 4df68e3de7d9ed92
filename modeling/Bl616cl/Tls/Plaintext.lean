import Bl616cl.Lib.Run
import Bl616cl.Tls.Session

/-!
# The plaintext of a TLS session

What the peer has sent is, in order, what the read calls have returned, the byte in `peek_buf_`,
what mbedTLS has decrypted, and what is still on the socket. `delivered_iff` says which calls break
this: `connected`, which closes the session when the socket is drained, and `available`, which does
not count the byte in `peek_buf_`.
-/

namespace Bl616cl.Tls

open Bl616cl.Lib

variable {σ : Type}

/-- What a read of up to `size` bytes does to the plaintext. `plain ssl wire` is the plaintext of
the bytes `wire` that the socket still has for the context `ssl`. -/
structure Reads (P : Ssl σ) (plain : σ → List UInt8 → List UInt8) (ssl : σ) (size : Nat)
    (a : Answer σ) : Prop where
  count : 0 < a.ret → a.ret = a.data.length ∧ a.data.length ≤ size
  empty : a.ret ≤ 0 → a.data = [] ∧ P.pending a.ssl = []
  buffered : P.pending ssl ≠ [] → 0 < a.ret
  kept : P.pending ssl <+: a.data ++ P.pending a.ssl
  order : ∀ wire, P.pending ssl ++ plain ssl (a.received ++ wire) =
    a.data ++ (P.pending a.ssl ++ plain a.ssl wire)

/-- What the session relies on mbedTLS for. -/
structure Ssl.Decrypts (P : Ssl σ) (plain : σ → List UInt8 → List UInt8) : Prop where
  read : ∀ ssl size net i, 0 < size → Reads P plain ssl size ((P.read ssl size).run net i)
  pending_lt : ∀ ssl, (P.pending ssl).length < 2 ^ 31
  pending_sessionReset : ∀ ssl, P.pending (P.sessionReset ssl) = []

/-- A call that has returned, with what its socket calls have returned: `lwip_select`, the
`lwip_recv` of `WiFiClient::connected`, and those made by mbedTLS. -/
inductive SessionCall where
  | available (select : Int)
  | peek (tries : Nat) (net : Nat → LwipResult)
  | read (tries : Nat) (net : Nat → LwipResult)
  | readBuf (tries : Nat) (net : Nat → LwipResult) (buffer : Bool) (size : Nat)
  | connected (probe : Int) (net : Nat → LwipResult)
  | stop (net : Nat → LwipResult)

namespace Session

variable (P : Ssl σ) (s : Session σ)

def call : SessionCall → Option (Reply σ)
  | .available select => some ⟨s, s.available P select, [], []⟩
  | .peek tries net => s.peek P tries net
  | .read tries net => s.read P tries net
  | .readBuf tries net buffer size => s.readBuf P tries net buffer size
  | .connected probe net =>
    let r := s.connected P net probe
    some ⟨r.1, r.2, [], []⟩
  | .stop net => some ⟨s.stop P net 0, 0, [], []⟩

/-- The bytes that are decrypted or held, and have not been returned. -/
def held : List UInt8 := if 0 < s.peekLen then [s.peekBuf] else []
def undelivered : List UInt8 := s.held ++ P.pending s.ssl

structure Established : Prop where
  handshakeDone : s.handshakeDone = true
  tlsSetup : s.tlsSetup = true
  sockfd : 0 ≤ s.sockfd
  peekLen : s.peekLen = 0

end Session

/-- A session with the bytes that its read calls have returned, and those that the peer has sent
and the socket has not given to mbedTLS. -/
structure Traffic (σ : Type) where
  session : Session σ
  returned : List UInt8
  wire : List UInt8

namespace Traffic

variable (P : Ssl σ) (plain : σ → List UInt8 → List UInt8)

def step (x : Traffic σ) (l : SessionCall) : Traffic σ :=
  match x.session.call P l with
  | none => x
  | some r => ⟨r.session, x.returned ++ r.data, x.wire.drop r.received.length⟩

/-- The call returns, and the socket gives it the bytes that are next on the wire. -/
def Valid (x : Traffic σ) (l : SessionCall) : Prop :=
  ∃ r, x.session.call P l = some r ∧ r.received <+: x.wire

/-- The call keeps to the plaintext. -/
structure Delivers (plaintext : List UInt8) (x : Traffic σ) (l : SessionCall) : Prop where
  inOrder : (step P x l).returned <+: plaintext
  kept : (∀ net, l ≠ .stop net) → x.returned ++ x.session.undelivered P <+:
    (step P x l).returned ++ (step P x l).session.undelivered P
  available : ∀ select, l = .available select → x.session.undelivered P ≠ [] →
    0 < x.session.available P select

/-- `connected` finds the socket drained and closed only when all is delivered; `available` is not
called with a byte held, nothing decrypted and nothing on the socket. -/
def Keeps (x : Traffic σ) : SessionCall → Prop
  | .connected probe _ => probe = 0 → x.session.undelivered P = []
  | .available select => x.session.held ≠ [] → P.pending x.session.ssl ≠ [] ∨ 0 < select
  | _ => True

instance (x : Traffic σ) : ∀ l, Decidable (Keeps P x l)
  | .connected probe _ => inferInstanceAs (Decidable (probe = 0 → x.session.undelivered P = []))
  | .available select => inferInstanceAs (Decidable
      (x.session.held ≠ [] → P.pending x.session.ssl ≠ [] ∨ 0 < select))
  | .peek _ _ | .read _ _ | .readBuf _ _ _ _ | .stop _ => inferInstanceAs (Decidable True)

/-- The invariant over runs. -/
structure Inv (plaintext : List UInt8) (x : Traffic σ) : Prop where
  live : x.session.handshakeDone = true → x.session.tlsSetup = true ∧ 0 ≤ x.session.sockfd ∧
    x.returned ++ (x.session.undelivered P ++ plain x.session.ssl x.wire) = plaintext
  closed : x.session.handshakeDone = false →
    x.session.undelivered P = [] ∧ x.returned <+: plaintext

end Traffic

/-! ## Reading -/

variable {P : Ssl σ} {plain : σ → List UInt8 → List UInt8} {ssl : σ} {size : Nat}
  {net : Nat → LwipResult} {i tries : Nat} {a : Answer σ}

theorem Reads.retry (hP : P.Decrypts plain) (hsize : 0 < size)
    (h : Tls.retry (fun ssl => P.read ssl size) net tries (P.read ssl size) i = some a) :
    Reads P plain ssl size a := by
  induction tries generalizing ssl i a with
  | zero => cases h
  | succ tries ih =>
    have hfirst := hP.read ssl size net i hsize
    rw [Tls.retry] at h
    by_cases hwants : wants ((P.read ssl size).run net i).ret = true
    · simp only [hwants, ite_true, Option.map_eq_some_iff] at h
      obtain ⟨b, hb, rfl⟩ := h
      have hrest := ih hb
      have hneg := Int.le_of_lt (neg_of_wants hwants)
      obtain ⟨hdata, hpending⟩ := hfirst.empty hneg
      have hnone : P.pending ssl = [] := by
        by_contra hne
        exact absurd (hfirst.buffered hne) (Int.not_lt.mpr hneg)
      refine ⟨hrest.count, hrest.empty, fun hne => absurd hnone hne, ?_, fun wire => ?_⟩
      · rw [hnone]
        exact List.nil_prefix
      · have horder := hfirst.order (b.received ++ wire)
        rw [hdata, List.nil_append, hrest.order wire] at horder
        rw [List.append_assoc, horder]
    · simp only [hwants] at h
      obtain rfl := Option.some.inj h
      exact hfirst

theorem Reads.pending_eq_nil (h : Reads P plain ssl size a) (hret : a.ret ≤ 0) :
    P.pending ssl = [] := by
  by_contra hne
  exact absurd (h.buffered hne) (Int.not_lt.mpr hret)

/-! ## Calls -/

/-- The session goes on, and the call moves plaintext from the wire towards the caller. -/
structure Moves (P : Ssl σ) (plain : σ → List UInt8 → List UInt8) (s : Session σ) (r : Reply σ) :
    Prop where
  handshakeDone : r.session.handshakeDone = s.handshakeDone
  tlsSetup : r.session.tlsSetup = s.tlsSetup
  sockfd : r.session.sockfd = s.sockfd
  kept : s.undelivered P <+: r.data ++ r.session.undelivered P
  order : ∀ wire, s.undelivered P ++ plain s.ssl (r.received ++ wire) =
    r.data ++ (r.session.undelivered P ++ plain r.session.ssl wire)

/-- The session is over. -/
structure Closes (P : Ssl σ) (r : Reply σ) : Prop where
  handshakeDone : r.session.handshakeDone = false
  undelivered : r.session.undelivered P = []
  data : r.data = []

variable {s : Session σ} {r : Reply σ} {l : SessionCall}

theorem moves_refl (ret : Int) : Moves P plain s ⟨s, ret, [], []⟩ :=
  ⟨rfl, rfl, rfl, List.prefix_refl _, fun _ => rfl⟩

/-- A read into the caller's buffer, after the byte held if there is one. -/
theorem Reads.moves (h : Reads P plain s.ssl size a) (ret lastError : Int) :
    Moves P plain s
      ⟨{ s with peekLen := 0, ssl := a.ssl, lastError := lastError }, ret, s.held ++ a.data,
        a.received⟩ := by
  refine ⟨rfl, rfl, rfl, ?_, fun wire => ?_⟩
  · simpa [Session.undelivered, Session.held] using h.kept
  · simpa [Session.undelivered, Session.held] using h.order wire

theorem stop_closes (hP : P.Decrypts plain) (h : s.tlsSetup = true ∨ P.pending s.ssl = []) (i : Nat)
    (ret : Int) (received : List UInt8) : Closes P ⟨s.stop P net i, ret, [], received⟩ := by
  refine ⟨rfl, ?_, rfl⟩
  cases hsetup : s.tlsSetup with
  | true => simp [Session.stop, Session.closeSocket, Session.undelivered, Session.held, hsetup,
      hP.pending_sessionReset]
  | false =>
    have hpending := h.resolve_left (by simp [hsetup])
    simp [Session.stop, Session.closeSocket, Session.undelivered, Session.held, hsetup, hpending]

theorem held_of_pos (h : 0 < s.peekLen) : s.held = [s.peekBuf] := if_pos h

theorem held_of_zero (h : s.peekLen = 0) : s.held = [] := if_neg (by omega)

theorem readBuf_held (hP : P.Decrypts plain) {buffer : Bool} (hpeek : 0 < s.peekLen)
    (h : s.readBuf P tries net buffer size = some r) : Moves P plain s r := by
  unfold Session.readBuf at h
  split_ifs at h with hguard hone
  · obtain rfl := Option.some.inj h
    exact moves_refl _
  · obtain rfl := Option.some.inj h
    refine ⟨rfl, rfl, rfl, ?_, fun wire => ?_⟩ <;>
      simp [Session.undelivered, Session.held, hpeek]
  · have hsize : 0 < size - 1 := by
      simp only [Bool.or_eq_true, beq_iff_eq, not_or] at hguard
      omega
    have hreads := hP.read s.ssl (size - 1) net 0 hsize
    have hmoves := hreads.moves
    rw [held_of_pos hpeek] at hmoves
    dsimp only at h
    split_ifs at h with hret
    · obtain rfl := Option.some.inj h
      have hdata := (hreads.empty hret).1
      have hm := hmoves 1 s.lastError
      rw [hdata] at hm
      exact hm
    · obtain rfl := Option.some.inj h
      exact hmoves _ s.lastError

theorem readBuf_loop (hP : P.Decrypts plain) (hsetup : s.tlsSetup = true) {buffer : Bool}
    (hpeek : s.peekLen = 0) (h : s.readBuf P tries net buffer size = some r) :
    Moves P plain s r ∨ Closes P r ∧ s.undelivered P = [] := by
  unfold Session.readBuf at h
  rw [if_neg (by omega : ¬ 0 < s.peekLen)] at h
  split_ifs at h with hguard
  · obtain rfl := Option.some.inj h
    exact Or.inl (moves_refl _)
  · obtain ⟨a, ha, rfl⟩ := Option.map_eq_some_iff.mp h
    have hsize : 0 < size := by
      simp only [Bool.or_eq_true, beq_iff_eq, not_or] at hguard
      omega
    have hreads := Reads.retry hP hsize ha
    have hmoves := hreads.moves
    rw [held_of_zero hpeek] at hmoves
    split_ifs with hret hclosed
    · have hnone : s.undelivered P = [] := by
        rw [Session.undelivered, held_of_zero hpeek, hreads.pending_eq_nil hret, List.nil_append]
      let s' : Session σ := { s with ssl := a.ssl, lastError := a.ret }
      have hcloses : Closes P ⟨s'.stop P net a.calls, -1, [], a.received⟩ :=
        stop_closes hP (Or.inl (show s'.tlsSetup = true from hsetup)) a.calls (-1) a.received
      exact Or.inr ⟨hcloses, hnone⟩
    · have hm := hmoves (-1) a.ret
      rw [(hreads.empty hret).1, ← hpeek] at hm
      exact Or.inl hm
    · have hm := hmoves a.ret s.lastError
      rw [← hpeek] at hm
      exact Or.inl hm

theorem readBuf_cases (hP : P.Decrypts plain) (hsetup : s.tlsSetup = true) {buffer : Bool}
    (h : s.readBuf P tries net buffer size = some r) :
    Moves P plain s r ∨ Closes P r ∧ s.undelivered P = [] := by
  rcases Nat.eq_zero_or_pos s.peekLen with hpeek | hpeek
  · exact readBuf_loop hP hsetup hpeek h
  · exact Or.inl (readBuf_held hP hpeek h)

theorem read_cases (hP : P.Decrypts plain) (hsetup : s.tlsSetup = true)
    (h : s.read P tries net = some r) :
    Moves P plain s r ∨ Closes P r ∧ s.undelivered P = [] := by
  obtain ⟨r', hr', rfl⟩ := Option.map_eq_some_iff.mp h
  rcases readBuf_cases hP hsetup hr' with hmoves | ⟨hcloses, hnone⟩
  · exact Or.inl ⟨hmoves.handshakeDone, hmoves.tlsSetup, hmoves.sockfd, hmoves.kept, hmoves.order⟩
  · exact Or.inr ⟨⟨hcloses.handshakeDone, hcloses.undelivered, hcloses.data⟩, hnone⟩

/-- `peek` moves a decrypted byte to `peek_buf_`. -/
theorem peek_moves (hP : P.Decrypts plain) (h : s.peek P tries net = some r) :
    Moves P plain s r := by
  unfold Session.peek at h
  split_ifs at h with hpeek hdone
  · obtain rfl := Option.some.inj h
    exact moves_refl _
  · obtain rfl := Option.some.inj h
    exact moves_refl _
  · obtain ⟨a, ha, rfl⟩ := Option.map_eq_some_iff.mp h
    have hreads := Reads.retry hP Nat.one_pos ha
    have hheld := held_of_zero (Nat.eq_zero_of_not_pos hpeek)
    split_ifs with hret
    · obtain ⟨b, hb⟩ : ∃ b, a.data = [b] := by
        have hlen := (hreads.count (by omega)).1
        exact List.length_eq_one_iff.mp (by omega)
      have hkept := hreads.kept
      have horder := hreads.order
      rw [hb] at hkept horder
      refine ⟨rfl, rfl, rfl, ?_, fun wire => ?_⟩
      · simpa [Session.undelivered, Session.held, hpeek, hb] using hkept
      · simpa [Session.undelivered, Session.held, hpeek, hb] using horder wire
    · have hneg : a.ret ≤ 0 := by
        by_contra hpos
        obtain ⟨hlen, hle⟩ := hreads.count (Int.not_le.mp hpos)
        omega
      have hkept := hreads.kept
      have horder := hreads.order
      rw [(hreads.empty hneg).1] at hkept horder
      refine ⟨rfl, rfl, rfl, ?_, fun wire => ?_⟩
      · simpa [Session.undelivered, Session.held, hpeek] using hkept
      · simpa [Session.undelivered, Session.held, hpeek] using horder wire

/-! ## Runs -/

namespace Traffic

variable {x : Traffic σ} {plaintext : List UInt8}

theorem readBuf_over (hdone : s.handshakeDone = false) (buffer : Bool) :
    s.readBuf P tries net buffer size = some ⟨s, -1, [], []⟩ := by
  simp [Session.readBuf, hdone]

theorem call_over (hP : P.Decrypts plain) (hdone : s.handshakeDone = false)
    (hnone : s.undelivered P = []) (h : s.call P l = some r) : Closes P r := by
  obtain ⟨hheld, hpending⟩ := List.append_eq_nil_iff.mp hnone
  have hpeek : ¬ 0 < s.peekLen := by
    intro hpos
    rw [held_of_pos hpos] at hheld
    cases hheld
  cases l with
  | available select =>
    obtain rfl := Option.some.inj h
    exact ⟨hdone, hnone, rfl⟩
  | peek tries net =>
    simp only [Session.call, Session.peek, hpeek, hdone] at h
    obtain rfl := Option.some.inj h
    exact ⟨hdone, hnone, rfl⟩
  | read tries net =>
    simp only [Session.call, Session.read, readBuf_over hdone] at h
    obtain rfl := Option.some.inj h
    exact ⟨hdone, hnone, rfl⟩
  | readBuf tries net buffer size =>
    simp only [Session.call, readBuf_over hdone] at h
    obtain rfl := Option.some.inj h
    exact ⟨hdone, hnone, rfl⟩
  | connected probe net =>
    simp only [Session.call, Session.connected, hdone] at h
    obtain rfl := Option.some.inj h
    exact ⟨hdone, hnone, rfl⟩
  | stop net =>
    obtain rfl := Option.some.inj h
    exact stop_closes hP (Or.inr hpending) 0 0 []

/-- In a session that goes on, a call moves plaintext or closes it. -/
theorem call_live (hP : P.Decrypts plain) (hsetup : s.tlsSetup = true)
    (h : s.call P l = some r) : Moves P plain s r ∨ Closes P r := by
  cases l with
  | available select =>
    obtain rfl := Option.some.inj h
    exact Or.inl (moves_refl _)
  | peek tries net => exact Or.inl (peek_moves hP h)
  | read tries net => exact (read_cases hP hsetup h).imp_right And.left
  | readBuf tries net buffer size => exact (readBuf_cases hP hsetup h).imp_right And.left
  | connected probe net =>
    obtain rfl := Option.some.inj h
    unfold Session.connected
    split_ifs
    · exact Or.inl (moves_refl _)
    · exact Or.inl (moves_refl _)
    · exact Or.inl (moves_refl _)
    · exact Or.inr (stop_closes hP (Or.inl hsetup) 0 0 [])
    · exact Or.inl (moves_refl _)
  | stop net =>
    obtain rfl := Option.some.inj h
    exact Or.inr (stop_closes hP (Or.inl hsetup) 0 0 [])

theorem step_of_call (h : x.session.call P l = some r) :
    step P x l = ⟨r.session, x.returned ++ r.data, x.wire.drop r.received.length⟩ := by
  unfold step
  rw [h]

theorem Inv.returned_inOrder (h : Inv P plain plaintext x) : x.returned <+: plaintext := by
  cases hdone : x.session.handshakeDone with
  | true =>
    obtain ⟨-, -, heq⟩ := h.live hdone
    exact ⟨_, heq⟩
  | false => exact (h.closed hdone).2

theorem Inv.step (hP : P.Decrypts plain) (h : Inv P plain plaintext x) (hv : Valid P x l) :
    Inv P plain plaintext (step P x l) := by
  obtain ⟨r, hr, wire, hwire⟩ := hv
  have hclosed : Closes P r → Inv P plain plaintext (Traffic.step P x l) := by
    intro hcloses
    rw [step_of_call hr]
    refine ⟨fun hdone => ?_, fun _ => ⟨hcloses.undelivered, ?_⟩⟩
    · rw [hcloses.handshakeDone] at hdone
      cases hdone
    · rw [hcloses.data, List.append_nil]
      exact h.returned_inOrder
  cases hdone : x.session.handshakeDone with
  | true =>
    obtain ⟨hsetup, hfd, heq⟩ := h.live hdone
    rcases call_live hP hsetup hr with hmoves | hcloses
    · rw [step_of_call hr]
      refine ⟨fun _ => ⟨hmoves.tlsSetup.trans hsetup, ?_, ?_⟩, fun hover => ?_⟩
      · rw [hmoves.sockfd]
        exact hfd
      · have hdrop : x.wire.drop r.received.length = wire := by
          rw [← hwire, List.drop_left]
        show x.returned ++ r.data ++ (r.session.undelivered P ++
          plain r.session.ssl (x.wire.drop r.received.length)) = plaintext
        rw [hdrop, List.append_assoc, ← hmoves.order wire, hwire, heq]
      · rw [hmoves.handshakeDone, hdone] at hover
        cases hover
    · exact hclosed hcloses
  | false => exact hclosed (call_over hP hdone (h.closed hdone).1 hr)

theorem inv_of_established (hs : s.Established) (wire : List UInt8) :
    Inv P plain (P.pending s.ssl ++ plain s.ssl wire) ⟨s, [], wire⟩ := by
  refine ⟨fun _ => ⟨hs.tlsSetup, hs.sockfd, ?_⟩, fun hdone => ?_⟩
  · show s.undelivered P ++ plain s.ssl wire = _
    rw [Session.undelivered, held_of_zero hs.peekLen, List.nil_append]
  · rw [hs.handshakeDone] at hdone
    cases hdone

/-! ## Which calls deliver -/

theorem kept_of_moves (hr : x.session.call P l = some r)
    (h : Moves P plain x.session r ∨ Closes P r ∧ x.session.undelivered P = []) :
    x.returned ++ x.session.undelivered P <+:
      (Traffic.step P x l).returned ++ (Traffic.step P x l).session.undelivered P := by
  rw [step_of_call hr]
  show _ <+: x.returned ++ r.data ++ r.session.undelivered P
  rw [List.append_assoc]
  refine List.prefix_append_right_inj x.returned |>.mpr ?_
  rcases h with hmoves | ⟨-, hnone⟩
  · exact hmoves.kept
  · rw [hnone]
    exact List.nil_prefix

theorem delivers_of_reads (hP : P.Decrypts plain) (h : Inv P plain plaintext x) (hv : Valid P x l)
    (hr : x.session.call P l = some r) (hl : ∀ select, l ≠ .available select)
    (hmoves : Moves P plain x.session r ∨ Closes P r ∧ x.session.undelivered P = []) :
    Delivers P plaintext x l :=
  ⟨(h.step hP hv).returned_inOrder, fun _ => kept_of_moves hr hmoves,
    fun select e => absurd e (hl select)⟩

theorem available_pos_iff (hP : P.Decrypts plain) (hdone : s.handshakeDone = true)
    (hfd : 0 ≤ s.sockfd) (select : Int) :
    (s.undelivered P ≠ [] → 0 < s.available P select) ↔
      (s.held ≠ [] → P.pending s.ssl ≠ [] ∨ 0 < select) := by
  have hint := toInt32_of_lt (hP.pending_lt s.ssl)
  have hopen : ¬ s.sockfd < 0 := Int.not_lt.mpr hfd
  have hcount : 0 < s.available P select ↔ P.pending s.ssl ≠ [] ∨ 0 < select := by
    unfold Session.available
    by_cases hselect : 0 < select
    · simp [hdone, hopen, hselect]
    · simp [hdone, hopen, hselect, hint, List.length_pos_iff]
  rw [hcount, Session.undelivered]
  constructor
  · exact fun h hheld => h (by simp [hheld])
  · intro h hne
    by_cases hheld : s.held = []
    · rw [hheld] at hne
      exact Or.inl hne
    · exact h hheld

theorem delivers_available (hP : P.Decrypts plain) (h : Inv P plain plaintext x) {select : Int}
    (hdone : x.session.handshakeDone = true) :
    Delivers P plaintext x (.available select) ↔ Keeps P x (.available select) := by
  obtain ⟨-, hfd, -⟩ := h.live hdone
  rw [Keeps, ← available_pos_iff hP hdone hfd select]
  constructor
  · exact fun hd => hd.available select rfl
  · intro havail
    have hmoves : Moves P plain x.session ⟨x.session, x.session.available P select, [], []⟩ :=
      moves_refl _
    refine ⟨?_, fun _ => kept_of_moves rfl (Or.inl hmoves), ?_⟩
    · show x.returned ++ [] <+: plaintext
      rw [List.append_nil]
      exact h.returned_inOrder
    · rintro _ ⟨⟩
      exact havail

theorem delivers_connected (hP : P.Decrypts plain) (h : Inv P plain plaintext x) {probe : Int}
    (hdone : x.session.handshakeDone = true) :
    Delivers P plaintext x (.connected probe net) ↔ Keeps P x (.connected probe net) := by
  obtain ⟨hsetup, hfd, -⟩ := h.live hdone
  have hopen : ¬ x.session.sockfd < 0 := Int.not_lt.mpr hfd
  have hv : Valid P x (.connected probe net) := ⟨_, rfl, List.nil_prefix⟩
  have horder := (h.step hP hv).returned_inOrder
  by_cases hprobe : probe = 0
  · subst hprobe
    have hcall : x.session.call P (.connected 0 net) =
        some ⟨x.session.stop P net 0, 0, [], []⟩ := by
      simp [Session.call, Session.connected, hdone, hopen]
    have hcloses : Closes P ⟨x.session.stop P net 0, 0, [], []⟩ :=
      stop_closes hP (Or.inl hsetup) 0 0 []
    constructor
    · intro hd _
      have hkept := hd.kept fun _ e => by cases e
      rw [step_of_call hcall] at hkept
      have hle := hkept.length_le
      simp only [hcloses.undelivered, List.append_nil, List.length_append] at hle
      exact List.length_eq_zero_iff.mp (by omega)
    · intro hkeeps
      exact delivers_of_reads hP h hv hcall (fun _ e => by cases e) (Or.inr ⟨hcloses, hkeeps rfl⟩)
  · refine iff_of_true ?_ fun e => absurd e hprobe
    have hsame : (x.session.connected P net probe).1 = x.session := by
      unfold Session.connected
      split_ifs <;> rfl
    have hmoves : Moves P plain x.session
        ⟨(x.session.connected P net probe).1, (x.session.connected P net probe).2, [], []⟩ := by
      rw [hsame]
      exact moves_refl _
    exact delivers_of_reads hP h hv rfl (fun _ e => by cases e) (Or.inl hmoves)

theorem delivers_over (hP : P.Decrypts plain) (h : Inv P plain plaintext x) (hv : Valid P x l)
    (hdone : x.session.handshakeDone = false) :
    Delivers P plaintext x l ∧ Keeps P x l := by
  obtain ⟨hnone, -⟩ := h.closed hdone
  obtain ⟨r, hr, -⟩ := id hv
  have hcloses := call_over hP hdone hnone hr
  have hkept := kept_of_moves hr (Or.inr ⟨hcloses, hnone⟩ : Moves P plain x.session r ∨ _)
  refine ⟨⟨(h.step hP hv).returned_inOrder, fun _ => hkept, fun _ _ hne => absurd hnone hne⟩, ?_⟩
  cases l with
  | connected probe net => exact fun _ => hnone
  | available select => exact fun hheld => absurd (List.append_eq_nil_iff.mp hnone).1 hheld
  | _ => trivial

theorem delivers_iff_keeps (hP : P.Decrypts plain) (h : Inv P plain plaintext x)
    (hv : Valid P x l) : Delivers P plaintext x l ↔ Keeps P x l := by
  cases hdone : x.session.handshakeDone with
  | false =>
    obtain ⟨hdelivers, hkeeps⟩ := delivers_over hP h hv hdone
    exact iff_of_true hdelivers hkeeps
  | true =>
    obtain ⟨hsetup, -, -⟩ := h.live hdone
    obtain ⟨r, hr, -⟩ := id hv
    cases l with
    | available select => exact delivers_available hP h hdone
    | connected probe net => exact delivers_connected hP h hdone
    | peek tries net =>
      refine iff_of_true ?_ trivial
      exact delivers_of_reads hP h hv hr (fun _ e => by cases e) (Or.inl (peek_moves hP hr))
    | read tries net =>
      refine iff_of_true ?_ trivial
      exact delivers_of_reads hP h hv hr (fun _ e => by cases e) (read_cases hP hsetup hr)
    | readBuf tries net buffer size =>
      refine iff_of_true ?_ trivial
      exact delivers_of_reads hP h hv hr (fun _ e => by cases e) (readBuf_cases hP hsetup hr)
    | stop net =>
      refine iff_of_true ⟨(h.step hP hv).returned_inOrder, ?_, ?_⟩ trivial
      · exact fun hne => absurd rfl (hne net)
      · exact fun _ e => by cases e

/-- **Plaintext**: over the calls of an established session, each delivers exactly if `connected`
never finds the socket drained and closed before all is delivered, and `available` is never called
with a byte held, nothing decrypted and nothing on the socket. -/
theorem delivered_iff (hP : P.Decrypts plain) (hs : s.Established) {wire : List UInt8}
    {ls : List SessionCall} (hrun : Meets (Traffic.step P) (Valid P) ⟨s, [], wire⟩ ls) :
    Meets (Traffic.step P) (Delivers P (P.pending s.ssl ++ plain s.ssl wire)) ⟨s, [], wire⟩ ls ↔
      Meets (Traffic.step P) (Keeps P) ⟨s, [], wire⟩ ls :=
  meets_congr (fun _ _ h hv => h.step hP hv) (fun _ _ h hv => delivers_iff_keeps hP h hv)
    (inv_of_established hs wire) hrun

/-! ## A byte that is held -/

theorem received_eq_nil {r : LwipResult} (h : tlsRecv r ≤ 0) : r.received = [] := by
  unfold tlsRecv at h
  refine if_neg ?_
  split_ifs at h <;> omega

theorem byteRecords_decrypts : Ssl.byteRecords.Decrypts fun ssl wire => ssl ++ wire where
  read ssl size net i hsize := by
    cases ssl with
    | cons b ssl =>
      exact ⟨fun _ => ⟨rfl, hsize⟩, fun h => absurd h (by simp [Ssl.byteRecords, Io.run]),
        fun h => absurd rfl h, List.nil_prefix, fun _ => rfl⟩
    | nil =>
      simp only [Ssl.byteRecords, Io.run]
      split_ifs with hc
      · rw [received_eq_nil hc]
        exact ⟨fun h => absurd h (Int.not_lt.mpr hc), fun _ => ⟨rfl, rfl⟩, fun h => absurd rfl h,
          List.nil_prefix, fun _ => rfl⟩
      · cases (net i).received with
        | nil =>
          exact ⟨fun h => absurd h (by simp [Io.run]), fun _ => ⟨rfl, rfl⟩, fun h => absurd rfl h,
            List.nil_prefix, fun _ => rfl⟩
        | cons b bytes =>
          refine ⟨fun _ => ⟨rfl, hsize⟩, fun h => absurd h (by simp [Io.run]),
            fun h => absurd rfl h, List.nil_prefix, fun wire => ?_⟩
          simp [Io.run]
  pending_lt _ := Nat.two_pow_pos 31
  pending_sessionReset _ := rfl

/-- An established session; the peer's bytes come with the first read, and then nothing. -/
def newSession : Session (List UInt8) := ⟨[], 3, true, true, 0, 0, 0⟩
def hello (bytes : List UInt8) (_ : Nat) : LwipResult := ⟨bytes.length, bytes⟩

theorem newSession_established : newSession.Established := ⟨rfl, rfl, by decide, rfl⟩

theorem delivered_hello : Meets (step .byteRecords) (Delivers .byteRecords [72, 105])
    ⟨newSession, [], [72, 105]⟩
    [.available 1, .peek 1 (hello [72, 105]), .connected 1 (hello []), .read 1 (hello []),
      .readBuf 1 (hello []) true 8, .connected 0 (hello []), .read 1 (hello [])] := by
  refine (delivered_iff byteRecords_decrypts newSession_established ?_).mpr ?_
  · refine ⟨⟨_, rfl, ?_⟩, ⟨_, rfl, ?_⟩, ⟨_, rfl, ?_⟩, ⟨_, rfl, ?_⟩, ⟨_, rfl, ?_⟩, ⟨_, rfl, ?_⟩,
      ⟨_, rfl, ?_⟩, trivial⟩ <;> decide
  · decide

/-- The peer sends one byte and closes; the sketch peeks it, asks whether the session is still
connected, and never reads it. -/
theorem held_byte_lost : ¬ ∀ (P : Ssl (List UInt8)) plain (s : Session (List UInt8)) wire ls,
    P.Decrypts plain → s.Established → Meets (step P) (Valid P) ⟨s, [], wire⟩ ls →
      Meets (step P) (Delivers P (P.pending s.ssl ++ plain s.ssl wire)) ⟨s, [], wire⟩ ls := by
  intro h
  have hrun := h .byteRecords _ newSession [72] [.peek 1 (hello [72]), .connected 0 (hello [])]
    byteRecords_decrypts newSession_established
    ⟨⟨_, rfl, by decide⟩, ⟨_, rfl, by decide⟩, trivial⟩
  exact absurd (hrun.2.1.kept fun _ e => by cases e) (by decide)

end Traffic

end Bl616cl.Tls
