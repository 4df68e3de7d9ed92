import Mathlib.Tactic.Common

/-!
# Echo replies

How `esp_ping_task` decides whether what `lwip_recvfrom` has put into `reply` answers the request
just sent. The raw socket delivers ICMP packets with their IP header, and the place of the ICMP
header is taken from its length field.
-/

namespace Bl616cl.Ping

/-- `ESP_PING_ICMP_ID`. -/
def echoId : Nat := 0xAFAF

/-- `sizeof(reply)`. -/
def replySize : Nat := 64

/-- `sizeof(struct ip_hdr) + sizeof(struct icmp_echo_hdr)`. -/
def headersSize : Nat := 28

/-! ## Headers in memory -/

def byteAt (m : List UInt8) (k : Nat) : UInt8 := m.getD k 0

/-- A 16-bit field, in network order. -/
def fieldAt (m : List UInt8) (k : Nat) : Nat := (byteAt m k).toNat * 256 + (byteAt m (k + 1)).toNat

/-- `IPH_HL(iphdr) * 4`. -/
def icmpOffset (m : List UInt8) : Nat := (byteAt m 0).toNat % 16 * 4

/-- The bytes there are those of an echo reply with this sequence number. -/
def Answers (m : List UInt8) (seqno : Nat) : Prop :=
  byteAt m (icmpOffset m) = 0 ∧ fieldAt m (icmpOffset m + 4) = echoId ∧
    fieldAt m (icmpOffset m + 6) = seqno

instance (m : List UInt8) (seqno : Nat) : Decidable (Answers m seqno) :=
  inferInstanceAs (Decidable (_ ∧ _))

/-- An ICMP packet of the host, from its IP header on. -/
structure Packet where
  bytes : List UInt8
  source : UInt32
  deriving DecidableEq, Repr

/-- What `lwip_recvfrom` leaves: `len`, `from.sin_addr` and the memory from `reply` on. Past `len`
it is as it was. -/
structure Reply where
  len : Nat
  source : UInt32
  mem : List UInt8
  deriving DecidableEq, Repr

namespace Packet

variable (p : Packet) (target : UInt32) (seqno : Nat)

def received (stack : List UInt8) : Reply :=
  ⟨min p.bytes.length replySize, p.source, p.bytes.take replySize ++ stack⟩

/-- An echo reply from the target, with the session's identifier and this sequence number. -/
def Wanted : Prop :=
  p.source = target ∧ 20 ≤ icmpOffset p.bytes ∧ icmpOffset p.bytes + 8 ≤ p.bytes.length ∧
    Answers p.bytes seqno

/-- The part that is received is a reply with this sequence number. -/
def Carries : Prop :=
  p.source = target ∧ icmpOffset p.bytes + 8 ≤ min p.bytes.length replySize ∧
    Answers p.bytes seqno

instance : Decidable (p.Wanted target seqno) := inferInstanceAs (Decidable (_ ∧ _))

instance : Decidable (p.Carries target seqno) := inferInstanceAs (Decidable (_ ∧ _))

end Packet

namespace Reply

variable (r : Reply) (target : UInt32) (seqno : Nat)

/-- Whether the request with this sequence number has been answered, and the bytes of `reply` that
are read to decide it. -/
def echoed : Bool × List Nat :=
  let o := icmpOffset r.mem
  if r.len < headersSize ∨ r.source ≠ target then (false, [])
  else if byteAt r.mem o ≠ 0 then (false, [0, o])
  else if fieldAt r.mem (o + 4) ≠ echoId then (false, [0, o, o + 4, o + 5])
  else (decide (fieldAt r.mem (o + 6) = seqno), [0, o, o + 4, o + 5, o + 6, o + 7])

/-- If the ICMP header is looked at, its type lies within the bytes received; so does its
identifier in an echo reply, and its sequence number in one with the session's identifier. -/
def Inside : Prop :=
  headersSize ≤ r.len → r.source = target → icmpOffset r.mem < r.len ∧
    (byteAt r.mem (icmpOffset r.mem) = 0 → icmpOffset r.mem + 5 < r.len ∧
      (fieldAt r.mem (icmpOffset r.mem + 4) = echoId → icmpOffset r.mem + 7 < r.len))

variable {r target seqno}

theorem echoed_iff : (r.echoed target seqno).1 = true ↔
    headersSize ≤ r.len ∧ r.source = target ∧ Answers r.mem seqno := by
  unfold echoed Answers
  dsimp only
  split
  · next h =>
    refine ⟨fun h' => (nomatch h'), fun ⟨hlen, hsource, _⟩ => ?_⟩
    exact absurd h (not_or.mpr ⟨Nat.not_lt.mpr hlen, not_not.mpr hsource⟩)
  · next h =>
    obtain ⟨hlen, hsource⟩ : headersSize ≤ r.len ∧ r.source = target := by simpa using h
    split
    · next htype => exact ⟨fun h' => (nomatch h'), fun h' => absurd h'.2.2.1 htype⟩
    · next htype =>
      split
      · next hid => exact ⟨fun h' => (nomatch h'), fun h' => absurd h'.2.2.2.1 hid⟩
      · next hid => simp [hlen, hsource, not_not.mp htype, not_not.mp hid]

/-- **Echo**: all that is read of the reply has been received if and only if the ICMP header, as far
as it is looked at, lies within it. -/
theorem echoed_inside_iff (target : UInt32) (seqno : Nat) (r : Reply) :
    (∀ k ∈ (r.echoed target seqno).2, k < r.len) ↔ r.Inside target := by
  unfold echoed Inside
  dsimp only
  split
  · next h =>
    refine ⟨fun _ hlen hsource => ?_, fun _ k hk => (nomatch hk)⟩
    exact absurd h (not_or.mpr ⟨Nat.not_lt.mpr hlen, not_not.mpr hsource⟩)
  · next h =>
    obtain ⟨hlen, hsource⟩ : headersSize ≤ r.len ∧ r.source = target := by simpa using h
    have hpos : 0 < r.len := Nat.lt_of_lt_of_le (by decide) hlen
    split
    · next htype => simp [hlen, hsource, htype, hpos]
    · next htype =>
      split
      · next hid =>
        simp [hlen, hsource, not_not.mp htype, hid, hpos]
        omega
      · next hid =>
        simp [hlen, hsource, not_not.mp htype, not_not.mp hid, hpos]
        omega

/-- A header without options leaves the ICMP header within the smallest reply that is looked at. -/
theorem inside_of_noOptions (h : icmpOffset r.mem ≤ 20) : r.Inside target := by
  intro hlen _
  unfold headersSize at hlen
  refine ⟨by omega, fun _ => ⟨by omega, fun _ => by omega⟩⟩

/-- A header of 60 bytes, in a reply of 28. -/
theorem not_echoed_inside : ¬ ∀ (target : UInt32) (seqno : Nat) (r : Reply),
    r.len ≤ replySize → ∀ k ∈ (r.echoed target seqno).2, k < r.len := by
  intro h
  have hread := h 0 1 ⟨28, 0, 0x4F :: List.replicate 27 0⟩ (by decide) 60 (by decide)
  exact absurd hread (by decide)

end Reply

/-! ## What is received of a packet -/

theorem byteAt_received {p : Packet} {k : Nat} (stack : List UInt8)
    (h : k < min p.bytes.length replySize) :
    byteAt (p.received stack).mem k = byteAt p.bytes k := by
  have hk : k < (p.bytes.take replySize).length := by rw [List.length_take]; omega
  unfold byteAt Packet.received
  rw [List.getD_eq_getElem?_getD, List.getD_eq_getElem?_getD, List.getElem?_append_left hk,
    List.getElem?_take_of_lt (by omega)]

theorem answers_received {p : Packet} {seqno : Nat} (stack : List UInt8)
    (h : icmpOffset p.bytes + 8 ≤ min p.bytes.length replySize) :
    Answers (p.received stack).mem seqno ↔ Answers p.bytes seqno := by
  have hoffset : icmpOffset (p.received stack).mem = icmpOffset p.bytes := by
    unfold icmpOffset
    rw [byteAt_received stack (by omega)]
  have hfield : ∀ k < 7, fieldAt (p.received stack).mem (icmpOffset p.bytes + k) =
      fieldAt p.bytes (icmpOffset p.bytes + k) := by
    intro k hk
    unfold fieldAt
    rw [byteAt_received stack (by omega), byteAt_received stack (by omega)]
  unfold Answers
  rw [hoffset, byteAt_received stack (by omega), hfield 4 (by omega), hfield 6 (by omega)]

end Bl616cl.Ping
