import Bl616cl.Hci.Packet

/-!
# The parser on packets and on arbitrary bytes

From a packet boundary (`rxState = .type`) the parser delivers a sequence of packets exactly
(`feed_encodeAll`), up to the first ACL packet of 256 bytes or more: its 8-bit index never
reaches the 16-bit length, and the parser swallows every byte from there on (`Stuck`).

On arbitrary bytes, two parsers that agree on the live variables of their state make the same
calls (`Agree`), and the frames delivered never hold more bytes than were fed
(`frameBytes_feedAll`).
-/

namespace Bl616cl.Hci

variable (ctl : Controller) (calls : List Call) {p q : Parser} {bytes : List UInt8}

/-! ## Payloads -/

/-- The calls made when the last byte of a payload has come in. -/
def received (ctl : Controller) (calls : List Call) (p : Parser) (payload : List UInt8) :
    List Call :=
  if p.rxState = .cmdPayload then
    [.cmdReceived HCI_TL_H4 (le16 (p.rxHdr 0) (p.rxHdr 1)) p.rxPktLen (some payload)]
  else
    .aclTxDataAlloc HCI_TL_H4 p.rxHdlFlags p.rxPktLen ::
      if ctl calls p.rxHdlFlags p.rxPktLen then
        [.aclTxDataReceived HCI_TL_H4 p.rxHdlFlags p.rxPktLen (some payload)]
      else []

/-- The parser is reading a payload. -/
def InPayload (p : Parser) : Prop := p.rxState = .cmdPayload ∨ p.rxState = .aclPayload

theorem feed_payload_more (hst : InPayload p) {b : UInt8}
    (h : (p.rxIdx + 1) % 256 ≠ p.rxPktLen) :
    hciParserFeed ctl (p, calls) b = (p.pushPayload b, calls) := by
  rcases hst with hst | hst <;> simp [hciParserFeed, hst, Parser.pushPayload, h]

theorem feed_payload_last (hst : InPayload p) {b : UInt8}
    (h : p.rxIdx + 1 = p.rxPktLen) (hlt : p.rxPktLen < 256) :
    hciParserFeed ctl (p, calls) b = ({ p.pushPayload b with rxState := .type },
      calls ++ received ctl calls p (bytesAt p.hciPayload p.rxIdx ++ [b])) := by
  have hidx : (p.rxIdx + 1) % 256 = p.rxPktLen := by omega
  have hbytes := bytesAt_update p.hciPayload p.rxIdx b
  rw [h] at hbytes
  rcases hst with hst | hst
  · simp [hciParserFeed, hst, Parser.pushPayload, hidx, received, Nat.mod_eq_of_lt hlt, hbytes]
  · cases hctl : ctl calls p.rxHdlFlags p.rxPktLen <;>
      simp [hciParserFeed, hst, Parser.pushPayload, hidx, received, hbytes, hctl]

/-- A payload shorter than 256 bytes is delivered whole. -/
theorem feed_payload (hst : InPayload p) (hne : bytes ≠ [])
    (hlen : p.rxIdx + bytes.length = p.rxPktLen) (hlt : p.rxPktLen < 256) :
    ∃ q, q.rxState = .type ∧ feedAll ctl (p, calls) bytes =
      (q, calls ++ received ctl calls p (bytesAt p.hciPayload p.rxIdx ++ bytes)) := by
  induction bytes generalizing p with
  | nil => exact absurd rfl hne
  | cons b bs ih =>
    rw [List.length_cons] at hlen
    cases bs with
    | nil =>
      refine ⟨{ p.pushPayload b with rxState := .type }, rfl, ?_⟩
      rw [feedAll_cons, feedAll_nil, feed_payload_last ctl calls hst hlen hlt]
    | cons b' bs =>
      rw [List.length_cons] at hlen
      have hmore : (p.rxIdx + 1) % 256 ≠ p.rxPktLen := by omega
      have hidx : (p.pushPayload b).rxIdx = p.rxIdx + 1 := by simp only [Parser.pushPayload]; omega
      obtain ⟨q, hq, hfeed⟩ := ih (p := p.pushPayload b) hst (by simp)
        (by rw [hidx, List.length_cons]; simp only [Parser.pushPayload]; omega) hlt
      refine ⟨q, hq, ?_⟩
      rw [feedAll_cons, feed_payload_more ctl calls hst hmore, hfeed, hidx]
      simp [received, Parser.pushPayload, bytesAt_update]

/-! ## Headers -/

theorem feed_cmdHdr (hst : p.rxState = .type) (b0 b1 b2 : UInt8) :
    ∃ q, q.rxState = (if b2.toNat = 0 then .type else .cmdPayload) ∧
      q.rxHdr 0 = b0 ∧ q.rxHdr 1 = b1 ∧ q.rxIdx = 0 ∧ q.rxPktLen = b2.toNat ∧
      feedAll ctl (p, calls) [0x01, b0, b1, b2] = (q, calls ++ [.cmdGetMaxParamSize (le16 b0 b1)] ++
        if b2.toNat = 0 then [.cmdReceived HCI_TL_H4 (le16 b0 b1) 0 none] else []) := by
  by_cases hb : b2.toNat = 0 <;>
    simp [hciParserFeed, hst, Parser.pushHdr, hb]

theorem feed_aclHdr (hst : p.rxState = .type) (b0 b1 b2 b3 : UInt8) :
    ∃ q, q.rxState = (if le16 b2 b3 = 0 then .type else .aclPayload) ∧
      q.rxHdlFlags = le16 b0 b1 ∧ q.rxIdx = 0 ∧ q.rxPktLen = le16 b2 b3 ∧
      feedAll ctl (p, calls) [0x02, b0, b1, b2, b3] = (q, calls ++
        if le16 b2 b3 = 0 then [.aclTxDataReceived HCI_TL_H4 (le16 b0 b1) 0 none] else []) := by
  by_cases hb : le16 b2 b3 = 0 <;>
    simp [hciParserFeed, hst, Parser.pushHdr, hb]

/-! ## Packets -/

/-- The parser is inside ACL data that is longer than its index can count. -/
def Stuck (p : Parser) : Prop := p.rxState = .aclPayload ∧ 256 ≤ p.rxPktLen

theorem Stuck.feedAll (h : Stuck p) (bytes : List UInt8) :
    ∃ q, Stuck q ∧ feedAll ctl (p, calls) bytes = (q, calls) := by
  induction bytes generalizing p with
  | nil => exact ⟨p, h, rfl⟩
  | cons b bs ih =>
    obtain ⟨hst, hlen⟩ := h
    have hmore : (p.rxIdx + 1) % 256 ≠ p.rxPktLen := by omega
    rw [feedAll_cons, feed_payload_more ctl calls (.inr hst) hmore]
    exact ih ⟨hst, hlen⟩

theorem feed_short (hst : p.rxState = .type) {pkt : H4Packet} (h : pkt.Short) :
    ∃ q, q.rxState = .type ∧
      feedAll ctl (p, calls) pkt.encode = (q, calls ++ pkt.deliver ctl calls) := by
  cases pkt with
  | cmd opcode params hp =>
    obtain ⟨q, hq, h0, h1, hidx, hlen, hfeed⟩ :=
      feed_cmdHdr ctl calls hst (lo opcode.toNat) (hi opcode.toNat)
        (lo params.length)
    rw [le16_lo_hi opcode.toNat_lt] at hfeed
    have hlo : (lo params.length).toNat = params.length := by
      rw [lo, UInt8.toNat_ofNat']; omega
    rw [hlo] at hq hlen hfeed
    have hcut : (H4Packet.cmd opcode params hp).encode =
        [0x01, lo opcode.toNat, hi opcode.toNat, lo params.length] ++ params := rfl
    rw [hcut, feedAll_append, hfeed]
    by_cases hpar : params = []
    · subst hpar
      exact ⟨q, hq, by simp [H4Packet.deliver, H4Packet.payload]⟩
    · have hne : params.length ≠ 0 := mt List.length_eq_zero_iff.mp hpar
      rw [if_neg hne] at hq
      rw [if_neg hne, List.append_nil]
      obtain ⟨r, hr, hfeed⟩ := feed_payload ctl (calls ++
        [.cmdGetMaxParamSize opcode.toNat]) (.inl hq) hpar (by rw [hidx, hlen, Nat.zero_add])
        (by omega)
      refine ⟨r, hr, hfeed.trans ?_⟩
      simp [received, hq, h0, h1, le16_lo_hi opcode.toNat_lt, hidx, hlen, bytesAt,
        H4Packet.deliver, H4Packet.payload, hpar]
  | acl hdlFlags data hd =>
    have hshort : data.length < 256 := h
    obtain ⟨q, hq, hhdl, hidx, hlen, hfeed⟩ :=
      feed_aclHdr ctl calls hst (lo hdlFlags.toNat) (hi hdlFlags.toNat)
        (lo data.length) (hi data.length)
    rw [le16_lo_hi hd, le16_lo_hi hdlFlags.toNat_lt] at *
    have hcut : (H4Packet.acl hdlFlags data hd).encode =
        [0x02, lo hdlFlags.toNat, hi hdlFlags.toNat, lo data.length, hi data.length] ++ data := rfl
    rw [hcut, feedAll_append, hfeed]
    by_cases hdata : data = []
    · subst hdata
      exact ⟨q, hq, by simp [H4Packet.deliver]⟩
    · have hne : data.length ≠ 0 := mt List.length_eq_zero_iff.mp hdata
      rw [if_neg hne] at hq
      rw [if_neg hne, List.append_nil]
      obtain ⟨r, hr, hfeed⟩ := feed_payload ctl calls (.inr hq) hdata
        (by rw [hidx, hlen, Nat.zero_add]) (by omega)
      refine ⟨r, hr, hfeed.trans ?_⟩
      simp [received, hq, hhdl, hidx, hlen, bytesAt, H4Packet.deliver, hdata]

theorem feed_long (hst : p.rxState = .type) {pkt : H4Packet} (h : ¬ pkt.Short) :
    ∃ q, Stuck q ∧ feedAll ctl (p, calls) pkt.encode = (q, calls) := by
  cases pkt with
  | cmd opcode params hp => exact absurd trivial h
  | acl hdlFlags data hd =>
    have hlong : 256 ≤ data.length := Nat.le_of_not_lt h
    obtain ⟨q, hq, -, -, hlen, hfeed⟩ :=
      feed_aclHdr ctl calls hst (lo hdlFlags.toNat) (hi hdlFlags.toNat)
        (lo data.length) (hi data.length)
    have hne : data.length ≠ 0 := by omega
    rw [le16_lo_hi hd] at hq hlen hfeed
    rw [if_neg hne] at hq hfeed
    have hcut : (H4Packet.acl hdlFlags data hd).encode =
        [0x02, lo hdlFlags.toNat, hi hdlFlags.toNat, lo data.length, hi data.length] ++ data := rfl
    rw [hcut, feedAll_append, hfeed, List.append_nil]
    exact Stuck.feedAll ctl calls ⟨hq, by omega⟩ data

/-- **The parser on packets**: from a packet boundary it delivers the packets up to the first
one it cannot get through, and nothing after it. -/
theorem feed_encodeAll (hst : p.rxState = .type) (ps : List H4Packet) :
    (feedAll ctl (p, calls) (encodeAll ps)).2 =
      deliverAll ctl calls (ps.takeWhile fun pkt => decide pkt.Short) := by
  induction ps generalizing p calls with
  | nil => rfl
  | cons pkt ps ih =>
    rw [encodeAll, List.flatMap_cons, feedAll_append]
    by_cases hs : pkt.Short
    · obtain ⟨q, hq, hfeed⟩ := feed_short ctl calls hst hs
      rw [hfeed, List.takeWhile_cons_of_pos (by simpa using hs)]
      exact ih _ hq
    · obtain ⟨q, hq, hfeed⟩ := feed_long ctl calls hst hs
      obtain ⟨r, -, hrest⟩ := hq.feedAll ctl calls (ps.flatMap H4Packet.encode)
      rw [hfeed, hrest, List.takeWhile_cons_of_neg (by simpa using hs)]
      rfl

/-! ## Arbitrary bytes -/

/-- The frame bytes read so far of the packet being read. -/
def Parser.pending (p : Parser) : Nat :=
  match p.rxState with
  | .type => 0
  | .cmdHdr | .aclHdr => 1 + p.rxIdx
  | .cmdPayload => 4 + p.rxIdx
  | .aclPayload => 5 + p.rxIdx

theorem frameBytes_feed (b : UInt8) :
    frameBytes (hciParserFeed ctl (p, calls) b).2 + (hciParserFeed ctl (p, calls) b).1.pending ≤
      frameBytes calls + p.pending + 1 := by
  have hmod := Nat.mod_le (p.rxIdx + 1) 256
  cases hst : p.rxState with
  | type =>
    simp only [hciParserFeed, hst]
    split_ifs <;> simp [Parser.pending, hst]
  | cmdHdr =>
    simp only [hciParserFeed, hst, Parser.pushHdr]
    split_ifs <;> simp_all [Parser.pending, Call.frameBytes] <;> omega
  | cmdPayload =>
    have hlen := Nat.mod_le p.rxPktLen 256
    simp only [hciParserFeed, hst, Parser.pushPayload]
    split_ifs <;> simp_all [Parser.pending, Call.frameBytes] <;> omega
  | aclHdr =>
    simp only [hciParserFeed, hst, Parser.pushHdr]
    split_ifs <;> simp_all [Parser.pending, Call.frameBytes] <;> omega
  | aclPayload =>
    simp only [hciParserFeed, hst, Parser.pushPayload]
    split_ifs <;> simp_all [Parser.pending, Call.frameBytes] <;> (try split_ifs) <;> omega

/-- The frames delivered hold no more bytes than were fed. -/
theorem frameBytes_feedAll (bytes : List UInt8) :
    frameBytes (feedAll ctl (p, calls) bytes).2 ≤ frameBytes calls + p.pending + bytes.length := by
  induction bytes generalizing p calls with
  | nil => simp
  | cons b bs ih =>
    have hstep := frameBytes_feed ctl calls (p := p) b
    have hrest := ih (hciParserFeed ctl (p, calls) b).2
      (p := (hciParserFeed ctl (p, calls) b).1)
    rw [feedAll_cons, List.length_cons]
    rw [Prod.mk.eta] at hrest
    omega

/-- The index is within the array that the state writes to, and within the frame. -/
def Parser.InBounds (p : Parser) : Prop :=
  match p.rxState with
  | .type => True
  | .cmdHdr => p.rxIdx < 3
  | .cmdPayload => p.rxIdx < p.rxPktLen ∧ p.rxPktLen < 256
  | .aclHdr => p.rxIdx < 4
  | .aclPayload => p.rxIdx < 256 ∧ 0 < p.rxPktLen

theorem Parser.InBounds.feed (h : p.InBounds) (b : UInt8) :
    (hciParserFeed ctl (p, calls) b).1.InBounds := by
  have hb : ∀ c : UInt8, c.toNat < 256 := fun c => c.toNat_lt
  have hmod : (p.rxIdx + 1) % 256 < 256 := Nat.mod_lt _ (by decide)
  cases hst : p.rxState with
  | type =>
    simp only [hciParserFeed, hst]
    split_ifs <;> simp [InBounds]
  | cmdHdr =>
    simp only [InBounds, hst] at h
    simp only [hciParserFeed, hst, pushHdr]
    split_ifs with h3 h0
    · simp [InBounds]
    · exact ⟨Nat.pos_of_ne_zero h0, hb _⟩
    · simp only [InBounds]
      omega
  | cmdPayload =>
    simp only [InBounds, hst] at h
    simp only [hciParserFeed, hst, pushPayload]
    split_ifs with hl
    · simp [InBounds]
    · simp only [InBounds]
      omega
  | aclHdr =>
    simp only [InBounds, hst] at h
    simp only [hciParserFeed, hst, pushHdr]
    split_ifs with h4 h0
    · simp [InBounds]
    · exact ⟨by simp, Nat.pos_of_ne_zero h0⟩
    · simp only [InBounds]
      omega
  | aclPayload =>
    simp only [InBounds, hst] at h
    simp only [hciParserFeed, hst, pushPayload]
    split_ifs
    · trivial
    · trivial
    · exact ⟨hmod, h.2⟩

theorem Parser.InBounds.feedAll (h : p.InBounds) (bytes : List UInt8) :
    (Hci.feedAll ctl (p, calls) bytes).1.InBounds := by
  induction bytes generalizing p calls with
  | nil => exact h
  | cons b bs ih =>
    rw [feedAll_cons]
    exact ih (hciParserFeed ctl (p, calls) b).2 (h.feed ctl calls b)

/-- Two parsers agree on the variables their common state still reads. -/
def Agree (p q : Parser) : Prop :=
  p.rxState = q.rxState ∧
  match p.rxState with
  | .type => True
  | .cmdHdr | .aclHdr => p.rxIdx = q.rxIdx ∧ ∀ i < p.rxIdx, p.rxHdr i = q.rxHdr i
  | .cmdPayload => p.rxIdx = q.rxIdx ∧ p.rxPktLen = q.rxPktLen ∧ p.rxHdr 0 = q.rxHdr 0 ∧
      p.rxHdr 1 = q.rxHdr 1 ∧ ∀ i < p.rxIdx, p.hciPayload i = q.hciPayload i
  | .aclPayload => p.rxIdx = q.rxIdx ∧ p.rxPktLen = q.rxPktLen ∧
      p.rxHdlFlags = q.rxHdlFlags ∧ ∀ i < p.rxIdx, p.hciPayload i = q.hciPayload i

theorem agree_update {f g : Nat → UInt8} {i : Nat} (h : ∀ j < i, f j = g j) (b : UInt8) :
    ∀ j < i + 1, Function.update f i b j = Function.update g i b j := by
  intro j hj
  by_cases hji : j = i
  · subst hji; simp
  · rw [Function.update_of_ne hji, Function.update_of_ne hji, h j (by omega)]

theorem bytesAt_congr {f g : Nat → UInt8} {n : Nat} (h : ∀ i < n, f i = g i) {len : Nat}
    (hle : len ≤ n) : bytesAt f len = bytesAt g len :=
  List.map_congr_left fun i hi => h i (Nat.lt_of_lt_of_le (List.mem_range.mp hi) hle)

theorem Agree.feed (h : Agree p q) (b : UInt8) :
    Agree (hciParserFeed ctl (p, calls) b).1 (hciParserFeed ctl (q, calls) b).1 ∧
      (hciParserFeed ctl (p, calls) b).2 = (hciParserFeed ctl (q, calls) b).2 := by
  obtain ⟨hst, h⟩ := h
  have hmod := Nat.mod_le (q.rxIdx + 1) 256
  cases hp : p.rxState with
  | type =>
    have hq := hst.symm.trans hp
    simp only [hciParserFeed, hp, hq]
    split_ifs <;> simp_all [Agree]
  | cmdHdr =>
    have hq := hst.symm.trans hp
    simp only [hp] at h
    obtain ⟨hidx, hhdr⟩ := h
    have hhdr := agree_update hhdr b
    simp only [hciParserFeed, hp, hq, Parser.pushHdr, hidx] at *
    by_cases h3 : (q.rxIdx + 1) % 256 = 3
    · have e0 := hhdr 0 (by omega)
      have e1 := hhdr 1 (by omega)
      have e2 := hhdr 2 (by omega)
      simp only [h3, e0, e1, e2, if_true]
      split_ifs <;> simp [Agree, e0, e1]
    · simp only [h3, if_false]
      exact ⟨⟨rfl, rfl, fun i hi => hhdr i (by simp only at hi; omega)⟩, trivial⟩
  | aclHdr =>
    have hq := hst.symm.trans hp
    simp only [hp] at h
    obtain ⟨hidx, hhdr⟩ := h
    have hhdr := agree_update hhdr b
    simp only [hciParserFeed, hp, hq, Parser.pushHdr, hidx] at *
    by_cases h4 : (q.rxIdx + 1) % 256 = 4
    · have e0 := hhdr 0 (by omega)
      have e1 := hhdr 1 (by omega)
      have e2 := hhdr 2 (by omega)
      have e3 := hhdr 3 (by omega)
      simp only [h4, e0, e1, e2, e3, if_true]
      split_ifs <;> simp [Agree]
    · simp only [h4, if_false]
      exact ⟨⟨rfl, rfl, fun i hi => hhdr i (by simp only at hi; omega)⟩, trivial⟩
  | cmdPayload =>
    have hq := hst.symm.trans hp
    simp only [hp] at h
    obtain ⟨hidx, hlen, e0, e1, hpay⟩ := h
    have hpay := agree_update hpay b
    simp only [hciParserFeed, hp, hq, Parser.pushPayload, hidx, hlen] at *
    by_cases hl : (q.rxIdx + 1) % 256 = q.rxPktLen
    · have hbytes := bytesAt_congr hpay (show q.rxPktLen % 256 ≤ _ by omega)
      simp [hl, e0, e1, hbytes, Agree]
    · simp only [hl, if_false]
      exact ⟨⟨rfl, rfl, rfl, e0, e1, fun i hi => hpay i (by simp only at hi; omega)⟩, trivial⟩
  | aclPayload =>
    have hq := hst.symm.trans hp
    simp only [hp] at h
    obtain ⟨hidx, hlen, hhdl, hpay⟩ := h
    have hpay := agree_update hpay b
    simp only [hciParserFeed, hp, hq, Parser.pushPayload, hidx, hlen, hhdl] at *
    by_cases hl : (q.rxIdx + 1) % 256 = q.rxPktLen
    · have hbytes := bytesAt_congr hpay (show q.rxPktLen ≤ _ by omega)
      simp [hl, hbytes, Agree]
    · simp only [hl, if_false]
      exact ⟨⟨rfl, rfl, rfl, rfl, fun i hi => hpay i (by simp only at hi; omega)⟩, trivial⟩

theorem Agree.feedAll (h : Agree p q) (bytes : List UInt8) :
    Agree (feedAll ctl (p, calls) bytes).1 (feedAll ctl (q, calls) bytes).1 ∧
      (Hci.feedAll ctl (p, calls) bytes).2 = (Hci.feedAll ctl (q, calls) bytes).2 := by
  induction bytes generalizing p q calls with
  | nil => exact ⟨h, rfl⟩
  | cons b bs ih =>
    obtain ⟨hfeed, hcalls⟩ := h.feed ctl calls b
    rw [feedAll_cons, feedAll_cons]
    have hrest := ih (hciParserFeed ctl (p, calls) b).2 hfeed
    rw [hcalls] at hrest
    have he : hciParserFeed ctl (p, calls) b =
        ((hciParserFeed ctl (p, calls) b).1, (hciParserFeed ctl (q, calls) b).2) :=
      Prod.ext rfl hcalls
    rw [he]
    exact hrest

end Bl616cl.Hci
