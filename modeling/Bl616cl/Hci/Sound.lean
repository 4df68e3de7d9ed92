import Bl616cl.Hci.Feed

/-!
# The parser on arbitrary bytes

Whatever is fed, the parser stays inside of its two arrays, and each packet that it hands over lies
in the input, behind the one before.
-/

namespace Bl616cl.Hci

/-! ## Memory -/

namespace Parser

variable (p : Parser)

/-- The cells of `rx_hdr` that the next byte makes the parser write and read. -/
def hdrCells : List Nat :=
  match p.rxState with
  | .type | .aclPayload => []
  | .cmdHdr => if (p.rxIdx + 1) % 256 = 3 then [p.rxIdx, 0, 1, 2] else [p.rxIdx]
  | .cmdPayload => if (p.rxIdx + 1) % 256 = p.rxPktLen then [0, 1] else []
  | .aclHdr => if (p.rxIdx + 1) % 256 = 4 then [p.rxIdx, 0, 1, 2, 3] else [p.rxIdx]

/-- The cells of `hci_payload` that it makes it write. -/
def payloadCells : List Nat :=
  match p.rxState with
  | .type | .cmdHdr | .aclHdr => []
  | .cmdPayload | .aclPayload => [p.rxIdx]

/-- The bytes of `hci_payload` that are handed over or copied then. -/
def copied (ctl : Controller) (calls : List Call) : Nat :=
  match p.rxState with
  | .type | .cmdHdr | .aclHdr => 0
  | .cmdPayload => if (p.rxIdx + 1) % 256 = p.rxPktLen then p.rxPktLen % 256 else 0
  | .aclPayload =>
    if (p.rxIdx + 1) % 256 = p.rxPktLen ∧ ctl calls p.rxHdlFlags p.rxPktLen = true then p.rxPktLen
    else 0

/-- `rx_hdr` has 4 cells and `hci_payload` 256. -/
structure Within (ctl : Controller) (calls : List Call) : Prop where
  hdr : ∀ i ∈ p.hdrCells, i < 4
  payload : ∀ i ∈ p.payloadCells, i < 256
  copied : p.copied ctl calls ≤ 256

end Parser

/-! ## Frames -/

/-- The call that hands a packet over. -/
def H4Packet.handOver : H4Packet → Call
  | cmd opcode params _ => .cmdReceived HCI_TL_H4 opcode.toNat params.length (payload params)
  | acl hdlFlags data _ => .aclTxDataReceived HCI_TL_H4 hdlFlags.toNat data.length (payload data)

/-- A call that hands something over. -/
def Call.handsOver : Call → Bool
  | cmdReceived .. | aclTxDataReceived .. => true
  | cmdGetMaxParamSize _ | aclTxDataAlloc .. => false

/-- The calls hand over packets of the input, one for each call, in the order of the input. -/
inductive HandsOver : List UInt8 → List Call → Prop
  | start : HandsOver [] []
  | skip {bytes calls} (gap : List UInt8) : HandsOver bytes calls → HandsOver (bytes ++ gap) calls
  | packet {bytes calls} (pkt : H4Packet) :
      HandsOver bytes calls → HandsOver (bytes ++ pkt.encode) (calls ++ [pkt.handOver])

/-- The input from the type byte of the packet on that is being read. Of ACL data too long to be
handed over, nothing is said. -/
def Parser.Reading (p : Parser) (part : List UInt8) : Prop :=
  match p.rxState with
  | .type => part = []
  | .cmdHdr => p.rxIdx < 3 ∧ part = 0x01 :: bytesAt p.rxHdr p.rxIdx
  | .cmdPayload => p.rxPktLen = (p.rxHdr 2).toNat ∧ p.rxIdx < p.rxPktLen ∧
      part = 0x01 :: (bytesAt p.rxHdr 3 ++ bytesAt p.hciPayload p.rxIdx)
  | .aclHdr => p.rxIdx < 4 ∧ part = 0x02 :: bytesAt p.rxHdr p.rxIdx
  | .aclPayload => p.rxHdlFlags = le16 (p.rxHdr 0) (p.rxHdr 1) ∧
      p.rxPktLen = le16 (p.rxHdr 2) (p.rxHdr 3) ∧
      (p.rxPktLen < 256 → p.rxIdx < p.rxPktLen ∧
        part = 0x02 :: (bytesAt p.rxHdr 4 ++ bytesAt p.hciPayload p.rxIdx))

/-! ## Bounds -/

variable {ctl : Controller} {calls : List Call} {p : Parser} {bytes part : List UInt8}

/-- A step writes no other cells. -/
theorem hciParserFeed_frame (ctl : Controller) (calls : List Call) (p : Parser) (b : UInt8) :
    (∀ i ∉ p.hdrCells, (hciParserFeed ctl (p, calls) b).1.rxHdr i = p.rxHdr i) ∧
      ∀ i ∉ p.payloadCells, (hciParserFeed ctl (p, calls) b).1.hciPayload i = p.hciPayload i := by
  have hhdr : ∀ i, i ≠ p.rxIdx → (p.pushHdr b).rxHdr i = p.rxHdr i :=
    fun i hi => Function.update_of_ne hi _ _
  have hpay : ∀ i, i ≠ p.rxIdx → (p.pushPayload b).hciPayload i = p.hciPayload i :=
    fun i hi => Function.update_of_ne hi _ _
  cases hst : p.rxState with
  | type =>
    simp only [hciParserFeed, hst]
    split_ifs <;> exact ⟨fun _ _ => rfl, fun _ _ => rfl⟩
  | cmdHdr =>
    have hidx : p.rxIdx ∈ p.hdrCells := by
      simp only [Parser.hdrCells, hst]
      split_ifs <;> exact List.mem_cons_self
    simp only [hciParserFeed, hst]
    split_ifs <;> exact ⟨fun i hi => hhdr i fun h => hi (h ▸ hidx), fun _ _ => rfl⟩
  | cmdPayload =>
    simp only [hciParserFeed, hst, Parser.payloadCells, List.mem_singleton]
    split_ifs <;> exact ⟨fun _ _ => rfl, hpay⟩
  | aclHdr =>
    have hidx : p.rxIdx ∈ p.hdrCells := by
      simp only [Parser.hdrCells, hst]
      split_ifs <;> exact List.mem_cons_self
    simp only [hciParserFeed, hst]
    split_ifs <;> exact ⟨fun i hi => hhdr i fun h => hi (h ▸ hidx), fun _ _ => rfl⟩
  | aclPayload =>
    simp only [hciParserFeed, hst, Parser.payloadCells, List.mem_singleton]
    split_ifs <;> exact ⟨fun _ _ => rfl, hpay⟩

theorem update_congr {f g : Nat → UInt8} {i j : Nat} (h : f j = g j) (b : UInt8) :
    Function.update f i b j = Function.update g i b j := by
  simp only [Function.update_apply, h]

/-- Nor does it read others: whatever they hold, it makes the same calls and goes on in the same
state. -/
theorem hciParserFeed_congr {hdr pay : Nat → UInt8} (hhdr : ∀ i ∈ p.hdrCells, hdr i = p.rxHdr i)
    (hpay : ∀ i < p.copied ctl calls, pay i = p.hciPayload i) (b : UInt8) :
    ∃ hdr' pay', hciParserFeed ctl ({ p with rxHdr := hdr, hciPayload := pay }, calls) b =
      ({ (hciParserFeed ctl (p, calls) b).1 with rxHdr := hdr', hciPayload := pay' },
        (hciParserFeed ctl (p, calls) b).2) := by
  have hwrite : ∀ i ∈ p.hdrCells,
      Function.update hdr p.rxIdx b i = Function.update p.rxHdr p.rxIdx b i :=
    fun i hi => update_congr (hhdr i hi) b
  cases hst : p.rxState with
  | type =>
    simp only [hciParserFeed, hst]
    split_ifs <;> exact ⟨_, _, rfl⟩
  | cmdHdr =>
    simp only [hciParserFeed, hst, Parser.pushHdr]
    by_cases hlast : (p.rxIdx + 1) % 256 = 3
    · simp only [Parser.hdrCells, hst, hlast, if_true, List.forall_mem_cons] at hwrite
      obtain ⟨-, h0, h1, h2, -⟩ := hwrite
      simp only [hlast, if_true, h0, h1, h2]
      split_ifs <;> exact ⟨_, _, rfl⟩
    · simp only [hlast, if_false]
      exact ⟨_, _, rfl⟩
  | cmdPayload =>
    simp only [hciParserFeed, hst, Parser.pushPayload]
    by_cases hlast : (p.rxIdx + 1) % 256 = p.rxPktLen
    · simp only [Parser.hdrCells, hst, hlast, if_true, List.forall_mem_cons] at hhdr
      obtain ⟨h0, h1, -⟩ := hhdr
      simp only [Parser.copied, hst, hlast, if_true] at hpay
      have hbytes : bytesAt (Function.update pay p.rxIdx b) (p.rxPktLen % 256) =
          bytesAt (Function.update p.hciPayload p.rxIdx b) (p.rxPktLen % 256) :=
        bytesAt_congr (fun i hi => update_congr (hpay i hi) b) (Nat.le_refl _)
      simp only [hlast, if_true, h0, h1, hbytes]
      exact ⟨_, _, rfl⟩
    · simp only [hlast, if_false]
      exact ⟨_, _, rfl⟩
  | aclHdr =>
    simp only [hciParserFeed, hst, Parser.pushHdr]
    by_cases hlast : (p.rxIdx + 1) % 256 = 4
    · simp only [Parser.hdrCells, hst, hlast, if_true, List.forall_mem_cons] at hwrite
      obtain ⟨-, h0, h1, h2, h3, -⟩ := hwrite
      simp only [hlast, if_true, h0, h1, h2, h3]
      split_ifs <;> exact ⟨_, _, rfl⟩
    · simp only [hlast, if_false]
      exact ⟨_, _, rfl⟩
  | aclPayload =>
    simp only [hciParserFeed, hst, Parser.pushPayload]
    by_cases hlast : (p.rxIdx + 1) % 256 = p.rxPktLen
    · by_cases hctl : ctl calls p.rxHdlFlags p.rxPktLen = true
      · simp only [Parser.copied, hst, hlast, hctl, and_self, if_true] at hpay
        have hbytes : bytesAt (Function.update pay p.rxIdx b) p.rxPktLen =
            bytesAt (Function.update p.hciPayload p.rxIdx b) p.rxPktLen :=
          bytesAt_congr (fun i hi => update_congr (hpay i hi) b) (Nat.le_refl _)
        simp only [hlast, hctl, if_true, hbytes]
        exact ⟨_, _, rfl⟩
      · simp only [hlast, hctl, if_true]
        exact ⟨_, _, rfl⟩
    · simp only [hlast, if_false]
      exact ⟨_, _, rfl⟩

theorem Parser.InBounds.within (h : p.InBounds) : p.Within ctl calls := by
  cases hst : p.rxState with
  | type => constructor <;> simp [hdrCells, payloadCells, copied, hst]
  | cmdHdr =>
    simp only [InBounds, hst] at h
    refine ⟨fun i hi => ?_, by simp [payloadCells, hst], by simp [Parser.copied, hst]⟩
    simp only [hdrCells, hst] at hi
    split at hi <;> simp only [List.mem_cons, List.not_mem_nil, or_false] at hi <;> omega
  | cmdPayload =>
    simp only [InBounds, hst] at h
    refine ⟨fun i hi => ?_, fun i hi => ?_, ?_⟩
    · simp only [hdrCells, hst] at hi
      split at hi
      · simp only [List.mem_cons, List.not_mem_nil, or_false] at hi
        omega
      · cases hi
    · simp only [payloadCells, hst, List.mem_singleton] at hi
      omega
    · simp only [Parser.copied, hst]
      split <;> omega
  | aclHdr =>
    simp only [InBounds, hst] at h
    refine ⟨fun i hi => ?_, by simp [payloadCells, hst], by simp [Parser.copied, hst]⟩
    simp only [hdrCells, hst] at hi
    split at hi <;> simp only [List.mem_cons, List.not_mem_nil, or_false] at hi <;> omega
  | aclPayload =>
    simp only [InBounds, hst] at h
    refine ⟨by simp [hdrCells, hst], fun i hi => ?_, ?_⟩
    · simp only [payloadCells, hst, List.mem_singleton] at hi
      omega
    · simp only [Parser.copied, hst]
      split
      · next hlast => omega
      · exact Nat.zero_le _

/-! ## Packets as they come in -/

theorem le16_lt (b0 b1 : UInt8) : le16 b0 b1 < 2 ^ 16 := by
  have h0 := b0.toNat_lt
  have h1 := b1.toNat_lt
  rw [le16_eq]
  omega

theorem lo_le16 (b0 b1 : UInt8) : lo (le16 b0 b1) = b0 := by
  have h0 := b0.toNat_lt
  apply UInt8.toNat_inj.mp
  rw [lo, UInt8.toNat_ofNat', le16_eq]
  omega

theorem hi_le16 (b0 b1 : UInt8) : hi (le16 b0 b1) = b1 := by
  have h0 := b0.toNat_lt
  have h1 := b1.toNat_lt
  apply UInt8.toNat_inj.mp
  rw [hi, UInt8.toNat_ofNat', le16_eq]
  omega

theorem lo_toNat (b : UInt8) : lo b.toNat = b := UInt8.ofNat_toNat

theorem toNat_ofNat_le16 (b0 b1 : UInt8) : (UInt16.ofNat (le16 b0 b1)).toNat = le16 b0 b1 := by
  rw [UInt16.toNat_ofNat', Nat.mod_eq_of_lt (le16_lt b0 b1)]

theorem HandsOver.cmd (h : HandsOver bytes calls) (b0 b1 b2 : UInt8) (params : List UInt8)
    (hlen : params.length = b2.toNat) :
    HandsOver (bytes ++ 0x01 :: b0 :: b1 :: b2 :: params) (calls ++
      [.cmdReceived HCI_TL_H4 (le16 b0 b1) params.length (H4Packet.payload params)]) := by
  have hlt := b2.toNat_lt
  have hpkt := h.packet (.cmd (.ofNat (le16 b0 b1)) params (by omega))
  simpa only [H4Packet.encode, H4Packet.handOver, toNat_ofNat_le16, lo_le16, hi_le16, hlen,
    lo_toNat] using hpkt

theorem HandsOver.acl (h : HandsOver bytes calls) (b0 b1 b2 b3 : UInt8) (data : List UInt8)
    (hlen : data.length = le16 b2 b3) :
    HandsOver (bytes ++ 0x02 :: b0 :: b1 :: b2 :: b3 :: data) (calls ++
      [.aclTxDataReceived HCI_TL_H4 (le16 b0 b1) data.length (H4Packet.payload data)]) := by
  have hlt := le16_lt b2 b3
  have hpkt := h.packet (.acl (.ofNat (le16 b0 b1)) data (by omega))
  simpa only [H4Packet.encode, H4Packet.handOver, toNat_ofNat_le16, lo_le16, hi_le16, hlen]
    using hpkt

theorem length_bytesAt (f : Nat → UInt8) (n : Nat) : (bytesAt f n).length = n := by
  simp [bytesAt]

theorem bytesAt_three (f : Nat → UInt8) : bytesAt f 3 = [f 0, f 1, f 2] := rfl

theorem bytesAt_four (f : Nat → UInt8) : bytesAt f 4 = [f 0, f 1, f 2, f 3] := rfl

theorem bytesAt_pushHdr (p : Parser) (b : UInt8) :
    bytesAt (p.pushHdr b).rxHdr (p.rxIdx + 1) = bytesAt p.rxHdr p.rxIdx ++ [b] := by
  rw [← bytesAt_update]
  rfl

theorem bytesAt_pushPayload (p : Parser) (b : UInt8) :
    bytesAt (p.pushPayload b).hciPayload (p.rxIdx + 1) =
      bytesAt p.hciPayload p.rxIdx ++ [b] := by
  rw [← bytesAt_update]
  rfl

/-! ## The stream -/

/-- Of the input, a part has been handed over and the rest is being read. -/
def Tracks (s : Parser × List Call) (input : List UInt8) : Prop :=
  ∃ bytes part, input = bytes ++ part ∧ HandsOver bytes (s.2.filter Call.handsOver) ∧
    s.1.Reading part

theorem tracks_type (hst : p.rxState = .type) (h : Tracks (p, calls) bytes) (b : UInt8) :
    Tracks (hciParserFeed ctl (p, calls) b) (bytes ++ [b]) := by
  obtain ⟨done, part, rfl, ho, hr⟩ := h
  simp only [Parser.Reading, hst] at hr
  subst hr
  rw [List.append_nil]
  simp only [hciParserFeed, hst]
  split
  · next hb => exact ⟨done, [b], rfl, ho, by simp [Parser.Reading, hb, bytesAt]⟩
  · split
    · next hb => exact ⟨done, [b], rfl, ho, by simp [Parser.Reading, hb, bytesAt]⟩
    · exact ⟨done ++ [b], [], by simp, ho.skip [b], by simp [Parser.Reading]⟩

theorem tracks_cmdHdr (hst : p.rxState = .cmdHdr) (h : Tracks (p, calls) bytes) (b : UInt8) :
    Tracks (hciParserFeed ctl (p, calls) b) (bytes ++ [b]) := by
  obtain ⟨done, part, rfl, ho, hr⟩ := h
  simp only [Parser.Reading, hst] at hr
  obtain ⟨hidx, rfl⟩ := hr
  rw [List.append_assoc, List.cons_append, ← bytesAt_pushHdr]
  simp only [hciParserFeed, hst]
  split
  · next hlast =>
    have hthree : p.rxIdx + 1 = 3 := by
      simp only [Parser.pushHdr] at hlast
      omega
    rw [hthree]
    split
    · next hzero =>
      refine ⟨_, [], (List.append_nil _).symm, ?_, by simp [Parser.Reading]⟩
      simpa [Call.handsOver, List.filter_cons, H4Packet.payload, bytesAt_three] using
        ho.cmd ((p.pushHdr b).rxHdr 0) ((p.pushHdr b).rxHdr 1) ((p.pushHdr b).rxHdr 2)
          [] hzero.symm
    · next hpos =>
      refine ⟨done, _, rfl, by simpa [Call.handsOver] using ho, rfl, Nat.pos_of_ne_zero hpos, ?_⟩
      simp [bytesAt]
  · next hmore =>
    simp only [Parser.pushHdr] at hmore
    refine ⟨done, _, rfl, ho, ?_⟩
    simp only [Parser.Reading, Parser.pushHdr, hst]
    rw [Nat.mod_eq_of_lt (by omega)]
    exact ⟨by omega, rfl⟩

theorem tracks_aclHdr (hst : p.rxState = .aclHdr) (h : Tracks (p, calls) bytes) (b : UInt8) :
    Tracks (hciParserFeed ctl (p, calls) b) (bytes ++ [b]) := by
  obtain ⟨done, part, rfl, ho, hr⟩ := h
  simp only [Parser.Reading, hst] at hr
  obtain ⟨hidx, rfl⟩ := hr
  rw [List.append_assoc, List.cons_append, ← bytesAt_pushHdr]
  simp only [hciParserFeed, hst]
  split
  · next hlast =>
    have hfour : p.rxIdx + 1 = 4 := by
      simp only [Parser.pushHdr] at hlast
      omega
    rw [hfour]
    split
    · next hzero =>
      refine ⟨_, [], (List.append_nil _).symm, ?_, by simp [Parser.Reading]⟩
      simpa [Call.handsOver, List.filter_cons, H4Packet.payload, bytesAt_four] using
        ho.acl ((p.pushHdr b).rxHdr 0) ((p.pushHdr b).rxHdr 1) ((p.pushHdr b).rxHdr 2)
          ((p.pushHdr b).rxHdr 3) [] hzero.symm
    · next hpos =>
      refine ⟨done, _, rfl, ho, rfl, rfl, fun _ => ⟨Nat.pos_of_ne_zero hpos, ?_⟩⟩
      simp [bytesAt]
  · next hmore =>
    simp only [Parser.pushHdr] at hmore
    refine ⟨done, _, rfl, ho, ?_⟩
    simp only [Parser.Reading, Parser.pushHdr, hst]
    rw [Nat.mod_eq_of_lt (by omega)]
    exact ⟨by omega, rfl⟩

theorem tracks_cmdPayload (hst : p.rxState = .cmdPayload) (h : Tracks (p, calls) bytes)
    (b : UInt8) : Tracks (hciParserFeed ctl (p, calls) b) (bytes ++ [b]) := by
  obtain ⟨done, part, rfl, ho, hr⟩ := h
  simp only [Parser.Reading, hst] at hr
  obtain ⟨hlen, hidx, rfl⟩ := hr
  have hlt := (p.rxHdr 2).toNat_lt
  rw [List.append_assoc, List.cons_append, List.append_assoc, ← bytesAt_pushPayload]
  by_cases hlast : p.rxIdx + 1 = p.rxPktLen
  · rw [feed_payload_last ctl calls (.inl hst) hlast (by omega)]
    refine ⟨_, [], (List.append_nil _).symm, ?_, rfl⟩
    have hparams : (bytesAt p.hciPayload p.rxIdx ++ [b]).length = (p.rxHdr 2).toNat := by
      rw [List.length_append, length_bytesAt, List.length_singleton]
      omega
    have hcmd := ho.cmd (p.rxHdr 0) (p.rxHdr 1) (p.rxHdr 2) _ hparams
    rw [hparams, ← hlen] at hcmd
    simpa [received, hst, Call.handsOver, List.filter_cons, H4Packet.payload, bytesAt_three,
      Parser.pushPayload, bytesAt_update] using hcmd
  · rw [feed_payload_more ctl calls (.inl hst) (by omega)]
    refine ⟨done, _, rfl, ho, ?_⟩
    simp only [Parser.Reading, Parser.pushPayload, hst]
    rw [Nat.mod_eq_of_lt (by omega)]
    exact ⟨hlen, by omega, rfl⟩

theorem tracks_aclPayload (hst : p.rxState = .aclPayload) (h : Tracks (p, calls) bytes)
    (b : UInt8) : Tracks (hciParserFeed ctl (p, calls) b) (bytes ++ [b]) := by
  obtain ⟨done, part, rfl, ho, hr⟩ := h
  simp only [Parser.Reading, hst] at hr
  obtain ⟨hhdl, hlen, hr⟩ := hr
  rw [List.append_assoc]
  by_cases hlong : 256 ≤ p.rxPktLen
  · -- the index never gets to the length
    rw [feed_payload_more ctl calls (.inr hst) (by omega)]
    refine ⟨done, _, rfl, ho, ?_⟩
    simp only [Parser.Reading, Parser.pushPayload, hst]
    exact ⟨hhdl, hlen, fun hshort => by omega⟩
  obtain ⟨hidx, rfl⟩ := hr (by omega)
  rw [List.cons_append, List.append_assoc, ← bytesAt_pushPayload]
  by_cases hlast : p.rxIdx + 1 = p.rxPktLen
  · rw [feed_payload_last ctl calls (.inr hst) hlast (by omega)]
    refine ⟨_, [], (List.append_nil _).symm, ?_, rfl⟩
    have hdata : (bytesAt p.hciPayload p.rxIdx ++ [b]).length =
        le16 (p.rxHdr 2) (p.rxHdr 3) := by
      rw [List.length_append, length_bytesAt, List.length_singleton]
      omega
    have hacl := ho.acl (p.rxHdr 0) (p.rxHdr 1) (p.rxHdr 2) (p.rxHdr 3) _ hdata
    rw [hdata, ← hlen, ← hhdl] at hacl
    cases hctl : ctl calls p.rxHdlFlags p.rxPktLen with
    | true =>
      simpa [received, hst, hctl, Call.handsOver, List.filter_cons, H4Packet.payload,
        bytesAt_four, Parser.pushPayload, bytesAt_update] using hacl
    | false =>
      simpa [received, hst, hctl, Call.handsOver, List.filter_cons] using ho.skip _
  · rw [feed_payload_more ctl calls (.inr hst) (by omega)]
    refine ⟨done, _, rfl, ho, ?_⟩
    simp only [Parser.Reading, Parser.pushPayload, hst]
    rw [Nat.mod_eq_of_lt (by omega)]
    exact ⟨hhdl, hlen, fun _ => ⟨by omega, rfl⟩⟩

/-- **Step**: every byte is taken up. -/
theorem tracks_feed (h : Tracks (p, calls) bytes) (b : UInt8) :
    Tracks (hciParserFeed ctl (p, calls) b) (bytes ++ [b]) := by
  cases hst : p.rxState with
  | type => exact tracks_type hst h b
  | cmdHdr => exact tracks_cmdHdr hst h b
  | cmdPayload => exact tracks_cmdPayload hst h b
  | aclHdr => exact tracks_aclHdr hst h b
  | aclPayload => exact tracks_aclPayload hst h b

theorem tracks_feedAll {s : Parser × List Call} (h : Tracks s bytes) (more : List UInt8) :
    Tracks (feedAll ctl s more) (bytes ++ more) := by
  induction more generalizing s bytes with
  | nil => simpa using h
  | cons b more ih =>
    have hrest : Tracks (feedAll ctl (hciParserFeed ctl s b) more) (bytes ++ [b] ++ more) :=
      ih (tracks_feed h b)
    rwa [List.append_assoc] at hrest

/-- **Soundness**: on any input the parser uses the cells of its arrays only, and hands over nothing
but packets that lie in the input one behind the other. -/
theorem feed_sound (ctl : Controller) (bytes : List UInt8) :
    (∀ done, done <+: bytes → (feedAll ctl (Parser.initial, []) done).1.Within ctl
      (feedAll ctl (Parser.initial, []) done).2) ∧
      HandsOver bytes ((feedAll ctl (Parser.initial, []) bytes).2.filter Call.handsOver) := by
  refine ⟨fun done _ => (Parser.InBounds.feedAll ctl [] (p := Parser.initial) trivial done).within,
    ?_⟩
  have hstart : Tracks (Parser.initial, []) [] := ⟨[], [], rfl, .start, rfl⟩
  have htracks : Tracks (feedAll ctl (Parser.initial, []) bytes) ([] ++ bytes) :=
    tracks_feedAll hstart bytes
  obtain ⟨done, part, rfl, ho, -⟩ := htracks
  exact ho.skip part

end Bl616cl.Hci
