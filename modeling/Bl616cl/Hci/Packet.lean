import Bl616cl.Hci.Parser

/-!
# H4 packets

The packets a host may send (`H4Packet`), their encoding, and the controller calls each one
stands for. This is the stream the parser is meant to invert; nothing here is taken from it.
-/

namespace Bl616cl.Hci

/-- A host packet whose length fits its length field. -/
inductive H4Packet where
  | cmd (opcode : UInt16) (params : List UInt8) (h : params.length < 2 ^ 8)
  | acl (hdlFlags : UInt16) (data : List UInt8) (h : data.length < 2 ^ 16)

/-- Low and high byte of a 16-bit number. -/
def lo (n : Nat) : UInt8 := UInt8.ofNat n
def hi (n : Nat) : UInt8 := UInt8.ofNat (n / 256)

theorem le16_lo_hi {n : Nat} (h : n < 2 ^ 16) : le16 (lo n) (hi n) = n := by
  rw [le16_eq, lo, hi, UInt8.toNat_ofNat', UInt8.toNat_ofNat']
  omega

namespace H4Packet

def encode : H4Packet → List UInt8
  | cmd opcode params _ => 0x01 :: lo opcode.toNat :: hi opcode.toNat :: lo params.length :: params
  | acl hdlFlags data _ =>
    0x02 :: lo hdlFlags.toNat :: hi hdlFlags.toNat :: lo data.length :: hi data.length :: data

/-- The payload argument of a call: null when there are no bytes. -/
def payload (bytes : List UInt8) : Option (List UInt8) := if bytes = [] then none else some bytes

/-- The calls a packet stands for, after the given calls: its delivery, or none where no buffer
could be allocated for it. -/
def deliver (ctl : Controller) (calls : List Call) : H4Packet → List Call
  | cmd opcode params _ =>
    [.cmdGetMaxParamSize opcode.toNat,
      .cmdReceived HCI_TL_H4 opcode.toNat params.length (payload params)]
  | acl hdlFlags data _ =>
    if data = [] then [.aclTxDataReceived HCI_TL_H4 hdlFlags.toNat 0 none]
    else .aclTxDataAlloc HCI_TL_H4 hdlFlags.toNat data.length ::
      if ctl calls hdlFlags.toNat data.length then
        [.aclTxDataReceived HCI_TL_H4 hdlFlags.toNat data.length (some data)]
      else []

/-- A packet the parser can get through: no ACL data of 256 bytes or more. -/
def Short : H4Packet → Prop
  | cmd .. => True
  | acl _ data _ => data.length < 256

instance : DecidablePred Short
  | cmd .. => inferInstanceAs (Decidable True)
  | acl _ data _ => inferInstanceAs (Decidable (data.length < 256))

end H4Packet

/-- The bytes of a packet sequence. -/
def encodeAll (ps : List H4Packet) : List UInt8 := ps.flatMap H4Packet.encode

/-- The log of calls once a packet sequence has been delivered, each packet once and in order. -/
def deliverAll (ctl : Controller) (calls : List Call) (ps : List H4Packet) : List Call :=
  ps.foldl (fun calls p => calls ++ p.deliver ctl calls) calls

/-! ## Stream bytes accounted for by calls -/

/-- The stream bytes of the frame that a call ends the reading of. -/
def Call.frameBytes : Call → Nat
  | .cmdGetMaxParamSize _ => 0
  | .cmdReceived _ _ length _ => 4 + length
  | .aclTxDataAlloc _ _ datalen => 5 + datalen
  | .aclTxDataReceived _ _ datalen _ => if datalen = 0 then 5 else 0

def frameBytes (calls : List Call) : Nat := (calls.map Call.frameBytes).sum

@[simp] theorem frameBytes_nil : frameBytes [] = 0 := rfl

@[simp] theorem frameBytes_append (as bs : List Call) :
    frameBytes (as ++ bs) = frameBytes as + frameBytes bs := by
  simp [frameBytes]

@[simp] theorem frameBytes_cons (a : Call) (as : List Call) :
    frameBytes (a :: as) = a.frameBytes + frameBytes as := by
  simp [frameBytes]

theorem H4Packet.frameBytes_deliver (ctl : Controller) (calls : List Call) (p : H4Packet) :
    frameBytes (p.deliver ctl calls) = p.encode.length := by
  cases p with
  | cmd opcode params h => simp [deliver, encode, Call.frameBytes]; omega
  | acl hdlFlags data h =>
    by_cases hd : data = []
    · simp [deliver, encode, Call.frameBytes, hd]
    · have hlen : data.length ≠ 0 := mt List.length_eq_zero_iff.mp hd
      simp only [deliver, if_neg hd]
      split <;> simp [encode, Call.frameBytes, hlen] <;> omega

theorem frameBytes_deliverAll (ctl : Controller) (calls : List Call) (ps : List H4Packet) :
    frameBytes (deliverAll ctl calls ps) = frameBytes calls + (encodeAll ps).length := by
  induction ps generalizing calls with
  | nil => simp [deliverAll, encodeAll]
  | cons p ps ih =>
    have := ih (calls ++ p.deliver ctl calls)
    simp only [deliverAll, encodeAll, List.foldl_cons, List.flatMap_cons, List.length_append,
      frameBytes_append, H4Packet.frameBytes_deliver] at this ⊢
    omega

end Bl616cl.Hci
