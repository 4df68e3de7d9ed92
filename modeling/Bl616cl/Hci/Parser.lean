import Mathlib.Data.Nat.Bitwise
import Mathlib.Logic.Function.Basic
import Mathlib.Tactic.Common

/-!
# The host-to-controller parser

`hciParserFeed` is the byte-at-a-time H4 parser of `HCIVirtualTransport.cpp`. It keeps its
position in static variables (`Parser`) and hands every complete packet to the controller's
`hci_tl_*` entry points. These are opaque sinks: the calls made to them are logged, and a
`Controller` answers `hci_tl_acl_tx_data_alloc` from the calls it has seen so far.
-/

namespace Bl616cl.Hci

/-- Bouffalo SDK `hci_tl_type`. -/
def HCI_TL_H4 : Nat := 1

/-- A call of a controller entry point; a payload of `none` is the null pointer. -/
inductive Call where
  | cmdGetMaxParamSize (opcode : Nat)
  | cmdReceived (tlType opcode length : Nat) (payload : Option (List UInt8))
  | aclTxDataAlloc (tlType hdlFlags datalen : Nat)
  | aclTxDataReceived (tlType hdlFlags datalen : Nat) (payload : Option (List UInt8))
  deriving DecidableEq, Repr

/-- Whether `hci_tl_acl_tx_data_alloc hdlFlags datalen` returns a buffer, after the given calls. -/
abbrev Controller := List Call → Nat → Nat → Bool

/-- `rx_state`. No value but these five is ever stored, so the switch's default is dead. -/
inductive RxState where
  | type | cmdHdr | cmdPayload | aclHdr | aclPayload
  deriving DecidableEq, Repr

/-- The parser's static variables. `rxIdx` is a `uint8_t`, `rxPktLen` a `uint16_t`. -/
structure Parser where
  rxState : RxState
  rxHdr : Nat → UInt8
  rxIdx : Nat
  rxPktLen : Nat
  rxHdlFlags : Nat
  hciPayload : Nat → UInt8

/-- The static initialisers. -/
def Parser.initial : Parser := ⟨.type, fun _ => 0, 0, 0, 0, fun _ => 0⟩

/-- `lo | (hi << 8)`. -/
def le16 (lo hi : UInt8) : Nat := lo.toNat ||| hi.toNat <<< 8

/-- The first `len` bytes of a buffer. -/
def bytesAt (buf : Nat → UInt8) (len : Nat) : List UInt8 := (List.range len).map buf

/-- `rx_hdr[rx_idx++] = byte`. -/
def Parser.pushHdr (p : Parser) (byte : UInt8) : Parser :=
  { p with rxHdr := Function.update p.rxHdr p.rxIdx byte, rxIdx := (p.rxIdx + 1) % 256 }

/-- `hci_payload[rx_idx++] = byte`. -/
def Parser.pushPayload (p : Parser) (byte : UInt8) : Parser :=
  { p with hciPayload := Function.update p.hciPayload p.rxIdx byte, rxIdx := (p.rxIdx + 1) % 256 }

def hciParserFeed (ctl : Controller) (s : Parser × List Call) (byte : UInt8) :
    Parser × List Call :=
  let (p, calls) := s
  match p.rxState with
  | .type =>
    let p := { p with rxIdx := 0 }
    if byte = 0x01 then ({ p with rxState := .cmdHdr }, calls)
    else if byte = 0x02 then ({ p with rxState := .aclHdr }, calls)
    else (p, calls)
  | .cmdHdr =>
    let p := p.pushHdr byte
    if p.rxIdx = 3 then
      let opcode := le16 (p.rxHdr 0) (p.rxHdr 1)
      let p := { p with rxPktLen := (p.rxHdr 2).toNat, rxIdx := 0 }
      let calls := calls ++ [.cmdGetMaxParamSize opcode]
      if p.rxPktLen = 0 then
        ({ p with rxState := .type }, calls ++ [.cmdReceived HCI_TL_H4 opcode 0 none])
      else ({ p with rxState := .cmdPayload }, calls)
    else (p, calls)
  | .cmdPayload =>
    let p := p.pushPayload byte
    if p.rxIdx = p.rxPktLen then
      ({ p with rxState := .type },
        calls ++ [.cmdReceived HCI_TL_H4 (le16 (p.rxHdr 0) (p.rxHdr 1)) (p.rxPktLen % 256)
          (some (bytesAt p.hciPayload (p.rxPktLen % 256)))])
    else (p, calls)
  | .aclHdr =>
    let p := p.pushHdr byte
    if p.rxIdx = 4 then
      let p := { p with
        rxHdlFlags := le16 (p.rxHdr 0) (p.rxHdr 1)
        rxPktLen := le16 (p.rxHdr 2) (p.rxHdr 3)
        rxIdx := 0 }
      if p.rxPktLen = 0 then
        ({ p with rxState := .type }, calls ++ [.aclTxDataReceived HCI_TL_H4 p.rxHdlFlags 0 none])
      else ({ p with rxState := .aclPayload }, calls)
    else (p, calls)
  | .aclPayload =>
    let p := p.pushPayload byte
    if p.rxIdx = p.rxPktLen then
      let dst := ctl calls p.rxHdlFlags p.rxPktLen
      let calls := calls ++ [.aclTxDataAlloc HCI_TL_H4 p.rxHdlFlags p.rxPktLen]
      ({ p with rxState := .type },
        if dst then
          calls ++ [.aclTxDataReceived HCI_TL_H4 p.rxHdlFlags p.rxPktLen
            (some (bytesAt p.hciPayload p.rxPktLen))]
        else calls)
    else (p, calls)

/-- A byte stream fed to the parser. -/
def feedAll (ctl : Controller) (s : Parser × List Call) (bytes : List UInt8) :
    Parser × List Call :=
  bytes.foldl (hciParserFeed ctl) s

@[simp] theorem feedAll_nil (ctl : Controller) (s : Parser × List Call) :
    feedAll ctl s [] = s := rfl

@[simp] theorem feedAll_cons (ctl : Controller) (s : Parser × List Call) (b : UInt8)
    (bs : List UInt8) : feedAll ctl s (b :: bs) = feedAll ctl (hciParserFeed ctl s b) bs := rfl

@[simp] theorem feedAll_append (ctl : Controller) (s : Parser × List Call) (as bs : List UInt8) :
    feedAll ctl s (as ++ bs) = feedAll ctl (feedAll ctl s as) bs := by
  simp [feedAll]

/-- The log only grows. -/
theorem calls_feed (ctl : Controller) (s : Parser × List Call) (b : UInt8) :
    s.2 <+: (hciParserFeed ctl s b).2 := by
  obtain ⟨p, calls⟩ := s
  cases hst : p.rxState with
  | type => simp only [hciParserFeed, hst]; split_ifs <;> exact List.prefix_rfl
  | cmdHdr => simp only [hciParserFeed, hst]; split_ifs <;> simp
  | cmdPayload => simp only [hciParserFeed, hst]; split_ifs <;> simp
  | aclHdr => simp only [hciParserFeed, hst]; split_ifs <;> simp
  | aclPayload => simp only [hciParserFeed, hst]; split_ifs <;> simp

theorem calls_feedAll (ctl : Controller) (s : Parser × List Call) (bytes : List UInt8) :
    s.2 <+: (feedAll ctl s bytes).2 := by
  induction bytes generalizing s with
  | nil => exact List.prefix_rfl
  | cons b bytes ih => exact (calls_feed ctl s b).trans (ih _)

/-- Some parser notices every byte: the next one may complete a packet. -/
theorem feedAll_noticed (ctl : Controller) {bytes : List UInt8}
    (h : ∀ s, feedAll ctl s bytes = s) : bytes = [] := by
  cases bytes with
  | nil => rfl
  | cons b bytes =>
    let p : Parser := { Parser.initial with rxState := .cmdPayload, rxPktLen := 1 }
    have hcalls : (hciParserFeed ctl (p, []) b).2 ≠ [] := by
      simp [hciParserFeed, p, Parser.pushPayload, Parser.initial]
    have hgrows := calls_feedAll ctl (hciParserFeed ctl (p, []) b) bytes
    rw [← feedAll_cons, h] at hgrows
    exact absurd (List.prefix_nil.mp hgrows) hcalls

theorem le16_eq (lo hi : UInt8) : le16 lo hi = lo.toNat + 256 * hi.toNat := by
  have hlo : lo.toNat < 2 ^ 8 := lo.toNat_lt
  rw [le16, Nat.lor_comm, ← Nat.shiftLeft_add_eq_or_of_lt hlo, Nat.shiftLeft_eq]
  omega

theorem bytesAt_update (buf : Nat → UInt8) (i : Nat) (b : UInt8) :
    bytesAt (Function.update buf i b) (i + 1) = bytesAt buf i ++ [b] := by
  rw [bytesAt, List.range_succ, List.map_append, List.map_singleton, Function.update_self]
  congr 1
  refine List.map_congr_left fun j hj => Function.update_of_ne ?_ _ _
  exact Nat.ne_of_lt (List.mem_range.mp hj)

end Bl616cl.Hci
