import Mathlib.Data.List.Basic
import Mathlib.Data.List.TakeWhile
import Bl616cl.Lib.Run
import Bl616cl.Hci.Feed
import Bl616cl.Hci.Transport

/-!
# Host-to-controller framing

What the controller receives from a sequence of `write` calls on a started transport. A write
pumps its bytes through the parser at once, so the `h2c` ring is empty between writes; one that
fills the ring to the last cell leaves head and tail equal and its bytes are never fed.
-/

namespace Bl616cl.Hci

open Bl616cl.Lib

/-- The bytes of a write that reach the parser of a started transport. -/
def fed (b : Buffer) : List UInt8 := if b.bytes.length < kQueueSize then b.bytes else []

namespace Transport

variable {ctl : Controller} {t : Transport}

/-- A sequence of `write` calls, their results unread. -/
def writes (ctl : Controller) (t : Transport) (bs : List Buffer) : Transport :=
  runs (fun t b => (t.write ctl b).1) t bs

/-- The controller is running and nothing is queued for the parser. -/
structure Idle (t : Transport) : Prop where
  started : t.controllerStarted = true
  empty : t.h2c.toList = []

theorem idle_begin : t.begin.1.Idle := by
  cases hs : t.bleStarted <;>
    exact ⟨by simp [begin, bleControllerStart, hciTransportReset, hs],
      by simp [begin, bleControllerStart, hciTransportReset, hs]⟩

theorem idle_reset (h : t.Idle) : t.hciTransportReset.Idle :=
  ⟨h.started, ByteRing.reset_toList _⟩

/-- What a write that fits leaves in the ring for the pump. -/
theorem store_idle (h : t.Idle) {b : Buffer} (hfit : b.bytes.length ≤ kQueueSize) :
    (t.h2c.store b.bytes).toList = fed b := by
  have hcount : t.h2c.count = 0 := by rw [← ByteRing.length_toList, h.empty]; rfl
  by_cases hlt : b.bytes.length < kQueueSize
  · rw [ByteRing.store_toList _ _ (by omega), h.empty, fed, if_pos hlt, List.nil_append]
  · rw [ByteRing.store_full _ (by omega), fed, if_neg hlt]

theorem write_idle (ctl : Controller) (h : t.Idle) (b : Buffer) :
    (t.write ctl b).1.Idle ∧ ((t.write ctl b).1.parser, (t.write ctl b).1.calls) =
      feedAll ctl (t.parser, t.calls) (fed b) := by
  have hcount : t.h2c.count = 0 := by rw [← ByteRing.length_toList, h.empty]; rfl
  by_cases hfit : b.bytes.length ≤ kQueueSize
  · have hlist := store_idle h hfit
    have hpush : t.hciH2cPush b = ({ t with h2c := t.h2c.store b.bytes }, b.bytes.length) := by
      simp only [hciH2cPush, t.h2c.push_fits (b := b) (by omega)]
    by_cases hpos : 0 < b.bytes.length
    · obtain ⟨r, hr, hpump⟩ := pump_drains ctl { t with h2c := t.h2c.store b.bytes }
      have hwrite : (t.write ctl b).1 =
          hciParserPump ctl { t with h2c := t.h2c.store b.bytes } := by
        rw [write_started ctl t h.started, hpush, if_pos hpos]
      rw [hwrite, hpump, hlist]
      exact ⟨⟨h.started, hr⟩, rfl⟩
    · have hwrite : (t.write ctl b).1 = { t with h2c := t.h2c.store b.bytes } := by
        rw [write_started ctl t h.started, hpush, if_neg hpos]
      have hnil : fed b = [] := by
        simp [fed, List.length_eq_zero_iff.mp (Nat.eq_zero_of_not_pos hpos)]
      rw [hwrite, hnil]
      exact ⟨⟨h.started, hlist.trans hnil⟩, rfl⟩
  · have hpush : t.hciH2cPush b = (t, 0) := by
      simp only [hciH2cPush, t.h2c.push_drops (b := b) (by omega)]
    have hwrite : (t.write ctl b).1 = t := by
      rw [write_started ctl t h.started, hpush, if_neg (Nat.lt_irrefl 0)]
    rw [hwrite, fed, if_neg (by omega)]
    exact ⟨h, rfl⟩

theorem write_size (h : t.Idle) {b : Buffer} (hfit : b.bytes.length ≤ kQueueSize) :
    (t.write ctl b).2 = b.bytes.length := by
  have hcount : t.h2c.count = 0 := by rw [← ByteRing.length_toList, h.empty]; rfl
  have hpush : (t.hciH2cPush b).2 = b.bytes.length := by
    simp only [hciH2cPush, t.h2c.push_fits (b := b) (by omega)]
  rw [write_snd ctl t h.started, hpush]

/-- **Writes** feed the parser the bytes of every write that leaves a ring cell free. -/
theorem writes_idle (ctl : Controller) (h : t.Idle) (bs : List Buffer) :
    (t.writes ctl bs).Idle ∧ ((t.writes ctl bs).parser, (t.writes ctl bs).calls) =
      feedAll ctl (t.parser, t.calls) (bs.flatMap fed) := by
  induction bs generalizing t with
  | nil => exact ⟨h, rfl⟩
  | cons b bs ih =>
    obtain ⟨hidle, hfeed⟩ := write_idle ctl h b
    obtain ⟨hidle', hrest⟩ := ih hidle
    refine ⟨hidle', ?_⟩
    rw [List.flatMap_cons, feedAll_append, ← hfeed]
    exact hrest

theorem calls_writes (h : t.Idle) (bs : List Buffer) :
    (t.writes ctl bs).calls = (feedAll ctl (t.parser, t.calls) (bs.flatMap fed)).2 := by
  rw [← (writes_idle ctl h bs).2]

end Transport

open Transport

variable {ctl : Controller} {t : Transport}

/-! ## Exact framing -/

/-- After `begin`, the writes hand the controller the packets `ps`, each once and in order. -/
def Framed (ctl : Controller) (t : Transport) (ps : List H4Packet) (chunks : List Buffer) : Prop :=
  (t.begin.1.writes ctl chunks).calls = deliverAll ctl t.calls ps

theorem parser_begin : t.begin.1.parser = t.parser := by
  cases hs : t.bleStarted <;> simp [begin, bleControllerStart, hciTransportReset, hs]

theorem calls_begin : t.begin.1.calls = t.calls := by
  cases hs : t.bleStarted <;> simp [begin, bleControllerStart, hciTransportReset, hs]

theorem fed_eq_bytes {chunks : List Buffer} (h : ∀ b ∈ chunks, b.bytes.length < kQueueSize) :
    chunks.flatMap fed = chunks.flatMap Buffer.bytes :=
  List.flatMap_congr fun b hb => if_pos (h b hb)

theorem length_fed_le (b : Buffer) : (fed b).length ≤ b.bytes.length := by
  rw [fed]; split <;> simp

theorem length_flatMap_fed_le (chunks : List Buffer) :
    (chunks.flatMap fed).length ≤ (chunks.flatMap Buffer.bytes).length := by
  induction chunks with
  | nil => rfl
  | cons b bs ih =>
    have := length_fed_le b
    simp only [List.flatMap_cons, List.length_append]
    omega

theorem length_flatMap_fed_lt {chunks : List Buffer} {b : Buffer} (hb : b ∈ chunks)
    (hlen : kQueueSize ≤ b.bytes.length) :
    (chunks.flatMap fed).length < (chunks.flatMap Buffer.bytes).length := by
  induction chunks with
  | nil => cases hb
  | cons c cs ih =>
    simp only [List.flatMap_cons, List.length_append]
    rcases List.mem_cons.mp hb with rfl | hb
    · have hfed : fed b = [] := if_neg (Nat.not_lt.mpr hlen)
      have hrest := length_flatMap_fed_le cs
      have hpos : 0 < kQueueSize := by decide
      rw [hfed, List.length_nil]
      omega
    · have hrest := ih hb
      have hfirst := length_fed_le c
      omega

theorem H4Packet.encode_pos (p : H4Packet) : 0 < p.encode.length := by
  cases p <;> simp [H4Packet.encode]

theorem all_short_of_length {ps : List H4Packet}
    (h : (encodeAll ps).length = (encodeAll (ps.takeWhile fun p => decide p.Short)).length) :
    ∀ p ∈ ps, p.Short := by
  have hcut := List.takeWhile_append_dropWhile (p := fun p : H4Packet => decide p.Short) (l := ps)
  have hsplit : encodeAll ps = encodeAll (ps.takeWhile fun p => decide p.Short) ++
      encodeAll (ps.dropWhile fun p => decide p.Short) := by
    rw [encodeAll, encodeAll, encodeAll, ← List.flatMap_append, hcut]
  have hdrop : ps.dropWhile (fun p => decide p.Short) = [] := by
    cases hd : ps.dropWhile (fun p => decide p.Short) with
    | nil => rfl
    | cons q qs =>
      have hpos := q.encode_pos
      rw [hsplit, hd, encodeAll, encodeAll, List.flatMap_cons, List.length_append,
        List.length_append] at h
      omega
  intro p hp
  rw [← hcut, hdrop, List.append_nil] at hp
  simpa using List.mem_takeWhile_imp hp

/-- The controller calls of a packet sequence that is cut into chunks in any way. -/
theorem calls_of_packets (ctl : Controller) (hfresh : t.parser = Parser.initial)
    {ps : List H4Packet} {chunks : List Buffer} (hcut : chunks.flatMap Buffer.bytes = encodeAll ps)
    (hlen : ∀ b ∈ chunks, b.bytes.length < kQueueSize) :
    (t.begin.1.writes ctl chunks).calls =
      deliverAll ctl t.calls (ps.takeWhile fun p => decide p.Short) := by
  rw [calls_writes idle_begin, fed_eq_bytes hlen, hcut, calls_begin, parser_begin, hfresh]
  exact feed_encodeAll ctl t.calls rfl ps

/-- **Exact framing.** On a fresh parser, and however the stream is cut into writes, the
controller is handed every packet once and in order if and only if no ACL packet carries 256
bytes or more and no write is as long as the ring. -/
theorem framed_iff (ctl : Controller) (t : Transport) (hfresh : t.parser = Parser.initial)
    (ps : List H4Packet) (chunks : List Buffer)
    (hcut : chunks.flatMap Buffer.bytes = encodeAll ps) :
    Framed ctl t ps chunks ↔
      (∀ p ∈ ps, p.Short) ∧ ∀ b ∈ chunks, b.bytes.length < kQueueSize := by
  constructor
  · intro h
    have hframes := congrArg frameBytes h
    rw [frameBytes_deliverAll, ← hcut] at hframes
    -- a lost chunk leaves fewer frame bytes than the packets have
    have hlen : ∀ b ∈ chunks, b.bytes.length < kQueueSize := by
      intro b hb
      by_contra hlong
      have hlost := length_flatMap_fed_lt hb (Nat.le_of_not_lt hlong)
      have hfeed := frameBytes_feedAll ctl t.calls (p := t.parser) (chunks.flatMap fed)
      have hpending : t.parser.pending = 0 := by rw [hfresh]; rfl
      rw [calls_writes idle_begin, calls_begin, parser_begin] at hframes
      omega
    rw [calls_of_packets ctl hfresh hcut hlen, frameBytes_deliverAll, hcut] at hframes
    exact ⟨all_short_of_length (by omega), hlen⟩
  · rintro ⟨hshort, hlen⟩
    rw [Framed, calls_of_packets ctl hfresh hcut hlen,
      List.takeWhile_eq_self_iff.mpr fun p hp => decide_eq_true (hshort p hp)]

/-- A command without parameters in one write: both conditions hold. -/
theorem framed_reset_command : Framed (fun _ _ _ => true) Transport.initial
    [.cmd 0x0C03 [] (by decide)] [⟨[0x01, 0x03, 0x0C, 0x00], by decide⟩] :=
  (framed_iff _ Transport.initial rfl _ _ (by decide)).mpr (by decide)

/-- ACL data one byte longer than the 8-bit index counts. -/
def longData : List UInt8 := List.replicate 256 0

theorem length_longData : longData.length = 256 := List.length_replicate

def longAcl : H4Packet := .acl 0x0001 longData (by rw [length_longData]; decide)

theorem length_encode_longAcl : longAcl.encode.length = 261 := by
  simp only [longAcl, H4Packet.encode, List.length_cons, length_longData]

/-- The packet in one write. -/
def longAclWrite : Buffer :=
  ⟨longAcl.encode, by rw [length_encode_longAcl, kQueueSize]; decide⟩

/-- The write of `longAcl` returns its full size and the packet is never delivered. -/
theorem long_acl_lost :
    (Transport.initial.begin.1.write (fun _ _ _ => true) longAclWrite).2 =
        longAclWrite.bytes.length ∧
      ¬ Framed (fun _ _ _ => true) Transport.initial [longAcl] [longAclWrite] := by
  have hlen : longAclWrite.bytes.length = 261 := length_encode_longAcl
  have hlong : ¬ longAcl.Short := by
    rw [longAcl, H4Packet.Short, length_longData]
    decide
  refine ⟨write_size idle_begin (by rw [hlen]; decide), fun h => ?_⟩
  have hcut : [longAclWrite].flatMap Buffer.bytes = encodeAll [longAcl] := by
    simp [longAclWrite, encodeAll]
  have hwrites := calls_of_packets (fun _ _ _ => true) (t := Transport.initial) rfl hcut
    (by simp [hlen, kQueueSize])
  rw [List.takeWhile_cons_of_neg (by simp [hlong])] at hwrites
  have hframes := congrArg frameBytes (hwrites.symm.trans h)
  rw [frameBytes_deliverAll, frameBytes_deliverAll] at hframes
  simp [encodeAll, length_encode_longAcl] at hframes

end Bl616cl.Hci
