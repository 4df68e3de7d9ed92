import Bl616cl.Lib.Run
import Bl616cl.Hci.Transport

/-!
# The rings as queues of whole packets

Runs of the queue functions, with the history since the last reset that a queue is specified by:
which packets were pushed, which of them were kept and which dropped, what was read back, and
what the host's pushes reported as accepted. Whether a packet was kept or dropped nobody reports,
so the history may choose.
-/

namespace Bl616cl.Hci

open Bl616cl.Lib

/-- A call of one of the queue functions. -/
inductive QueueOp where
  | c2hPush (b : Buffer)
  | c2hRead
  | c2hAvailable
  | h2cPush (b : Buffer)
  | parserPump
  | reset

/-- What a call does. -/
def QueueOp.run (ctl : Controller) (t : Transport) : QueueOp → Transport
  | .c2hPush b => (t.hciC2hPush b).1
  | .c2hRead => t.hciC2hRead.1
  | .c2hAvailable => t
  | .h2cPush b => (t.hciH2cPush b).1
  | .parserPump => t.hciParserPump ctl
  | .reset => t.hciTransportReset

/-- The call does not fill a ring to its last cell. A packet as long as the ring may: the ring
keeps nothing of it, and it is one that does not fit. -/
def QueueOp.LeavesCell (t : Transport) : QueueOp → Prop
  | .c2hPush b => t.c2h.count = 0 ∨ t.c2h.count + b.bytes.length ≠ kQueueSize
  | .h2cPush b => t.h2c.count + b.bytes.length ≠ kQueueSize
  | _ => True

/-- What `hci_parser_pump` makes of a parser and the calls before it. -/
def Transport.pumped (t : Transport) (ctl : Controller) (r : Parser × List Call) :
    Parser × List Call :=
  let t := { t with parser := r.1, calls := r.2 }.hciParserPump ctl
  (t.parser, t.calls)

/-- A transport with its history since the last reset. -/
structure Queues where
  t : Transport
  /-- The packets given to `hci_c2h_push`. -/
  pushed : List (List UInt8)
  /-- Those of them that are in the queue's output. -/
  kept : List (List UInt8)
  /-- The others, each with the number of bytes that were still to be read before it. -/
  dropped : List (Nat × List UInt8)
  /-- The bytes returned by `hci_c2h_read`. -/
  returned : List UInt8
  /-- The bytes reported as accepted by `hci_h2c_push` and not pumped yet. -/
  accepted : List UInt8

namespace Queues

/-- Right after a reset. -/
def start (t : Transport) : Queues := ⟨t.hciTransportReset, [], [], [], [], []⟩

variable (s : Queues)

/-- The bytes of kept packets that are still to be read. -/
def unread : Nat := s.kept.flatten.length - s.returned.length

/-- A call, and whether a packet that it pushes is kept. -/
def step (ctl : Controller) (s : Queues) : QueueOp × Bool → Queues
  | (.c2hPush b, keep) => { s with
      t := QueueOp.run ctl s.t (.c2hPush b)
      pushed := s.pushed ++ [b.bytes]
      kept := if keep then s.kept ++ [b.bytes] else s.kept
      dropped := if keep then s.dropped else s.dropped ++ [(s.unread, b.bytes)] }
  | (.c2hRead, _) => { s with
      t := QueueOp.run ctl s.t .c2hRead
      returned := s.returned ++ s.t.hciC2hRead.2.toList }
  | (.c2hAvailable, _) => s
  | (.h2cPush b, _) => { s with
      t := QueueOp.run ctl s.t (.h2cPush b)
      accepted := s.accepted ++ b.bytes.take (s.t.hciH2cPush b).2 }
  | (.parserPump, _) => { s with t := QueueOp.run ctl s.t .parserPump, accepted := [] }
  | (.reset, _) => start s.t

/-- What the two queues promise: the bytes read are those of whole kept packets in order,
`hci_c2h_available` counts the rest, a packet is dropped only if it does not fit, and
`hci_parser_pump` feeds the parser, whatever it has read before, what the host was told is
accepted. -/
structure WholePackets (ctl : Controller) : Prop where
  kept : s.kept.Sublist s.pushed
  inOrder : s.returned <+: s.kept.flatten
  available : s.t.hciC2hAvailable = s.unread
  dropped : ∀ d ∈ s.dropped, kQueueSize ≤ d.1 + d.2.length
  feeds : ∀ r, s.t.pumped ctl r = feedAll ctl r s.accepted

/-- The invariant behind it: the rings hold what is left to be read. -/
structure Holds : Prop where
  kept : s.kept.Sublist s.pushed
  content : s.returned ++ s.t.c2h.toList = s.kept.flatten
  dropped : ∀ d ∈ s.dropped, kQueueSize ≤ d.1 + d.2.length
  feeds : s.t.h2c.toList = s.accepted

variable {s} {ctl : Controller}

theorem Holds.unread_eq (h : s.Holds) : s.unread = s.t.c2h.count := by
  rw [unread, ← h.content, List.length_append, ByteRing.length_toList]
  omega

theorem pumped_eq (t : Transport) (r : Parser × List Call) :
    t.pumped ctl r = feedAll ctl r t.h2c.toList := by
  obtain ⟨ring, -, hpump⟩ := { t with parser := r.1, calls := r.2 }.pump_drains ctl
  simp only [Transport.pumped, hpump]

theorem Holds.wholePackets (h : s.Holds) : s.WholePackets ctl where
  kept := h.kept
  inOrder := ⟨_, h.content⟩
  available := h.unread_eq.symm
  dropped d hd := h.dropped d hd
  feeds r := by rw [pumped_eq, h.feeds]

theorem holds_start (t : Transport) : (start t).Holds :=
  ⟨List.Sublist.refl _, by simp [start, Transport.hciTransportReset],
    fun _ hd => absurd hd List.not_mem_nil, by simp [start, Transport.hciTransportReset]⟩

theorem step_t (ctl : Controller) (s : Queues) (op : QueueOp) (keep : Bool) :
    (s.step ctl (op, keep)).t = op.run ctl s.t := by
  cases op <;> simp only [step, QueueOp.run, start]

/-! ## One step -/

/-- A packet that has room and leaves a cell is kept. -/
theorem Holds.c2hPush_kept (h : s.Holds) {b : Buffer}
    (hfit : s.t.c2h.count + b.bytes.length < kQueueSize) :
    (s.step ctl (.c2hPush b, true)).Holds where
  kept := h.kept.append_right _
  content := by
    simp only [step, QueueOp.run, Transport.hciC2hPush, ByteRing.push_fits _ (Nat.le_of_lt hfit),
      s.t.c2h.store_toList b.bytes hfit, ← List.append_assoc, h.content, if_pos]
    simp
  dropped := h.dropped
  feeds := h.feeds

/-- One that the ring has no room for is dropped, and so is, from an empty ring, one as long as
the ring. -/
theorem Holds.c2hPush_dropped (h : s.Holds) {b : Buffer}
    (hfull : kQueueSize ≤ s.t.c2h.count + b.bytes.length)
    (hcell : QueueOp.LeavesCell s.t (.c2hPush b)) :
    (s.step ctl (.c2hPush b, false)).Holds where
  kept := h.kept.trans (List.sublist_append_left _ _)
  content := by
    have hring : (s.t.hciC2hPush b).1.c2h.toList = s.t.c2h.toList := by
      by_cases hfit : s.t.c2h.count + b.bytes.length ≤ kQueueSize
      · have hempty : s.t.c2h.count = 0 := hcell.resolve_right fun hne => hne (by omega)
        simp only [Transport.hciC2hPush, ByteRing.push_fits _ hfit]
        rw [s.t.c2h.store_full (by omega), eq_comm, ← List.length_eq_zero_iff,
          ByteRing.length_toList, hempty]
      · simp only [Transport.hciC2hPush, ByteRing.push_drops _ hfit]
    simpa only [step, QueueOp.run, hring, Bool.false_eq_true, ↓reduceIte] using h.content
  dropped := by
    intro d hd
    rcases List.mem_append.mp hd with hd | hd
    · exact h.dropped d hd
    · rw [List.mem_singleton.mp hd]
      simp only [h.unread_eq]
      exact hfull
  feeds := h.feeds

theorem Holds.c2hRead (h : s.Holds) (keep : Bool) : (s.step ctl (.c2hRead, keep)).Holds := by
  cases hl : s.t.c2h.toList with
  | nil =>
    have hpop := s.t.c2h.pop_none hl
    refine ⟨h.kept, ?_, h.dropped, ?_⟩
    · simpa [step, QueueOp.run, Transport.hciC2hRead, hpop] using h.content
    · simpa [step, QueueOp.run, Transport.hciC2hRead, hpop] using h.feeds
  | cons b bs =>
    obtain ⟨r, hpop, hr⟩ := s.t.c2h.pop_some hl
    have hcontent := h.content
    refine ⟨h.kept, ?_, h.dropped, ?_⟩
    · simpa [step, QueueOp.run, Transport.hciC2hRead, hpop, hr, hl] using hcontent
    · simpa [step, QueueOp.run, Transport.hciC2hRead, hpop] using h.feeds

theorem Holds.h2cPush (h : s.Holds) {b : Buffer} (hcell : QueueOp.LeavesCell s.t (.h2cPush b))
    (keep : Bool) : (s.step ctl (.h2cPush b, keep)).Holds := by
  refine ⟨h.kept, h.content, h.dropped, ?_⟩
  simp only [QueueOp.LeavesCell] at hcell
  by_cases hfit : s.t.h2c.count + b.bytes.length ≤ kQueueSize
  · have hlist := s.t.h2c.store_toList b.bytes (by omega)
    simp only [step, QueueOp.run, Transport.hciH2cPush, ByteRing.push_fits _ hfit, hlist, h.feeds,
      List.take_length]
  · simp only [step, QueueOp.run, Transport.hciH2cPush, ByteRing.push_drops _ hfit, h.feeds,
      List.take_zero, List.append_nil]

theorem Holds.parserPump (h : s.Holds) (keep : Bool) :
    (s.step ctl (.parserPump, keep)).Holds := by
  obtain ⟨r, hr, hpump⟩ := s.t.pump_drains ctl
  refine ⟨?_, ?_, ?_, ?_⟩ <;> simp only [step, QueueOp.run, hpump]
  · exact h.kept
  · exact h.content
  · exact h.dropped
  · exact hr

/-- Every call that leaves a cell has an account of it. -/
theorem Holds.step (h : s.Holds) {op : QueueOp} (hcell : op.LeavesCell s.t) :
    ∃ keep, (s.step ctl (op, keep)).Holds := by
  cases op with
  | c2hPush b =>
    rcases Nat.lt_or_ge (s.t.c2h.count + b.bytes.length) kQueueSize with hfit | hfull
    · exact ⟨true, h.c2hPush_kept hfit⟩
    · exact ⟨false, h.c2hPush_dropped hfull hcell⟩
  | c2hRead => exact ⟨true, h.c2hRead true⟩
  | c2hAvailable => exact ⟨true, h⟩
  | h2cPush b => exact ⟨true, h.h2cPush hcell true⟩
  | parserPump => exact ⟨true, h.parserPump true⟩
  | reset => exact ⟨true, holds_start s.t⟩

/-! ## What an account says about the call -/

theorem count_hciC2hPush (t : Transport) (b : Buffer) :
    (t.hciC2hPush b).1.c2h.count =
      if t.c2h.count + b.bytes.length ≤ kQueueSize then
        (t.c2h.count + b.bytes.length) % kQueueSize else t.c2h.count := by
  split
  · next hfit => simp only [Transport.hciC2hPush, ByteRing.push_fits _ hfit, ByteRing.store_count]
  · next hfit => simp only [Transport.hciC2hPush, ByteRing.push_drops _ hfit]

/-- A packet counted as kept was let in with a cell to spare. -/
theorem Holds.fits_of_kept (h : s.Holds) {b : Buffer}
    (hw : (s.step ctl (.c2hPush b, true)).WholePackets ctl) :
    s.t.c2h.count + b.bytes.length < kQueueSize := by
  have hlt := s.t.c2h.count_lt
  have havail : (s.t.hciC2hPush b).1.c2h.count =
      (s.kept ++ [b.bytes]).flatten.length - s.returned.length := hw.available
  rw [count_hciC2hPush, List.flatten_concat, List.length_append, ← h.content,
    List.length_append, ByteRing.length_toList] at havail
  split at havail
  · next hfit =>
    rcases Nat.lt_or_ge (s.t.c2h.count + b.bytes.length) kQueueSize with hroom | hfull
    · exact hroom
    · rw [Nat.le_antisymm hfit hfull, Nat.mod_self] at havail
      omega
  · next hfit => omega

/-- One counted as dropped did not fit, and the ring was left as it was. -/
theorem Holds.full_of_dropped (h : s.Holds) {b : Buffer}
    (hw : (s.step ctl (.c2hPush b, false)).WholePackets ctl) :
    kQueueSize ≤ s.t.c2h.count + b.bytes.length ∧ QueueOp.LeavesCell s.t (.c2hPush b) := by
  have hdrop := hw.dropped (s.unread, b.bytes) (List.mem_append_right _ (List.mem_singleton_self _))
  have havail : (s.t.hciC2hPush b).1.c2h.count = s.unread := hw.available
  simp only [h.unread_eq] at hdrop havail
  refine ⟨hdrop, ?_⟩
  rw [QueueOp.LeavesCell, or_iff_not_imp_right, not_not]
  intro hfull
  rw [count_hciC2hPush, if_pos (Nat.le_of_eq hfull), hfull, Nat.mod_self] at havail
  exact havail.symm

/-- What was accepted is lost from a ring filled to its last cell, and some parser misses it. -/
theorem leavesCell_of_feeds {b : Buffer} {keep : Bool}
    (hw : (s.step ctl (.h2cPush b, keep)).WholePackets ctl) :
    QueueOp.LeavesCell s.t (.h2cPush b) := by
  intro hfull
  have hlt := s.t.h2c.count_lt
  have hpush := ByteRing.push_fits s.t.h2c (Nat.le_of_eq hfull)
  have hlost : ∀ r, feedAll ctl r (s.accepted ++ b.bytes) = r := by
    intro r
    have hfeeds := hw.feeds r
    simp only [pumped_eq, step, QueueOp.run, Transport.hciH2cPush, hpush, List.take_length,
      s.t.h2c.store_full hfull, feedAll_nil] at hfeeds
    exact hfeeds.symm
  have hnil := feedAll_noticed ctl hlost
  have hbytes : b.bytes.length = 0 := by
    rw [(List.append_eq_nil_iff.mp hnil).2, List.length_nil]
  omega

theorem Holds.of_wholePackets (h : s.Holds) {op : QueueOp} {keep : Bool}
    (hw : (s.step ctl (op, keep)).WholePackets ctl) :
    op.LeavesCell s.t ∧ (s.step ctl (op, keep)).Holds := by
  cases op with
  | c2hPush b =>
    cases keep with
    | true =>
      have hfit := h.fits_of_kept hw
      exact ⟨.inr (Nat.ne_of_lt hfit), h.c2hPush_kept hfit⟩
    | false =>
      obtain ⟨hfull, hcell⟩ := h.full_of_dropped hw
      exact ⟨hcell, h.c2hPush_dropped hfull hcell⟩
  | c2hRead => exact ⟨trivial, h.c2hRead keep⟩
  | c2hAvailable => exact ⟨trivial, h⟩
  | h2cPush b =>
    have hcell := leavesCell_of_feeds hw
    exact ⟨hcell, h.h2cPush hcell keep⟩
  | parserPump => exact ⟨trivial, h.parserPump keep⟩
  | reset => exact ⟨trivial, holds_start s.t⟩

/-! ## Runs -/

/-- **Whole-packet queues.** After a reset and along any run, both rings keep their promise, under
some account of which packets were kept, if and only if no push fills a ring to its last cell. -/
theorem wholePackets_iff (ctl : Controller) (t : Transport) (ops : List QueueOp) :
    (∃ hist : List (QueueOp × Bool), hist.map Prod.fst = ops ∧
        Along (step ctl) (WholePackets · ctl) (start t) hist) ↔
      Meets (QueueOp.run ctl) QueueOp.LeavesCell t.hciTransportReset ops :=
  exists_along_iff_meets (f := Queues.t) (step_t ctl) (fun _ _ h hcell => h.step hcell)
    (fun _ h => h.wholePackets) (fun _ _ _ h hw => h.of_wholePackets hw) (holds_start t)

/-- A packet of one byte less than the ring has, and a packet of one byte. -/
def largePacket : Buffer :=
  ⟨List.replicate 2047 0, by rw [List.length_replicate, kQueueSize]; decide⟩

def smallPacket : Buffer := ⟨[0x04], by decide⟩

theorem length_largePacket : largePacket.bytes.length + 1 = kQueueSize := by
  rw [largePacket, List.length_replicate, kQueueSize]

/-- The large packet behind the unread small one is let in and empties the ring: no account of the
two is right. -/
theorem large_packet_empties :
    ¬ ∃ hist : List (QueueOp × Bool),
        hist.map Prod.fst = [.c2hPush smallPacket, .c2hPush largePacket] ∧
        Along (step fun _ _ _ => true) (WholePackets · fun _ _ _ => true)
          (start Transport.initial) hist := by
  rintro ⟨hist, hmap, h⟩
  obtain ⟨⟨op, small⟩, more, rfl, rfl, hmore⟩ := List.map_eq_cons_iff.mp hmap
  obtain ⟨⟨op, large⟩, rest, rfl, rfl, hrest⟩ := List.map_eq_cons_iff.mp hmore
  obtain rfl := List.map_eq_nil_iff.mp hrest
  have hsmall := ((holds_start _).of_wholePackets h.2.head).2
  have hcell := (hsmall.of_wholePackets h.2.2).1
  have hone : (QueueOp.run (fun _ _ _ => true) Transport.initial.hciTransportReset
      (.c2hPush smallPacket)).c2h.count = 1 := by decide
  have hlarge := length_largePacket
  rw [step_t] at hcell
  simp only [QueueOp.LeavesCell, start, hone] at hcell
  omega

end Queues

end Bl616cl.Hci
