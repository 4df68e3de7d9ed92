import Bl616cl.Hci.Framing

/-!
# What a transport reset resynchronises

`hciTransportReset` empties both rings and leaves the parser's variables as they are. A host that
restarts in the middle of a packet therefore has the head of its new stream taken for the rest of
the old packet.
-/

namespace Bl616cl.Hci

open Transport

variable {ctl : Controller} {t : Transport} {p q : Parser} {calls : List Call}

/-- The ways to reset the transport. -/
inductive ResetPath where
  | begin | end_ | btbleUartInit
  deriving DecidableEq, Repr

def ResetPath.reset : ResetPath → Transport → Transport
  | .begin, t => t.begin.1
  | .end_, t => t.end_
  | .btbleUartInit, t => t.btbleUartInit

/-- The controller calls of the writes that follow a reset. The log starts empty, so that the
controller answers from what it has seen since. -/
def callsAfter (ctl : Controller) (how : ResetPath) (t : Transport) (later : List Buffer) :
    List Call :=
  ({ how.reset t with calls := [] }.writes ctl later).calls

/-- After any reset, every later packet sequence is parsed as on a transport nothing had been
written to. -/
def Resyncs (ctl : Controller) (t : Transport) : Prop :=
  ∀ how later ps, later.flatMap Buffer.bytes = encodeAll ps →
    callsAfter ctl how t later = callsAfter ctl how Transport.initial.begin.1 later

theorem callsAfter_eq (ht : t.Idle) (how : ResetPath) (later : List Buffer) :
    callsAfter ctl how t later = (feedAll ctl (t.parser, []) (later.flatMap fed)).2 := by
  have hidle : Idle { how.reset t with calls := [] } := by
    cases how with
    | begin => exact ⟨idle_begin.started, idle_begin.empty⟩
    | end_ => exact ⟨(idle_reset ht).started, (idle_reset ht).empty⟩
    | btbleUartInit => exact ⟨(idle_reset ht).started, (idle_reset ht).empty⟩
  have hparser : (how.reset t).parser = t.parser := by
    cases how with
    | begin => exact parser_begin
    | end_ => rfl
    | btbleUartInit => rfl
  rw [callsAfter, calls_writes hidle, hparser]

/-! ## At a packet boundary -/

/-- In state 0 no variable of the parser is read before it is written. -/
theorem agree_of_boundary (hp : p.rxState = .type) (hq : q.rxState = .type) : Agree p q :=
  ⟨hp.trans hq.symm, by simp only [hp]⟩

theorem resyncs_of_boundary (ht : t.Idle) (h : t.parser.rxState = .type) : Resyncs ctl t := by
  intro how later ps _
  have hagree := agree_of_boundary (q := Transport.initial.begin.1.parser) h
    (by rw [parser_begin]; rfl)
  rw [callsAfter_eq ht, callsAfter_eq idle_begin]
  exact (hagree.feedAll ctl [] _).2

/-! ## In the middle of a packet -/

/-- A command with opcode 0 and no parameters. -/
def probe : H4Packet := .cmd 0 [] (by decide)

def probeWrite : Buffer := ⟨[0x01, 0x00, 0x00, 0x00], by decide⟩

/-- At a packet boundary the probe is what it says. -/
theorem feed_probe_boundary (h : p.rxState = .type) :
    (feedAll ctl (p, []) probeWrite.bytes).2 =
      [.cmdGetMaxParamSize 0, .cmdReceived HCI_TL_H4 0 0 none] := by
  simp [probeWrite, hciParserFeed, h, Parser.pushHdr, le16]

/-- No command header is being read and none has been reported. -/
def Quiet (s : Parser × List Call) : Prop :=
  s.1.rxState ≠ .cmdHdr ∧ ∀ opcode, Call.cmdGetMaxParamSize opcode ∉ s.2

/-- Only a 0x01 where a packet type is expected starts a command header. -/
theorem Quiet.feed (ctl : Controller) (h : Quiet (p, calls)) {b : UInt8}
    (hb : p.rxState = .type → b ≠ 0x01) : Quiet (hciParserFeed ctl (p, calls) b) := by
  obtain ⟨hst, hcalls⟩ := h
  cases hp : p.rxState with
  | type =>
    simp only [hciParserFeed, hp, if_neg (hb hp)]
    split <;> exact ⟨by simp, hcalls⟩
  | cmdHdr => exact absurd hp hst
  | cmdPayload =>
    simp only [hciParserFeed, hp]
    split <;> exact ⟨by simp [Parser.pushPayload, hp], fun op => by simp [hcalls op]⟩
  | aclHdr =>
    simp only [hciParserFeed, hp]
    split_ifs <;> exact ⟨by simp [Parser.pushHdr, hp], fun op => by simp [hcalls op]⟩
  | aclPayload =>
    simp only [hciParserFeed, hp]
    split_ifs <;> exact ⟨by simp [Parser.pushPayload, hp], fun op => by simp [hcalls op]⟩

/-- Inside a payload or an ACL header the probe's own header is swallowed. -/
theorem Quiet.feed_probe (ctl : Controller) (h : Quiet (p, calls)) (hp : p.rxState ≠ .type) :
    Quiet (feedAll ctl (p, calls) probeWrite.bytes) := by
  have h1 : Quiet (hciParserFeed ctl (p, calls) 0x01) := h.feed ctl fun ht => absurd ht hp
  have h2 : Quiet (hciParserFeed ctl (hciParserFeed ctl (p, calls) 0x01) 0x00) :=
    Quiet.feed ctl h1 fun _ => by decide
  have h3 := Quiet.feed ctl h2 (b := 0x00) fun _ => by decide
  exact Quiet.feed ctl h3 fun _ => by decide

/-- Inside a command header the probe's bytes end up in another opcode or length. -/
theorem feed_probe_cmdHdr (hp : p.rxState = .cmdHdr) (hidx : p.rxIdx < 3) :
    (feedAll ctl (p, []) probeWrite.bytes).2 ≠
      [.cmdGetMaxParamSize 0, .cmdReceived HCI_TL_H4 0 0 none] := by
  obtain h0 | h1 | h2 : p.rxIdx = 0 ∨ p.rxIdx = 1 ∨ p.rxIdx = 2 := by omega
  · simp [probeWrite, hciParserFeed, hp, h0, Parser.pushHdr, le16_eq]
  · simp [probeWrite, hciParserFeed, hp, h1, Parser.pushHdr, le16_eq]
  · simp [probeWrite, hciParserFeed, hp, h2, Parser.pushHdr, Parser.pushPayload]

theorem feed_probe_midPacket (hb : p.InBounds) (h : p.rxState ≠ .type) :
    (feedAll ctl (p, []) probeWrite.bytes).2 ≠
      [.cmdGetMaxParamSize 0, .cmdReceived HCI_TL_H4 0 0 none] := by
  by_cases hc : p.rxState = .cmdHdr
  · exact feed_probe_cmdHdr hc (by simpa only [Parser.InBounds, hc] using hb)
  · intro heq
    have hquiet : Quiet (p, []) := ⟨hc, fun op => List.not_mem_nil⟩
    have hnone := (hquiet.feed_probe ctl h).2 0
    rw [heq] at hnone
    exact hnone (List.mem_cons_self ..)

theorem not_resyncs_of_midPacket (ht : t.Idle) (hb : t.parser.InBounds)
    (h : t.parser.rxState ≠ .type) : ¬ Resyncs ctl t := by
  intro hre
  have heq := hre .begin [probeWrite] [probe] rfl
  have hfed : [probeWrite].flatMap fed = probeWrite.bytes := by decide
  rw [callsAfter_eq ht, callsAfter_eq idle_begin, hfed,
    feed_probe_boundary (p := initial.begin.1.parser) (by rw [parser_begin]; rfl)] at heq
  exact feed_probe_midPacket hb h heq

/-! ## After any stream -/

theorem inBounds_writes (pre : List Buffer) :
    (Transport.initial.begin.1.writes ctl pre).parser.InBounds := by
  have hfeed := (writes_idle ctl (t := Transport.initial.begin.1) idle_begin pre).2
  rw [show (Transport.initial.begin.1.writes ctl pre).parser = _ from congrArg Prod.fst hfeed]
  exact Parser.InBounds.feedAll ctl _ (by rw [parser_begin]; trivial) _

/-- **Resynchronisation.** Whatever has been written, a reset puts the stream back in step if and
only if it comes at a packet boundary of the parser. -/
theorem resyncs_iff (ctl : Controller) (pre : List Buffer) :
    Resyncs ctl (Transport.initial.begin.1.writes ctl pre) ↔
      (Transport.initial.begin.1.writes ctl pre).parser.rxState = .type := by
  have hidle := (writes_idle ctl (t := Transport.initial.begin.1) idle_begin pre).1
  constructor
  · intro h
    by_contra hmid
    exact not_resyncs_of_midPacket hidle (inBounds_writes pre) hmid h
  · exact resyncs_of_boundary hidle

/-- One packet type byte before the reset is enough to lose the next command. -/
theorem type_byte_desyncs :
    ¬ Resyncs (fun _ _ _ => true)
      (Transport.initial.begin.1.writes (fun _ _ _ => true) [⟨[0x01], by decide⟩]) := by
  have hwrites := writes_idle (fun _ _ _ => true) (t := Transport.initial.begin.1)
    idle_begin [⟨[0x01], by decide⟩]
  refine not_resyncs_of_midPacket hwrites.1 (inBounds_writes _) ?_
  rw [show (Transport.writes _ _ _).parser = _ from congrArg Prod.fst hwrites.2, parser_begin]
  decide

end Bl616cl.Hci
