import Bl616cl.Ping.Reports

/-!
# Replies among other packets

`esp_ping_task` calls `lwip_recvfrom` once for each request, and the raw socket delivers every ICMP
packet of the host, also those that are left from the requests before.
-/

namespace Bl616cl.Ping

open Bl616cl.Lib

/-! ## Which packets are looked at -/

/-- The bytes where the header length points are those of a reply, received or not. -/
def Packet.Seems (p : Packet) (target : UInt32) (seqno : Nat) (stack : List UInt8) : Prop :=
  headersSize ≤ min p.bytes.length replySize ∧ p.source = target ∧
    Answers (p.received stack).mem seqno

/-- Its headers are received whole. -/
def Packet.Whole (p : Packet) : Prop :=
  20 ≤ icmpOffset p.bytes ∧ icmpOffset p.bytes + 8 ≤ min p.bytes.length replySize

instance (p : Packet) (target : UInt32) (seqno : Nat) (stack : List UInt8) :
    Decidable (p.Seems target seqno stack) := inferInstanceAs (Decidable (_ ∧ _))

instance (p : Packet) : Decidable p.Whole := inferInstanceAs (Decidable (_ ∧ _))

namespace Round

variable {target : UInt32} {r : Round}

/-- Success if and only if the reply is among the packets. -/
def Recognised (target : UInt32) (r : Round) : Prop :=
  r.sent = true → (r.success target = true ↔ ∃ p ∈ r.packets, p.Wanted target r.seqno)

/-- The reply is not behind another packet; and the first packet is not cut off before the end of
its headers, unless that makes no difference. -/
def Decides (target : UInt32) (r : Round) : List Packet → Prop
  | [] => True
  | p :: rest =>
    if p.Whole then p.Wanted target r.seqno ∨ ∀ q ∈ rest, ¬ q.Wanted target r.seqno
    else p.Seems target r.seqno r.stack ↔ ∃ q ∈ p :: rest, q.Wanted target r.seqno

def FirstDecides (target : UInt32) (r : Round) : Prop :=
  r.sent = true → r.Decides target r.packets

instance (target : UInt32) (r : Round) : ∀ packets, Decidable (r.Decides target packets)
  | [] => inferInstanceAs (Decidable True)
  | p :: rest => inferInstanceAs (Decidable (if p.Whole then _ ∨ ∀ q ∈ rest, ¬ _ else _ ↔ _))

instance (target : UInt32) (r : Round) : Decidable (r.FirstDecides target) :=
  inferInstanceAs (Decidable (_ → _))

/-- A packet whose headers are whole is taken for what it is. -/
theorem seems_iff {p : Packet} {seqno : Nat} (stack : List UInt8) (h : p.Whole) :
    p.Seems target seqno stack ↔ p.Wanted target seqno := by
  obtain ⟨hmin, hin⟩ := h
  have hlen : headersSize ≤ min p.bytes.length replySize := by unfold headersSize; omega
  unfold Packet.Seems Packet.Wanted
  rw [answers_received stack hin]
  exact ⟨fun ⟨_, hs, ha⟩ => ⟨hs, hmin, by omega, ha⟩, fun ⟨hs, _, _, ha⟩ => ⟨hlen, hs, ha⟩⟩

theorem success_cons {p : Packet} {rest : List Packet} (hp : r.packets = p :: rest)
    (hsent : r.sent = true) : r.success target = true ↔ p.Seems target r.seqno r.stack := by
  simp only [success, hsent, hp, List.head?_cons, Option.any_some, Bool.true_and]
  exact Reply.echoed_iff

theorem recognised_iff : r.Recognised target ↔ r.FirstDecides target := by
  unfold Recognised FirstDecides
  refine imp_congr_right fun hsent => ?_
  cases hp : r.packets with
  | nil => simp [success, hp, Decides]
  | cons p rest =>
    rw [success_cons hp hsent]
    simp only [Decides]
    split
    · next hwhole =>
      rw [seems_iff r.stack hwhole]
      constructor
      · intro h
        refine or_iff_not_imp_left.mpr fun hnot q hq hwanted => hnot ?_
        exact h.mpr ⟨q, List.mem_cons_of_mem p hq, hwanted⟩
      · intro h
        refine ⟨fun hw => ⟨p, List.mem_cons_self, hw⟩, fun ⟨q, hq, hw⟩ => ?_⟩
        rcases h with h | h
        · exact h
        · rcases List.mem_cons.mp hq with rfl | hq
          · exact hw
          · exact absurd hw (h q hq)
    · exact Iff.rfl

end Round

namespace Pinger

variable {g : Pinger}

/-- Each request that was sent is reported as answered if and only if its reply was among the
packets; one that was not is not. -/
def Recognised (g : Pinger) : Prop :=
  ∀ rep ∈ g.wire.reports, rep.cb.isResult = true → ∃ r, rep.round = some r ∧
    (r.sent = true → (rep.cb = .success ↔ ∃ p ∈ r.packets, p.Wanted g.wire.target r.seqno)) ∧
    (r.sent = false → rep.cb ≠ .success)

theorem recognised_of_inv (h : Inv Round.FirstDecides g) : Recognised g := by
  intro rep hmem hcb
  obtain ⟨k, hk⟩ := List.getElem?_of_mem hmem
  obtain ⟨r, hround, -, hsuccess, hG⟩ := h.numbered k rep hk hcb
  refine ⟨r, hround, fun hsent => ?_, fun hsent hsucc => ?_⟩
  · rw [hsuccess]
    exact Round.recognised_iff.mpr hG hsent
  · have hany := hsuccess.mp hsucc
    rw [Round.success, hsent] at hany
    cases hany

/-- **Traffic**: in every run in which the first packet decides in each round, the replies are
recognised. -/
theorem recognised_of_firstDecides (target : UInt32) (count intervalMs : Nat)
    (hasCallback : Callback → Bool) (labels : List PingerLabel)
    (h : Meets step (fun g a => g.Once a ∧ g.Sends Round.FirstDecides a)
      (start target count intervalMs hasCallback) labels) :
    Along step Recognised (start target count intervalMs hasCallback) labels :=
  (along_of_meets inv_step (inv_start ..) h).mono fun _ => recognised_of_inv

theorem recognised_answered :
    Along step Recognised (start 7 2 0 fun cb => cb == .finish) answered :=
  recognised_of_firstDecides 7 2 0 _ answered (by decide)

/-- A packet of another host comes before the reply. -/
theorem not_recognised_second : ¬ ∀ (target : UInt32) (count intervalMs : Nat)
    (hasCallback : Callback → Bool) (labels : List PingerLabel),
    Meets step Once (start target count intervalMs hasCallback) labels →
      Along step Recognised (start target count intervalMs hasCallback) labels := by
  intro h
  let packets := [⟨0x45 :: List.replicate 27 0, 8⟩, replyTo 1 []]
  have hlast := (h 7 1 0 (fun _ => false) (starting ++ List.replicate 12 (.task (io packets [])))
    (by decide)).last
  obtain ⟨r, hround, hiff, -⟩ := hlast ⟨.timeout, some ⟨1, true, packets, []⟩⟩ (by decide) rfl
  obtain rfl := Option.some.inj hround
  exact absurd ((hiff rfl).mpr (by decide)) (by decide)

end Pinger

end Bl616cl.Ping
