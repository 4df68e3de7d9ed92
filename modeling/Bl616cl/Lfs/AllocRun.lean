import Bl616cl.Lfs.Alloc
import Bl616cl.Lib.Run

/-!
# littlefs: runs of the block allocator

Whatever is reported, and whenever blocks are acknowledged, no block is handed out twice from one
window or without an acknowledgement in between, and none that the last scan reported. The
allocator gives up only when it has looked at every block.
-/

namespace Bl616cl.Lfs

open Bl616cl.Lib

/-! ## What a log says -/

/-- The blocks handed out since the last acknowledgement. -/
def sinceAck : List AllocEvent → List Nat
  | [] => []
  | .gave b :: log => b :: sinceAck log
  | .ack :: _ => []
  | _ :: log => sinceAck log

/-- The blocks handed out since the last scan. -/
def sinceScan : List AllocEvent → List Nat
  | [] => []
  | .gave b :: log => b :: sinceScan log
  | .scan _ :: _ => []
  | _ :: log => sinceScan log

def lastScan : List AllocEvent → Option (List Nat)
  | [] => none
  | .scan reported :: _ => some reported
  | _ :: log => lastScan log

/-- The scans since the last acknowledgement, and the one before it. -/
def scansInUse : List AllocEvent → List (List Nat)
  | [] => []
  | .scan reported :: log => reported :: scansInUse log
  | .ack :: log => (lastScan log).toList
  | _ :: log => scansInUse log

/-- At every event of the log, the allocator did what it had to. -/
def Fair (c : Config) : List AllocEvent → Prop
  | [] => True
  | .gave b :: log =>
    Fair c log ∧ b < c.blockCount ∧ b ∉ sinceAck log ∧ b ∉ sinceScan log ∧
      ∃ reported, lastScan log = some reported ∧ b ∉ reported
  | .nospc :: log =>
    Fair c log ∧ ∀ b < c.blockCount, b ∈ sinceAck log ∨ ∃ reported ∈ scansInUse log, b ∈ reported
  | _ :: log => Fair c log

/-- The block that was looked at `j` steps ago. -/
def Free.back (c : Config) (s : Free) (j : Nat) : Nat :=
  (s.off + s.i + c.blockCount - j) % c.blockCount

structure Free.Inv (c : Config) (s : Free) : Prop where
  fair : Fair c s.log
  off_lt : s.off < c.blockCount
  i_le : s.i ≤ s.size
  size_le : s.size ≤ c.blockCount
  room : s.size - s.i ≤ s.ack
  ack_le : s.ack ≤ c.blockCount
  window : 0 < s.size → ∃ reported, lastScan s.log = some reported ∧
    ∀ k < s.size, s.buffer k = true ↔ (s.off + k) % c.blockCount ∈ reported
  fresh : 0 < s.size → ∀ b ∈ sinceScan s.log, ∃ k < s.i, b = (s.off + k) % c.blockCount
  given : ∀ b ∈ sinceAck s.log, ∃ j, 0 < j ∧ j ≤ c.blockCount - s.ack ∧ b = s.back c j
  looked : ∀ j, 0 < j → j ≤ c.blockCount - s.ack →
    s.back c j ∈ sinceAck s.log ∨ ∃ reported ∈ scansInUse s.log, s.back c j ∈ reported

variable {c : Config} {traverse : Traverse} {s t : Free} {log : List AllocEvent} {b j k n : Nat}
  {reported : List Nat}

theorem lastScan_mem (h : lastScan log = some reported) : reported ∈ scansInUse log := by
  induction log with
  | nil => simp [lastScan] at h
  | cons e log ih =>
    cases e with
    | scan r =>
      obtain rfl := Option.some.inj h
      exact List.mem_cons_self
    | gave b => exact ih h
    | ack => exact Option.mem_toList.2 h
    | nospc => exact ih h

theorem mod_ne_of_lt {p q : Nat} (hlt : p < q) (hnear : q < p + n) : p % n ≠ q % n := by
  intro heq
  have hdvd : n ∣ q - p := Nat.dvd_of_mod_eq_zero (Nat.sub_mod_eq_zero_of_mod_eq heq.symm)
  have hle := Nat.le_of_dvd (by omega) hdvd
  omega

theorem Free.back_look : s.look.back c (j + 1) = s.back c j := by
  change (s.off + (s.i + 1) + c.blockCount - (j + 1)) % c.blockCount =
    (s.off + s.i + c.blockCount - j) % c.blockCount
  congr 1
  omega

theorem Free.back_look_one : s.look.back c 1 = (s.off + s.i) % c.blockCount := by
  unfold Free.back Free.look
  rw [show s.off + (s.i + 1) + c.blockCount - 1 = s.off + s.i + c.blockCount by omega,
    Nat.add_mod_right]

/-! ## Looking at a block -/

/-- The block is in use, as far as is known. -/
theorem Free.Inv.look (h : s.Inv c) (hi : s.i < s.size) (hused : s.buffer s.i = true) :
    s.look.Inv c := by
  have hroom := h.room
  have hack := h.ack_le
  refine ⟨h.fair, h.off_lt, hi, h.size_le, ?_, ?_, h.window, fun hpos b hb => ?_,
    fun b hb => ?_, fun j hj hle => ?_⟩
  · change s.size - (s.i + 1) ≤ s.ack - 1
    omega
  · change s.ack - 1 ≤ c.blockCount
    omega
  · obtain ⟨k, hk, hbk⟩ := h.fresh hpos b hb
    exact ⟨k, Nat.lt_succ_of_lt hk, hbk⟩
  · obtain ⟨j, hj, hle, rfl⟩ := h.given b hb
    refine ⟨j + 1, Nat.succ_pos j, ?_, Free.back_look.symm⟩
    change j + 1 ≤ c.blockCount - (s.ack - 1)
    omega
  · obtain ⟨j, rfl⟩ : ∃ i, j = i + 1 := ⟨j - 1, by omega⟩
    rcases Nat.eq_zero_or_pos j with rfl | hpos
    · obtain ⟨r, hr, hmarks⟩ := h.window (by omega)
      rw [Nat.zero_add, Free.back_look_one]
      exact .inr ⟨r, lastScan_mem hr, (hmarks s.i hi).1 hused⟩
    · rw [Free.back_look]
      exact h.looked j hpos (by change j + 1 ≤ c.blockCount - (s.ack - 1) at hle; omega)

/-- The block is free, and handed out. -/
theorem Free.Inv.give (h : s.Inv c) (hi : s.i < s.size) (hfree : s.buffer s.i ≠ true) :
    Free.Inv c { s.look with log := .gave ((s.off + s.i) % c.blockCount) :: s.log } := by
  have hroom := h.room
  have hack := h.ack_le
  have hsize := h.size_le
  have hcount : 0 < c.blockCount := by omega
  obtain ⟨r, hr, hmarks⟩ := h.window (by omega)
  refine ⟨⟨h.fair, Nat.mod_lt _ hcount, fun hb => ?_, fun hb => ?_, r, hr, fun hb =>
    hfree ((hmarks s.i hi).2 hb)⟩, h.off_lt, hi, h.size_le, ?_, ?_, h.window, fun hpos b hb => ?_,
    fun b hb => ?_, fun j hj hle => ?_⟩
  · -- it was not looked at since the acknowledgement
    obtain ⟨j, hj, hle, heq⟩ := h.given _ hb
    refine mod_ne_of_lt (n := c.blockCount) (p := s.off + s.i + c.blockCount - j)
      (q := s.off + s.i + c.blockCount) (by omega) (by omega) ?_
    rw [Nat.add_mod_right]
    exact heq.symm
  · obtain ⟨k, hk, heq⟩ := h.fresh (by omega) _ hb
    exact mod_ne_of_lt (n := c.blockCount) (show s.off + k < s.off + s.i by omega) (by omega)
      heq.symm
  · change s.size - (s.i + 1) ≤ s.ack - 1
    omega
  · change s.ack - 1 ≤ c.blockCount
    omega
  · rcases List.mem_cons.1 hb with rfl | hb
    · exact ⟨s.i, Nat.lt_succ_self _, rfl⟩
    · obtain ⟨k, hk, hbk⟩ := h.fresh hpos b hb
      exact ⟨k, Nat.lt_succ_of_lt hk, hbk⟩
  · rcases List.mem_cons.1 hb with rfl | hb
    · refine ⟨1, Nat.one_pos, ?_, Free.back_look_one.symm⟩
      change 1 ≤ c.blockCount - (s.ack - 1)
      omega
    · obtain ⟨j, hj, hle, rfl⟩ := h.given b hb
      refine ⟨j + 1, Nat.succ_pos j, ?_, Free.back_look.symm⟩
      change j + 1 ≤ c.blockCount - (s.ack - 1)
      omega
  · obtain ⟨j, rfl⟩ : ∃ i, j = i + 1 := ⟨j - 1, by omega⟩
    rcases Nat.eq_zero_or_pos j with rfl | hpos
    · refine .inl (List.mem_cons.2 (.inl ?_))
      change s.look.back c 1 = _
      exact Free.back_look_one
    · have hback := h.looked j hpos (by change j + 1 ≤ c.blockCount - (s.ack - 1) at hle; omega)
      have hsame : Free.back c { s.look with
          log := .gave ((s.off + s.i) % c.blockCount) :: s.log } (j + 1) = s.back c j := by
        change s.look.back c (j + 1) = s.back c j
        exact Free.back_look
      rw [hsame]
      exact hback.imp_left fun hb => List.mem_cons_of_mem _ hb

/-! ## Acknowledging and scanning -/

theorem Free.Inv.acked (h : s.Inv c) :
    Free.Inv c { s with ack := c.blockCount, log := .ack :: s.log } := by
  have hsize := h.size_le
  refine ⟨h.fair, h.off_lt, h.i_le, h.size_le, ?_, Nat.le_refl _, h.window, h.fresh,
    fun b hb => by simp [sinceAck] at hb, fun j hj hle => ?_⟩
  · change s.size - s.i ≤ c.blockCount
    omega
  · rw [Nat.sub_self] at hle
    omega

theorem Free.inv_dropped (hfair : Fair c s.log) (hoff : s.off < c.blockCount) :
    Free.Inv c { s with size := 0, i := 0, ack := c.blockCount, log := .ack :: s.log } :=
  ⟨hfair, hoff, Nat.le_refl _, Nat.zero_le _, Nat.zero_le _, Nat.le_refl _,
    fun hpos => absurd hpos (Nat.lt_irrefl _), fun hpos => absurd hpos (Nat.lt_irrefl _),
    fun b hb => by simp [sinceAck] at hb, fun j hj hle => by rw [Nat.sub_self] at hle; omega⟩

/-- The difference is taken in 32 bits. -/
theorem mark_off (hcount : c.blockCount ≤ 2 ^ 31) (hoff : s.off < c.blockCount)
    (hb : b < c.blockCount) :
    add32 (sub32 b s.off) c.blockCount % c.blockCount =
      (b + c.blockCount - s.off) % c.blockCount := by
  unfold add32 sub32
  congr 1
  omega

theorem off_eq_iff (hoff : s.off < n) (hb : b < n) (hk : k < n) :
    (b + n - s.off) % n = k ↔ (s.off + k) % n = b := by
  rcases Nat.lt_or_ge b s.off with hlt | hge
  · rw [Nat.mod_eq_of_lt (show b + n - s.off < n by omega)]
    rcases Nat.lt_or_ge (s.off + k) n with hin | hout
    · rw [Nat.mod_eq_of_lt hin]
      omega
    · rw [Nat.mod_eq_sub_mod hout, Nat.mod_eq_of_lt (by omega)]
      omega
  · rw [show b + n - s.off = b - s.off + n by omega, Nat.add_mod_right,
      Nat.mod_eq_of_lt (by omega)]
    rcases Nat.lt_or_ge (s.off + k) n with hin | hout
    · rw [Nat.mod_eq_of_lt hin]
      omega
    · rw [Nat.mod_eq_sub_mod hout, Nat.mod_eq_of_lt (by omega)]
      omega

theorem marks_iff (hcount : c.blockCount ≤ 2 ^ 31) (hoff : s.off < c.blockCount)
    (hsize : s.size ≤ c.blockCount) (hin : ∀ b ∈ reported, b < c.blockCount) (hk : k < s.size)
    (buffer : Nat → Bool) :
    reported.foldl (s.mark c) buffer k = true ↔
      buffer k = true ∨ (s.off + k) % c.blockCount ∈ reported := by
  induction reported generalizing buffer with
  | nil => simp
  | cons b reported ih =>
    have hb := hin b List.mem_cons_self
    have hiff := off_eq_iff (b := b) (k := k) hoff hb (by omega)
    have hmark : s.mark c buffer b k = true ↔
        buffer k = true ∨ (s.off + k) % c.blockCount = b := by
      unfold Free.mark
      simp only [mark_off hcount hoff hb]
      split
      · rw [← hiff]
        by_cases heq : (b + c.blockCount - s.off) % c.blockCount = k
        · simp [heq]
        · rw [Function.update_of_ne (Ne.symm heq)]
          simp [heq]
      · next hout =>
        refine ⟨.inl, fun hor => hor.resolve_right fun heq => hout ?_⟩
        rw [hiff.2 heq]
        exact hk
    rw [List.foldl_cons, ih (fun b hb => hin b (List.mem_cons_of_mem _ hb)), hmark, List.mem_cons,
      or_assoc]

theorem Free.Inv.scanned (h : s.Inv c) (hcount : c.blockCount ≤ 2 ^ 31)
    (hin : ∀ b ∈ reported, b < c.blockCount)
    (ht : t = { s with
      off := (s.off + s.i) % c.blockCount, size := min (8 * c.lookaheadSize) s.ack, i := 0 }) :
    Free.Inv c { t with
      buffer := reported.foldl (t.mark c) fun _ => false, log := .scan reported :: s.log } := by
  have hpos : 0 < c.blockCount := Nat.lt_of_le_of_lt (Nat.zero_le _) h.off_lt
  have hack := h.ack_le
  have hoff : t.off < c.blockCount := by
    rw [ht]
    exact Nat.mod_lt _ hpos
  have hsize : t.size = min (8 * c.lookaheadSize) s.ack := by rw [ht]
  have htack : t.ack = s.ack := by rw [ht]
  have hback : ∀ j ≤ c.blockCount, t.back c j = s.back c j := by
    intro j hj
    rw [ht]
    change ((s.off + s.i) % c.blockCount + 0 + c.blockCount - j) % c.blockCount = _
    unfold Free.back
    rw [Nat.add_zero, Nat.add_sub_assoc hj, Nat.mod_add_mod, Nat.add_sub_assoc hj]
  refine ⟨h.fair, hoff, ?_, ?_, ?_, ?_, fun _ => ⟨reported, rfl, fun k hk => ?_⟩,
    fun _ b hb => by simp [sinceScan] at hb, fun b hb => ?_, fun j hj hle => ?_⟩
  · rw [ht]
    exact Nat.zero_le _
  · change t.size ≤ c.blockCount
    omega
  · change t.size - t.i ≤ t.ack
    omega
  · change t.ack ≤ c.blockCount
    omega
  · have hmarks := marks_iff hcount hoff (by omega) hin hk fun _ => false
    simpa using hmarks
  · obtain ⟨j, hj, hle, rfl⟩ := h.given b hb
    refine ⟨j, hj, ?_, (hback j (by omega)).symm⟩
    change j ≤ c.blockCount - t.ack
    omega
  · obtain hle : j ≤ c.blockCount - t.ack := hle
    change t.back c j ∈ _ ∨ ∃ r ∈ _, t.back c j ∈ r
    rw [hback j (by omega)]
    refine (h.looked j hj (by omega)).imp id ?_
    rintro ⟨r, hr, hmem⟩
    exact ⟨r, List.mem_cons_of_mem _ hr, hmem⟩

/-! ## The functions -/

theorem skipLoop_inv (h : s.Inv c) (fuel : Nat) :
    (skipLoop fuel s).Inv c ∧ (skipLoop fuel s).log = s.log := by
  induction fuel generalizing s with
  | zero => exact ⟨h, rfl⟩
  | succ fuel ih =>
    rw [skipLoop]
    split
    · next hused =>
      have hle := h.i_le
      exact ih (h.look (by omega) hused.2)
    · exact ⟨h, rfl⟩

theorem windowLoop_wp (hcount : c.blockCount ≤ 2 ^ 31) (h : s.Inv c) {fuel : Nat}
    (hfuel : s.size - s.i ≤ fuel) :
    Wp (windowLoop c fuel) s
      (fun r t => t.Inv c ∧ (∀ b, r = some b → t.log = .gave b :: s.log) ∧
        (r = none → t.log = s.log ∧ t.ack = s.ack - (s.size - s.i)))
      (fun _ _ => False) := by
  induction fuel generalizing s with
  | zero =>
    have hle := h.i_le
    exact ⟨h, fun b hb => by simp at hb, fun _ => ⟨rfl, by omega⟩⟩
  | succ fuel ih =>
    have hle := h.i_le
    have hroom := h.room
    rw [windowLoop]
    simp only [wp_bind, wp_get]
    split
    · next heq =>
      exact ⟨h, fun b hb => by simp at hb, fun _ => ⟨rfl, by omega⟩⟩
    · next hne =>
      simp only [wp_bind, wp_set]
      split
      · next hused =>
        refine (ih (h.look (by omega) hused) (by change s.size - (s.i + 1) ≤ fuel; omega)).mono
          ?_ fun _ _ => False.elim
        rintro r t ⟨hinv, hsome, hnone⟩
        refine ⟨hinv, hsome, fun hr => ⟨(hnone hr).1, (hnone hr).2.trans ?_⟩⟩
        change s.ack - 1 - (s.size - (s.i + 1)) = _
        omega
      · next hfree =>
        have hoff := h.off_lt
        have hsize := h.size_le
        have hgive := h.give (by omega) hfree
        have hblock : add32 s.off s.i % c.blockCount = (s.off + s.i) % c.blockCount := by
          rw [add32_of_lt (by omega)]
        simp only [wp_bind, wp_modify, wp_pure]
        rw [hblock]
        obtain ⟨hinv, hlog⟩ := skipLoop_inv hgive (s.look.size - s.look.i)
        refine ⟨hinv, fun b hb => ?_, fun hr => by simp at hr⟩
        obtain rfl := Option.some.inj hb
        exact hlog

theorem lfsFsRawgc_wp (hcount : c.blockCount ≤ 2 ^ 31)
    (hin : ∀ s r, traverse s = .ok r → ∀ b ∈ r, b < c.blockCount) (h : s.Inv c) :
    Wp (lfsFsRawgc c traverse) s
      (fun _ t => t.Inv c ∧ t.ack = s.ack ∧ t.i = 0 ∧
        t.size = min (8 * c.lookaheadSize) s.ack ∧ ∃ r, t.log = .scan r :: s.log)
      (fun e t => t.Inv c ∧ t.log = .ack :: s.log ∧ ∃ u, traverse u = .error e) := by
  have hoff := h.off_lt
  have hle := h.i_le
  have hsize := h.size_le
  unfold lfsFsRawgc
  simp only [wp_bind, wp_modify, wp_get, add32_of_lt (show s.off + s.i < 2 ^ 32 by omega)]
  split
  · next e he =>
    refine ⟨?_, rfl, _, he⟩
    exact Free.inv_dropped (s := { s with
      off := (s.off + s.i) % c.blockCount, size := min (8 * c.lookaheadSize) s.ack, i := 0 })
      h.fair (Nat.mod_lt _ (by omega))
  · next r hr =>
    exact ⟨h.scanned hcount (hin _ _ hr) rfl, rfl, rfl, rfl, r, rfl⟩

/-- Going back as many steps as there are blocks passes every block. -/
theorem Free.exists_back (hb : b < c.blockCount) :
    ∃ j, 0 < j ∧ j ≤ c.blockCount ∧ s.back c j = b := by
  obtain ⟨p, hp⟩ : ∃ p, p = (s.off + s.i) % c.blockCount := ⟨_, rfl⟩
  have hplt : p < c.blockCount := hp ▸ Nat.mod_lt _ (by omega)
  have hback : ∀ j ≤ c.blockCount, s.back c j = (p + (c.blockCount - j)) % c.blockCount := by
    intro j hj
    rw [hp, Nat.mod_add_mod]
    unfold Free.back
    rw [Nat.add_sub_assoc hj]
  rcases Nat.lt_or_ge b p with hlt | hge
  · refine ⟨p - b, by omega, by omega, ?_⟩
    rw [hback _ (by omega), show p + (c.blockCount - (p - b)) = b + c.blockCount by omega,
      Nat.add_mod_right, Nat.mod_eq_of_lt hb]
  · refine ⟨p + c.blockCount - b, by omega, by omega, ?_⟩
    rw [hback _ (by omega),
      show p + (c.blockCount - (p + c.blockCount - b)) = b by omega, Nat.mod_eq_of_lt hb]

theorem Free.Inv.full (h : s.Inv c) (hack : s.ack = 0) :
    Free.Inv c { s with log := .nospc :: s.log } := by
  refine ⟨⟨h.fair, fun b hb => ?_⟩, h.off_lt, h.i_le, h.size_le, h.room, h.ack_le, h.window,
    h.fresh, h.given, h.looked⟩
  obtain ⟨j, hj, hle, rfl⟩ := Free.exists_back (s := s) hb
  exact h.looked j hj (by omega)

/-- A call of `lfs_alloc` and what it logs. -/
def Gave (s t : Free) (b : Nat) : Prop := ∃ log, t.log = .gave b :: log ∧ s.log <:+ log

def GaveUp (traverse : Traverse) (s t : Free) (e : Err) : Prop :=
  (e = .nospc ∧ ∃ log, t.log = .nospc :: log ∧ s.log <:+ log) ∨ ∃ u, traverse u = .error e

theorem allocLoop_wp (hcount : c.blockCount ≤ 2 ^ 31)
    (hin : ∀ s r, traverse s = .ok r → ∀ b ∈ r, b < c.blockCount) (h : s.Inv c) {fuel : Nat}
    (hfuel : s.ack + 1 ≤ fuel ∨ s.ack ≤ fuel ∧ s.i < s.size) :
    Wp (allocLoop c traverse fuel) s (fun b t => t.Inv c ∧ Gave s t b)
      (fun e t => t.Inv c ∧ GaveUp traverse s t e) := by
  induction fuel generalizing s with
  | zero =>
    have hroom := h.room
    omega
  | succ fuel ih =>
    rw [allocLoop]
    simp only [wp_bind, wp_get]
    refine (windowLoop_wp hcount h (Nat.le_refl _)).mono ?_ fun _ _ => False.elim
    rintro r t ⟨hinv, hsome, hnone⟩
    cases r with
    | some b => exact ⟨hinv, _, hsome b rfl, List.suffix_refl _⟩
    | none =>
      obtain ⟨hlog, hack⟩ := hnone rfl
      simp only [wp_bind, wp_get]
      split
      · next hzero =>
        exact ⟨hinv.full hzero, .inl ⟨rfl, _, rfl, hlog ▸ List.suffix_refl _⟩⟩
      · next hmore =>
        refine (lfsFsRawgc_wp hcount hin hinv).bind ?_ ?_
        · rintro ⟨⟩ u ⟨huinv, huack, hui, husize, r, hulog⟩
          have hbits := c.lookaheadSize_pos
          have hroom := h.room
          refine (ih huinv (.inr ⟨by omega, by omega⟩)).mono ?_ ?_
          · rintro b v ⟨hv, log, hvlog, hsuffix⟩
            refine ⟨hv, log, hvlog, .trans ?_ hsuffix⟩
            rw [hulog, ← hlog]
            exact List.suffix_cons _ _
          · rintro e v ⟨hv, hup⟩
            refine ⟨hv, hup.imp_left ?_⟩
            rintro ⟨he, log, hvlog, hsuffix⟩
            refine ⟨he, log, hvlog, .trans ?_ hsuffix⟩
            rw [hulog, ← hlog]
            exact List.suffix_cons _ _
        · rintro e u ⟨huinv, -, hfail⟩
          exact ⟨huinv, .inr hfail⟩

theorem lfsAlloc_wp (hcount : c.blockCount ≤ 2 ^ 31)
    (hin : ∀ s r, traverse s = .ok r → ∀ b ∈ r, b < c.blockCount) (h : s.Inv c) :
    Wp (lfsAlloc c traverse) s (fun b t => t.Inv c ∧ Gave s t b)
      (fun e t => t.Inv c ∧ GaveUp traverse s t e) := by
  unfold lfsAlloc
  simp only [wp_bind, wp_get]
  exact allocLoop_wp hcount hin h (.inl (Nat.le_succ _))

/-! ## Runs -/

inductive AllocOp where
  | alloc
  | ack
  | drop
  | gc

namespace AllocOp

variable (c : Config) (traverse : Traverse)

def exec : AllocOp → AllocM (Option Nat)
  | .alloc => some <$> lfsAlloc c traverse
  | .ack => (fun _ => none) <$> lfsAllocAck c
  | .drop => (fun _ => none) <$> lfsAllocDrop c
  | .gc => (fun _ => none) <$> lfsFsRawgc c traverse

def next (s : Free) (op : AllocOp) : Free :=
  match op.exec c traverse s with
  | .ok _ t => t
  | .error _ t => t

/-- What the call returns is what is logged, and the log is fair. -/
def Right (s : Free) (op : AllocOp) : Prop :=
  match op.exec c traverse s with
  | .ok r t => Fair c t.log ∧ ∀ b, r = some b → Gave s t b
  | .error e t => Fair c t.log ∧ GaveUp traverse s t e

end AllocOp

theorem AllocOp.exec_wp (hcount : c.blockCount ≤ 2 ^ 31)
    (hin : ∀ s r, traverse s = .ok r → ∀ b ∈ r, b < c.blockCount) (h : s.Inv c) (op : AllocOp) :
    Wp (op.exec c traverse) s (fun r t => t.Inv c ∧ ∀ b, r = some b → Gave s t b)
      (fun e t => t.Inv c ∧ GaveUp traverse s t e) := by
  cases op with
  | alloc =>
    refine wp_map.2 ((lfsAlloc_wp hcount hin h).mono ?_ fun e t ht => ht)
    rintro b t ⟨hinv, hgave⟩
    refine ⟨hinv, fun b' hb => ?_⟩
    obtain rfl := Option.some.inj hb
    exact hgave
  | ack => exact ⟨h.acked, fun b hb => by simp at hb⟩
  | drop => exact ⟨Free.inv_dropped h.fair h.off_lt, fun b hb => by simp at hb⟩
  | gc =>
    refine wp_map.2 ((lfsFsRawgc_wp hcount hin h).mono ?_ ?_)
    · rintro ⟨⟩ t ⟨hinv, -⟩
      exact ⟨hinv, fun b hb => by simp at hb⟩
    · rintro e t ⟨hinv, -, hfail⟩
      exact ⟨hinv, .inr hfail⟩

/-- From the mount on, in any order of allocations, acknowledgements, drops and collections, and
whatever is reported at each scan: no block is handed out twice between acknowledgements or from
one window, nor one that the last scan reported, and the allocator gives up only if every block was
handed out since the acknowledgement or is reported. -/
theorem alloc_right (hcount : c.blockCount ≤ 2 ^ 31)
    (hin : ∀ s r, traverse s = .ok r → ∀ b ∈ r, b < c.blockCount) {off : Nat}
    (hoff : off < c.blockCount) (buffer : Nat → Bool) (ops : List AllocOp) :
    Meets (AllocOp.next c traverse) (AllocOp.Right c traverse)
      ⟨off, 0, 0, c.blockCount, buffer, []⟩ ops := by
  have hstart : Free.Inv c ⟨off, 0, 0, c.blockCount, buffer, []⟩ :=
    ⟨trivial, hoff, Nat.le_refl _, Nat.zero_le _, Nat.zero_le _, Nat.le_refl _,
      fun hpos => absurd hpos (Nat.lt_irrefl _), fun hpos => absurd hpos (Nat.lt_irrefl _),
      fun b hb => by simp [sinceAck] at hb, fun j hj hle => by rw [Nat.sub_self] at hle; omega⟩
  have hany : Meets (AllocOp.next c traverse) (fun _ _ => True)
      ⟨off, 0, 0, c.blockCount, buffer, []⟩ ops := meets_of_forall (fun _ _ => trivial) _ _
  refine hany.of_inv (I := Free.Inv c) (fun s op h _ => ?_) (fun s op h _ => ?_) hstart
  · have hstep := op.exec_wp hcount hin h
    unfold Wp at hstep
    unfold AllocOp.next
    split <;> rename_i heq <;> rw [heq] at hstep
    · exact hstep.1
    · exact hstep.1
  · have hstep := op.exec_wp hcount hin h
    unfold Wp at hstep
    unfold AllocOp.Right
    split <;> rename_i heq <;> rw [heq] at hstep
    · exact ⟨hstep.1.fair, hstep.2⟩
    · exact ⟨hstep.1.fair, hstep.2⟩

theorem alloc_right_port :
    Meets (AllocOp.next (lfsCfg 0x8000) fun _ => .ok [0, 1, 2])
      (AllocOp.Right (lfsCfg 0x8000) fun _ => .ok [0, 1, 2])
      ⟨6, 0, 0, 8, fun _ => false, []⟩ (List.replicate 6 .alloc ++ [.ack, .alloc]) :=
  alloc_right (c := lfsCfg 0x8000) (by decide)
    (fun _ r hr b hb => by obtain rfl := Except.ok.inj hr; revert b; decide) (by decide) _ _

end Bl616cl.Lfs
