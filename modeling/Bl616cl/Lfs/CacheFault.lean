import Bl616cl.Lfs.CacheRead

/-!
# littlefs: a read that failed

`lfs_bd_read` marks the cache for reads before it asks the flash to fill it, and leaves the mark
when the flash fails. What is read from that cache afterwards was never on the flash, which is why
the results about the caches are for a flash that serves every read.
-/

namespace Bl616cl.Lfs

open Bl616cl.Lib

namespace Flash

/-- The flash was asked past the caches, which have stayed as they were. -/
structure FailedPast (fl : Flash) (s u t : Bd) (block off size : Nat) (e : Err) : Prop where
  same : s.Same u
  asked : ∃ k n, fl.read u block k n = some e ∧ off ≤ k ∧ k + n ≤ off + size ∧
    ¬u.rcache.Covers block k
  left : t = u.tick

/-- The flash was asked for what the cache for reads is marked with, and its buffer has what the
read has left there. -/
structure FailedLoad (fl : Flash) (s u t : Bd) (block off size : Nat) (e : Err) : Prop where
  same : s.Same u
  asked : fl.read u block u.rcache.off u.rcache.size = some e
  claims : ∃ k, off ≤ k ∧ k < off + size ∧ u.rcache.Covers block k
  left : t = { u.tick with rcache := { u.rcache with buffer := fl.junk u } }

variable {c : Config} {fl : Flash} {pcache : Option Cache} {s t : Bd} {e : Err}
  {hint block off size fuel : Nat}

theorem bdReadPiece_fault (hhint : 0 < hint) (hword : off + size + hint + c.readSize ≤ 2 ^ 32)
    (hsize : 0 < size) (hoff : off + size ≤ c.blockSize) :
    Wp (bdReadPiece c fl pcache hint block off size) s
      (fun r t => s.Same t ∧ ∀ data, r = some data → data.length ≤ size)
      (fun e t => (∃ u, FailedPast fl s u t block off size e) ∨
        ∃ u, FailedLoad fl s u t block off size e) := by
  unfold bdReadPiece
  simp only [wp_bind, wp_get]
  split
  · next data hdata =>
    obtain ⟨ca, -, hhit⟩ := Option.bind_eq_some_iff.1 hdata
    obtain ⟨-, hlen, -⟩ := Cache.hit_eq_some hhit
    refine ⟨.refl s, fun data' hdata' => ?_⟩
    obtain rfl := Option.some.inj hdata'
    omega
  · next hmiss =>
    obtain ⟨diff, hdiff⟩ : ∃ diff, diff = pcache.elim size fun ca => ca.limit block off size :=
      ⟨_, rfl⟩
    have hle : diff ≤ size := by
      cases pcache with
      | none => exact Nat.le_of_eq hdiff
      | some ca =>
        obtain ⟨hle, -⟩ := Cache.limit_spec (n := size) (Cache.hit_eq_none hmiss)
        exact hdiff ▸ hle
    rw [← hdiff]
    split
    · next data hhit =>
      obtain ⟨-, hlen, -⟩ := Cache.hit_eq_some hhit
      refine ⟨.refl s, fun data' hdata' => ?_⟩
      obtain rfl := Option.some.inj hdata'
      omega
    · next hrmiss =>
      have hnot := Cache.hit_eq_none hrmiss
      obtain ⟨hle', -⟩ := Cache.limit_spec (n := diff) hnot
      have hdown := alignDown_le (s.rcache.limit block off diff) c.readSize
      rw [wp_ite]
      refine ⟨fun _ => wp_map.2 (flashRead_wp.mono ?_ ?_), fun _ => ?_⟩
      · rintro data t ⟨rfl, rfl⟩
        refine ⟨⟨rfl, rfl⟩, fun data' hdata' => ?_⟩
        obtain rfl := Option.some.inj hdata'
        rw [Memory.length_read]
        omega
      · rintro e t ⟨he, rfl⟩
        exact .inl ⟨s, .refl s, ⟨off, _, he, Nat.le_refl _, by omega, hnot⟩, rfl⟩
      · unfold bdLoad
        simp only [wp_bind, wp_modify, wp_get]
        split
        · next e he =>
          refine .inr ⟨{ s with rcache := { s.rcache with
              block, off := alignDown off c.readSize, size := loadSize c hint off } },
            ⟨rfl, rfl⟩, he, ⟨off, Nat.le_refl _, by omega, rfl, ?_, ?_⟩, rfl⟩
          · exact alignDown_le off c.readSize
          · exact lt_loadSize hhint (by omega) (by omega)
        · exact ⟨⟨rfl, rfl⟩, fun data hdata => (by cases hdata)⟩

theorem bdReadLoop_fault (hhint : 0 < hint) (hword : off + size + hint + c.readSize ≤ 2 ^ 32)
    (hoff : off + size ≤ c.blockSize) :
    Wp (bdReadLoop c fl pcache hint block fuel off size) s (fun _ _ => True)
      (fun e t => (∃ u, FailedPast fl s u t block off size e) ∨
        ∃ u, FailedLoad fl s u t block off size e) := by
  induction fuel generalizing s off size with
  | zero => trivial
  | succ fuel ih =>
    rw [bdReadLoop]
    split
    · trivial
    · next hne =>
      refine (bdReadPiece_fault hhint hword (by omega) hoff).bind ?_ fun e t ht => ht
      rintro r t ⟨hsame, hlen⟩
      cases r with
      | none =>
        refine (ih hword hoff).mono (fun _ _ _ => trivial) ?_
        rintro e v (⟨u, hu⟩ | ⟨u, hu⟩)
        · exact .inl ⟨u, hsame.trans hu.same, hu.asked, hu.left⟩
        · exact .inr ⟨u, hsame.trans hu.same, hu.asked, hu.claims, hu.left⟩
      | some data =>
        have hdata := hlen data rfl
        dsimp only
        rw [add32_of_lt (by omega)]
        refine (ih (by omega) (by omega)).bind (fun _ _ _ => trivial) ?_
        -- what was asked for lies behind what has been read
        rintro e v (⟨u, hsame', ⟨k, n, hread, hlow, hhigh, hnot⟩, hleft⟩ |
          ⟨u, hsame', hread, ⟨k, hlow, hhigh, hcov⟩, hleft⟩)
        · exact .inl ⟨u, hsame.trans hsame', ⟨k, n, hread, by omega, by omega, hnot⟩, hleft⟩
        · exact .inr ⟨u, hsame.trans hsame', hread, ⟨k, by omega, by omega, hcov⟩, hleft⟩

/-- Bytes that the cache for reads has are taken from it. -/
theorem bdReadLoop_covered (hoff : off + size ≤ c.blockSize)
    (hcov : ∀ j < size, s.rcache.Covers block (off + j))
    (hout : ∀ ca ∈ pcache, ∀ j < size, ¬ca.Covers block (off + j)) (hfuel : size ≤ fuel) :
    bdReadLoop c fl pcache hint block fuel off size s =
      .ok (Memory.read s.rcache.buffer (off - s.rcache.off) size) s := by
  refine Wp.ok_eq ?_
  induction fuel generalizing off size with
  | zero =>
    obtain rfl : size = 0 := by omega
    exact ⟨rfl, rfl⟩
  | succ fuel ih =>
    rw [bdReadLoop]
    split
    · next hzero =>
      subst hzero
      exact ⟨rfl, rfl⟩
    · next hne =>
      obtain ⟨hb, hlo, hhi⟩ : s.rcache.Covers block off := hcov 0 (by omega)
      have hnot : ∀ ca ∈ pcache, ¬ca.Covers block off := fun ca hca => hout ca hca 0 (by omega)
      have hmiss : (pcache.bind fun ca => ca.hit block off size) = none := by
        refine Option.bind_eq_none_iff.2 fun ca hca => if_neg fun hc => ?_
        exact hnot ca hca ⟨hc.1, hc.2.2, hc.2.1⟩
      obtain ⟨diff, hdiff⟩ : ∃ diff, diff = pcache.elim size fun ca => ca.limit block off size :=
        ⟨_, rfl⟩
      have hlimit : diff ≤ size ∧ 0 < diff := by
        cases pcache with
        | none => exact ⟨Nat.le_of_eq hdiff, by rw [hdiff, Option.elim_none]; omega⟩
        | some ca =>
          obtain ⟨hle, hpos, -⟩ := Cache.limit_spec (n := size) (hnot ca rfl)
          rw [hdiff, Option.elim_some]
          exact ⟨hle, hpos (by omega)⟩
      obtain ⟨m, hm⟩ : ∃ m, m = min diff (s.rcache.size - (off - s.rcache.off)) := ⟨_, rfl⟩
      unfold bdReadPiece
      simp only [wp_bind, wp_get, hmiss, ← hdiff]
      rw [show s.rcache.hit block off diff =
        some (Memory.read s.rcache.buffer (off - s.rcache.off) m) by
          rw [Cache.hit, if_pos ⟨hb, hhi, hlo⟩, hm]]
      have hblock := c.blockSize_lt
      simp only [wp_pure, wp_bind, Memory.length_read, add32_of_lt (show off + m < 2 ^ 32 by omega)]
      refine (ih (by omega) (fun j hj => ?_) (fun ca hca j hj => ?_) (by omega)).mono ?_
        fun _ _ => False.elim
      · rw [Nat.add_assoc]
        exact hcov (m + j) (by omega)
      · rw [Nat.add_assoc]
        exact hout ca hca (m + j) (by omega)
      · rintro rest t ⟨rfl, rfl⟩
        refine ⟨?_, rfl⟩
        rw [show off + m - t.rcache.off = off - t.rcache.off + m by omega, ← Memory.read_add]
        congr 1
        omega

theorem lfsBdRead_covered (hblock : block < c.blockCount) (hoff : off + size ≤ c.blockSize)
    (hcov : ∀ j < size, s.rcache.Covers block (off + j))
    (hout : ∀ ca ∈ pcache, ∀ j < size, ¬ca.Covers block (off + j)) :
    lfsBdRead c fl pcache hint block off size s =
      .ok (Memory.read s.rcache.buffer (off - s.rcache.off) size) s := by
  have hlt := c.blockSize_lt
  unfold lfsBdRead
  rw [add32_of_lt (by omega), if_neg (by omega)]
  exact bdReadLoop_covered hoff hcov hout (by omega)

/-- A read that fails in the flash has asked it past the caches, or has left the cache for reads as
if it had been loaded: reads of the bytes there do not ask the flash, and deliver what the failed
one has left in the buffer. -/
theorem read_after_fault (hhint : 0 < hint) (hword : off + size + hint + c.readSize ≤ 2 ^ 32)
    (hblock : block < c.blockCount) (hoff : off + size ≤ c.blockSize)
    (hfail : lfsBdRead c fl pcache hint block off size s = .error e t) :
    (∃ u, FailedPast fl s u t block off size e) ∨
      ∃ u, FailedLoad fl s u t block off size e ∧ ∀ pcache hint off size,
        off + size ≤ c.blockSize → (∀ j < size, u.rcache.Covers block (off + j)) →
        (∀ ca ∈ pcache, ∀ j < size, ¬Cache.Covers ca block (off + j)) →
        lfsBdRead c fl pcache hint block off size t =
          .ok (Memory.read (fl.junk u) (off - u.rcache.off) size) t := by
  have hloop : Wp (bdReadLoop c fl pcache hint block (2 * size) off size) s _ _ :=
    bdReadLoop_fault hhint hword hoff
  unfold lfsBdRead at hfail
  rw [add32_of_lt (by omega), if_neg (by omega)] at hfail
  unfold Wp at hloop
  rw [hfail] at hloop
  refine hloop.imp_right fun ⟨u, hu⟩ => ⟨u, hu, fun pcache hint off size hoff hcov hout => ?_⟩
  obtain rfl := hu.left
  exact lfsBdRead_covered hblock hoff hcov hout

/-- A flash whose second answer is an error. -/
def failing : Flash where
  read s _ _ _ := if s.time = 1 then some .io else none
  junk _ _ := 7
  prog s b off data := (Memory.write (s.disk b) off data, none)
  erase _ _ := (fun _ => 0xff, none)
  sync _ := none

def failed : Bd := ⟨fun _ _ => 0, ⟨2, 8, 2, fun _ => 1⟩, ⟨2, 0, 256, fun _ => 7⟩, 2⟩

/-- Two bytes are in the cache for programs, and those behind them would be loaded; then bytes
before them, which the flash has as zeros, are read as what was in the buffer. -/
theorem read_after_fault_failing :
    lfsBdRead (lfsCfg 0x8000) failing (some ⟨2, 8, 2, fun _ => 1⟩) 16 2 8 4
      ⟨fun _ _ => 0, ⟨2, 8, 2, fun _ => 1⟩, ⟨blockNull, 0, 0, fun _ => 0⟩, 1⟩ =
        .error .io failed ∧
    lfsBdRead (lfsCfg 0x8000) failing none 16 2 1 3 failed = .ok [7, 7, 7] failed := by
  have hfail : lfsBdRead (lfsCfg 0x8000) failing (some ⟨2, 8, 2, fun _ => 1⟩) 16 2 8 4
      ⟨fun _ _ => 0, ⟨2, 8, 2, fun _ => 1⟩, ⟨blockNull, 0, 0, fun _ => 0⟩, 1⟩ =
        .error .io failed := rfl
  refine ⟨hfail, ?_⟩
  rcases read_after_fault (by decide) (by decide) (by decide) (by decide) hfail with
    ⟨u, hu⟩ | ⟨u, hu, hreads⟩
  · obtain ⟨k, n, -, -, hhigh, hnot⟩ := hu.asked
    rw [show u.rcache = failed.rcache from (congrArg Bd.rcache hu.left).symm] at hnot
    exact absurd ⟨rfl, Nat.zero_le k, show k < 0 + 256 by omega⟩ hnot
  · have hblock : 2 = u.rcache.block := congrArg (fun s => s.rcache.block) hu.left
    have hoff : 0 = u.rcache.off := congrArg (fun s => s.rcache.off) hu.left
    have hsize : 256 = u.rcache.size := congrArg (fun s => s.rcache.size) hu.left
    exact hreads none 16 1 3 (by decide) (fun j hj => ⟨hblock, by omega, by omega⟩)
      (fun ca hca => by cases hca)

end Flash

end Bl616cl.Lfs
