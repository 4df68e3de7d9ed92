import Bl616cl.Lfs.CacheProg
import Bl616cl.Lib.Run

/-!
# littlefs: runs over the caches

In every run over one cache for reads and one for programs, what is read is what was programmed.
The flash may fail to program or to erase, and may say that it did what it did not.
-/

namespace Bl616cl.Lfs

open Bl616cl.Lib

namespace Flash

/-- `cached` reads look into the cache for programs, too. `abandon` drops it. -/
inductive Op where
  | read (cached : Bool) (hint block off size : Nat)
  | crc (cached : Bool) (hint block off size : Nat) (start : BitVec 32)
  | prog (block off : Nat) (data : List UInt8)
  | flush
  | sync
  | erase (block : Nat)
  | abandon (block : Nat)

inductive Res where
  | bytes (data : List UInt8)
  | sum (crc : BitVec 32)
  | done

variable (c : Config) (fl : Flash)

def Op.cache (s : Bd) (cached : Bool) : Option Cache := if cached then some s.pcache else none

def exec (s : Bd) : Op → BdM Res
  | .read cached hint block off size =>
    .bytes <$> lfsBdRead c fl (Op.cache s cached) hint block off size
  | .crc cached hint block off size start =>
    .sum <$> lfsBdCrc c fl (Op.cache s cached) hint block off size start
  | .prog block off data => (fun _ => .done) <$> lfsBdProg c fl true block off data
  | .flush => (fun _ => .done) <$> lfsBdFlush c fl true
  | .sync => (fun _ => .done) <$> lfsBdSync c fl true
  | .erase block => (fun _ => .done) <$> lfsBdErase fl block
  | .abandon _ => (fun _ => .done) <$> lfsCacheZero

/-- What is known after an operation. -/
def Op.after (L : Known) : Op → Known
  | .prog block off data => L.write block off data
  | .erase block => L.forget block
  | .abandon block => L.forget block
  | _ => L

def Op.failed (L : Known) : Op → Known
  | .erase block => L.forget block
  | _ => L

def next (p : Bd × Known) (op : Op) : Bd × Known :=
  match exec c fl p.1 op p.1 with
  | .ok _ t => (t, op.after p.2)
  | .error _ t => (t, op.failed p.2)

/-- Reads go past the cache for programs only if the block is not being programmed; what is
programmed goes behind what is known of its block, one block at a time. The sums with hints do not
wrap. -/
def Allowed (p : Bd × Known) : Op → Prop
  | .read cached hint block off size =>
    0 < hint ∧ off + size + hint + c.readSize ≤ 2 ^ 32 ∧
      (cached = true ∨ block ≠ p.1.pcache.block)
  | .crc cached hint block off size _ =>
    size ≤ hint ∧ off + hint + 8 + c.readSize ≤ 2 ^ 32 ∧ block < c.blockCount ∧
      off + size ≤ c.blockSize ∧ (cached = true ∨ block ≠ p.1.pcache.block)
  | .prog block off data =>
    block < c.blockCount ∧ off + data.length ≤ c.blockSize ∧ Fits c p.2 p.1 block off
  | .erase block => block < c.blockCount ∧ block ≠ p.1.pcache.block
  | .abandon block => block = p.1.pcache.block
  | _ => True

/-- The result of an operation, by what is known. -/
def Op.Result (L : Known) : Op → Res → Prop
  | .read _ _ block off size, .bytes data => data.length = size ∧ Agrees L block off data
  | .crc _ _ block off size start, .sum r =>
    ∃ data, data.length = size ∧ Agrees L block off data ∧ r = lfsCrc start data
  | .read .., _ => False
  | .crc .., _ => False
  | _, r => r = .done

/-- An operation fails if it reads out of range, or else because the flash did. -/
def Op.Fails : Op → Err → Prop
  | .read _ _ block off size, e =>
    e = .corrupt ∧ (c.blockSize < off + size ∨ c.blockCount ≤ block)
  | .crc .., _ => False
  | _, _ => ¬fl.Good

def Right (p : Bd × Known) (op : Op) : Prop :=
  match exec c fl p.1 op p.1 with
  | .ok r _ => op.Result p.2 r
  | .error e _ => op.Fails c fl e

end Flash

open Flash

variable {c : Config} {fl : Flash} {L : Known} {s t : Bd} {op : Op} {block off size hint : Nat}
  {cached : Bool} {start : BitVec 32} {r : Res} {e : Err}

/-! ## Reading -/

/-- What is known to be on the flash. -/
def Known.settled (L : Known) (ca : Cache) : Known := fun b k =>
  if b = ca.block ∧ ca.off ≤ k ∧ k < ca.off + ca.size then none else L b k

theorem Known.settled_eq_some {ca : Cache} {b k : Nat} {x : UInt8} :
    L.settled ca b k = some x ↔ ¬ca.Covers b k ∧ L b k = some x := by
  unfold Known.settled
  split
  · next hcov => exact ⟨fun hx => by simp at hx, fun hx => absurd hcov hx.1⟩
  · next hcov => exact ⟨fun hx => ⟨hcov, hx⟩, fun hx => hx.2⟩

/-- Without the cache for programs what it covers is out of sight. -/
theorem Cached.bare (h : Cached c L s) :
    Coherent c none (L.settled s.pcache) s ∧ Aligned c none s := by
  have hout : ∀ b k x, L.settled s.pcache b k = some x →
      L b k = some x ∧ ∀ ca ∈ some s.pcache, ¬ca.Covers b k := by
    intro b k x hx
    obtain ⟨hcov, hx⟩ := Known.settled_eq_some.1 hx
    refine ⟨hx, fun ca hca => ?_⟩
    obtain rfl := Option.some.inj hca
    exact hcov
  refine ⟨⟨fun b k x hx => h.coherent.inside b k x (hout b k x hx).1, fun ca hca => ?_,
    fun b k x hx _ => h.coherent.disk b k x (hout b k x hx).1 (hout b k x hx).2,
    fun b k x hx _ => h.coherent.fresh b k x (hout b k x hx).1 (hout b k x hx).2⟩,
    h.aligned.reads, h.aligned.word, fun ca hca => ?_, h.aligned.rcache⟩
  · simp at hca
  · simp at hca

theorem Cached.same (h : Cached c L s) (hsame : s.Same t) (hcoh : Coherent c (some s.pcache) L t)
    (hal : Aligned c (some s.pcache) t) : Cached c L t := by
  refine ⟨?_, ?_, ?_, ?_⟩
  · rwa [hsame.pcache]
  · rwa [hsame.pcache]
  · rw [hsame.pcache]
    exact h.busy
  · rw [hsame.pcache]
    exact h.behind

/-- A read through the cache for programs or past it leaves all as it is. -/
theorem Cached.after_read (h : Cached c L s) (hsame : s.Same t)
    (hcoh : Coherent c none (L.settled s.pcache) t) (hal : Aligned c none t) : Cached c L t := by
  refine h.same hsame ⟨h.coherent.inside, h.coherent.cached, fun b k x hx hout => ?_,
    fun b k x hx hout hcov => ?_⟩ ⟨h.aligned.reads, h.aligned.word, h.aligned.pcache, hal.rcache⟩
  · exact hcoh.disk b k x (Known.settled_eq_some.2 ⟨hout _ rfl, hx⟩) (fun ca hca => by simp at hca)
  · exact hcoh.fresh b k x (Known.settled_eq_some.2 ⟨hout _ rfl, hx⟩)
      (fun ca hca => by simp at hca) hcov

theorem Agrees.settled {ca : Cache} {data : List UInt8} (h : Agrees (L.settled ca) block off data)
    (hother : block ≠ ca.block) : Agrees L block off data :=
  fun k x hk hx => h k x hk (Known.settled_eq_some.2 ⟨fun hcov => hother hcov.1, hx⟩)

theorem read_wp (hserves : fl.Serves c) (h : Cached c L s)
    (hallowed : Allowed c (s, L) (.read cached hint block off size)) :
    Wp (lfsBdRead c fl (Op.cache s cached) hint block off size) s
      (fun data t => data.length = size ∧ Agrees L block off data ∧ Cached c L t)
      (fun e t => (e = .corrupt ∧ (c.blockSize < off + size ∨ c.blockCount ≤ block)) ∧
        Cached c L t) := by
  obtain ⟨hhint, hword, hsee⟩ := hallowed
  cases cached with
  | true =>
    refine (lfsBdRead_wp h.coherent h.aligned hhint hword).mono ?_ ?_
    · rintro data t ⟨hsame, hcoh, hal, hlen, hdata⟩
      exact ⟨hlen, hdata, h.same hsame hcoh hal⟩
    · rintro e t (⟨rfl, rfl, hout⟩ | ⟨hfault, -⟩)
      · exact ⟨⟨rfl, hout⟩, h⟩
      · exact absurd hfault (hserves e)
  | false =>
    obtain ⟨hcoh, hal⟩ := h.bare
    have hother := hsee.resolve_left Bool.false_ne_true
    refine (lfsBdRead_wp hcoh hal hhint hword).mono ?_ ?_
    · rintro data t ⟨hsame, hcoh', hal', hlen, hdata⟩
      exact ⟨hlen, hdata.settled hother, h.after_read hsame hcoh' hal'⟩
    · rintro e t (⟨rfl, rfl, hout⟩ | ⟨hfault, -⟩)
      · exact ⟨⟨rfl, hout⟩, h⟩
      · exact absurd hfault (hserves e)

theorem crc_wp (hserves : fl.Serves c) (h : Cached c L s)
    (hallowed : Allowed c (s, L) (.crc cached hint block off size start)) :
    Wp (lfsBdCrc c fl (Op.cache s cached) hint block off size start) s
      (fun r t => (∃ data, data.length = size ∧ Agrees L block off data ∧ r = lfsCrc start data) ∧
        Cached c L t)
      (fun _ _ => False) := by
  obtain ⟨hhint, hword, hblock, hoff, hsee⟩ := hallowed
  cases cached with
  | true =>
    refine (lfsBdCrc_wp h.coherent h.aligned hhint hword hblock hoff).mono ?_
      fun e t ht => hserves e ht.1
    rintro r t ⟨hsame, hcoh, hal, hdata⟩
    exact ⟨hdata, h.same hsame hcoh hal⟩
  | false =>
    obtain ⟨hcoh, hal⟩ := h.bare
    have hother := hsee.resolve_left Bool.false_ne_true
    refine (lfsBdCrc_wp hcoh hal hhint hword hblock hoff).mono ?_ fun e t ht => hserves e ht.1
    rintro r t ⟨hsame, hcoh', hal', data, hlen, hdata, hr⟩
    exact ⟨⟨data, hlen, hdata.settled hother, hr⟩, h.after_read hsame hcoh' hal'⟩

/-! ## Giving up what is known of a block -/

theorem Known.forget_eq_some {b k : Nat} {x : UInt8} :
    L.forget block b k = some x ↔ b ≠ block ∧ L b k = some x := by
  unfold Known.forget
  split
  · next hb => exact ⟨fun hx => by simp at hx, fun hx => absurd hb hx.1⟩
  · next hb => exact ⟨fun hx => ⟨hb, hx⟩, fun hx => hx.2⟩

theorem Cached.erased (h : Cached c L s) {left : Nat → UInt8} :
    Cached c (L.forget block) { s.tick with disk := s.disk.erase block left } := by
  have hless := h.mono (M := L.forget block) fun b k x hx => (Known.forget_eq_some.1 hx).2
  refine ⟨⟨hless.coherent.inside, hless.coherent.cached, fun b k x hx hout => ?_,
    hless.coherent.fresh⟩, ⟨h.aligned.reads, h.aligned.word, h.aligned.pcache, h.aligned.rcache⟩,
    h.busy, hless.behind⟩
  change s.disk.erase block left b k = x
  rw [Blocks.erase_of_ne (Known.forget_eq_some.1 hx).1]
  exact hless.coherent.disk b k x hx hout

theorem Cached.abandoned (h : Cached c L s) :
    Cached c (L.forget s.pcache.block) { s with pcache := { s.pcache with
      block := blockNull, buffer := fun _ => 0xff } } := by
  have hless := h.mono (M := L.forget s.pcache.block)
    fun b k x hx => (Known.forget_eq_some.1 hx).2
  have hout : ∀ b k x, L.forget s.pcache.block b k = some x →
      ∀ ca ∈ some s.pcache, ¬ca.Covers b k := by
    intro b k x hx ca hca hcov
    obtain rfl := Option.some.inj hca
    exact (Known.forget_eq_some.1 hx).1 hcov.1
  refine ⟨⟨hless.coherent.inside, fun ca hca b k x hx hcov => ?_, fun b k x hx _ =>
    hless.coherent.disk b k x hx (hout b k x hx), fun b k x hx _ =>
    hless.coherent.fresh b k x hx (hout b k x hx)⟩, ⟨h.aligned.reads, h.aligned.word,
    fun ca hca hlt => ?_, h.aligned.rcache⟩, .inl rfl, fun k _ => ?_⟩
  · obtain rfl := Option.some.inj hca
    exact absurd hcov (Cache.not_covers_null rfl (hless.coherent.inside b k x hx))
  · obtain rfl := Option.some.inj hca
    exact absurd hlt (blockNull_not_lt c)
  · by_contra hne
    obtain ⟨x, hx⟩ := Option.ne_none_iff_exists'.1 hne
    exact blockNull_not_lt c (hless.coherent.inside _ k x hx)

/-! ## Runs -/

namespace Flash

theorem exec_wp (hconf : fl.Confined) (hserves : fl.Serves c) (h : Cached c L s)
    (hallowed : Allowed c (s, L) op) :
    Wp (exec c fl s op) s
      (fun r t => op.Result L r ∧ Cached c (op.after L) t)
      (fun e t => op.Fails c fl e ∧ Cached c (op.failed L) t) := by
  cases op with
  | read cached hint block off size =>
    refine wp_map.2 ((read_wp hserves h hallowed).mono ?_ fun e t ht => ht)
    rintro data t ⟨hlen, hdata, hback⟩
    exact ⟨⟨hlen, hdata⟩, hback⟩
  | crc cached hint block off size start =>
    exact wp_map.2 ((crc_wp hserves h hallowed).mono (fun r t ht => ht) fun _ _ => False.elim)
  | prog block off data =>
    obtain ⟨hblock, hend, hfits⟩ := hallowed
    exact wp_map.2 ((lfsBdProg_wp hconf hserves h hblock hend hfits).mono
      (fun _ t ht => ⟨rfl, ht⟩) fun e t ht => ⟨ht.2, ht.1⟩)
  | flush =>
    exact wp_map.2 ((lfsBdFlush_wp hconf hserves h).mono (fun _ t ht => ⟨rfl, ht.1⟩)
      fun e t ht => ⟨ht.2.2, ht.1⟩)
  | sync =>
    refine wp_map.2 ?_
    unfold lfsBdSync lfsCacheDrop
    simp only [wp_bind, wp_modify]
    refine (lfsBdFlush_wp hconf hserves h.drop).mono ?_ fun e t ht => ⟨ht.2.2, ht.1⟩
    rintro ⟨⟩ t ⟨hback, -⟩
    simp only [wp_get, wp_set, wp_failWith]
    cases hres : fl.sync t with
    | none => exact ⟨rfl, hback.tick⟩
    | some e =>
      refine ⟨fun hgood => ?_, hback.tick⟩
      rw [hgood.sync] at hres
      simp at hres
  | erase block =>
    refine wp_map.2 ?_
    unfold lfsBdErase
    simp only [wp_bind, wp_get, wp_set, wp_failWith]
    cases hres : (fl.erase s block).2 with
    | none => exact ⟨rfl, h.erased⟩
    | some e =>
      refine ⟨fun hgood => ?_, h.erased⟩
      rw [hgood.erase] at hres
      simp at hres
  | abandon block =>
    obtain rfl : block = s.pcache.block := hallowed
    exact ⟨rfl, h.abandoned⟩

theorem next_cached (hconf : fl.Confined) (hserves : fl.Serves c) (p : Bd × Known) (op : Op)
    (h : Cached c p.2 p.1) (hallowed : Allowed c p op) :
    Cached c (next c fl p op).2 (next c fl p op).1 := by
  have hstep := exec_wp hconf hserves h hallowed
  unfold Wp at hstep
  unfold next
  split <;> rename_i heq <;> rw [heq] at hstep
  · exact hstep.2
  · exact hstep.2

/-- The caches with nothing in them. -/
theorem cached_start {d : Blocks} {pcache rcache : Cache} {time : Nat}
    (hunits : c.readSize ∣ c.progSize) (hword : c.blockSize + 8 + c.readSize ≤ 2 ^ 32)
    (hp : pcache.block = blockNull) (hr : rcache.block = blockNull)
    (hknown : ∀ b k x, L b k = some x → b < c.blockCount ∧ d b k = x) :
    Cached c L ⟨d, pcache, rcache, time⟩ := by
  refine ⟨⟨fun b k x hx => (hknown b k x hx).1, fun ca hca b k x hx hcov => ?_,
    fun b k x hx _ => (hknown b k x hx).2, fun b k x hx _ hcov => ?_⟩,
    ⟨hunits, hword, fun ca hca hlt => ?_, fun hlt => ?_⟩, .inl hp, fun k _ => ?_⟩
  · obtain rfl := Option.some.inj hca
    exact absurd hcov (Cache.not_covers_null hp (hknown b k x hx).1)
  · exact absurd hcov (Cache.not_covers_null hr (hknown b k x hx).1)
  · obtain rfl := Option.some.inj hca
    exact absurd (hp ▸ hlt) (blockNull_not_lt c)
  · exact absurd (hr ▸ hlt) (blockNull_not_lt c)
  · by_contra hne
    obtain ⟨x, hx⟩ := Option.ne_none_iff_exists'.1 hne
    exact blockNull_not_lt c (hp ▸ (hknown _ k x hx).1)

/-- In every run each read and each sum is of the bytes that were programmed last, or were known at
first. Nothing fails but what reads out of range, unless the flash fails. -/
theorem run_right (hconf : fl.Confined) (hserves : fl.Serves c)
    (hunits : c.readSize ∣ c.progSize) (hword : c.blockSize + 8 + c.readSize ≤ 2 ^ 32)
    {d : Blocks} {pcache rcache : Cache} {time : Nat}
    (hp : pcache.block = blockNull) (hr : rcache.block = blockNull)
    (hknown : ∀ b k x, L b k = some x → b < c.blockCount ∧ d b k = x) {ops : List Op}
    (hallowed : Meets (next c fl) (Allowed c) (⟨d, pcache, rcache, time⟩, L) ops) :
    Meets (next c fl) (Right c fl) (⟨d, pcache, rcache, time⟩, L) ops := by
  refine hallowed.of_inv (I := fun p => Cached c p.2 p.1) ?_ ?_
    (cached_start hunits hword hp hr hknown)
  · exact fun p op => next_cached hconf hserves p op
  · intro p op h hop
    have hstep := exec_wp hconf hserves h hop
    unfold Wp at hstep
    unfold Right
    split <;> rename_i heq <;> rw [heq] at hstep
    · exact hstep.1
    · exact hstep.1

/-- A flash that says it programs block 3, and does not. -/
def lying : Flash where
  read _ _ _ _ := none
  junk _ _ := 0
  prog s b off data := (if b = 3 then s.disk b else Memory.write (s.disk b) off data, none)
  erase _ _ := (fun _ => 0xff, none)
  sync _ := none

theorem lying_confined : lying.Confined := by
  intro s b off data k hk
  simp only [lying]
  split
  · rfl
  · rcases hk with hlow | hhigh
    · exact Memory.write_of_lt hlow
    · exact Memory.write_of_ge hhigh

theorem lying_serves (c : Config) : lying.Serves c := by
  rintro e ⟨s, b, off, size, hfault, -⟩
  simp [lying] at hfault

/-- Two blocks are programmed; only the first flush can be trusted. -/
def twoBlocks : List Op :=
  [.erase 2, .prog 2 0 [1, 2, 3], .read true 4 2 1 2, .flush, .prog 3 0 [4, 5]]

def blank : Bd × Known :=
  (⟨fun _ _ => 0, ⟨blockNull, 0, 0, fun _ => 0xff⟩, ⟨blockNull, 0, 0, fun _ => 0xff⟩, 0⟩,
    fun _ _ => none)

/-- The flush of the second fails; what was programmed is read right before and after it is given
up. -/
theorem run_right_lying :
    (∃ s, exec smallCfg lying (runs (next smallCfg lying) blank twoBlocks).1 .flush
      (runs (next smallCfg lying) blank twoBlocks).1 = .error .corrupt s) ∧
    Meets (next smallCfg lying) (Right smallCfg lying) blank
      (twoBlocks ++ [.flush, .read true 4 3 0 2, .read false 4 2 0 3, .abandon 3,
        .read true 4 2 0 3]) := by
  refine ⟨⟨_, rfl⟩, run_right lying_confined (lying_serves _) (by decide) (by decide) rfl rfl
    (fun _ _ _ hx => by simp at hx) ?_⟩
  refine ⟨⟨by decide, by decide⟩, ⟨by decide, by decide, .inl ⟨rfl, fun k _ => rfl⟩⟩,
    ⟨by decide, by decide, .inl rfl⟩, trivial,
    ⟨by decide, by decide, .inl ⟨rfl, fun k _ => rfl⟩⟩, trivial,
    ⟨by decide, by decide, .inl rfl⟩, ⟨by decide, by decide, .inr ?_⟩, rfl,
    ⟨by decide, by decide, .inl rfl⟩, trivial⟩
  exact (by decide : (2 : Nat) ≠ 3)

end Flash

end Bl616cl.Lfs
