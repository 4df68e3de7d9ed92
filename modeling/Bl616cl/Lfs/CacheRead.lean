import Bl616cl.Lfs.Cache

/-!
# littlefs: reading through the caches

What is known of the flash and of what has been programmed stays readable, wherever it lies. The
caches change nothing but what the flash is asked for.
-/

namespace Bl616cl.Lfs

open Bl616cl.Lib

/-- The bytes that are known. -/
abbrev Known := Nat → Nat → Option UInt8

def Cache.Covers (ca : Cache) (b k : Nat) : Prop :=
  b = ca.block ∧ ca.off ≤ k ∧ k < ca.off + ca.size

/-- What is known is in the cache for programs if that covers it, or else in the flash and, if it
covers it, in the cache for reads. -/
structure Coherent (c : Config) (pcache : Option Cache) (L : Known) (s : Bd) : Prop where
  inside : ∀ b k x, L b k = some x → b < c.blockCount
  cached : ∀ ca ∈ pcache, ∀ b k x, L b k = some x → ca.Covers b k → ca.buffer (k - ca.off) = x
  disk : ∀ b k x, L b k = some x → (∀ ca ∈ pcache, ¬ca.Covers b k) → s.disk b k = x
  fresh : ∀ b k x, L b k = some x → (∀ ca ∈ pcache, ¬ca.Covers b k) → s.rcache.Covers b k →
    s.rcache.buffer (k - s.rcache.off) = x

/-- The caches begin where the flash can be read and programmed, and sums within a block fit a
word. -/
structure Aligned (c : Config) (pcache : Option Cache) (s : Bd) : Prop where
  reads : c.readSize ∣ c.progSize
  word : c.blockSize + 8 + c.readSize ≤ 2 ^ 32
  pcache : ∀ ca ∈ pcache, ca.block < c.blockCount → c.progSize ∣ ca.off
  rcache : s.rcache.block < c.blockCount → c.readSize ∣ s.rcache.off

/-- The bytes from a place on are the known ones. -/
def Agrees (L : Known) (block off : Nat) (data : List UInt8) : Prop :=
  ∀ k x, k < data.length → L block (off + k) = some x → data[k]? = some x

/-- The flash failed to serve a read that it must be able to serve. -/
def ReadFault (c : Config) (fl : Flash) (e : Err) : Prop :=
  ∃ s block off size, fl.read s block off size = some e ∧ block < c.blockCount ∧
    c.readSize ∣ off ∧ c.readSize ∣ size ∧ 0 < size ∧ off + size ≤ c.blockSize

/-- What reading leaves as it is. -/
structure Bd.Same (s t : Bd) : Prop where
  disk : t.disk = s.disk
  pcache : t.pcache = s.pcache

variable {c : Config} {fl : Flash} {pcache : Option Cache} {L : Known} {s t : Bd}
  {hint block off size fuel n : Nat} {data rest : List UInt8} {m : Nat → UInt8}

theorem Bd.Same.refl (s : Bd) : s.Same s := ⟨rfl, rfl⟩

theorem Bd.Same.trans {u : Bd} (h : s.Same t) (h' : t.Same u) : s.Same u :=
  ⟨h'.disk.trans h.disk, h'.pcache.trans h.pcache⟩

theorem Agrees.append (h : Agrees L block off data)
    (h' : Agrees L block (off + data.length) rest) : Agrees L block off (data ++ rest) := by
  intro k x hk hx
  rcases Nat.lt_or_ge k data.length with hlt | hge
  · rw [List.getElem?_append_left hlt]
    exact h k x hlt hx
  · rw [List.getElem?_append_right hge]
    refine h' (k - data.length) x (by rw [List.length_append] at hk; omega) ?_
    rwa [show off + data.length + (k - data.length) = off + k by omega]

theorem Agrees.read {i : Nat}
    (h : ∀ k < n, ∀ x, L block (off + k) = some x → m (i + k) = x) :
    Agrees L block off (Memory.read m i n) := by
  intro k x hk hx
  rw [Memory.length_read] at hk
  rw [Memory.read, List.getElem?_map, List.getElem?_range hk]
  exact congrArg some (h k hk x hx)

theorem Agrees.nil : Agrees L block off [] := fun _ _ hk => absurd hk (Nat.not_lt_zero _)

/-! ## Hits and loads -/

theorem Cache.hit_eq_some {ca : Cache} (h : ca.hit block off size = some data) :
    ca.Covers block off ∧ data.length = min size (ca.size - (off - ca.off)) ∧
      (∀ k < data.length, ca.Covers block (off + k)) ∧
      data = Memory.read ca.buffer (off - ca.off) data.length := by
  unfold Cache.hit at h
  split at h
  · next hc =>
    obtain ⟨hb, hlt, hle⟩ := hc
    obtain rfl := Option.some.inj h
    rw [Memory.length_read]
    exact ⟨⟨hb, hle, hlt⟩, rfl, fun k hk => ⟨hb, by omega, by omega⟩, rfl⟩
  · simp at h

theorem Cache.hit_eq_none {ca : Cache} (h : ca.hit block off size = none) :
    ¬ca.Covers block off := by
  rintro ⟨hb, hle, hlt⟩
  rw [Cache.hit, if_pos ⟨hb, hlt, hle⟩] at h
  simp at h

theorem Cache.limit_spec {ca : Cache} (h : ¬ca.Covers block off) :
    ca.limit block off n ≤ n ∧ (0 < n → 0 < ca.limit block off n) ∧
      ∀ k < ca.limit block off n, ¬ca.Covers block (off + k) := by
  unfold Cache.limit
  split
  · next hc =>
    have hbefore : off < ca.off := by
      by_contra hge
      exact h ⟨hc.1, by omega, hc.2⟩
    exact ⟨Nat.min_le_left _ _, fun hn => by omega, fun k hk hcov => by have := hcov.2.1; omega⟩
  · next hc =>
    refine ⟨Nat.le_refl _, id, fun k hk hcov => hc ⟨hcov.1, ?_⟩⟩
    have := hcov.2.2
    omega

theorem Cache.le_limit {ca : Cache} {a : Nat} (h : ¬ca.Covers block off) (hoff : a ∣ off)
    (hca : block = ca.block → a ∣ ca.off) (hn : a ≤ n) : a ≤ ca.limit block off n := by
  unfold Cache.limit
  split
  · next hc =>
    have hbefore : off < ca.off := by
      by_contra hge
      exact h ⟨hc.1, by omega, hc.2⟩
    have hle : a ≤ ca.off - off := Nat.le_of_dvd (by omega) (Nat.dvd_sub (hca hc.1) hoff)
    omega
  · exact hn

/-- The bytes that the cache for programs does not cover. -/
theorem Coherent.agrees_disk (h : Coherent c pcache L s)
    (hout : ∀ k < n, ∀ ca ∈ pcache, ¬ca.Covers block (off + k)) :
    Agrees L block off (Memory.read (s.disk block) off n) :=
  .read fun k hk x hx => h.disk block (off + k) x hx (hout k hk)

theorem wp_failWith {o : Option Err} {Q : Unit → Bd → Prop} {E : Err → Bd → Prop} :
    Wp (failWith o) s Q E ↔ o.elim (Q () s) fun e => E e s := by
  cases o <;> rfl

theorem flashRead_wp :
    Wp (flashRead fl block off n) s
      (fun data t => data = Memory.read (s.disk block) off n ∧ t = s.tick)
      (fun e t => fl.read s block off n = some e ∧ t = s.tick) := by
  unfold flashRead
  simp only [wp_bind, wp_get, wp_set, wp_failWith]
  cases fl.read s block off n with
  | none => exact ⟨rfl, rfl⟩
  | some e => exact ⟨rfl, trivial⟩

theorem Coherent.tick (h : Coherent c pcache L s) : Coherent c pcache L s.tick :=
  ⟨h.inside, h.cached, h.disk, h.fresh⟩

theorem Aligned.tick (h : Aligned c pcache s) : Aligned c pcache s.tick :=
  ⟨h.reads, h.word, h.pcache, h.rcache⟩

theorem loadSize_eq (hoff : off < c.blockSize) (hword : off + hint + c.readSize ≤ 2 ^ 32) :
    loadSize c hint off = min (min (alignUp (off + hint) c.readSize) c.blockSize -
      alignDown off c.readSize) c.cacheSize := by
  have hread := c.readSize_pos
  have hle := alignDown_le off c.readSize
  have hup := le_alignUp hread (off + hint)
  have hblock := c.blockSize_lt
  unfold loadSize
  rw [add32_of_lt (by omega), alignUp32_eq hword, sub32_of_le (by omega) (by omega)]

theorem lt_loadSize (hhint : 0 < hint) (hword : off + hint + c.readSize ≤ 2 ^ 32)
    (hoff : off < c.blockSize) : off < alignDown off c.readSize + loadSize c hint off := by
  have hle := alignDown_le off c.readSize
  have hlt := lt_alignDown_add c.readSize_pos off
  have hup := le_alignUp c.readSize_pos (off + hint)
  have hcache : c.readSize ≤ c.cacheSize := Nat.le_of_dvd c.cacheSize_pos c.readSize_dvd
  rw [loadSize_eq hoff hword]
  omega

theorem bdLoad_wp (hcoh : Coherent c pcache L s) (hal : Aligned c pcache s) (hhint : 0 < hint)
    (hword : off + hint + c.readSize ≤ 2 ^ 32) (hblock : block < c.blockCount)
    (hoff : off < c.blockSize) :
    Wp (bdLoad c fl hint block off) s
      (fun _ t => s.Same t ∧ Coherent c pcache L t ∧ Aligned c pcache t ∧
        t.rcache.Covers block off)
      (fun e t => ReadFault c fl e ∧ s.Same t) := by
  obtain ⟨start, hstart⟩ : ∃ start, start = alignDown off c.readSize := ⟨_, rfl⟩
  obtain ⟨len, hlen⟩ : ∃ len, len = min (min (alignUp (off + hint) c.readSize) c.blockSize - start)
    c.cacheSize := ⟨_, rfl⟩
  have hle : start ≤ off := hstart ▸ alignDown_le off c.readSize
  have hdvd : c.readSize ∣ start := hstart ▸ dvd_alignDown off c.readSize
  have hcover := lt_loadSize hhint hword hoff
  rw [loadSize_eq hoff hword, ← hstart, ← hlen] at hcover
  have hend : start + len ≤ c.blockSize := by omega
  have hlendvd : c.readSize ∣ len := by
    have hsize : c.readSize ∣ c.blockSize := Nat.dvd_trans c.readSize_dvd c.cacheSize_dvd
    have hmin : ∀ {a b : Nat}, c.readSize ∣ a → c.readSize ∣ b → c.readSize ∣ min a b := by
      intro a b ha hb
      rcases Nat.le_total a b with hab | hab
      · rwa [Nat.min_eq_left hab]
      · rwa [Nat.min_eq_right hab]
    rw [hlen]
    exact hmin (Nat.dvd_sub (hmin (dvd_alignUp _ _) hsize) hdvd) c.readSize_dvd
  unfold bdLoad
  simp only [loadSize_eq hoff hword, ← hstart, ← hlen, wp_bind, wp_modify, wp_get]
  split
  · next e he =>
    exact ⟨⟨_, block, start, len, he, hblock, hdvd, hlendvd, by omega, hend⟩, rfl, rfl⟩
  · refine ⟨⟨rfl, rfl⟩, ⟨hcoh.inside, hcoh.cached, hcoh.disk, fun b k x hx hout hcov => ?_⟩,
      ⟨hal.reads, hal.word, hal.pcache, fun _ => hdvd⟩, ⟨rfl, hle, hcover⟩⟩
    obtain ⟨hb, hlo, hhi⟩ : b = block ∧ start ≤ k ∧ k < start + len := hcov
    subst hb
    obtain ⟨j, rfl⟩ : ∃ j, k = start + j := ⟨k - start, by omega⟩
    have hcopy : Memory.write s.rcache.buffer 0 (Memory.read (s.disk b) start len) (0 + j) =
        s.disk b (start + j) := Memory.write_read_of_lt (by omega)
    rw [Nat.zero_add] at hcopy
    change Memory.write s.rcache.buffer 0 (Memory.read (s.disk b) start len) (start + j - start) = x
    rw [Nat.add_sub_cancel_left, hcopy]
    exact hcoh.disk b _ x hx hout

/-- A round delivers some bytes, or finds the cache empty and loads it. -/
theorem bdReadPiece_wp (hcoh : Coherent c pcache L s) (hal : Aligned c pcache s)
    (hhint : 0 < hint) (hword : off + size + hint + c.readSize ≤ 2 ^ 32)
    (hblock : block < c.blockCount) (hsize : 0 < size) (hoff : off + size ≤ c.blockSize) :
    Wp (bdReadPiece c fl pcache hint block off size) s
      (fun r t => s.Same t ∧ Coherent c pcache L t ∧ Aligned c pcache t ∧
        ((∃ data, r = some data ∧ 0 < data.length ∧ data.length ≤ size ∧
            Agrees L block off data) ∨
          r = none ∧ ¬s.rcache.Covers block off ∧ t.rcache.Covers block off))
      (fun e t => ReadFault c fl e ∧ s.Same t) := by
  unfold bdReadPiece
  simp only [wp_bind, wp_get]
  split
  · next data hdata =>
    -- is already in the cache for programs
    obtain ⟨ca, rfl, hhit⟩ := Option.bind_eq_some_iff.1 hdata
    obtain ⟨⟨-, hlo, hhi⟩, hlen, hcov, heq⟩ := Cache.hit_eq_some hhit
    refine ⟨.refl s, hcoh, hal, .inl ⟨data, rfl, by omega, by omega, ?_⟩⟩
    rw [heq]
    refine .read fun k hk x hx => ?_
    have hbyte := hcoh.cached ca rfl block (off + k) x hx (hcov k hk)
    rwa [show off + k - ca.off = off - ca.off + k by omega] at hbyte
  · next hmiss =>
    have hnot : ∀ ca ∈ pcache, ¬ca.Covers block off := by
      rintro ca rfl
      exact Cache.hit_eq_none hmiss
    obtain ⟨diff, hdiff⟩ : ∃ diff, diff = pcache.elim size fun ca => ca.limit block off size :=
      ⟨_, rfl⟩
    have hlimit : diff ≤ size ∧ 0 < diff ∧
        ∀ k < diff, ∀ ca ∈ pcache, ¬ca.Covers block (off + k) := by
      cases pcache with
      | none => exact ⟨Nat.le_of_eq hdiff, hdiff ▸ hsize, fun _ _ _ hca => by simp at hca⟩
      | some ca =>
        obtain ⟨hle, hpos, hout⟩ := Cache.limit_spec (n := size) (hnot ca rfl)
        rw [Option.elim_some] at hdiff
        rw [hdiff]
        refine ⟨hle, hpos hsize, fun k hk ca' hca' => ?_⟩
        obtain rfl := Option.some.inj hca'
        exact hout k hk
    obtain ⟨hle, hpos, hout⟩ := hlimit
    rw [← hdiff]
    split
    · next data hhit =>
      -- is already in the cache for reads
      obtain ⟨⟨-, hlo, hhi⟩, hlen, hcov, heq⟩ := Cache.hit_eq_some hhit
      refine ⟨.refl s, hcoh, hal, .inl ⟨data, rfl, by omega, by omega, ?_⟩⟩
      rw [heq]
      refine .read fun k hk x hx => ?_
      have hbyte := hcoh.fresh block (off + k) x hx (hout k (by omega)) (hcov k hk)
      rwa [show off + k - s.rcache.off = off - s.rcache.off + k by omega] at hbyte
    · next hrmiss =>
      have hrnot := Cache.hit_eq_none hrmiss
      rw [wp_ite]
      refine ⟨fun hbypass => ?_, fun _ => ?_⟩
      · obtain ⟨-, hmod, hread⟩ := hbypass
        have hunit := c.readSize_pos
        have hdvd : c.readSize ∣ off := Nat.dvd_of_mod_eq_zero hmod
        have hstay : c.readSize ≤ diff := by
          cases pcache with
          | none => exact hdiff ▸ hread
          | some ca =>
            rw [hdiff, Option.elim_some]
            exact Cache.le_limit (hnot ca rfl) hdvd
              (fun hb => Nat.dvd_trans hal.reads (hal.pcache ca rfl (hb ▸ hblock))) hread
        obtain ⟨hle', -, -⟩ := Cache.limit_spec (n := diff) hrnot
        have hstay' := Cache.le_limit hrnot hdvd (fun hb => hal.rcache (hb ▸ hblock)) hstay
        obtain ⟨len, hlen⟩ : ∃ len,
          len = alignDown (s.rcache.limit block off diff) c.readSize := ⟨_, rfl⟩
        have hlo := lt_alignDown_add hunit (s.rcache.limit block off diff)
        have hhi := alignDown_le (s.rcache.limit block off diff) c.readSize
        have hlendvd : c.readSize ∣ len := hlen ▸ dvd_alignDown _ _
        have hpos' : 0 < len := by omega
        rw [← hlen, wp_map]
        refine flashRead_wp.mono ?_ ?_
        · rintro data t ⟨rfl, rfl⟩
          refine ⟨⟨rfl, rfl⟩, hcoh.tick, hal.tick, .inl ⟨_, rfl, ?_, ?_, ?_⟩⟩
          · rwa [Memory.length_read]
          · rw [Memory.length_read]
            omega
          · exact hcoh.agrees_disk fun k hk => hout k (by omega)
        · rintro e t ⟨he, rfl⟩
          exact ⟨⟨s, block, off, len, he, hblock, hdvd, hlendvd, hpos', by omega⟩, rfl, rfl⟩
      · refine (bdLoad_wp hcoh hal hhint (by omega) hblock (by omega)).bind ?_ fun e t ht => ht
        rintro ⟨⟩ t ⟨hsame, hcoh', hal', hcov⟩
        exact ⟨hsame, hcoh', hal', .inr ⟨rfl, hrnot, hcov⟩⟩

/-! ## The functions that read -/

theorem bdReadLoop_wp (hcoh : Coherent c pcache L s) (hal : Aligned c pcache s)
    (hhint : 0 < hint) (hword : off + size + hint + c.readSize ≤ 2 ^ 32)
    (hblock : block < c.blockCount) (hoff : off + size ≤ c.blockSize)
    (hfuel : 2 * size ≤ fuel ∨ 2 * size ≤ fuel + 1 ∧ s.rcache.Covers block off) :
    Wp (bdReadLoop c fl pcache hint block fuel off size) s
      (fun data t => s.Same t ∧ Coherent c pcache L t ∧ Aligned c pcache t ∧
        data.length = size ∧ Agrees L block off data)
      (fun e t => ReadFault c fl e ∧ s.Same t) := by
  induction fuel generalizing s off size with
  | zero =>
    obtain rfl : size = 0 := by omega
    exact ⟨.refl s, hcoh, hal, rfl, .nil⟩
  | succ fuel ih =>
    rw [bdReadLoop]
    split
    · next hzero =>
      subst hzero
      exact ⟨.refl s, hcoh, hal, rfl, .nil⟩
    · next hne =>
      refine (bdReadPiece_wp hcoh hal hhint hword hblock (by omega) hoff).bind ?_ fun e t ht => ht
      rintro r t ⟨hsame, hcoh', hal', ⟨data, rfl, hpos, hle, hdata⟩ | ⟨rfl, hnot, hcov⟩⟩
      · dsimp only
        rw [add32_of_lt (by omega)]
        refine (ih hcoh' hal' (by omega)
          (show off + data.length + (size - data.length) ≤ c.blockSize by omega)
          (.inl (by omega))).bind ?_ fun e u hu => ⟨hu.1, hsame.trans hu.2⟩
        rintro rest u ⟨hsame', hcoh'', hal'', hlen, hrest⟩
        refine ⟨hsame.trans hsame', hcoh'', hal'', ?_, hdata.append hrest⟩
        rw [List.length_append]
        omega
      · have hfuel' : 2 * size ≤ fuel + 1 := by
          rcases hfuel with h | ⟨-, h⟩
          · exact h
          · exact absurd h hnot
        refine (ih hcoh' hal' hword hoff (.inr ⟨hfuel', hcov⟩)).mono ?_
          fun e u hu => ⟨hu.1, hsame.trans hu.2⟩
        rintro rest u ⟨hsame', hcoh'', hal'', hlen, hrest⟩
        exact ⟨hsame.trans hsame', hcoh'', hal'', hlen, hrest⟩

/-- `lfs_bd_read` delivers what is known. -/
theorem lfsBdRead_wp (hcoh : Coherent c pcache L s) (hal : Aligned c pcache s)
    (hhint : 0 < hint) (hword : off + size + hint + c.readSize ≤ 2 ^ 32) :
    Wp (lfsBdRead c fl pcache hint block off size) s
      (fun data t => s.Same t ∧ Coherent c pcache L t ∧ Aligned c pcache t ∧
        data.length = size ∧ Agrees L block off data)
      (fun e t => (e = .corrupt ∧ t = s ∧ (c.blockSize < off + size ∨ c.blockCount ≤ block)) ∨
        ReadFault c fl e ∧ s.Same t) := by
  unfold lfsBdRead
  rw [add32_of_lt (by omega)]
  split
  · next hout => exact .inl ⟨rfl, rfl, hout⟩
  · next hin =>
    refine (bdReadLoop_wp hcoh hal hhint hword (by omega) (by omega)
      (.inl (Nat.le_refl _))).mono (fun data t ht => ht) fun e t ht => .inr ht

theorem Agrees.eq {n : Nat} (h : Agrees L block off data) (hlen : data.length = n)
    (hall : ∀ k < n, L block (off + k) = some (m (off + k))) : data = Memory.read m off n := by
  refine List.ext_getElem (by rw [hlen, Memory.length_read]) fun k hk _ => ?_
  have hbyte := h k _ hk (hall k (hlen ▸ hk))
  rw [List.getElem?_eq_getElem hk] at hbyte
  simpa [Memory.read] using Option.some.inj hbyte

end Bl616cl.Lfs
