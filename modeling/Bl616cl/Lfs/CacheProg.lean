import Bl616cl.Lfs.CacheRead

/-!
# littlefs: programming through the caches

A flush that is validated leaves on the flash what the cache held, or says that it did not. What
is known besides stays where it is, whatever the flash makes of what it programs.
-/

namespace Bl616cl.Lfs

open Bl616cl.Lib

variable {c : Config} {fl : Flash} {pcache : Option Cache} {L : Known} {s t : Bd}
  {hint block off size fuel n : Nat} {data rest : List UInt8} {m : Nat → UInt8} {crc : BitVec 32}

/-! ## Comparing and summing -/

theorem memcmp_eq_iff {xs ys : List UInt8} (h : xs.length = ys.length) :
    memcmp xs ys = .eq ↔ xs = ys := by
  induction xs generalizing ys with
  | nil =>
    obtain rfl : ys = [] := List.length_eq_zero_iff.1 h.symm
    simp [memcmp]
  | cons x xs ih =>
    cases ys with
    | nil => simp at h
    | cons y ys =>
      rw [memcmp, Ordering.then_eq_eq, ih (by simpa using h), List.cons.injEq]
      simp

theorem lfsBdCrc_wp (hcoh : Coherent c pcache L s) (hal : Aligned c pcache s)
    (hhint : size ≤ hint) (hword : off + hint + 8 + c.readSize ≤ 2 ^ 32)
    (hblock : block < c.blockCount) (hoff : off + size ≤ c.blockSize) :
    Wp (lfsBdCrc c fl pcache hint block off size crc) s
      (fun r t => s.Same t ∧ Coherent c pcache L t ∧ Aligned c pcache t ∧
        ∃ data, data.length = size ∧ Agrees L block off data ∧ r = lfsCrc crc data)
      (fun e t => ReadFault c fl e ∧ s.Same t) := by
  have hloop : ∀ fuel, size ≤ fuel → Wp (bdCrcLoop c fl pcache block fuel hint off size crc) s
      (fun r t => s.Same t ∧ Coherent c pcache L t ∧ Aligned c pcache t ∧
        ∃ data, data.length = size ∧ Agrees L block off data ∧ r = lfsCrc crc data)
      (fun e t => ReadFault c fl e ∧ s.Same t) := by
    intro fuel hfuel
    induction fuel generalizing s hint off size crc with
    | zero =>
      obtain rfl : size = 0 := by omega
      exact ⟨.refl s, hcoh, hal, [], rfl, .nil, rfl⟩
    | succ fuel ih =>
      rw [bdCrcLoop]
      split
      · next hzero =>
        subst hzero
        exact ⟨.refl s, hcoh, hal, [], rfl, .nil, rfl⟩
      · next hne =>
        obtain ⟨diff, hdiff⟩ : ∃ diff, diff = min size 8 := ⟨_, rfl⟩
        simp only [← hdiff]
        rw [add32_of_lt (by omega), sub32_of_le (by omega) (by omega)]
        refine (lfsBdRead_wp hcoh hal (show 0 < hint by omega) (by omega)).bind ?_ ?_
        · rintro data t ⟨hsame, hcoh', hal', hlen, hdata⟩
          refine (ih hcoh' hal' (by omega) (by omega) (by omega) (by omega)).mono ?_
            fun e u hu => ⟨hu.1, hsame.trans hu.2⟩
          rintro r u ⟨hsame', hcoh'', hal'', rest, hrestlen, hrest, rfl⟩
          refine ⟨hsame.trans hsame', hcoh'', hal'', data ++ rest, ?_, ?_, ?_⟩
          · rw [List.length_append]
            omega
          · exact hdata.append (hlen ▸ hrest)
          · rw [lfsCrc_append]
        · rintro e t (⟨-, -, hout⟩ | hfault)
          · omega
          · exact hfault
  exact hloop size (Nat.le_refl _)

/-- The bytes compare equal if they are, and only if they agree with what is known. -/
theorem lfsBdCmp_wp (hcoh : Coherent c pcache L s) (hal : Aligned c pcache s)
    (hhint : data.length ≤ hint) (hword : off + hint + 8 + c.readSize ≤ 2 ^ 32)
    (hblock : block < c.blockCount) (hoff : off + data.length ≤ c.blockSize) :
    Wp (lfsBdCmp c fl pcache hint block off data) s
      (fun r t => s.Same t ∧ Coherent c pcache L t ∧ Aligned c pcache t ∧
        (r = .eq → Agrees L block off data) ∧
        ((∀ k < data.length, L block (off + k) = data[k]?) → r = .eq))
      (fun e t => ReadFault c fl e ∧ s.Same t) := by
  have hloop : ∀ fuel, data.length ≤ fuel →
      Wp (bdCmpLoop c fl pcache block fuel hint off data) s
        (fun r t => s.Same t ∧ Coherent c pcache L t ∧ Aligned c pcache t ∧
          (r = .eq → Agrees L block off data) ∧
          ((∀ k < data.length, L block (off + k) = data[k]?) → r = .eq))
        (fun e t => ReadFault c fl e ∧ s.Same t) := by
    intro fuel hfuel
    induction fuel generalizing s hint off data with
    | zero =>
      obtain rfl : data = [] := List.length_eq_zero_iff.1 (by omega)
      exact ⟨.refl s, hcoh, hal, fun _ => .nil, fun _ => rfl⟩
    | succ fuel ih =>
      rw [bdCmpLoop]
      split
      · next hnil =>
        subst hnil
        exact ⟨.refl s, hcoh, hal, fun _ => .nil, fun _ => rfl⟩
      · next hne =>
        have hpos := List.length_pos_iff.2 hne
        obtain ⟨diff, hdiff⟩ : ∃ diff, diff = min data.length 8 := ⟨_, rfl⟩
        have htake : (data.take diff).length = diff := by
          rw [List.length_take]
          omega
        simp only [← hdiff]
        rw [add32_of_lt (by omega), sub32_of_le (by omega) (by omega)]
        refine (lfsBdRead_wp hcoh hal (show 0 < hint by omega) (by omega)).bind ?_ ?_
        · rintro dat t ⟨hsame, hcoh', hal', hlen, hdat⟩
          have heq : memcmp dat (data.take diff) = .eq ↔ dat = data.take diff :=
            memcmp_eq_iff (by rw [htake, hlen])
          have hall : (∀ k < data.length, L block (off + k) = data[k]?) →
              memcmp dat (data.take diff) = .eq := by
            intro h
            refine heq.2 (List.ext_getElem (by rw [htake, hlen]) fun k hk hk' => ?_)
            have hlt : k < data.length := by omega
            have hknown : L block (off + k) = some data[k] := by
              rw [h k hlt, List.getElem?_eq_getElem hlt]
            have hbyte := hdat k data[k] hk hknown
            rw [List.getElem?_eq_getElem hk] at hbyte
            rw [List.getElem_take]
            exact Option.some.inj hbyte
          split
          · next hcmp =>
            obtain rfl := heq.1 hcmp
            have hdrop : (data.drop diff).length = data.length - diff := List.length_drop
            refine (ih hcoh' hal' ?_ ?_ ?_ ?_).mono ?_ fun e u hu => ⟨hu.1, hsame.trans hu.2⟩
            · omega
            · omega
            · omega
            · omega
            · rintro r u ⟨hsame', hcoh'', hal'', hagrees, hall'⟩
              refine ⟨hsame.trans hsame', hcoh'', hal'', fun hr => ?_,
                fun h => hall' fun k hk => ?_⟩
              · have hrest : Agrees L block off (data.take diff ++ data.drop diff) :=
                  hdat.append (by rw [htake]; exact hagrees hr)
                rwa [List.take_append_drop] at hrest
              · rw [List.length_drop] at hk
                rw [List.getElem?_drop, Nat.add_assoc]
                exact h (diff + k) (by omega)
          · next hcmp =>
            exact ⟨hsame, hcoh', hal', fun h => absurd h hcmp, fun h => absurd (hall h) hcmp⟩
        · rintro e t (⟨-, -, hout⟩ | hfault)
          · omega
          · exact hfault
  exact hloop _ (Nat.le_refl _)

/-! ## Between the operations -/

/-- What holds between the operations: what is known is where it is looked for, and nothing is
known behind the cache for programs. -/
structure Cached (c : Config) (L : Known) (s : Bd) : Prop where
  coherent : Coherent c (some s.pcache) L s
  aligned : Aligned c (some s.pcache) s
  busy : s.pcache.block = blockNull ∨
    s.pcache.block < c.blockCount ∧ s.pcache.size ≤ c.cacheSize ∧
      s.pcache.off + s.pcache.size ≤ c.blockSize
  behind : ∀ k, s.pcache.off + s.pcache.size ≤ k → L s.pcache.block k = none

/-- The flash programs nothing but the place it is told. -/
def Flash.Confined (fl : Flash) : Prop :=
  ∀ s b off data k, k < off ∨ off + data.length ≤ k → (fl.prog s b off data).1 k = s.disk b k

/-- The flash serves every read. -/
def Flash.Serves (c : Config) (fl : Flash) : Prop := ∀ e, ¬ReadFault c fl e

/-- The flash does what it is told. -/
structure Flash.Good (fl : Flash) : Prop where
  prog : ∀ s b off data, (fl.prog s b off data).2 = none ∧
    Memory.read (fl.prog s b off data).1 off data.length = data
  erase : ∀ s b, (fl.erase s b).2 = none
  sync : ∀ s, fl.sync s = none

/-- What is known of a block is given up. -/
def Known.forget (L : Known) (block : Nat) : Known := fun b k => if b = block then none else L b k

def Known.write (L : Known) (block off : Nat) (data : List UInt8) : Known := fun b k =>
  if b = block ∧ off ≤ k ∧ k < off + data.length then data[k - off]? else L b k

theorem Coherent.mono {M : Known} (h : Coherent c pcache L s)
    (hless : ∀ b k x, M b k = some x → L b k = some x) : Coherent c pcache M s :=
  ⟨fun b k x hx => h.inside b k x (hless b k x hx),
    fun ca hca b k x hx => h.cached ca hca b k x (hless b k x hx),
    fun b k x hx => h.disk b k x (hless b k x hx),
    fun b k x hx => h.fresh b k x (hless b k x hx)⟩

theorem Cached.mono {M : Known} (h : Cached c L s)
    (hless : ∀ b k x, M b k = some x → L b k = some x) : Cached c M s where
  coherent := h.coherent.mono hless
  aligned := h.aligned
  busy := h.busy
  behind k hk := by
    by_contra hne
    obtain ⟨x, hx⟩ := Option.ne_none_iff_exists'.1 hne
    exact Option.some_ne_none x ((hless _ _ _ hx).symm.trans (h.behind k hk))

theorem blockNull_not_lt (c : Config) : ¬blockNull < c.blockCount := by
  have hcount := c.blockCount_le
  unfold blockNull blockInline at *
  omega

theorem Cache.not_covers_null {ca : Cache} {b k : Nat} (hca : ca.block = blockNull)
    (hb : b < c.blockCount) : ¬ca.Covers b k :=
  fun hcov => blockNull_not_lt c (hca ▸ hcov.1 ▸ hb)

theorem Coherent.drop (h : Coherent c pcache L s) :
    Coherent c pcache L { s with rcache := { s.rcache with block := blockNull } } :=
  ⟨h.inside, h.cached, h.disk, fun b k x hx _ hcov =>
    absurd hcov (Cache.not_covers_null rfl (h.inside b k x hx))⟩

theorem Cached.drop (h : Cached c L s) :
    Cached c L { s with rcache := { s.rcache with block := blockNull } } :=
  ⟨h.coherent.drop, ⟨h.aligned.reads, h.aligned.word, h.aligned.pcache,
    fun hlt => absurd hlt (blockNull_not_lt c)⟩, h.busy, h.behind⟩

theorem Cached.tick (h : Cached c L s) : Cached c L s.tick :=
  ⟨h.coherent.tick, h.aligned.tick, h.busy, h.behind⟩

/-- All that is on the flash. -/
def Bd.all (c : Config) (s : Bd) : Known := fun b k =>
  if b < c.blockCount then some (s.disk b k) else none

/-- Programming what the cache holds touches nothing that is known. -/
theorem Cached.programmed (h : Cached c L s) (hconf : fl.Confined) (data : List UInt8) :
    Cached c L { s.tick with
      disk := Function.update s.disk s.pcache.block
        (fl.prog s s.pcache.block s.pcache.off data).1 } := by
  refine ⟨⟨h.coherent.inside, h.coherent.cached, fun b k x hx hout => ?_, h.coherent.fresh⟩,
    ⟨h.aligned.reads, h.aligned.word, h.aligned.pcache, h.aligned.rcache⟩, h.busy, h.behind⟩
  have hdisk := h.coherent.disk b k x hx hout
  by_cases hb : b = s.pcache.block
  · subst hb
    have hlow : k < s.pcache.off := by
      by_contra hge
      have hnot : ¬s.pcache.Covers s.pcache.block k := hout _ rfl
      have hbehind : s.pcache.off + s.pcache.size ≤ k := by
        by_contra hlt
        exact hnot ⟨rfl, Nat.not_lt.1 hge, Nat.not_le.1 hlt⟩
      rw [h.behind k hbehind] at hx
      simp at hx
    change Function.update s.disk s.pcache.block _ s.pcache.block k = x
    rw [Function.update_self, hconf _ _ _ _ _ (.inl hlow), hdisk]
  · change Function.update s.disk s.pcache.block _ b k = x
    rw [Function.update_of_ne hb, hdisk]

theorem Cached.reread (h : Cached c L s) (hsame : s.Same t) (hcoh : Coherent c none (s.all c) t)
    (hal : Aligned c none t) : Cached c L t := by
  obtain ⟨hdisk, hpcache⟩ := hsame
  refine ⟨⟨h.coherent.inside, ?_, fun b k x hx hout => ?_, fun b k x hx hout hcov => ?_⟩,
    ⟨h.aligned.reads, h.aligned.word, ?_, hal.rcache⟩, ?_, ?_⟩
  · rw [hpcache]
    exact h.coherent.cached
  · rw [hpcache] at hout
    rw [hdisk]
    exact h.coherent.disk b k x hx hout
  · rw [hpcache] at hout
    rw [← h.coherent.disk b k x hx hout]
    refine hcoh.fresh b k _ (if_pos (h.coherent.inside b k x hx)) (fun ca hca => ?_) hcov
    simp at hca
  · rw [hpcache]
    exact h.aligned.pcache
  · rw [hpcache]
    exact h.busy
  · rw [hpcache]
    exact h.behind

theorem Cached.all (h : Cached c L s) (hdrop : s.rcache.block = blockNull) :
    Coherent c none (s.all c) s ∧ Aligned c none s := by
  have hinside : ∀ b k x, s.all c b k = some x → b < c.blockCount ∧ s.disk b k = x := by
    intro b k x hx
    unfold Bd.all at hx
    split at hx
    · next hb => exact ⟨hb, Option.some.inj hx⟩
    · simp at hx
  refine ⟨⟨fun b k x hx => (hinside b k x hx).1, fun ca hca => ?_, fun b k x hx _ =>
    (hinside b k x hx).2, fun b k x hx _ hcov => ?_⟩, h.aligned.reads, h.aligned.word,
    fun ca hca => ?_, fun hlt => absurd (hdrop ▸ hlt) (blockNull_not_lt c)⟩
  · simp at hca
  · exact absurd hcov (Cache.not_covers_null hdrop (hinside b k x hx).1)
  · simp at hca

/-- With what the cache held on the flash the cache can be given up. -/
theorem Cached.zero (h : Cached c L t) (hcoh : Coherent c none (s.all c) t)
    (hdisk : t.disk = s.disk)
    (hwritten : ∀ k < t.pcache.size,
      t.disk t.pcache.block (t.pcache.off + k) = t.pcache.buffer k) :
    Cached c L { t with pcache := { t.pcache with
      block := blockNull, buffer := fun _ => 0xff } } := by
  have hall : ∀ b k x, L b k = some x → t.disk b k = x := by
    intro b k x hx
    by_cases hcov : t.pcache.Covers b k
    · obtain ⟨rfl, hlo, hhi⟩ := id hcov
      have hbyte := h.coherent.cached _ rfl _ k x hx hcov
      rw [← hbyte, ← hwritten (k - t.pcache.off) (by omega), Nat.add_sub_cancel' hlo]
    · refine h.coherent.disk b k x hx fun ca hca => ?_
      obtain rfl := Option.some.inj hca
      exact hcov
  refine ⟨⟨h.coherent.inside, fun ca hca b k x hx hcov => ?_, fun b k x hx _ => hall b k x hx,
    fun b k x hx _ hcov => ?_⟩, ⟨h.aligned.reads, h.aligned.word, fun ca hca hlt => ?_,
    h.aligned.rcache⟩, .inl rfl, fun k _ => ?_⟩
  · obtain rfl := Option.some.inj hca
    exact absurd hcov (Cache.not_covers_null rfl (h.coherent.inside b k x hx))
  · rw [← hall b k x hx, hdisk]
    refine hcoh.fresh b k _ (if_pos (h.coherent.inside b k x hx)) (fun ca hca => ?_) hcov
    simp at hca
  · obtain rfl := Option.some.inj hca
    exact absurd hlt (blockNull_not_lt c)
  · by_contra hne
    obtain ⟨x, hx⟩ := Option.ne_none_iff_exists'.1 hne
    exact blockNull_not_lt c (h.coherent.inside _ k x hx)

/-! ## Flushing -/

/-- The check passes only if the flash holds what the cache does. -/
theorem flushCheck_wp (hserves : fl.Serves c) (h : Cached c L s)
    (hblock : s.pcache.block < c.blockCount) (hend : s.pcache.off + n ≤ c.blockSize) :
    Wp (flushCheck c fl s.pcache n) s
      (fun _ t => Cached c L t ∧ t.pcache = s.pcache ∧ t.disk = s.disk ∧
        Coherent c none (s.all c) t ∧
        ∀ k < n, s.disk s.pcache.block (s.pcache.off + k) = s.pcache.buffer k)
      (fun e t => e = .corrupt ∧ Cached c L t ∧ t.pcache = s.pcache ∧
        Memory.read (s.disk s.pcache.block) s.pcache.off n ≠ Memory.read s.pcache.buffer 0 n) := by
  obtain ⟨hcoh, hal⟩ := h.drop.all rfl
  have hget : ∀ k < n, (Memory.read s.pcache.buffer 0 n)[k]? = some (s.pcache.buffer k) := by
    intro k hk
    rw [Memory.read, List.getElem?_map, List.getElem?_range hk, Option.map_some, Nat.zero_add]
  unfold flushCheck lfsCacheDrop
  simp only [wp_bind, wp_modify]
  have hword := hal.word
  refine (lfsBdCmp_wp hcoh hal (by rw [Memory.length_read]) (by omega) hblock
    (by rwa [Memory.length_read])).mono ?_ fun e t ht => absurd ht.1 (hserves e)
  rintro res t ⟨hsame, hcoh', hal', hagrees, hall⟩
  have hback : Cached c L t := h.drop.reread hsame hcoh' hal'
  split
  · next hres =>
    refine ⟨rfl, hback, hsame.pcache, fun heq => hres (hall fun k hk => ?_)⟩
    rw [Memory.length_read] at hk
    rw [← heq, Bd.all, if_pos hblock, Memory.read, List.getElem?_map, List.getElem?_range hk]
    rfl
  · next hres =>
    have heq : res = .eq := by simpa using hres
    refine ⟨hback, hsame.pcache, hsame.disk, hcoh', fun k hk => ?_⟩
    have hbyte := hagrees heq k (s.disk s.pcache.block (s.pcache.off + k))
      (by rwa [Memory.length_read]) (if_pos hblock)
    rw [hget k hk] at hbyte
    exact (Option.some.inj hbyte).symm

/-- A validated flush leaves all that is known, whatever the flash makes of it. -/
theorem lfsBdFlush_wp (hconf : fl.Confined) (hserves : fl.Serves c) (h : Cached c L s) :
    Wp (lfsBdFlush c fl true) s
      (fun _ t => Cached c L t ∧ t.pcache.block = blockNull)
      (fun _ t => Cached c L t ∧ t.pcache = s.pcache ∧ ¬fl.Good) := by
  unfold lfsBdFlush
  simp only [wp_bind, wp_get]
  split
  · next hactive =>
    obtain ⟨hblock, hcache, hend⟩ : s.pcache.block < c.blockCount ∧
        s.pcache.size ≤ c.cacheSize ∧ s.pcache.off + s.pcache.size ≤ c.blockSize := by
      rcases h.busy with hnull | hbusy
      · exact absurd hnull hactive.1
      · exact hbusy
    obtain ⟨n, hn⟩ : ∃ n, n = alignUp s.pcache.size c.progSize := ⟨_, rfl⟩
    have hunit := c.progSize_pos
    have hle : s.pcache.size ≤ n := hn ▸ le_alignUp hunit _
    have hroom : s.pcache.off + n ≤ c.blockSize := by
      have hsize : c.progSize ∣ c.blockSize := Nat.dvd_trans c.progSize_dvd c.cacheSize_dvd
      have hoff := h.aligned.pcache _ rfl hblock
      have hup := alignUp_le_of_dvd hunit (Nat.dvd_sub hsize hoff)
        (show s.pcache.size ≤ c.blockSize - s.pcache.off by omega)
      omega
    rw [← hn]
    unfold flashProg
    simp only [wp_bind, wp_get, wp_set, wp_failWith]
    have hprog := h.programmed hconf (Memory.read s.pcache.buffer 0 n)
    cases hres : (fl.prog s s.pcache.block s.pcache.off (Memory.read s.pcache.buffer 0 n)).2 with
    | some e =>
      refine ⟨hprog, rfl, fun hgood => ?_⟩
      rw [(hgood.prog _ _ _ _).1] at hres
      simp at hres
    | none =>
      simp only [Option.elim_none, if_true]
      refine (flushCheck_wp hserves hprog hblock hroom).bind ?_ ?_
      · rintro ⟨⟩ t ⟨hback, hpcache, hdisk, hcoh, hwritten⟩
        refine ⟨hback.zero hcoh hdisk fun k hk => ?_, rfl⟩
        rw [hpcache] at hk ⊢
        rw [hdisk]
        exact hwritten k (Nat.lt_of_lt_of_le hk hle)
      · rintro e t ⟨-, hback, hpcache, hdiff⟩
        refine ⟨hback, hpcache, fun hgood => hdiff ?_⟩
        have htrue := (hgood.prog s s.pcache.block s.pcache.off
          (Memory.read s.pcache.buffer 0 n)).2
        rw [Memory.length_read] at htrue
        change Memory.read (Function.update s.disk s.pcache.block _ s.pcache.block) _ n = _
        rwa [Function.update_self]
  · next hidle =>
    rcases h.busy with hnull | ⟨hblock, -⟩
    · exact ⟨h, hnull⟩
    · have hcount := c.blockCount_le
      exact absurd ⟨fun hn => blockNull_not_lt c (hn ▸ hblock), fun hi => by omega⟩ hidle

/-! ## Programming -/

/-- The data goes behind all that is known of its block, and the cache is free or has room. -/
def Fits (c : Config) (L : Known) (s : Bd) (block off : Nat) : Prop :=
  s.pcache.block = blockNull ∧ (∀ k, alignDown off c.progSize ≤ k → L block k = none) ∨
    s.pcache.block = block ∧ s.pcache.off ≤ off ∧ off < s.pcache.off + c.cacheSize ∧
      ∀ k, off ≤ k → L block k = none

theorem Fits.unknown {k : Nat} (h : Fits c L s block off) (hk : off ≤ k) : L block k = none := by
  rcases h with ⟨-, h⟩ | ⟨-, -, -, h⟩
  · exact h k (Nat.le_trans (alignDown_le _ _) hk)
  · exact h k hk

theorem Known.le_write {b k : Nat} {x : UInt8} (h : ∀ k, off ≤ k → L block k = none)
    (hx : L b k = some x) : L.write block off data b k = some x := by
  rw [Known.write, if_neg, hx]
  rintro ⟨rfl, hlo, -⟩
  rw [h k hlo] at hx
  simp at hx

theorem Known.write_nil : L.write block off [] = L := by
  funext b k
  rw [Known.write, if_neg]
  rintro ⟨-, hlo, hhi⟩
  exact absurd hhi (Nat.not_lt.2 hlo)

theorem Known.write_append (L : Known) (block off : Nat) (data rest : List UInt8) :
    (L.write block off data).write block (off + data.length) rest =
      L.write block off (data ++ rest) := by
  funext b k
  simp only [Known.write, List.length_append]
  by_cases hb : b = block
  · rcases Nat.lt_or_ge k off with hlow | hlow
    · simp [Nat.not_le.2 hlow, show ¬off + data.length ≤ k by omega]
    · rcases Nat.lt_or_ge k (off + data.length) with hmid | hmid
      · rw [if_neg (by omega), if_pos ⟨hb, hlow, hmid⟩, if_pos ⟨hb, hlow, by omega⟩,
          List.getElem?_append_left (by omega)]
      · rcases Nat.lt_or_ge k (off + data.length + rest.length) with hhi | hhi
        · rw [if_pos ⟨hb, hmid, hhi⟩, if_pos ⟨hb, hlow, by omega⟩,
            List.getElem?_append_right (by omega), Nat.sub_sub]
        · rw [if_neg (by omega), if_neg (by omega), if_neg (by omega)]
  · simp [hb]

theorem Cached.stored (h : Cached c L s) (data : List UInt8) (hblock : block < c.blockCount)
    (hin : s.pcache.block = block) (hlo : s.pcache.off ≤ off)
    (hroom : off + data.length ≤ s.pcache.off + c.cacheSize)
    (hend : off + data.length ≤ c.blockSize) (hnone : ∀ k, off ≤ k → L block k = none) :
    Cached c (L.write block off data) { s with pcache := s.pcache.put off data } := by
  obtain ⟨hcache, hsize⟩ : s.pcache.size ≤ c.cacheSize ∧
      s.pcache.off + s.pcache.size ≤ c.blockSize := by
    rcases h.busy with hnull | ⟨-, hbusy⟩
    · exact absurd (hnull ▸ hin ▸ hblock) (blockNull_not_lt c)
    · exact hbusy
  -- the known bytes are new, or before the place they go to
  have hnew : ∀ b k x, L.write block off data b k = some x →
      (b = block ∧ off ≤ k ∧ k < off + data.length ∧ data[k - off]? = some x) ∨
        L b k = some x ∧ (b = block → k < off ∧ (s.pcache.off ≤ k → s.pcache.Covers b k)) := by
    intro b k x hx
    unfold Known.write at hx
    split at hx
    · next hc => exact .inl ⟨hc.1, hc.2.1, hc.2.2, hx⟩
    · refine .inr ⟨hx, ?_⟩
      rintro rfl
      have hold : ∀ j, L b j = none → k ≠ j := by
        rintro j hj rfl
        rw [hj] at hx
        simp at hx
      refine ⟨Nat.not_le.1 fun hge => hold k (hnone k hge) rfl, fun hge => ⟨hin.symm, hge, ?_⟩⟩
      exact Nat.not_le.1 fun hge => hold k (hin ▸ h.behind k hge) rfl
  have hput : (s.pcache.put off data).size =
      max s.pcache.size (off + data.length - s.pcache.off) := rfl
  -- what was known is not covered now unless it was before
  have hkept : ∀ b k x, L b k = some x →
      (b = block → k < off ∧ (s.pcache.off ≤ k → s.pcache.Covers b k)) →
      ¬(s.pcache.put off data).Covers b k → ∀ ca ∈ some s.pcache, ¬ca.Covers b k := by
    rintro b k x hx hbefore hout ca hca ⟨hb, hlow, hhigh⟩
    obtain rfl := Option.some.inj hca
    exact hout ⟨hb, hlow, by rw [hput]; change k < s.pcache.off + _; omega⟩
  refine ⟨⟨fun b k x hx => ?_, fun ca hca b k x hx hcov => ?_, fun b k x hx hout => ?_,
    fun b k x hx hout => ?_⟩, ⟨h.aligned.reads, h.aligned.word, fun ca hca hlt => ?_,
    h.aligned.rcache⟩, .inr ⟨hin ▸ hblock, ?_, ?_⟩, fun k hk => ?_⟩
  · rcases hnew b k x hx with ⟨rfl, -⟩ | ⟨hold, -⟩
    · exact hblock
    · exact h.coherent.inside b k x hold
  · obtain rfl := Option.some.inj hca
    obtain ⟨hb, hge, -⟩ : b = s.pcache.block ∧ s.pcache.off ≤ k ∧ _ := hcov
    change Memory.write s.pcache.buffer (off - s.pcache.off) data (k - s.pcache.off) = x
    rcases hnew b k x hx with ⟨-, hlow, hhigh, hdata⟩ | ⟨hold, hbefore⟩
    · have hmem := Memory.write_of_mem (m := s.pcache.buffer)
        (show off - s.pcache.off ≤ k - s.pcache.off by omega)
        (show k - s.pcache.off < off - s.pcache.off + data.length by omega)
      rw [show k - s.pcache.off - (off - s.pcache.off) = k - off by omega, hdata] at hmem
      exact (Option.some.inj hmem).symm
    · obtain ⟨hlow, hcov'⟩ := hbefore (hb.trans hin)
      rw [Memory.write_of_lt (by omega)]
      exact h.coherent.cached _ rfl b k x hold (hcov' hge)
  · rcases hnew b k x hx with ⟨rfl, hlow, hhigh, -⟩ | ⟨hold, hbefore⟩
    · refine absurd ⟨hin.symm, ?_, ?_⟩ (hout _ rfl)
      · change s.pcache.off ≤ k
        omega
      · change k < s.pcache.off + (s.pcache.put off data).size
        omega
    · exact h.coherent.disk b k x hold (hkept b k x hold hbefore (hout _ rfl))
  · rcases hnew b k x hx with ⟨rfl, hlow, hhigh, -⟩ | ⟨hold, hbefore⟩
    · refine absurd ⟨hin.symm, ?_, ?_⟩ (hout _ rfl)
      · change s.pcache.off ≤ k
        omega
      · change k < s.pcache.off + (s.pcache.put off data).size
        omega
    · exact h.coherent.fresh b k x hold (hkept b k x hold hbefore (hout _ rfl))
  · obtain rfl := Option.some.inj hca
    exact h.aligned.pcache s.pcache rfl hlt
  · change (s.pcache.put off data).size ≤ c.cacheSize
    omega
  · change s.pcache.off + (s.pcache.put off data).size ≤ c.blockSize
    omega
  · obtain hge : s.pcache.off + (s.pcache.put off data).size ≤ k := hk
    change L.write block off data s.pcache.block k = none
    rw [Known.write, if_neg (by omega)]
    exact h.behind k (by omega)

/-- The cache is free, and begins anew. -/
theorem Cached.prepared (h : Cached c L s) (hblock : block < c.blockCount)
    (hoff : off ≤ c.blockSize) (hfree : s.pcache.block = blockNull)
    (hnone : ∀ k, alignDown off c.progSize ≤ k → L block k = none) :
    Cached c L { s with pcache := { s.pcache with
      block, off := alignDown off c.progSize, size := 0 } } := by
  have hout : ∀ b k x, L b k = some x → ∀ ca ∈ some s.pcache, ¬ca.Covers b k := by
    intro b k x hx ca hca
    obtain rfl := Option.some.inj hca
    exact Cache.not_covers_null hfree (h.coherent.inside b k x hx)
  have hle := alignDown_le off c.progSize
  refine ⟨⟨h.coherent.inside, fun ca hca b k x _ hcov => ?_, fun b k x hx _ =>
    h.coherent.disk b k x hx (hout b k x hx), fun b k x hx _ =>
    h.coherent.fresh b k x hx (hout b k x hx)⟩, ⟨h.aligned.reads, h.aligned.word,
    fun ca hca _ => ?_, h.aligned.rcache⟩, .inr ⟨hblock, Nat.zero_le _, Nat.le_trans hle hoff⟩,
    fun k hk => hnone k hk⟩
  · obtain rfl := Option.some.inj hca
    obtain ⟨-, hlow, hhigh⟩ := hcov
    exact absurd hhigh (Nat.not_lt.2 hlow)
  · obtain rfl := Option.some.inj hca
    exact dvd_alignDown _ _

theorem bdProgPiece_wp (hconf : fl.Confined) (hserves : fl.Serves c) (h : Cached c L s)
    (hblock : block < c.blockCount) (hend : off + data.length ≤ c.blockSize)
    (hne : data ≠ []) (hfits : Fits c L s block off) :
    Wp (bdProgPiece c fl true block off data) s
      (fun diff t => Cached c (L.write block off (data.take diff)) t ∧ diff ≤ data.length ∧
        (diff = 0 → s.pcache.block ≠ block ∧ t.pcache.block = block) ∧
        (diff = data.length ∨ Fits c (L.write block off (data.take diff)) t block (off + diff)))
      (fun _ t => Cached c L t ∧ ¬fl.Good) := by
  have hpos := List.length_pos_iff.2 hne
  unfold bdProgPiece
  simp only [wp_bind, wp_get]
  rcases hfits with ⟨hfree, hnone⟩ | ⟨hin, hlo, hhi, hnone⟩
  · have hmiss : ¬(block = s.pcache.block ∧ s.pcache.off ≤ off ∧
        off < s.pcache.off + c.cacheSize) :=
      fun hc => blockNull_not_lt c (hfree ▸ hc.1 ▸ hblock)
    have hunit : c.progSize ≤ c.cacheSize := Nat.le_of_dvd c.cacheSize_pos c.progSize_dvd
    rw [if_neg hmiss]
    simp only [wp_bind, wp_set, wp_pure, List.take_zero, Known.write_nil, Nat.add_zero]
    refine ⟨h.prepared hblock (by omega) hfree hnone, Nat.zero_le _,
      fun _ => ⟨fun heq => blockNull_not_lt c (hfree ▸ heq ▸ hblock), trivial⟩,
      .inr (.inr ⟨rfl, alignDown_le _ _, ?_, fun k hk => hnone k ?_⟩)⟩
    · exact Nat.lt_of_lt_of_le (lt_alignDown_add c.progSize_pos off) (Nat.add_le_add_left hunit _)
    · exact Nat.le_trans (alignDown_le _ _) hk
  · rw [if_pos ⟨hin.symm, hlo, hhi⟩]
    obtain ⟨diff, hdiff⟩ : ∃ diff,
        diff = min data.length (c.cacheSize - (off - s.pcache.off)) := ⟨_, rfl⟩
    have hlen : (data.take diff).length = diff := by
      rw [List.length_take]
      omega
    have hstored := h.stored (data.take diff) hblock hin hlo (by omega) (by omega) hnone
    have hbehind : ∀ k, off + diff ≤ k → L.write block off (data.take diff) block k = none := by
      intro k hk
      rw [Known.write, if_neg (by omega)]
      exact hnone k (by omega)
    simp only [← hdiff, wp_bind, wp_set]
    rw [wp_ite]
    refine ⟨fun hfull => ?_, fun hpart => ?_⟩
    · refine (lfsBdFlush_wp hconf hserves hstored).bind ?_ ?_
      · rintro ⟨⟩ t ⟨hback, hnull⟩
        refine ⟨hback, by omega, fun hzero => by omega, ?_⟩
        rcases Nat.lt_or_ge diff data.length with hmore | hall
        · refine .inr (.inl ⟨hnull, fun k hk => hbehind k ?_⟩)
          have hunit : c.progSize ∣ off + diff := by
            rw [show off + diff = s.pcache.off + c.cacheSize by omega]
            exact Nat.dvd_add (h.aligned.pcache _ rfl (hin ▸ hblock)) c.progSize_dvd
          rwa [alignDown, Nat.mod_eq_zero_of_dvd hunit, Nat.sub_zero] at hk
        · exact .inl (by omega)
      · rintro e t ⟨hback, -, hbad⟩
        exact ⟨hback.mono fun b k x hx => Known.le_write hnone hx, hbad⟩
    · refine ⟨hstored, by omega, fun hzero => by omega, .inr (.inr ⟨hin, ?_, ?_, hbehind⟩)⟩
      · change s.pcache.off ≤ off + diff
        omega
      · have hsize : (s.pcache.put off (data.take diff)).size =
            max s.pcache.size (off + (data.take diff).length - s.pcache.off) := rfl
        have hmax : (s.pcache.put off (data.take diff)).size ≤ c.cacheSize := by
          rcases hstored.busy with hnull | ⟨-, hmax, -⟩
          · exact absurd (hnull ▸ hin ▸ hblock) (blockNull_not_lt c)
          · exact hmax
        change off + diff < s.pcache.off + c.cacheSize
        omega

theorem bdProgLoop_wp (hconf : fl.Confined) (hserves : fl.Serves c) (h : Cached c L s)
    (hblock : block < c.blockCount) (hend : off + data.length ≤ c.blockSize)
    (hfits : data = [] ∨ Fits c L s block off)
    (hfuel : 2 * data.length ≤ fuel ∨ 2 * data.length ≤ fuel + 1 ∧ s.pcache.block = block) :
    Wp (bdProgLoop c fl true block fuel off data) s
      (fun _ t => Cached c (L.write block off data) t)
      (fun _ t => Cached c L t ∧ ¬fl.Good) := by
  induction fuel generalizing s L off data with
  | zero =>
    obtain rfl : data = [] := List.length_eq_zero_iff.1 (by omega)
    rw [Known.write_nil]
    exact h
  | succ fuel ih =>
    rw [bdProgLoop]
    split
    · next hnil =>
      subst hnil
      rw [Known.write_nil]
      exact h
    · next hne =>
      have hpos := List.length_pos_iff.2 hne
      have hfits := hfits.resolve_left hne
      refine (bdProgPiece_wp hconf hserves h hblock hend hne hfits).bind ?_ fun e t ht => ht
      rintro diff t ⟨hback, hle, hzero, hnext⟩
      have hdrop : (data.drop diff).length = data.length - diff := List.length_drop
      have hlen : (data.take diff).length = diff := by
        rw [List.length_take]
        omega
      refine (ih hback (by omega) ?_ ?_).mono ?_ ?_
      · rcases hnext with hall | hnext
        · exact .inl (List.drop_eq_nil_of_le (by omega))
        · exact .inr hnext
      · rcases Nat.eq_zero_or_pos diff with hz | hp
        · obtain ⟨hother, hin⟩ := hzero hz
          refine .inr ⟨?_, hin⟩
          rcases hfuel with hf | ⟨-, hb⟩
          · omega
          · exact absurd hb hother
        · exact .inl (by omega)
      · rintro ⟨⟩ u hu
        have happend := Known.write_append L block off (data.take diff) (data.drop diff)
        rw [hlen, List.take_append_drop] at happend
        rwa [← happend]
      · rintro e u ⟨hu, hbad⟩
        exact ⟨hu.mono fun b k x hx => Known.le_write (fun k hk => hfits.unknown hk) hx, hbad⟩

/-- What `lfs_bd_prog` was given is known from then on. -/
theorem lfsBdProg_wp (hconf : fl.Confined) (hserves : fl.Serves c) (h : Cached c L s)
    (hblock : block < c.blockCount) (hend : off + data.length ≤ c.blockSize)
    (hfits : Fits c L s block off) :
    Wp (lfsBdProg c fl true block off data) s
      (fun _ t => Cached c (L.write block off data) t)
      (fun _ t => Cached c L t ∧ ¬fl.Good) :=
  bdProgLoop_wp hconf hserves h hblock hend (.inr hfits) (.inl (Nat.le_refl _))

end Bl616cl.Lfs
