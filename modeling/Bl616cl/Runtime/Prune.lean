import Bl616cl.Lib.Top
import Bl616cl.Runtime.Cache

/-!
# Pruning the cache

`prune_cache` sorts the directories of the cache root by their modification times and takes the
first three for the runtimes to keep. The sort leaves out `work`, but not the probe template or the
staging directories of other builds: they are removed like runtimes, and a runtime loses its place
to them. `prunes_iff` says for which populations none of this shows.
-/

namespace Bl616cl.Runtime

open Bl616cl.Lib

/-- A name in the cache root. -/
inductive Child (Key : Type) where
  | known (name : Name Key)
  | work
  | other (name : String)
  deriving DecidableEq

/-- What `iterdir` and `stat` say of one of them. -/
structure Item (Key Time : Type) where
  name : Child Key
  isDir : Bool
  mtime : Time
  deriving DecidableEq

/-- The name is that of a published entry. -/
def Child.isEntry {Key : Type} : Child Key → Bool
  | known (.entry _) => true
  | _ => false

/-- A published entry. -/
def Item.published {Key Time : Type} (p : Item Key Time) : Bool := p.isDir && p.name.isEntry

/-- The cache root, in the order of `iterdir`. -/
structure CacheRoot (Key Time : Type) where
  items : List (Item Key Time)
  nodup : (items.map Item.name).Nodup

namespace CacheRoot

variable {Key Time : Type}

theorem eq_of_name_eq {r : CacheRoot Key Time} {p q : Item Key Time} (hp : p ∈ r.items)
    (hq : q ∈ r.items) (h : p.name = q.name) : p = q :=
  List.inj_on_of_nodup_map r.nodup hp hq h

variable [DecidableEq Key]

/-- The body of the loop of `prune_cache`: `rmtree`, but not of `keep`. -/
def prune (keep : Key) (items : List (Item Key Time)) (stale : Item Key Time) :
    List (Item Key Time) :=
  if stale.name = .known (.entry keep) then items else items.filter fun p => p.name ≠ stale.name

theorem mem_foldl_prune {keep : Key} {p : Item Key Time} (l items : List (Item Key Time)) :
    p ∈ l.foldl (prune keep) items ↔
      p ∈ items ∧ ∀ q ∈ l, q.name = .known (.entry keep) ∨ p.name ≠ q.name := by
  induction l generalizing items with
  | nil => simp
  | cons q l ih =>
    rw [List.foldl_cons, ih, List.forall_mem_cons, prune]
    split
    · next hkeep => simp [hkeep]
    · next hkeep => simp [hkeep, and_assoc]

variable [LinearOrder Time] (r : CacheRoot Key Time) (keep : Key)

/-- `entries` of `prune_cache`, sorted. -/
def entries : List (Item Key Time) :=
  (r.items.filter fun p => p.isDir && p.name != .work).insertionSort fun p q => q.mtime ≤ p.mtime

/-- `entries[3:]`. -/
def stale : List (Item Key Time) := r.entries.drop 3

/-- What `prune_cache` leaves in the cache root. -/
def pruneCache : List (Item Key Time) :=
  r.stale.foldl (prune keep) r.items

/-- The published entries. -/
def published : Finset (Item Key Time) := (r.items.filter Item.published).toFinset

/-- The cache is left with `keep`, the three newest published entries and whatever is no published
entry. -/
def Prunes : Prop :=
  ∃ newest, IsTop Item.mtime 3 r.published newest ∧
    ∀ p ∈ r.items, p ∉ r.pruneCache keep ↔
      p ∈ r.published ∧ p ∉ newest ∧ p.name ≠ .known (.entry keep)

/-- How many of the first three directories are no published entries. -/
def strangers : Nat := (r.entries.take 3).countP fun p => !p.published

/-- Only `keep` stands behind the first three places; or only published entries do, and the first
three are published too, or all but one and `keep` is the next one behind them. -/
def InPlace : Prop :=
  (∀ p ∈ r.stale, p.name = .known (.entry keep)) ∨
    (∀ p ∈ r.stale, p.published = true) ∧
      (r.strangers = 0 ∨ r.strangers = 1 ∧
        ∃ p ∈ r.stale, p.name = .known (.entry keep) ∧ ∀ q ∈ r.stale, q.mtime ≤ p.mtime)

variable {r keep} {p q : Item Key Time}

/-! ## The directories -/

theorem mem_entries : p ∈ r.entries ↔ p ∈ r.items ∧ p.isDir = true ∧ p.name ≠ .work := by
  rw [entries, List.mem_insertionSort, List.mem_filter, Bool.and_eq_true, bne_iff_ne]

theorem mem_published : p ∈ r.published ↔ p ∈ r.items ∧ p.published = true := by
  rw [published, List.mem_toFinset, List.mem_filter]

theorem mem_entries_of_published (h : p ∈ r.published) : p ∈ r.entries := by
  obtain ⟨hp, hpub⟩ := mem_published.1 h
  obtain ⟨hdir, hname⟩ := Bool.and_eq_true_iff.1 hpub
  refine mem_entries.2 ⟨hp, hdir, fun hwork => ?_⟩
  rw [hwork] at hname
  cases hname

theorem mem_of_mem_stale (h : p ∈ r.stale) : p ∈ r.entries := List.mem_of_mem_drop h

theorem mem_items_of_mem_stale (h : p ∈ r.stale) : p ∈ r.items :=
  (mem_entries.1 (mem_of_mem_stale h)).1

theorem published_of_keep (hp : p ∈ r.entries) (h : p.name = .known (.entry keep)) :
    p.published = true := by
  simp [Item.published, h, (mem_entries.1 hp).2.1, Child.isEntry]

theorem nodup_entries : r.entries.Nodup := by
  have hitems : r.items.Nodup := List.Nodup.of_map _ r.nodup
  exact (List.perm_insertionSort _ _).nodup_iff.2 (hitems.filter _)

theorem entries_sorted : r.entries.Pairwise fun p q => q.mtime ≤ p.mtime := by
  have : Std.Total fun p q : Item Key Time => q.mtime ≤ p.mtime := ⟨fun p q => le_total _ _⟩
  have : IsTrans (Item Key Time) fun p q => q.mtime ≤ p.mtime := ⟨fun p q s h h' => h'.trans h⟩
  exact List.pairwise_insertionSort _ _

theorem mtime_le (hp : p ∈ r.entries.take 3) (hq : q ∈ r.stale) : q.mtime ≤ p.mtime := by
  have h := r.entries_sorted
  rw [← List.take_append_drop 3 r.entries] at h
  exact (List.pairwise_append.1 h).2.2 p hp q hq

theorem mem_take_or_stale (hp : p ∈ r.entries) : p ∈ r.entries.take 3 ∨ p ∈ r.stale := by
  rw [← List.take_append_drop 3 r.entries] at hp
  exact List.mem_append.1 hp

theorem notMem_stale_of_mem_take (hp : p ∈ r.entries.take 3) : p ∉ r.stale := by
  have h := r.nodup_entries
  rw [← List.take_append_drop 3 r.entries] at h
  exact fun hq => (List.nodup_append.1 h).2.2 p hp p hq rfl

/-! ## What is removed -/

/-- The loop removes what stands behind the third place, `keep` apart. -/
theorem notMem_pruneCache_iff (hp : p ∈ r.items) :
    p ∉ r.pruneCache keep ↔ p ∈ r.stale ∧ p.name ≠ .known (.entry keep) := by
  rw [pruneCache, mem_foldl_prune, not_and]
  constructor
  · intro h
    obtain ⟨q, hq, hname⟩ : ∃ q ∈ r.stale, ¬(q.name = .known (.entry keep) ∨ p.name ≠ q.name) := by
      simpa using h hp
    obtain ⟨hkeep, heq⟩ := not_or.1 hname
    obtain rfl := eq_of_name_eq hp (mem_items_of_mem_stale hq) (not_not.1 heq)
    exact ⟨hq, hkeep⟩
  · rintro ⟨hstale, hkeep⟩ - h
    rcases h p hstale with h | h
    · exact hkeep h
    · exact h rfl

theorem prunes_iff_stale : r.Prunes keep ↔
    ∃ newest, IsTop Item.mtime 3 r.published newest ∧
      ∀ p ∈ r.items, p ∈ r.stale ∧ p.name ≠ .known (.entry keep) ↔
        p ∈ r.published ∧ p ∉ newest ∧ p.name ≠ .known (.entry keep) := by
  refine exists_congr fun newest => and_congr_right fun _ => forall₂_congr fun p hp => ?_
  rw [notMem_pruneCache_iff hp]

/-! ## The first three places -/

/-- The published entries in the first three places. -/
def front (r : CacheRoot Key Time) : Finset (Item Key Time) :=
  ((r.entries.take 3).filter Item.published).toFinset

theorem mem_front : p ∈ r.front ↔ p ∈ r.entries.take 3 ∧ p.published = true := by
  rw [front, List.mem_toFinset, List.mem_filter]

theorem card_front (h : p ∈ r.stale) : r.front.card + r.strangers = 3 := by
  have hnd : ((r.entries.take 3).filter Item.published).Nodup :=
    (r.nodup_entries.sublist (List.take_sublist 3 _)).filter _
  have hlen : (r.entries.take 3).length = 3 := by
    have : 0 < r.stale.length := List.length_pos_of_mem h
    rw [stale, List.length_drop] at this
    rw [List.length_take]
    omega
  have hcount := (r.entries.take 3).length_eq_countP_add_countP Item.published
  rw [front, List.toFinset_card_of_nodup hnd, ← List.countP_eq_length_filter, strangers]
  simp only [Bool.not_eq_true, Bool.decide_eq_false] at hcount
  omega

theorem mem_front_or_stale (hp : p ∈ r.published) : p ∈ r.front ∨ p ∈ r.stale := by
  rcases mem_take_or_stale (mem_entries_of_published hp) with htake | hstale
  · exact .inl (mem_front.2 ⟨htake, (mem_published.1 hp).2⟩)
  · exact .inr hstale

theorem mem_front_or (hp : p ∈ r.published)
    (h : ¬(p ∈ r.stale ∧ p.name ≠ .known (.entry keep))) :
    p ∈ r.front ∨ p ∈ r.stale ∧ p.name = .known (.entry keep) := by
  rcases mem_front_or_stale hp with hfront | hstale
  · exact .inl hfront
  · exact .inr ⟨hstale, by_contra fun hkeep => h ⟨hstale, hkeep⟩⟩

theorem inPlace_of_prunes (h : r.Prunes keep) : r.InPlace keep := by
  obtain ⟨newest, htop, hrem⟩ := prunes_iff_stale.1 h
  by_cases hall : ∀ p ∈ r.stale, p.name = .known (.entry keep)
  · exact .inl hall
  push Not at hall
  obtain ⟨d, hd, hdkeep⟩ := hall
  have hpub : ∀ p ∈ r.stale, p.published = true := by
    intro p hp
    by_cases hkeep : p.name = .known (.entry keep)
    · exact published_of_keep (mem_of_mem_stale hp) hkeep
    · exact (mem_published.1 ((hrem p (mem_items_of_mem_stale hp)).1 ⟨hp, hkeep⟩).1).2
  -- something published is removed, so that there are three newest
  have hcard : newest.card = 3 := by
    obtain ⟨hdpub, hdnew, -⟩ := (hrem d (mem_items_of_mem_stale hd)).1 ⟨hd, hdkeep⟩
    exact htop.card_eq_of_notMem hdpub hdnew
  have hfront := card_front hd
  have hstays : ∀ p ∈ newest, p ∈ r.front ∨ p ∈ r.stale ∧ p.name = .known (.entry keep) :=
    fun p hp => mem_front_or (htop.subset hp) fun hgone =>
      ((hrem p (mem_published.1 (htop.subset hp)).1).1 hgone).2.1 hp
  refine .inr ⟨hpub, ?_⟩
  by_cases hk : ∃ k ∈ r.stale, k.name = .known (.entry keep)
  · obtain ⟨k, hkstale, hkname⟩ := hk
    have hsub : newest ⊆ insert k r.front := by
      intro p hp
      rcases hstays p hp with hp | ⟨hp, hname⟩
      · exact Finset.mem_insert_of_mem hp
      · obtain rfl := eq_of_name_eq (mem_items_of_mem_stale hp) (mem_items_of_mem_stale hkstale)
          (hname.trans hkname.symm)
        exact Finset.mem_insert_self _ _
    have hinsert := Finset.card_insert_le k r.front
    have hle := Finset.card_le_card hsub
    rcases Nat.eq_zero_or_pos r.strangers with h0 | hpos
    · exact .inl h0
    · refine .inr ⟨by omega, k, hkstale, hkname, fun q hq => ?_⟩
      have hnewest : newest = insert k r.front :=
        Finset.eq_of_subset_of_card_le hsub (by omega)
      have hknew : k ∈ newest := hnewest ▸ Finset.mem_insert_self k r.front
      by_cases hqkeep : q.name = .known (.entry keep)
      · rw [eq_of_name_eq (mem_items_of_mem_stale hq) (mem_items_of_mem_stale hkstale)
          (hqkeep.trans hkname.symm)]
      · obtain ⟨hqpub, hqnew, -⟩ := (hrem q (mem_items_of_mem_stale hq)).1 ⟨hq, hqkeep⟩
        exact htop.above k hknew q hqpub hqnew
  · have hsub : newest ⊆ r.front := by
      intro p hp
      rcases hstays p hp with hp | ⟨hp, hname⟩
      · exact hp
      · exact absurd ⟨p, hp, hname⟩ hk
    have hle := Finset.card_le_card hsub
    exact .inl (by omega)

/-! ## The newest -/

theorem published_eq : r.published = (r.entries.filter Item.published).toFinset := by
  ext p
  rw [List.mem_toFinset, List.mem_filter]
  constructor
  · intro hp
    exact ⟨mem_entries_of_published hp, (mem_published.1 hp).2⟩
  · rintro ⟨hp, hpub⟩
    exact mem_published.2 ⟨(mem_entries.1 hp).1, hpub⟩

/-- The first three published entries are newest. -/
theorem isTop_take :
    IsTop Item.mtime 3 r.published ((r.entries.filter Item.published).take 3).toFinset := by
  rw [published_eq]
  exact IsTop.take (r.entries_sorted.filter _) (r.nodup_entries.filter _)

theorem mem_stale_of_notMem (hp : p ∈ r.published)
    (h : p ∉ ((r.entries.filter Item.published).take 3).toFinset) : p ∈ r.stale := by
  have hmem : p ∈ r.entries.filter Item.published := by
    rwa [published_eq, List.mem_toFinset] at hp
  rw [← List.take_append_drop 3 (r.entries.filter _)] at hmem
  rw [List.mem_toFinset] at h
  exact mem_drop_of_mem_drop_filter ((List.mem_append.1 hmem).resolve_left h)

theorem insert_front_subset {k : Item Key Time} (hk : k ∈ r.stale) (hpub : k.published = true) :
    insert k r.front ⊆ r.published := by
  intro p hp
  rcases Finset.mem_insert.1 hp with rfl | hp
  · exact mem_published.2 ⟨mem_items_of_mem_stale hk, hpub⟩
  · obtain ⟨htake, hppub⟩ := mem_front.1 hp
    exact mem_published.2 ⟨(mem_entries.1 (List.mem_of_mem_take htake)).1, hppub⟩

/-- One place of the three is lost, and `keep` makes up for it. -/
theorem isTop_insert {k : Item Key Time} (h : r.strangers = 1) (hk : k ∈ r.stale)
    (hpub : ∀ p ∈ r.stale, p.published = true) (hnew : ∀ q ∈ r.stale, q.mtime ≤ k.mtime) :
    IsTop Item.mtime 3 r.published (insert k r.front) where
  subset := insert_front_subset hk (hpub k hk)
  card := by
    have hkfront : k ∉ r.front := fun hkf => notMem_stale_of_mem_take (mem_front.1 hkf).1 hk
    have hfront := card_front hk
    have hle := Finset.card_le_card (insert_front_subset hk (hpub k hk))
    rw [Finset.card_insert_of_notMem hkfront] at hle ⊢
    omega
  above p hp q hq hqn := by
    have hqstale : q ∈ r.stale :=
      (mem_front_or_stale hq).resolve_left fun hfront => hqn (Finset.mem_insert_of_mem hfront)
    rcases Finset.mem_insert.1 hp with rfl | hp
    · exact hnew q hqstale
    · exact mtime_le (mem_front.1 hp).1 hqstale

theorem prunes_of_inPlace (h : r.InPlace keep) : r.Prunes keep := by
  rw [prunes_iff_stale]
  rcases h with hall | ⟨hpub, h0 | ⟨h1, k, hk, hkname, hnew⟩⟩
  · -- nothing is removed
    refine ⟨_, isTop_take, fun p hp => ⟨fun ⟨hst, hkeep⟩ => absurd (hall p hst) hkeep, ?_⟩⟩
    rintro ⟨hppub, hptop, hkeep⟩
    exact absurd (hall p (mem_stale_of_notMem hppub hptop)) hkeep
  · -- the directories are the published entries
    have hfilter : r.entries.filter Item.published = r.entries := by
      rw [List.filter_eq_self]
      intro p hp
      rcases mem_take_or_stale hp with htake | hstale
      · simpa using List.countP_eq_zero.1 h0 p htake
      · exact hpub p hstale
    refine ⟨_, isTop_take, fun p hp => ⟨fun ⟨hst, hkeep⟩ => ⟨?_, ?_, hkeep⟩, ?_⟩⟩
    · exact mem_published.2 ⟨hp, hpub p hst⟩
    · rw [hfilter, List.mem_toFinset]
      exact fun htake => notMem_stale_of_mem_take htake hst
    · rintro ⟨hppub, hptop, hkeep⟩
      exact ⟨mem_stale_of_notMem hppub hptop, hkeep⟩
  · refine ⟨_, isTop_insert h1 hk hpub hnew, fun p hp => ⟨fun ⟨hst, hkeep⟩ => ⟨?_, ?_, hkeep⟩, ?_⟩⟩
    · exact mem_published.2 ⟨hp, hpub p hst⟩
    · intro hmem
      rcases Finset.mem_insert.1 hmem with rfl | hfront
      · exact hkeep hkname
      · exact notMem_stale_of_mem_take (mem_front.1 hfront).1 hst
    · rintro ⟨hppub, hpn, hkeep⟩
      exact ⟨(mem_front_or_stale hppub).resolve_left fun hfront =>
        hpn (Finset.mem_insert_of_mem hfront), hkeep⟩

/-- `prune_cache` keeps the three newest runtimes exactly when no other directory takes a place
from them. -/
theorem prunes_iff (r : CacheRoot Key Time) (keep : Key) : r.Prunes keep ↔ r.InPlace keep :=
  ⟨inPlace_of_prunes, prunes_of_inPlace⟩

/-- Four runtimes, of which `4` has just been published, and the probe template, which its run has
made anew. -/
def probed : CacheRoot Nat Nat where
  items := [⟨.known (.entry 1), true, 1⟩, ⟨.known (.entry 2), true, 2⟩,
    ⟨.known (.entry 3), true, 3⟩, ⟨.known .probe, true, 4⟩, ⟨.work, true, 5⟩,
    ⟨.known (.entry 4), true, 5⟩]
  nodup := by decide

/-- The run leaves two runtimes of the four. -/
theorem not_prunes_probed : ¬probed.Prunes 4 := by
  intro h
  have hplace := inPlace_of_prunes h
  revert hplace
  unfold InPlace
  decide

end CacheRoot

end Bl616cl.Runtime
