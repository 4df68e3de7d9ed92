import Mathlib.Data.Finset.Card
import Mathlib.Data.List.Sort

/-!
# The largest of a finite set

`IsTop f k s t`: the `k` elements of `s` with the largest values of `f`, or all of them when there
are fewer, are `t`. With equal values there are several choices. A sorted list has its top at the
front; the first and the last of its elements with a property are the least and the greatest.
-/

namespace Bl616cl.Lib

variable {α β : Type*} [LinearOrder β] {f : α → β} {k : Nat} {s t : Finset α}

structure IsTop (f : α → β) (k : Nat) (s t : Finset α) : Prop where
  subset : t ⊆ s
  card : t.card = min k s.card
  above : ∀ x ∈ t, ∀ y ∈ s, y ∉ t → f y ≤ f x

namespace IsTop

theorem card_eq_of_notMem (h : IsTop f k s t) {x : α} (hx : x ∈ s) (hxt : x ∉ t) : t.card = k := by
  have hlt : t.card < s.card :=
    Finset.card_lt_card ⟨h.subset, fun hst => hxt (hst hx)⟩
  have := h.card
  omega

variable [DecidableEq α] {l : List α}

theorem take (hl : l.Pairwise fun x y => f y ≤ f x) (hnd : l.Nodup) :
    IsTop f k l.toFinset (l.take k).toFinset where
  subset x hx := by
    rw [List.mem_toFinset] at hx ⊢
    exact List.mem_of_mem_take hx
  card := by
    rw [List.toFinset_card_of_nodup hnd, List.toFinset_card_of_nodup (hnd.sublist
      (List.take_sublist k l)), List.length_take]
  above x hx y hy hyt := by
    rw [List.mem_toFinset] at hx hy hyt
    rw [← List.take_append_drop k l] at hl hy
    have hyd : y ∈ l.drop k := (List.mem_append.1 hy).resolve_left hyt
    exact (List.pairwise_append.1 hl).2.2 x hx y hyd

end IsTop

/-- What a filter keeps behind the first `k` stood behind them before. -/
theorem mem_drop_of_mem_drop_filter {p : α → Bool} {x : α} {l : List α}
    (h : x ∈ (l.filter p).drop k) : x ∈ l.drop k := by
  induction l generalizing k with
  | nil => simp at h
  | cons a l ih =>
    cases k with
    | zero => exact List.mem_of_mem_filter h
    | succ k =>
      rw [List.drop_succ_cons]
      rw [List.filter_cons] at h
      split at h
      · exact ih h
      · exact List.drop_subset_drop_left l (Nat.le_succ k) (ih h)

theorem le_of_find?_eq_some {p : α → Bool} {a x : α} {l : List α}
    (hl : l.Pairwise fun x y => f x ≤ f y) (h : l.find? p = some a) (hx : x ∈ l)
    (hp : p x = true) : f a ≤ f x := by
  obtain ⟨-, before, after, rfl, hbefore⟩ := List.find?_eq_some_iff_append.1 h
  rcases List.mem_append.1 hx with hx | hx
  · have := hbefore x hx
    rw [hp] at this
    cases this
  · rcases List.mem_cons.1 hx with rfl | hx
    · exact le_refl _
    · exact (List.pairwise_cons.1 (List.pairwise_append.1 hl).2.1).1 x hx

theorem le_getLast_of_mem {a x : α} {l : List α} (hl : l.Pairwise fun x y => f x ≤ f y)
    (h : l.getLast? = some a) (hx : x ∈ l) : f x ≤ f a := by
  obtain ⟨before, rfl⟩ := List.getLast?_eq_some_iff.1 h
  rcases List.mem_append.1 hx with hx | hx
  · exact (List.pairwise_append.1 hl).2.2 x hx a (List.mem_singleton_self a)
  · rw [List.mem_singleton.1 hx]

end Bl616cl.Lib
