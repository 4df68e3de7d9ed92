import Mathlib.Data.Nat.Digits.Lemmas

/-!
# Positional notation

`numeral digit b n` is `n` in base `b`, most significant digit first, without leading zeros, its
digits written with `digit`. `positional` reads digits back, by Horner's rule.
-/

namespace Bl616cl.Lib

variable {α β : Type*} {digit : Nat → α} {val : α → Nat} {b n : Nat}

/-- Zero has one digit. -/
def numeral (digit : Nat → α) (b n : Nat) : List α :=
  if n = 0 then [digit 0] else (Nat.digits b n).reverse.map digit

/-- The value of the digits behind those of `acc`. -/
def positional (val : α → Nat) (b acc : Nat) (cs : List α) : Nat :=
  cs.foldl (fun n c => n * b + val c) acc

/-! ## Numerals -/

theorem numeral_of_lt (h : n < b) : numeral digit b n = [digit n] := by
  unfold numeral
  split
  · next hn => rw [hn]
  · next hn => rw [Nat.digits_of_lt b n hn h, List.reverse_singleton, List.map_singleton]

/-- The loop of a conversion: the last digit, then what is left. -/
theorem numeral_eq (hb : 1 < b) (n : Nat) :
    numeral digit b n = (if n / b = 0 then [] else numeral digit b (n / b)) ++ [digit (n % b)] := by
  split
  · next hq =>
    have hlt : n < b := Nat.lt_of_div_eq_zero (by omega) hq
    rw [numeral_of_lt hlt, Nat.mod_eq_of_lt hlt, List.nil_append]
  · next hq =>
    have hn : n ≠ 0 := fun h => hq (by rw [h, Nat.zero_div])
    unfold numeral
    rw [if_neg hn, if_neg hq, Nat.digits_eq_cons_digits_div hb hn, List.reverse_cons,
      List.map_append, List.map_singleton]

theorem numeral_ne_nil (digit : Nat → α) (hb : 1 < b) (n : Nat) : numeral digit b n ≠ [] := by
  rw [numeral_eq hb]
  exact List.append_ne_nil_of_right_ne_nil _ (List.cons_ne_nil _ _)

theorem length_numeral_le_iff (digit : Nat → α) (hb : 1 < b) {k : Nat} (hk : 0 < k) :
    (numeral digit b n).length ≤ k ↔ n < b ^ k := by
  unfold numeral
  split
  · next hn =>
    have hpos : 0 < b ^ k := Nat.pow_pos (by omega)
    rw [List.length_singleton, hn]
    exact iff_of_true hk hpos
  · rw [List.length_map, List.length_reverse]
    exact Nat.digits_length_le_iff hb n

theorem length_numeral_le (digit : Nat → α) (hb : 1 < b) {k : Nat} (hk : 0 < k) (h : n < b ^ k) :
    (numeral digit b n).length ≤ k :=
  (length_numeral_le_iff digit hb hk).mpr h

theorem map_numeral (f : α → β) (b n : Nat) :
    (numeral digit b n).map f = numeral (f ∘ digit) b n := by
  unfold numeral
  split
  · rfl
  · rw [List.map_map]

theorem mem_numeral (hb : 1 < b) {c : α} (h : c ∈ numeral digit b n) : ∃ d < b, c = digit d := by
  unfold numeral at h
  split at h
  · exact ⟨0, by omega, List.mem_singleton.mp h⟩
  · obtain ⟨d, hd, rfl⟩ := List.mem_map.mp h
    exact ⟨d, Nat.digits_lt_base hb (List.mem_reverse.mp hd), rfl⟩

theorem numeral_congr (digit' : Nat → α) (hb : 1 < b) (h : ∀ d < b, digit d = digit' d) (n : Nat) :
    numeral digit b n = numeral digit' b n := by
  unfold numeral
  split
  · rw [h 0 (by omega)]
  · refine List.map_congr_left fun d hd => h d ?_
    exact Nat.digits_lt_base hb (List.mem_reverse.mp hd)

/-! ## Values -/

theorem positional_append (acc : Nat) (cs ds : List α) :
    positional val b acc (cs ++ ds) = positional val b (positional val b acc cs) ds :=
  List.foldl_append

theorem le_positional (val : α → Nat) (hb : 0 < b) (acc : Nat) (cs : List α) :
    acc ≤ positional val b acc cs := by
  induction cs generalizing acc with
  | nil => exact Nat.le_refl acc
  | cons c cs ih =>
    calc acc ≤ acc * b := Nat.le_mul_of_pos_right acc hb
      _ ≤ acc * b + val c := Nat.le_add_right _ _
      _ ≤ positional val b acc (c :: cs) := ih _

theorem positional_numeral (hb : 1 < b) (hval : ∀ d < b, val (digit d) = d) (n : Nat) :
    positional val b 0 (numeral digit b n) = n := by
  induction n using Nat.strong_induction_on with
  | _ n ih =>
    have hlast : val (digit (n % b)) = n % b := hval _ (Nat.mod_lt _ (by omega))
    rw [numeral_eq hb, positional_append]
    show positional val b 0 _ * b + val (digit (n % b)) = n
    rw [hlast]
    split
    · next hq => simpa [positional, hq] using Nat.div_add_mod' n b
    · next hq =>
      have hlt : n / b < n := Nat.div_lt_self (Nat.pos_of_ne_zero fun h => hq (by simp [h])) hb
      rw [ih _ hlt]
      exact Nat.div_add_mod' n b

/-! ## Two bases -/

theorem ofDigits_lt_ofDigits {p q : Nat} (d : Nat) {ds : List Nat} (hpq : p < q)
    (hpos : 0 < Nat.ofDigits p ds) : Nat.ofDigits p (d :: ds) < Nat.ofDigits q (d :: ds) := by
  have hle : Nat.ofDigits p ds ≤ Nat.ofDigits q ds := Nat.ofDigits_monotone ds hpq.le
  rw [Nat.ofDigits_cons, Nat.ofDigits_cons]
  calc d + p * Nat.ofDigits p ds < d + q * Nat.ofDigits p ds := by
        exact Nat.add_lt_add_left (Nat.mul_lt_mul_of_pos_right hpq hpos) d
    _ ≤ d + q * Nat.ofDigits q ds := Nat.add_le_add_left (Nat.mul_le_mul_left q hle) d

theorem digits_ne_of_base_lt {p q : Nat} (hp : 1 < p) (hpq : p < q) (h : p ≤ n) :
    Nat.digits p n ≠ Nat.digits q n := by
  intro heq
  have hn : n ≠ 0 := by omega
  have hq : n / p ≠ 0 := (Nat.div_pos h (by omega)).ne'
  have hdef := Nat.digits_eq_cons_digits_div hp hn
  have hpos : 0 < Nat.ofDigits p (Nat.digits p (n / p)) := by
    rw [Nat.ofDigits_digits]
    exact Nat.pos_of_ne_zero hq
  have hlt := ofDigits_lt_ofDigits (n % p) hpq hpos
  rw [← hdef, Nat.ofDigits_digits, heq, Nat.ofDigits_digits] at hlt
  exact hlt.false

/-- A number has the same numeral in two bases only where it is one digit in both. -/
theorem numeral_eq_numeral_iff (val : α → Nat) {p q : Nat} (hp : 1 < p) (hq : 1 < q)
    (hval : ∀ d < max p q, val (digit d) = d) :
    numeral digit p n = numeral digit q n ↔ p = q ∨ n < min p q := by
  constructor
  · intro h
    by_contra hcon
    obtain ⟨hne, hle⟩ := not_or.mp hcon
    have hn : n ≠ 0 := by omega
    have hplain : ∀ {r}, 1 < r → r ≤ max p q → numeral (val ∘ digit) r n = numeral id r n :=
      fun hr hle => numeral_congr id hr (fun d hd => hval d (by omega)) n
    have hdigits := congrArg (List.map val) h
    rw [map_numeral, map_numeral, hplain hp (by omega), hplain hq (by omega)] at hdigits
    unfold numeral at hdigits
    rw [if_neg hn, if_neg hn, List.map_id, List.map_id] at hdigits
    have hsame := List.reverse_injective hdigits
    rcases Nat.lt_or_gt_of_ne hne with hlt | hlt
    · exact digits_ne_of_base_lt hp hlt (by omega) hsame
    · exact digits_ne_of_base_lt hq hlt (by omega) hsame.symm
  · rintro (rfl | h)
    · rfl
    · rw [numeral_of_lt (by omega), numeral_of_lt (by omega)]

end Bl616cl.Lib
