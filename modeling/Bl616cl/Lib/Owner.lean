import Mathlib.Logic.Function.Basic
import Mathlib.Tactic.Common

/-!
# Resources with one owner

A ledger of resources that can be closed and handed out again, and owners that hold at most one
each. `Sole` says that every live resource has exactly one holder and a closed one has none; the
lemmas say which changes of hands keep that, and which do not.
-/

namespace Bl616cl.Lib

structure Ledger (φ : Type*) where
  live : φ → Bool
  /-- What has ever been handed out. -/
  returned : φ → Bool
  /-- How many times something was closed that had been handed out and was not live. -/
  misclosed : Nat

namespace Ledger

variable {φ : Type*} [DecidableEq φ] (l : Ledger φ)

def take (f : φ) : Ledger φ :=
  { l with
    live := Function.update l.live f true
    returned := Function.update l.returned f true }

def close (f : φ) : Ledger φ :=
  if l.live f then { l with live := Function.update l.live f false }
  else if l.returned f then { l with misclosed := l.misclosed + 1 }
  else l

/-- Nothing that has ever been handed out. -/
def Foreign (held : Option φ) : Prop := ∀ f, held = some f → l.returned f = false

def release (held : Option φ) : Ledger φ := held.elim l l.close

/-- Close what is held and take `new`, which is closed again unless `keep`. -/
def reopen (held new : Option φ) (keep : Bool) : Ledger φ × Option φ :=
  match new with
  | none => (l.release held, none)
  | some f =>
    if keep then ((l.release held).take f, some f) else (((l.release held).take f).close f, none)

end Ledger

/-- Every live resource has exactly one holder, and a closed one has none. -/
structure Sole {ι φ : Type*} (l : Ledger φ) (holds : ι → Option φ) : Prop where
  held : ∀ f, l.live f = true → ∃ i, holds i = some f
  inj : ∀ f i j, l.returned f = true → holds i = some f → holds j = some f → i = j
  closed : ∀ f i, l.returned f = true → holds i = some f → l.live f = true
  known : ∀ f, l.live f = true → l.returned f = true
  once : l.misclosed = 0

namespace Sole

variable {ι φ : Type*} [DecidableEq ι] {l : Ledger φ} {holds : ι → Option φ} {i j : ι} {f : φ}

theorem update_eq_some {v : Option φ} {k : ι} :
    Function.update holds i v k = some f ↔ k = i ∧ v = some f ∨ k ≠ i ∧ holds k = some f := by
  by_cases hki : k = i
  · subst hki
    simp
  · simp [hki]

/-- A change of what `i` holds, between resources that have never been handed out. -/
theorem update {v : Option φ} (h : Sole l holds) (hold : l.Foreign (holds i)) (hv : l.Foreign v) :
    Sole l (Function.update holds i v) := by
  have hsame : ∀ k g, l.returned g = true →
      (Function.update holds i v k = some g ↔ holds k = some g) := by
    intro k g hg
    rw [update_eq_some]
    constructor
    · rintro (⟨-, hvg⟩ | ⟨-, hk⟩)
      · simp [hv g hvg] at hg
      · exact hk
    · intro hk
      refine Or.inr ⟨?_, hk⟩
      rintro rfl
      simp [hold g hk] at hg
  refine ⟨fun g hg => ?_, fun g k m hg hk hm => ?_, fun g k hg hk => ?_, h.known, h.once⟩
  · obtain ⟨k, hk⟩ := h.held g hg
    exact ⟨k, (hsame k g (h.known g hg)).mpr hk⟩
  · exact h.inj g k m hg ((hsame k g hg).mp hk) ((hsame m g hg).mp hm)
  · exact h.closed g k hg ((hsame k g hg).mp hk)

/-- A new owner comes with something from elsewhere. -/
theorem new_iff {v : Option φ} (h : Sole l holds) (hi : holds i = none) :
    Sole l (Function.update holds i v) ↔ l.Foreign v := by
  constructor
  · rintro h' f rfl
    by_contra hf
    have hreturned : l.returned f = true := by simpa using hf
    obtain ⟨k, hk⟩ := h.held f (h'.closed f i hreturned (Function.update_self ..))
    have hki : k ≠ i := by
      rintro rfl
      simp [hi] at hk
    exact hki (h'.inj f k i hreturned (by rw [Function.update_of_ne hki, hk])
      (Function.update_self ..))
  · exact fun hv => h.update (by simp [hi, Ledger.Foreign]) hv

theorem copy_iff (h : Sole l holds) (hij : i ≠ j) :
    Sole l (Function.update holds i (holds j)) ↔ l.Foreign (holds i) ∧ l.Foreign (holds j) := by
  constructor
  · intro h'
    have hj : l.Foreign (holds j) := by
      intro f hf
      by_contra hreturned
      exact hij (h'.inj f i j (by simpa using hreturned) (by rw [Function.update_self, hf])
        (by rw [Function.update_of_ne hij.symm, hf]))
    refine ⟨fun f hf => ?_, hj⟩
    by_contra hreturned
    have hreturned : l.returned f = true := by simpa using hreturned
    obtain ⟨k, hk⟩ := h'.held f (h.closed f i hreturned hf)
    rcases update_eq_some.mp hk with ⟨-, hcopy⟩ | ⟨hki, hk⟩
    · simp [hj f hcopy] at hreturned
    · exact hki (h.inj f k i hreturned hk hf)
  · exact fun hv => h.update hv.1 hv.2

theorem transfer (h : Sole l holds) (hij : i ≠ j) (hj : holds j = none) :
    Sole l (Function.update (Function.update holds j (holds i)) i none) := by
  have hmoved : ∀ k g, Function.update (Function.update holds j (holds i)) i none k = some g ↔
      k = j ∧ holds i = some g ∨ k ≠ i ∧ k ≠ j ∧ holds k = some g := by
    intro k g
    rw [update_eq_some, update_eq_some]
    constructor
    · rintro (⟨-, hnone⟩ | ⟨hki, ⟨rfl, hg⟩ | ⟨hkj, hg⟩⟩)
      · cases hnone
      · exact Or.inl ⟨rfl, hg⟩
      · exact Or.inr ⟨hki, hkj, hg⟩
    · rintro (⟨rfl, hg⟩ | ⟨hki, hkj, hg⟩)
      · exact Or.inr ⟨hij.symm, Or.inl ⟨rfl, hg⟩⟩
      · exact Or.inr ⟨hki, Or.inr ⟨hkj, hg⟩⟩
  refine ⟨fun g hg => ?_, fun g k m hg hk hm => ?_, fun g k hg hk => ?_, h.known, h.once⟩
  · obtain ⟨k, hk⟩ := h.held g hg
    by_cases hki : k = i
    · exact ⟨j, (hmoved j g).mpr (Or.inl ⟨rfl, hki ▸ hk⟩)⟩
    · refine ⟨k, (hmoved k g).mpr (Or.inr ⟨hki, ?_, hk⟩)⟩
      rintro rfl
      simp [hj] at hk
  · rcases (hmoved k g).mp hk with ⟨rfl, hig⟩ | ⟨hki, -, hkg⟩ <;>
      rcases (hmoved m g).mp hm with ⟨rfl, hig'⟩ | ⟨hmi, -, hmg⟩
    · rfl
    · exact absurd (h.inj g m i hg hmg hig) hmi
    · exact absurd (h.inj g k i hg hkg hig') hki
    · exact h.inj g k m hg hkg hmg
  · rcases (hmoved k g).mp hk with ⟨-, hig⟩ | ⟨-, -, hkg⟩
    · exact h.closed g i hg hig
    · exact h.closed g k hg hkg

variable [DecidableEq φ]

theorem close (h : Sole l holds) (hi : holds i = some f) (hlive : l.live f = true) :
    Sole (l.close f) (Function.update holds i none) := by
  have hother : ∀ k g, Function.update holds i none k = some g ↔ g ≠ f ∧ holds k = some g := by
    intro k g
    rw [update_eq_some]
    constructor
    · rintro (⟨-, hnone⟩ | ⟨hki, hk⟩)
      · cases hnone
      · refine ⟨?_, hk⟩
        rintro rfl
        exact hki (h.inj g k i (h.known g hlive) hk hi)
    · rintro ⟨hgf, hk⟩
      refine Or.inr ⟨?_, hk⟩
      rintro rfl
      exact hgf (Option.some.inj (hk.symm.trans hi))
  have hlive' : ∀ g, (l.close f).live g = true ↔ g ≠ f ∧ l.live g = true := by
    intro g
    by_cases hgf : g = f
    · subst hgf
      simp [Ledger.close, hlive]
    · simp [Ledger.close, hlive, hgf]
  have hreturned : (l.close f).returned = l.returned := by simp [Ledger.close, hlive]
  have honce : (l.close f).misclosed = l.misclosed := by simp [Ledger.close, hlive]
  refine ⟨fun g hg => ?_, fun g k m hg hk hm => ?_, fun g k hg hk => ?_, fun g hg => ?_,
    honce.trans h.once⟩
  · obtain ⟨hgf, hg⟩ := (hlive' g).mp hg
    obtain ⟨k, hk⟩ := h.held g hg
    exact ⟨k, (hother k g).mpr ⟨hgf, hk⟩⟩
  · rw [hreturned] at hg
    exact h.inj g k m hg ((hother k g).mp hk).2 ((hother m g).mp hm).2
  · rw [hreturned] at hg
    obtain ⟨hgf, hk⟩ := (hother k g).mp hk
    exact (hlive' g).mpr ⟨hgf, h.closed g k hg hk⟩
  · rw [hreturned]
    exact h.known g ((hlive' g).mp hg).2

/-- Closing what is held, if it is anything. -/
theorem release (h : Sole l holds) : Sole (l.release (holds i)) (Function.update holds i none) := by
  cases hi : holds i with
  | none =>
    rw [← hi, Function.update_eq_self, hi]
    exact h
  | some f =>
    by_cases hlive : l.live f = true
    · exact h.close hi hlive
    · have hf : ¬ l.returned f = true := fun hf => hlive (h.closed f i hf hi)
      simp only [Ledger.release, Option.elim_some, Ledger.close, hlive, hf]
      refine h.update (fun g hg => ?_) nofun
      obtain rfl : f = g := by simpa [hi] using hg
      simpa using hf

theorem take (h : Sole l holds) (hi : holds i = none) (hfree : ∀ j, holds j ≠ some f) :
    Sole (l.take f) (Function.update holds i (some f)) := by
  have hnew : ∀ k g, Function.update holds i (some f) k = some g ↔
      k = i ∧ g = f ∨ g ≠ f ∧ holds k = some g := by
    intro k g
    rw [update_eq_some]
    constructor
    · rintro (⟨rfl, hg⟩ | ⟨-, hk⟩)
      · exact Or.inl ⟨rfl, (Option.some.inj hg).symm⟩
      · refine Or.inr ⟨?_, hk⟩
        rintro rfl
        exact hfree k hk
    · rintro (⟨rfl, rfl⟩ | ⟨-, hk⟩)
      · exact Or.inl ⟨rfl, rfl⟩
      · refine Or.inr ⟨?_, hk⟩
        rintro rfl
        simp [hi] at hk
  have htrue : ∀ (p : φ → Bool) g, Function.update p f true g = true ↔ g = f ∨ p g = true := by
    intro p g
    by_cases hgf : g = f
    · subst hgf
      simp
    · simp [hgf]
  refine ⟨fun g hg => ?_, fun g k m hg hk hm => ?_, fun g k hg hk => ?_, fun g hg => ?_, h.once⟩
  · by_cases hgf : g = f
    · exact ⟨i, (hnew i g).mpr (Or.inl ⟨rfl, hgf⟩)⟩
    · obtain ⟨k, hk⟩ := h.held g (((htrue _ g).mp hg).resolve_left hgf)
      exact ⟨k, (hnew k g).mpr (Or.inr ⟨hgf, hk⟩)⟩
  · rcases (hnew k g).mp hk with ⟨rfl, hgf⟩ | ⟨hgf, hkg⟩ <;>
      rcases (hnew m g).mp hm with ⟨rfl, hgf'⟩ | ⟨hgf', hmg⟩
    · rfl
    · exact absurd hgf hgf'
    · exact absurd hgf' hgf
    · exact h.inj g k m (((htrue _ g).mp hg).resolve_left hgf) hkg hmg
  · rcases (hnew k g).mp hk with ⟨-, hgf⟩ | ⟨hgf, hkg⟩
    · exact (htrue _ g).mpr (Or.inl hgf)
    · exact (htrue _ g).mpr (Or.inr (h.closed g k (((htrue _ g).mp hg).resolve_left hgf) hkg))
  · rcases (htrue _ g).mp hg with hgf | hg
    · exact (htrue _ g).mpr (Or.inl hgf)
    · exact (htrue _ g).mpr (Or.inr (h.known g hg))

/-- An owner closes what it holds and takes a resource that nobody else holds, to keep or to close
it again. -/
theorem reopen (h : Sole l holds) {new : Option φ} (keep : Bool)
    (hfree : ∀ f, new = some f → ∀ j, j ≠ i → holds j ≠ some f) :
    Sole (l.reopen (holds i) new keep).1
      (Function.update holds i (l.reopen (holds i) new keep).2) := by
  have hreleased := h.release (i := i)
  cases new with
  | none => exact hreleased
  | some f =>
    have hnobody : ∀ j, Function.update holds i none j ≠ some f := by
      intro j hj
      rcases update_eq_some.mp hj with ⟨-, hnone⟩ | ⟨hji, hj⟩
      · cases hnone
      · exact hfree f rfl j hji hj
    have htaken := hreleased.take (i := i) (by simp) hnobody
    rw [Function.update_idem] at htaken
    cases keep with
    | true => exact htaken
    | false =>
      have hclosed := htaken.close (i := i) (f := f) (by simp) (by simp [Ledger.take])
      rwa [Function.update_idem] at hclosed

theorem reopen_iff (h : Sole l holds) {new : Option φ} {keep : Bool} :
    Sole (l.reopen (holds i) new keep).1 (Function.update holds i (l.reopen (holds i) new keep).2) ↔
      ∀ f, new = some f → ∀ j, j ≠ i → holds j ≠ some f := by
  refine ⟨?_, h.reopen keep⟩
  rintro h' f rfl j hji hj
  have hstill : ∀ v, Function.update holds i v j = some f := fun v => by
    rw [Function.update_of_ne hji, hj]
  cases keep with
  | true =>
    exact hji (h'.inj f j i (by simp [Ledger.reopen, Ledger.take]) (hstill _)
      (by simp [Ledger.reopen]))
  | false =>
    have hlive := h'.closed f j (by simp [Ledger.reopen, Ledger.take, Ledger.close]) (hstill _)
    simp [Ledger.reopen, Ledger.take, Ledger.close] at hlive

end Sole

end Bl616cl.Lib
