import Mathlib.Tactic.Common

/-!
# Runs of a labelled machine

A machine is a total step function `step : σ → α → σ`; a run is a list of labels. `Along P`
says that `P` holds in every state a run passes through, `Meets C` that every step of the run
is taken in a state where `C` allows its label. `along_of_meets` is the invariant rule;
`along_iff_meets` is its exact form, for a condition whose first breach is visible in the
state it leads to, and `exists_along_iff_meets` that form for a machine whose steps also take a
choice that the condition does not speak of.
-/

namespace Bl616cl.Lib

variable {σ α : Type*} {step : σ → α → σ} {P Q I : σ → Prop} {C D V : σ → α → Prop}

/-- `P` holds in every state of the run, its first and last included. -/
def Along (step : σ → α → σ) (P : σ → Prop) : σ → List α → Prop
  | s, [] => P s
  | s, a :: as => P s ∧ Along step P (step s a) as

/-- Every step of the run is taken in a state that `C` allows it in. -/
def Meets (step : σ → α → σ) (C : σ → α → Prop) : σ → List α → Prop
  | _, [] => True
  | s, a :: as => C s a ∧ Meets step C (step s a) as

/-- The state a run ends in. -/
abbrev runs (step : σ → α → σ) (s : σ) (as : List α) : σ := as.foldl step s

theorem Along.head {s : σ} {as : List α} (h : Along step P s as) : P s := by
  cases as with
  | nil => exact h
  | cons a as => exact h.1

theorem Along.last {s : σ} {as : List α} (h : Along step P s as) : P (runs step s as) := by
  induction as generalizing s with
  | nil => exact h
  | cons a as ih => exact ih h.2

theorem Along.mono (hPQ : ∀ s, P s → Q s) {s : σ} {as : List α} (h : Along step P s as) :
    Along step Q s as := by
  induction as generalizing s with
  | nil => exact hPQ s h
  | cons a as ih => exact ⟨hPQ s h.1, ih h.2⟩

instance [∀ s a, Decidable (C s a)] : ∀ s as, Decidable (Meets step C s as)
  | _, [] => inferInstanceAs (Decidable True)
  | s, a :: as =>
    have := instDecidableMeets (step s a) as
    inferInstanceAs (Decidable (_ ∧ _))

instance [DecidablePred P] : ∀ s as, Decidable (Along step P s as)
  | s, [] => inferInstanceAs (Decidable (P s))
  | s, a :: as =>
    have := instDecidableAlongOfDecidablePred (step s a) as
    inferInstanceAs (Decidable (_ ∧ _))

theorem meets_of_forall (h : ∀ s a, C s a) (s : σ) (as : List α) : Meets step C s as := by
  induction as generalizing s with
  | nil => trivial
  | cons a as ih => exact ⟨h s a, ih (step s a)⟩

theorem Meets.mono (hCD : ∀ s a, C s a → D s a) {s : σ} {as : List α} (h : Meets step C s as) :
    Meets step D s as := by
  induction as generalizing s with
  | nil => trivial
  | cons a as ih => exact ⟨hCD s a h.1, ih h.2⟩

theorem Meets.and {s : σ} {as : List α} (h : Meets step C s as) (h' : Meets step D s as) :
    Meets step (fun s a => C s a ∧ D s a) s as := by
  induction as generalizing s with
  | nil => trivial
  | cons a as ih => exact ⟨⟨h.1, h'.1⟩, ih h.2 h'.2⟩

/-- What holds in every state of a run holds before each of its steps. -/
theorem Along.meets {s : σ} {as : List α} (h : Along step P s as) :
    Meets step (fun s _ => P s) s as := by
  induction as generalizing s with
  | nil => trivial
  | cons a as ih => exact ⟨h.1, ih h.2⟩

theorem meets_append {s : σ} {as bs : List α} :
    Meets step C s (as ++ bs) ↔ Meets step C s as ∧ Meets step C (runs step s as) bs := by
  induction as generalizing s with
  | nil => simp [Meets]
  | cons a as ih => simp [Meets, ih, and_assoc]

/-- **Invariant rule**: what holds at the start and is kept by every allowed step holds in
every state of a run of allowed steps. -/
theorem along_of_meets (keep : ∀ s a, I s → C s a → I (step s a)) {s : σ} {as : List α}
    (h0 : I s) (h : Meets step C s as) : Along step I s as := by
  induction as generalizing s with
  | nil => exact h0
  | cons a as ih => exact ⟨h0, ih (keep s a h0 h.1) h.2⟩

/-- What an invariant and the condition of a step give, every step has. -/
theorem Meets.of_inv (keep : ∀ s a, I s → C s a → I (step s a))
    (hD : ∀ s a, I s → C s a → D s a) {s : σ} {as : List α} (h0 : I s) (h : Meets step C s as) :
    Meets step D s as := by
  induction as generalizing s with
  | nil => trivial
  | cons a as ih => exact ⟨hD s a h0 h.1, ih (keep s a h0 h.1) h.2⟩

/-- **Exact invariant rule**: over runs of valid steps, `P` holds throughout if and only if
every step meets `C`, when meeting steps keep an invariant that gives `P` and any other step
leads to a state without `P`. -/
theorem along_iff_meets (keep : ∀ s a, I s → V s a → C s a → I (step s a))
    (hIP : ∀ s, I s → P s) (lose : ∀ s a, I s → V s a → ¬ C s a → ¬ P (step s a))
    {s : σ} {as : List α} (h0 : I s) (hV : Meets step V s as) :
    Along step P s as ↔ Meets step C s as := by
  induction as generalizing s with
  | nil => exact ⟨fun _ => trivial, fun _ => hIP s h0⟩
  | cons a as ih =>
    obtain ⟨hv, hV⟩ := hV
    by_cases hc : C s a
    · have hrest := ih (keep s a h0 hv hc) hV
      exact ⟨fun h => ⟨hc, hrest.1 h.2⟩, fun h => ⟨hIP s h0, hrest.2 h.2⟩⟩
    · exact ⟨fun h => absurd h.2.head (lose s a h0 hv hc), fun h => absurd h.1 hc⟩

/-- **Exact rule for a condition kept beside the run**: where a machine of its own goes along with
the labels, the run keeps `P` if and only if that one meets `D`. -/
theorem along_iff_meets_beside {τ : Type*} {next : τ → α → τ} {D : τ → α → Prop}
    {R : σ → τ → Prop} (keep : ∀ s t a, R s t → D t a → R (step s a) (next t a))
    (hRP : ∀ s t, R s t → P s) (lose : ∀ s t a, R s t → ¬ D t a → ¬ P (step s a))
    {s : σ} {t : τ} {as : List α} (h0 : R s t) : Along step P s as ↔ Meets next D t as := by
  induction as generalizing s t with
  | nil => exact ⟨fun _ => trivial, fun _ => hRP s t h0⟩
  | cons a as ih =>
    by_cases hd : D t a
    · have hrest := ih (keep s t a h0 hd)
      exact ⟨fun h => ⟨hd, hrest.1 h.2⟩, fun h => ⟨hRP s t h0, hrest.2 h.2⟩⟩
    · exact ⟨fun h => absurd h.2.head (lose s t a h0 hd), fun h => absurd h.1 hd⟩

/-- **Exact rule for free choices**: some choices make `P` hold throughout the run if and only if
every step meets `C` on what the choices leave alone, when a meeting step has a choice that keeps
an invariant giving `P`, and a choice that keeps `P` comes with both. -/
theorem exists_along_iff_meets {β τ : Type*} {step : σ → α × β → σ} {f : σ → τ}
    {next : τ → α → τ} {C : τ → α → Prop} (hf : ∀ s a b, f (step s (a, b)) = next (f s) a)
    (keep : ∀ s a, I s → C (f s) a → ∃ b, I (step s (a, b))) (hIP : ∀ s, I s → P s)
    (lose : ∀ s a b, I s → P (step s (a, b)) → C (f s) a ∧ I (step s (a, b)))
    {s : σ} {as : List α} (h0 : I s) :
    (∃ hist : List (α × β), hist.map Prod.fst = as ∧ Along step P s hist) ↔
      Meets next C (f s) as := by
  induction as generalizing s with
  | nil => exact ⟨fun _ => trivial, fun _ => ⟨[], rfl, hIP s h0⟩⟩
  | cons a as ih =>
    constructor
    · rintro ⟨hist, hmap, h⟩
      obtain ⟨⟨a', b⟩, hist, rfl, rfl, rfl⟩ := List.map_eq_cons_iff.mp hmap
      obtain ⟨hc, hi⟩ := lose s a' b h0 h.2.head
      exact ⟨hc, hf s a' b ▸ (ih hi).mp ⟨hist, rfl, h.2⟩⟩
    · rintro ⟨hc, h⟩
      obtain ⟨b, hi⟩ := keep s a h0 hc
      obtain ⟨hist, hmap, hrest⟩ := (ih hi).mpr (hf s a b ▸ h)
      exact ⟨(a, b) :: hist, by rw [List.map_cons, hmap], hIP s h0, hrest⟩

/-- Two conditions agree over runs of valid steps when they agree under an invariant of these. -/
theorem meets_congr (keep : ∀ s a, I s → V s a → I (step s a))
    (hCD : ∀ s a, I s → V s a → (C s a ↔ D s a)) {s : σ} {as : List α} (h0 : I s)
    (hV : Meets step V s as) : Meets step C s as ↔ Meets step D s as := by
  induction as generalizing s with
  | nil => exact Iff.rfl
  | cons a as ih =>
    obtain ⟨hv, hV⟩ := hV
    exact and_congr (hCD s a h0 hv) (ih (keep s a h0 hv) hV)

end Bl616cl.Lib
