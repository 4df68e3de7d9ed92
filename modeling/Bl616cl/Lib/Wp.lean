import Mathlib.Tactic.Common

/-!
# Programs with state and errors

`Wp x s Q E` says of the program `x` that from the state `s` it returns as `Q` says or fails as
`E` says. The simp lemmas take a program apart; at a call the lemma about what is called is used
through `Wp.mono`.
-/

namespace Bl616cl.Lib

variable {ε σ τ α β : Type}

def Wp (x : EStateM ε σ α) (s : σ) (Q : α → σ → Prop) (E : ε → σ → Prop) : Prop :=
  match x s with
  | .ok a s' => Q a s'
  | .error e s' => E e s'

variable {x : EStateM ε σ α} {f : α → EStateM ε σ β} {s t : σ} {Q R : α → σ → Prop}
  {S : β → σ → Prop} {E F : ε → σ → Prop} {a : α} {e : ε}

theorem Wp.mono (h : Wp x s Q E) (hQ : ∀ a t, Q a t → R a t) (hE : ∀ e t, E e t → F e t) :
    Wp x s R F := by
  unfold Wp at *
  split at h
  · exact hQ _ _ h
  · exact hE _ _ h

theorem Wp.ok_eq (h : Wp x s (fun b u => b = a ∧ u = t) fun _ _ => False) : x s = .ok a t := by
  unfold Wp at h
  split at h
  · next heq => rw [heq, h.1, h.2]
  · exact h.elim

theorem wp_bind : Wp (x >>= f) s S E ↔ Wp x s (fun a t => Wp (f a) t S E) E := by
  change Wp (EStateM.bind x f) s S E ↔ _
  unfold Wp EStateM.bind
  cases x s <;> rfl

theorem Wp.bind (h : Wp x s Q F) (hQ : ∀ a t, Q a t → Wp (f a) t S E)
    (hE : ∀ e t, F e t → E e t) : Wp (x >>= f) s S E :=
  wp_bind.2 (h.mono hQ hE)

theorem wp_map {g : α → β} : Wp (g <$> x) s S E ↔ Wp x s (fun a t => S (g a) t) E := by
  change Wp (EStateM.map g x) s S E ↔ _
  unfold Wp EStateM.map
  cases x s <;> rfl

@[simp] theorem wp_pure : Wp (pure a) s Q E ↔ Q a s := Iff.rfl

@[simp] theorem wp_throw : Wp (throw e) s Q E ↔ E e s := Iff.rfl

@[simp] theorem wp_get {Q : σ → σ → Prop} : Wp (get : EStateM ε σ σ) s Q E ↔ Q s s := Iff.rfl

@[simp] theorem wp_set {Q : Unit → σ → Prop} :
    Wp (set t : EStateM ε σ Unit) s Q E ↔ Q () t := Iff.rfl

@[simp] theorem wp_modify {Q : Unit → σ → Prop} {g : σ → σ} :
    Wp (modify g : EStateM ε σ Unit) s Q E ↔ Q () (g s) := Iff.rfl

@[simp] theorem wp_ofExcept_ok : Wp (ofExcept (.ok a : Except ε α)) s Q E ↔ Q a s := Iff.rfl

@[simp] theorem wp_ofExcept_error :
    Wp (ofExcept (.error e : Except ε α)) s Q E ↔ E e s := Iff.rfl

theorem wp_ite {p : Prop} [Decidable p] {y : EStateM ε σ α} :
    Wp (if p then x else y) s Q E ↔ (p → Wp x s Q E) ∧ (¬p → Wp y s Q E) := by
  split <;> simp [*]

end Bl616cl.Lib
