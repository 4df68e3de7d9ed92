import Mathlib.Tactic.Common

/-!
# Handles that depend on an attachment

A store is attached and detached again; while it is attached, handles on it are opened, used and
closed, and detaching it ends them all. A trace is the list of these events, the newest first.
-/

namespace Bl616cl.Lib.Handles

variable {H C : Type*}

inductive Event (H C : Type*) where
  | attach
  | detach
  | opened (h : H)
  | used (c : C) (h : H)
  | closed (h : H)
  deriving DecidableEq

variable {t : List (Event H C)} {x h : H} {c : C} {cs : List C}

def attached : List (Event H C) → Bool
  | .attach :: _ => true
  | .opened _ :: t | .used _ _ :: t | .closed _ :: t => attached t
  | [] | .detach :: _ => false

/-- Uses one after the other. -/
def uses (cs : List C) (h : H) (t : List (Event H C)) : List (Event H C) :=
  cs.foldl (fun t c => .used c h :: t) t

@[simp] theorem attached_uses : attached (uses cs h t) = attached t := by
  induction cs generalizing t with
  | nil => rfl
  | cons c cs ih => exact ih

@[simp] theorem opened_mem_uses : .opened x ∈ uses cs h t ↔ .opened x ∈ t := by
  induction cs generalizing t with
  | nil => exact Iff.rfl
  | cons c cs ih => exact ih.trans (by simp)

@[simp] theorem used_mem_uses {d : C} :
    .used d x ∈ uses cs h t ↔ (d ∈ cs ∧ x = h) ∨ .used d x ∈ t := by
  induction cs generalizing t with
  | nil => simp [uses]
  | cons c cs ih =>
    refine (ih (t := .used c h :: t)).trans ?_
    simp only [List.mem_cons, Event.used.injEq]
    tauto

variable [DecidableEq H]

/-- The handle was opened on what is attached now, and has not been closed. -/
def isOpen : List (Event H C) → H → Bool
  | .opened h :: t, x => (h == x && attached t) || isOpen t x
  | .used _ _ :: t, x => isOpen t x
  | .closed h :: t, x => h != x && isOpen t x
  | [], _ | .attach :: _, _ | .detach :: _, _ => false

/-- Every use and every close is of a handle that is open. -/
def Valid : List (Event H C) → Prop
  | .used _ h :: t | .closed h :: t => isOpen t h = true ∧ Valid t
  | .attach :: t | .detach :: t | .opened _ :: t => Valid t
  | [] => True

/-- How often the handle has been closed. -/
def closes (x : H) : List (Event H C) → Nat
  | .closed h :: t => if h = x then closes x t + 1 else closes x t
  | .attach :: t | .detach :: t | .opened _ :: t | .used _ _ :: t => closes x t
  | [] => 0

instance : ∀ t : List (Event H C), Decidable (Valid t)
  | .used _ h :: t | .closed h :: t =>
    have := instDecidableValid t
    inferInstanceAs (Decidable (isOpen t h = true ∧ Valid t))
  | .attach :: t | .detach :: t | .opened _ :: t => instDecidableValid t
  | [] => inferInstanceAs (Decidable True)

/-- A handle is open only while the store is attached. -/
theorem attached_of_isOpen (h : isOpen t x = true) : attached t = true := by
  induction t with
  | nil => cases h
  | cons e t ih =>
    cases e with
    | attach => rfl
    | detach => cases h
    | opened y =>
      rcases Bool.or_eq_true_iff.mp h with hnew | hold
      · exact (Bool.and_eq_true_iff.mp hnew).2
      · exact ih hold
    | used c y => exact ih h
    | closed y => exact ih (Bool.and_eq_true_iff.mp h).2

theorem opened_of_isOpen (h : isOpen t x = true) : .opened x ∈ t := by
  induction t with
  | nil => cases h
  | cons e t ih =>
    cases e with
    | attach | detach => cases h
    | opened y =>
      rcases Bool.or_eq_true_iff.mp h with hnew | hold
      · obtain rfl : y = x := by simpa using (Bool.and_eq_true_iff.mp hnew).1
        exact List.mem_cons_self
      · exact List.mem_cons_of_mem _ (ih hold)
    | used c y => exact List.mem_cons_of_mem _ (ih h)
    | closed y => exact List.mem_cons_of_mem _ (ih (Bool.and_eq_true_iff.mp h).2)

/-- What has been used has been opened before. -/
theorem opened_of_used (hv : Valid t) (h : .used c x ∈ t) : .opened x ∈ t := by
  induction t with
  | nil => cases h
  | cons e t ih =>
    have hv' : Valid t := by
      cases e with
      | attach | detach | opened y => exact hv
      | used d y | closed y => exact hv.2
    rcases List.mem_cons.mp h with rfl | hmem
    · exact List.mem_cons_of_mem _ (opened_of_isOpen hv.1)
    · exact List.mem_cons_of_mem _ (ih hv' hmem)

theorem isOpen_opened (h : attached t = true) : isOpen (.opened x :: t) x = true := by
  simp [isOpen, h]

theorem isOpen_closed_ne (hne : h ≠ x) : isOpen (.closed h :: t) x = isOpen t x := by
  simp [isOpen, hne]

theorem closes_closed_self : closes x (.closed x :: t) = closes x t + 1 := if_pos rfl

theorem closes_closed_ne (hne : h ≠ x) : closes x (.closed h :: t) = closes x t := if_neg hne

@[simp] theorem isOpen_uses : isOpen (uses cs h t) x = isOpen t x := by
  induction cs generalizing t with
  | nil => rfl
  | cons c cs ih => exact ih

@[simp] theorem closes_uses : closes x (uses cs h t) = closes x t := by
  induction cs generalizing t with
  | nil => rfl
  | cons c cs ih => exact ih

theorem valid_uses (hv : Valid t) (ho : isOpen t h = true) : Valid (uses cs h t) := by
  induction cs generalizing t with
  | nil => exact hv
  | cons c cs ih => exact ih ⟨ho, hv⟩ ho

end Bl616cl.Lib.Handles
