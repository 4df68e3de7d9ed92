import Bl616cl.Prefs.WString
import Bl616cl.Lib.Run
import Bl616cl.Core.WString

/-!
# Strings as sequences

Programs that make, change and destroy `String`s, beside the byte sequences that these stand for.
A call that reports success does to the sequence what its name says, and one that fails nothing.

The results of the allocations are part of the labels, as are the texts of the numbers. Text may be
given as a pointer into a `String`.
-/

namespace Bl616cl.Core

open Bl616cl.Lib Heap
open Bl616cl.Prefs (CStr)

/-- A text with a length that `unsigned int` can hold. -/
structure Literal extends CStr where
  short : chars.length < 2 ^ 32
  deriving DecidableEq

/-- What a caller gives: null, a text outside of the strings, a pointer into the text of a string,
or a string. -/
inductive Arg where
  | null
  | text (value : Literal)
  | inside (j k : Nat)
  | string (j : Nat)
  deriving DecidableEq

/-- The constructors, `operator=`, `reserve`, `concat` and `operator+=`, `operator+` and the
destructor, with what `realloc` does in them. -/
inductive StringLabel where
  | new (arg : Arg) (out : Realloc)
  | newChar (c : UInt8) (out : Realloc)
  | newMove (j : Nat)
  | assign (i : Nat) (arg : Arg) (out : Realloc)
  | assignMove (i j : Nat)
  | reserve (i : Nat) (size : BitVec 32) (out : Realloc)
  | concat (i : Nat) (arg : Arg) (out : Realloc)
  | concatChar (i : Nat) (c : UInt8) (out : Realloc)
  | concatNumber (i : Nat) (value : Literal) (temp out : Realloc)
  | plus (left right : Arg) (copy out : Realloc)
  | destroy (i : Nat)
  deriving DecidableEq

structure Strings where
  heap : Heap UInt8
  objs : Nat → Option WString
  /-- The objects from here on are still to be made. -/
  next : Nat

namespace Strings

def start : Strings := ⟨Heap.empty, fun _ => none, 0⟩

variable (s : Strings)

/-! ## Steps -/

/-- `strlen(c_str() + k)`. -/
def strlen (o : WString) (k : Nat) : Nat :=
  ((((o.text s.heap).getD []).drop k).takeWhile (· ≠ some 0)).length

/-- The pointer and the length; `none` if there is no such argument. -/
def arg : Arg → Option (Option (Ptr UInt8) × Nat)
  | .null => some (none, 0)
  | .text value => some (some (.static (value.chars ++ [0])), value.chars.length)
  | .inside j k =>
    (s.objs j).bind fun o => if k ≤ o.length then some (some (o.cStr k), s.strlen o k) else none
  | .string j => (s.objs j).map fun o => (some (o.cStr 0), o.length)

/-- `value == nullptr ? "" : value`. -/
def orEmpty (value : Option (Ptr UInt8)) : Ptr UInt8 := value.getD (.static [0])

def set (i : Nat) (r : Done) : Strings :=
  { s with heap := r.heap, objs := Function.update s.objs i (some r.str) }

/-- The object that is made next. -/
def add (r : Done) : Strings := { s.set s.next r with next := s.next + 1 }

/-- With what a call returns, or what the `assign` and the `concat` in it return. -/
def step : StringLabel → (Bool × Bool) × Strings
  | .new a out =>
    match s.arg a with
    | none => ((false, false), s)
    | some (value, length) =>
      let r := WString.init.assign s.heap (orEmpty value) length out
      ((r.ok, false), s.add r)
  | .newChar c out =>
    let r := WString.init.assign s.heap (.static [c, 0]) 1 out
    ((r.ok, false), s.add r)
  | .newMove j =>
    match s.objs j with
    | none => ((false, false), s)
    | some o => ((false, false), (s.add ⟨true, o, s.heap⟩).set j ⟨true, .init, s.heap⟩)
  | .assign i a out =>
    match s.objs i, s.arg a with
    | some o, some (value, length) =>
      if a = .string i then ((false, false), s)
      else
        let r := o.assign s.heap (orEmpty value) length out
        ((r.ok, false), s.set i r)
    | _, _ => ((false, false), s)
  | .assignMove i j =>
    match s.objs i, s.objs j with
    | some o, some o' =>
      if i = j then ((false, false), s)
      else
        let heap := s.heap.free o.buffer
        ((false, false), (s.set i ⟨true, o', heap⟩).set j ⟨true, .init, heap⟩)
    | _, _ => ((false, false), s)
  | .reserve i size out =>
    match s.objs i with
    | none => ((false, false), s)
    | some o =>
      let r := o.reserve s.heap size.toNat out
      ((r.ok, false), s.set i r)
  | .concat i a out =>
    match s.objs i, s.arg a with
    | some o, some (value, length) =>
      let r := o.concat s.heap value length out
      ((r.ok, false), s.set i r)
    | _, _ => ((false, false), s)
  | .concatChar i c out =>
    match s.objs i with
    | none => ((false, false), s)
    | some o =>
      let r := o.concat s.heap (some (.static [c])) 1 out
      ((r.ok, false), s.set i r)
  | .concatNumber i value temp out =>
    match s.objs i with
    | none => ((false, false), s)
    | some o =>
      let r := o.concatNumber s.heap value.chars temp out
      ((r.ok, false), s.set i r)
  | .plus left right copy out =>
    match s.arg left, s.arg right with
    | some (value, length), some (value', length') =>
      let t := WString.init.assign s.heap (orEmpty value) length copy
      let r := t.str.concat t.heap value' length' out
      ((t.ok, r.ok), s.add r)
    | _, _ => ((false, false), s)
  | .destroy i =>
    match s.objs i with
    | none => ((false, false), s)
    | some o =>
      ((false, false),
        { s with heap := s.heap.free o.buffer, objs := Function.update s.objs i none })

end Strings

/-! ## Sequences -/

/-- The sequences of the objects there are. -/
abbrev Seqs := Nat → Option (List UInt8)

namespace Seqs

variable (q : Seqs)

/-- Behind a pointer the text ends at the next NUL. -/
def arg : Arg → Option (List UInt8)
  | .null => some []
  | .text value => some value.chars
  | .inside j k =>
    (q j).bind fun t => if k ≤ t.length then some ((t.drop k).takeWhile (· ≠ 0)) else none
  | .string j => q j

/-- `next` is the object that is made, `ok` what the call has returned. -/
def step (next : Nat) (ok : Bool × Bool) : StringLabel → Seqs
  | .new a _ =>
    match q.arg a with
    | none => q
    | some t => Function.update q next (some (if ok.1 then t else []))
  | .newChar c _ => Function.update q next (some (if ok.1 then [c] else []))
  | .newMove j =>
    match q j with
    | none => q
    | some t => Function.update (Function.update q next (some t)) j (some [])
  | .assign i a _ =>
    match q i, q.arg a with
    | some t, some d =>
      if a = .string i then q else Function.update q i (some (if ok.1 then d else t))
    | _, _ => q
  | .assignMove i j =>
    match q i, q j with
    | some _, some t =>
      if i = j then q else Function.update (Function.update q i (some t)) j (some [])
    | _, _ => q
  | .reserve _ _ _ => q
  | .concat i a _ =>
    match q i, q.arg a with
    | some t, some d => Function.update q i (some (if ok.1 then t ++ d else t))
    | _, _ => q
  | .concatChar i c _ =>
    match q i with
    | none => q
    | some t => Function.update q i (some (if ok.1 then t ++ [c] else t))
  | .concatNumber i value _ _ =>
    match q i with
    | none => q
    | some t => Function.update q i (some (if ok.1 then t ++ value.chars else t))
  | .plus left right _ _ =>
    match q.arg left, q.arg right with
    | some a, some b =>
      Function.update q next (some ((if ok.1 then a else []) ++ if ok.2 then b else []))
    | _, _ => q
  | .destroy i => Function.update q i none

end Seqs

/-! ## The property and its condition -/

/-- The strings and their sequences. -/
structure Paired where
  real : Strings
  seqs : Seqs

namespace Paired

def start : Paired := ⟨Strings.start, fun _ => none⟩

variable (s : Paired)

def step (l : StringLabel) : Paired :=
  ⟨(s.real.step l).2, s.seqs.step s.real.next (s.real.step l).1 l⟩

/-- No memory has been misused, and every string shows its sequence. -/
structure Sound : Prop where
  fault : s.real.heap.fault = false
  shows : ∀ i o, s.real.objs i = some o → ∃ t, s.seqs i = some t ∧ o.Shows s.real.heap t

/-- The string that `operator+` appends to. -/
def copied (copy : Realloc) (length : Nat) : WString :=
  if copy.isNull then .init else ⟨some s.real.heap.next, length, length⟩

open Strings in
/-- Every `assign`, `reserve` and `concat` is safe, and a number finds memory for its text. -/
def Safe : StringLabel → Prop
  | .newChar _ _ | .newMove _ | .assignMove _ _ | .destroy _ => True
  | .new a out => ∀ p n, s.real.arg a = some (p, n) → WString.init.AssignSafe (orEmpty p) n out
  | .assign i a out => a ≠ .string i → ∀ o p n, s.real.objs i = some o →
    s.real.arg a = some (p, n) → o.AssignSafe (orEmpty p) n out
  | .reserve i size out => ∀ o, s.real.objs i = some o → o.ReserveSafe size.toNat out
  | .concat i a out => ∀ o p n, s.real.objs i = some o → s.real.arg a = some (p, n) →
    o.ConcatSafe p n out
  | .concatChar i c out => ∀ o, s.real.objs i = some o → o.ConcatSafe (some (.static [c])) 1 out
  | .concatNumber i value temp out => ∀ o, s.real.objs i = some o →
    o.NumberSafe value.chars temp out
  | .plus left right copy out => ∀ p n p' n', s.real.arg left = some (p, n) →
    s.real.arg right = some (p', n') → WString.init.AssignSafe (orEmpty p) n copy ∧
      (s.copied copy n).ConcatSafe p' n' out

/-- The invariant: each string holds its sequence, in a block of its own. -/
structure Inv : Prop where
  fault : s.real.heap.fault = false
  holds : ∀ i o, s.real.objs i = some o → ∃ t, s.seqs i = some t ∧ o.Holds s.real.heap t
  gone : ∀ i, s.real.objs i = none → s.seqs i = none
  apart : ∀ i j o o' id, s.real.objs i = some o → s.real.objs j = some o' →
    o.buffer = some id → o'.buffer = some id → i = j
  fresh : ∀ i o id, s.real.objs i = some o → o.buffer = some id → id < s.real.heap.next
  known : ∀ i, s.real.next ≤ i → s.real.objs i = none

variable {s : Paired}

theorem inv_start : Inv start :=
  ⟨rfl, by simp [start, Strings.start], fun _ _ => rfl, by simp [start, Strings.start],
    by simp [start, Strings.start], fun _ _ => rfl⟩

theorem sound_of_inv (h : Inv s) : Sound s := by
  refine ⟨h.fault, fun i o hi => ?_⟩
  obtain ⟨t, ht, hh⟩ := h.holds i o hi
  exact ⟨t, ht, hh.shows⟩

/-! ## One object changes -/

theorem update_eq_some {β : Type} {f : Nat → Option β} {i j : Nat} {a b : β} :
    Function.update f i (some a) j = some b ↔ (j = i ∧ a = b) ∨ (j ≠ i ∧ f j = some b) := by
  by_cases h : j = i
  · subst h
    simp
  · simp [h]

theorem update_eq_none {β : Type} {f : Nat → Option β} {i j : Nat} {a : β} :
    Function.update f i (some a) j = none ↔ j ≠ i ∧ f j = none := by
  by_cases h : j = i
  · subst h
    simp
  · simp [h]

theorem inv_update (hi : Inv s) {i next : Nat} {o : WString} {t : List UInt8} {r : Done}
    (hk : WString.Keeps o s.real.heap t r)
    (hold : ∀ j o' id, j ≠ i → s.real.objs j = some o' → o'.buffer = some id → o.buffer ≠ some id)
    (hfresh : ∀ id, o.buffer = some id → id < s.real.heap.next)
    (hnext : s.real.next ≤ next) (hlt : i < next) :
    Inv ⟨⟨r.heap, Function.update s.real.objs i (some r.str), next⟩,
      Function.update s.seqs i (some t)⟩ := by
  -- the block of another object is not that of the result
  have hother : ∀ j o' id, j ≠ i → s.real.objs j = some o' → o'.buffer = some id →
      r.str.buffer ≠ some id := by
    intro j o' id hj ho' hb hr
    rcases hk.buffer id hr with hb' | ⟨hle, -⟩
    · exact hold j o' id hj ho' hb hb'
    · have hid := hi.fresh j o' id ho' hb
      omega
  refine ⟨hk.fault.trans hi.fault, fun j o' hj => ?_, fun j hj => ?_,
    fun j k o1 o2 id h1 h2 hb1 hb2 => ?_, fun j o' id hj hb => ?_, fun j hj => ?_⟩
  · rcases update_eq_some.mp hj with ⟨rfl, rfl⟩ | ⟨hji, hj⟩
    · exact ⟨t, Function.update_self _ _ _, hk.holds⟩
    · obtain ⟨t', ht', hh⟩ := hi.holds j o' hj
      exact ⟨t', (Function.update_of_ne hji _ _).trans ht', hh.of_frame hk.frame fun id hb =>
        ⟨hi.fresh j o' id hj hb, hold j o' id hji hj hb⟩⟩
  · obtain ⟨hji, hj⟩ := update_eq_none.mp hj
    exact (Function.update_of_ne hji _ _).trans (hi.gone j hj)
  · rcases update_eq_some.mp h1 with ⟨rfl, rfl⟩ | ⟨hj, hj'⟩
    · rcases update_eq_some.mp h2 with ⟨rfl, -⟩ | ⟨hk, hk'⟩
      · rfl
      · exact absurd hb1 (hother k o2 id hk hk' hb2)
    · rcases update_eq_some.mp h2 with ⟨rfl, rfl⟩ | ⟨-, hk'⟩
      · exact absurd hb2 (hother j o1 id hj hj' hb1)
      · exact hi.apart j k o1 o2 id hj' hk' hb1 hb2
  · rcases update_eq_some.mp hj with ⟨-, rfl⟩ | ⟨-, hj⟩
    · rcases hk.buffer id hb with hb' | ⟨-, hlt'⟩
      · exact Nat.lt_of_lt_of_le (hfresh id hb') hk.frame.next
      · exact hlt'
    · exact Nat.lt_of_lt_of_le (hi.fresh j o' id hj hb) hk.frame.next
  · have hle : next ≤ j := hj
    exact update_eq_none.mpr ⟨by omega, hi.known j (Nat.le_trans hnext hle)⟩

theorem Inv.lt_next (hi : Inv s) {i : Nat} {o : WString} (ho : s.real.objs i = some o) :
    i < s.real.next := by
  by_contra hle
  rw [hi.known i (Nat.not_lt.mp hle)] at ho
  cases ho

theorem inv_set (hi : Inv s) {i : Nat} {o : WString} {t : List UInt8} {r : Done}
    (ho : s.real.objs i = some o) (hk : WString.Keeps o s.real.heap t r) :
    Inv ⟨s.real.set i r, Function.update s.seqs i (some t)⟩ :=
  inv_update hi hk (fun j o' id hj ho' hb hb' => hj (hi.apart j i o' o id ho' ho hb hb'))
    (fun id hb => hi.fresh i o id ho hb) (Nat.le_refl _) (hi.lt_next ho)

theorem inv_add (hi : Inv s) {t : List UInt8} {r : Done}
    (hk : WString.Keeps .init s.real.heap t r) :
    Inv ⟨s.real.add r, Function.update s.seqs s.real.next (some t)⟩ :=
  inv_update hi hk (fun _ _ _ _ _ _ h => by cases h) (fun _ h => by cases h) (Nat.le_succ _)
    (Nat.lt_succ_self _)

theorem inv_drop (hi : Inv s) {i : Nat} {o : WString} (ho : s.real.objs i = some o) :
    Inv ⟨s.real.set i ⟨true, .init, s.real.heap.free o.buffer⟩,
      Function.update s.seqs i (some [])⟩ := by
  obtain ⟨t, -, hh⟩ := hi.holds i o ho
  exact inv_set hi ho hh.drop

theorem inv_forget (hi : Inv s) (i : Nat) :
    Inv ⟨{ s.real with objs := Function.update s.real.objs i none },
      Function.update s.seqs i none⟩ := by
  have hback : ∀ j o, Function.update s.real.objs i none j = some o →
      j ≠ i ∧ s.real.objs j = some o := by
    intro j o hj
    by_cases hji : j = i
    · simp [hji] at hj
    · rw [Function.update_of_ne hji] at hj
      exact ⟨hji, hj⟩
  refine ⟨hi.fault, fun j o hj => ?_, fun j hj => ?_, fun j k o1 o2 id h1 h2 => ?_,
    fun j o id hj => hi.fresh j o id (hback j o hj).2, fun j hj => ?_⟩
  · obtain ⟨hji, hj⟩ := hback j o hj
    obtain ⟨t, ht, hh⟩ := hi.holds j o hj
    exact ⟨t, (Function.update_of_ne hji _ _).trans ht, hh⟩
  · by_cases hji : j = i
    · simp [hji]
    · dsimp only at hj ⊢
      rw [Function.update_of_ne hji] at hj ⊢
      exact hi.gone j hj
  · exact hi.apart j k o1 o2 id (hback j o1 h1).2 (hback k o2 h2).2
  · by_cases hji : j = i
    · simp [hji]
    · exact (Function.update_of_ne hji _ _).trans (hi.known j hj)

/-- The block of `j` goes over to `i`, which has none. -/
theorem inv_move (hi : Inv s) {i j next : Nat} {o : WString} {t : List UInt8}
    (ho : s.real.objs j = some o) (ht : s.seqs j = some t) (hne : j ≠ i)
    (hnext : s.real.next ≤ next) (hlt : i < next) :
    Inv ⟨⟨s.real.heap,
      Function.update (Function.update s.real.objs i (some o)) j (some .init), next⟩,
      Function.update (Function.update s.seqs i (some t)) j (some [])⟩ := by
  have hback : ∀ k o', Function.update (Function.update s.real.objs i (some o)) j (some .init) k =
      some o' → (k = j ∧ o' = .init) ∨ (k = i ∧ o' = o) ∨
        (k ≠ j ∧ k ≠ i ∧ s.real.objs k = some o') := by
    intro k o' hk
    rcases update_eq_some.mp hk with ⟨rfl, rfl⟩ | ⟨hkj, hk⟩
    · exact Or.inl ⟨rfl, rfl⟩
    · rcases update_eq_some.mp hk with ⟨rfl, rfl⟩ | ⟨hki, hk⟩
      · exact Or.inr (Or.inl ⟨rfl, rfl⟩)
      · exact Or.inr (Or.inr ⟨hkj, hki, hk⟩)
  -- the object that a block comes from
  have horigin : ∀ k o' id, Function.update (Function.update s.real.objs i (some o)) j
      (some .init) k = some o' → o'.buffer = some id →
        k ≠ j ∧ s.real.objs (if k = i then j else k) = some o' := by
    intro k o' id hk hb
    rcases hback k o' hk with ⟨-, rfl⟩ | ⟨rfl, rfl⟩ | ⟨hkj, hki, hk⟩
    · cases hb
    · exact ⟨hne.symm, (if_pos rfl).symm ▸ ho⟩
    · exact ⟨hkj, (if_neg hki).symm ▸ hk⟩
  refine ⟨hi.fault, fun k o' hk => ?_, fun k hk => ?_, fun k l o1 o2 id h1 h2 hb1 hb2 => ?_,
    fun k o' id hk hb => ?_, fun k hk => ?_⟩
  · rcases hback k o' hk with ⟨rfl, rfl⟩ | ⟨rfl, rfl⟩ | ⟨hkj, hki, hk⟩
    · exact ⟨[], Function.update_self _ _ _, WString.holds_init _⟩
    · obtain ⟨t', ht', hh⟩ := hi.holds j o' ho
      exact ⟨t', by simpa [hne.symm] using ht.symm.trans ht', hh⟩
    · obtain ⟨t', ht', hh⟩ := hi.holds k o' hk
      exact ⟨t', by simpa [hkj, hki] using ht', hh⟩
  · obtain ⟨hkj, hk⟩ := update_eq_none.mp hk
    obtain ⟨hki, hk⟩ := update_eq_none.mp hk
    simpa [hkj, hki] using hi.gone k hk
  · obtain ⟨hk, h1⟩ := horigin k o1 id h1 hb1
    obtain ⟨hl, h2⟩ := horigin l o2 id h2 hb2
    have heq := hi.apart _ _ o1 o2 id h1 h2 hb1 hb2
    split at heq <;> split at heq <;> omega
  · exact hi.fresh _ o' id (horigin k o' id hk hb).2 hb
  · have hle : next ≤ k := hk
    have hj := hi.lt_next ho
    exact update_eq_none.mpr ⟨by omega, update_eq_none.mpr ⟨by omega,
      hi.known k (Nat.le_trans hnext hle)⟩⟩

/-! ## Arguments -/

theorem strlen_eq {o : WString} {t : List UInt8} {k : Nat} (hh : o.Holds s.real.heap t)
    (hk : k ≤ t.length) : s.real.strlen o k = ((t.drop k).takeWhile (· ≠ 0)).length := by
  obtain ⟨rest, htext⟩ := hh.shows.cStr
  unfold Strings.strlen
  rw [htext, Option.getD_some, List.drop_append_of_le_length (by simpa using hk), ← List.map_drop]
  induction t.drop k with
  | nil => simp
  | cons c u ih =>
    by_cases hc : c = 0
    · simp [hc]
    · simpa [hc] using ih

/-- No other object has the block of `o`, unless it holds `t`. -/
def Only (s : Paired) (o : WString) (t : List UInt8) : Prop :=
  ∀ j o' id, o.buffer = some id → s.real.objs j = some o' → o'.buffer = some id →
    s.seqs j = some t

theorem only_init (s : Paired) (t : List UInt8) : s.Only .init t :=
  fun _ _ _ h => by cases h

theorem Inv.only (hi : Inv s) {i : Nat} {o : WString} {t : List UInt8}
    (ho : s.real.objs i = some o) (ht : s.seqs i = some t) : s.Only o t := by
  intro j o' id hb ho' hb'
  rwa [hi.apart j i o' o id ho' ho hb' hb]

theorem source_inside (hi : Inv s) {o o' : WString} {t u d post : List UInt8} {j k : Nat}
    (honly : s.Only o t) (ho' : s.real.objs j = some o') (hu : s.seqs j = some u)
    (hh : o'.Holds s.real.heap u) (hk : k ≤ u.length) (hd : u.drop k = d ++ post) :
    WString.Source o s.real.heap t (o'.cStr k) d := by
  rcases hh.stored with ⟨hb, rfl⟩ | ⟨id, rest, hb, hcells, -, -⟩
  · obtain rfl : d = [] := by
      rw [List.drop_nil] at hd
      exact (List.append_eq_nil_iff.mp hd.symm).1
    have hvalue : o'.cStr k = .static ([] ++ [0].drop k) := by simp [WString.cStr, hb]
    rw [hvalue]
    exact WString.source_static
  · have hvalue : o'.cStr k = .block id k := by simp [WString.cStr, hb]
    rw [hvalue]
    refine ⟨WString.read_part hcells hk hd, fun id' k' heq => ?_, fun id' k' heq hb' => ?_⟩
    · cases heq
      exact hi.fresh j o' id ho' hb
    · cases heq
      obtain rfl := Option.some.inj ((honly j o' id hb' ho' hb).symm.trans hu)
      exact ⟨hk, post, hd⟩

/-- What an argument comes down to. -/
structure Resolved (s : Paired) (a : Arg) (p : Option (Ptr UInt8)) (n : Nat) (d : List UInt8) :
    Prop where
  seq : s.seqs.arg a = some d
  length : n = d.length
  short : d.length < 2 ^ 32
  null : p = none → d = []
  source : ∀ value, p = some value → ∀ o t, s.Only o t →
    WString.Source o s.real.heap t value d

/-- A sequence is no longer than the capacity of its string. -/
theorem short_of_holds {o : WString} {h : Heap UInt8} {t : List UInt8} (hh : o.Holds h t) :
    t.length < 2 ^ 32 := by
  rcases hh.stored with ⟨-, rfl⟩ | ⟨id, rest, -, -, hcap, hlt⟩
  · decide
  · omega

theorem arg_resolved (hi : Inv s) {a : Arg} {p : Option (Ptr UInt8)} {n : Nat}
    (ha : s.real.arg a = some (p, n)) : ∃ d, Resolved s a p n d := by
  cases a with
  | null =>
    cases ha
    exact ⟨[], rfl, rfl, by decide, fun _ => rfl, fun _ h => (by cases h)⟩
  | text value =>
    cases ha
    refine ⟨value.chars, rfl, rfl, value.short, fun h => (by cases h), fun p hp o t _ => ?_⟩
    obtain rfl := Option.some.inj hp
    exact WString.source_static
  | inside j k =>
    obtain ⟨o', ho', harg⟩ := Option.bind_eq_some_iff.mp ha
    split at harg
    · next hk =>
      cases harg
      obtain ⟨u, hu, hh⟩ := hi.holds j o' ho'
      rw [hh.length] at hk
      have hd := (List.takeWhile_append_dropWhile (p := (· ≠ 0)) (l := u.drop k)).symm
      refine ⟨(u.drop k).takeWhile (· ≠ 0), ?_, strlen_eq hh hk, ?_, fun h => (by cases h),
        fun p hp o t honly => ?_⟩
      · simp only [Seqs.arg, hu, Option.bind_some, if_pos hk]
      · have hle := (List.takeWhile_sublist (p := (· ≠ 0)) (l := u.drop k)).length_le
        have hshort := short_of_holds hh
        rw [List.length_drop] at hle
        omega
      · obtain rfl := Option.some.inj hp
        exact source_inside hi honly ho' hu hh hk hd
    · cases harg
  | string j =>
    obtain ⟨o', ho', harg⟩ := Option.map_eq_some_iff.mp ha
    cases harg
    obtain ⟨u, hu, hh⟩ := hi.holds j o' ho'
    refine ⟨u, hu, hh.length, short_of_holds hh, fun h => (by cases h), fun p hp o t honly => ?_⟩
    obtain rfl := Option.some.inj hp
    exact source_inside hi honly ho' hu hh (Nat.zero_le _) (List.append_nil u).symm

theorem arg_none (hi : Inv s) {a : Arg} (ha : s.real.arg a = none) : s.seqs.arg a = none := by
  cases a with
  | null | text value => cases ha
  | inside j k =>
    cases ho : s.real.objs j with
    | none => simp [Seqs.arg, hi.gone j ho]
    | some o =>
      obtain ⟨u, hu, hh⟩ := hi.holds j o ho
      simp only [Strings.arg, ho, Option.bind_some, hh.length] at ha
      split at ha
      · cases ha
      · next hk => simp only [Seqs.arg, hu, Option.bind_some, if_neg hk]
  | string j => exact hi.gone j (Option.map_eq_none_iff.mp ha)

theorem Resolved.source_orEmpty {a : Arg} {p : Option (Ptr UInt8)} {n : Nat} {d t : List UInt8}
    {o : WString} (hr : Resolved s a p n d) (honly : s.Only o t) :
    WString.Source o s.real.heap t (Strings.orEmpty p) d := by
  cases p with
  | none =>
    obtain rfl := hr.null rfl
    exact (WString.source_static : WString.Source o s.real.heap t (.static ([] ++ [0])) [])
  | some value => exact hr.source value rfl o t honly

/-! ## Steps -/

theorem inv_new (hi : Inv s) (a : Arg) (out : Realloc) (hs : s.Safe (.new a out)) :
    Inv (s.step (.new a out)) := by
  cases ha : s.real.arg a with
  | none => simpa only [step, Strings.step, Seqs.step, ha, arg_none hi ha] using hi
  | some v =>
    obtain ⟨p, n⟩ := v
    obtain ⟨d, hr⟩ := arg_resolved hi ha
    obtain rfl := hr.length
    have hk := WString.assign_spec (WString.holds_init _) (hr.source_orEmpty (s.only_init []))
      (hs p _ ha)
    simpa only [step, Strings.step, Seqs.step, ha, hr.seq] using inv_add hi hk

theorem inv_newChar (hi : Inv s) (c : UInt8) (out : Realloc) :
    Inv (s.step (.newChar c out)) := by
  have hsafe : WString.init.AssignSafe (.static ([c] ++ [0])) 1 out :=
    ⟨Or.inr (Or.inl (by decide)), fun hover => hover⟩
  have hk := WString.assign_spec (d := [c]) (WString.holds_init s.real.heap)
    WString.source_static hsafe
  exact inv_add hi hk

theorem inv_newMove (hi : Inv s) (j : Nat) : Inv (s.step (.newMove j)) := by
  cases ho : s.real.objs j with
  | none => simpa only [step, Strings.step, Seqs.step, ho, hi.gone j ho] using hi
  | some o =>
    obtain ⟨t, ht, -⟩ := hi.holds j o ho
    simp only [step, Strings.step, Seqs.step, ho, ht]
    exact inv_move hi ho ht (Nat.ne_of_lt (hi.lt_next ho)) (Nat.le_succ _) (Nat.lt_succ_self _)

theorem inv_assignMove (hi : Inv s) (i j : Nat) : Inv (s.step (.assignMove i j)) := by
  cases hoi : s.real.objs i with
  | none => simpa only [step, Strings.step, Seqs.step, hoi, hi.gone i hoi] using hi
  | some o =>
    obtain ⟨t, ht, -⟩ := hi.holds i o hoi
    cases hoj : s.real.objs j with
    | none => simpa only [step, Strings.step, Seqs.step, hoi, hoj, ht, hi.gone j hoj] using hi
    | some o' =>
      obtain ⟨u, hu, -⟩ := hi.holds j o' hoj
      by_cases hij : i = j
      · simpa only [step, Strings.step, Seqs.step, hoi, hoj, ht, hu, if_pos hij] using hi
      · have hmove := inv_move (inv_drop hi hoi) (i := i)
          ((Function.update_of_ne (Ne.symm hij) _ _).trans hoj)
          ((Function.update_of_ne (Ne.symm hij) _ _).trans hu) (Ne.symm hij) (Nat.le_refl _)
          (hi.lt_next hoi)
        simpa only [step, Strings.step, Seqs.step, hoi, hoj, ht, hu, if_neg hij, Strings.set,
          Function.update_idem] using hmove

theorem inv_assign (hi : Inv s) (i : Nat) (a : Arg) (out : Realloc)
    (hs : s.Safe (.assign i a out)) : Inv (s.step (.assign i a out)) := by
  cases ho : s.real.objs i with
  | none => simpa only [step, Strings.step, Seqs.step, ho, hi.gone i ho] using hi
  | some o =>
    obtain ⟨t, ht, hh⟩ := hi.holds i o ho
    cases ha : s.real.arg a with
    | none => simpa only [step, Strings.step, Seqs.step, ho, ha, ht, arg_none hi ha] using hi
    | some v =>
      obtain ⟨p, n⟩ := v
      obtain ⟨d, hr⟩ := arg_resolved hi ha
      obtain rfl := hr.length
      by_cases hself : a = .string i
      · simpa only [step, Strings.step, Seqs.step, ho, ha, ht, hr.seq, if_pos hself] using hi
      · have hk := WString.assign_spec hh (hr.source_orEmpty (hi.only ho ht))
          (hs hself o p _ ho ha)
        simpa only [step, Strings.step, Seqs.step, ho, ha, ht, hr.seq, if_neg hself] using
          inv_set hi ho hk

theorem inv_reserve (hi : Inv s) (i : Nat) (size : BitVec 32) (out : Realloc)
    (hs : s.Safe (.reserve i size out)) : Inv (s.step (.reserve i size out)) := by
  cases ho : s.real.objs i with
  | none => simpa only [step, Strings.step, Seqs.step, ho] using hi
  | some o =>
    obtain ⟨t, ht, hh⟩ := hi.holds i o ho
    have hset := inv_set hi ho (WString.reserve_spec hh (hs o ho)).toKeeps
    rw [← ht, Function.update_eq_self] at hset
    simpa only [step, Strings.step, Seqs.step, ho] using hset

theorem inv_concat (hi : Inv s) (i : Nat) (a : Arg) (out : Realloc)
    (hs : s.Safe (.concat i a out)) : Inv (s.step (.concat i a out)) := by
  cases ho : s.real.objs i with
  | none => simpa only [step, Strings.step, Seqs.step, ho, hi.gone i ho] using hi
  | some o =>
    obtain ⟨t, ht, hh⟩ := hi.holds i o ho
    cases ha : s.real.arg a with
    | none => simpa only [step, Strings.step, Seqs.step, ho, ha, ht, arg_none hi ha] using hi
    | some v =>
      obtain ⟨p, n⟩ := v
      obtain ⟨d, hr⟩ := arg_resolved hi ha
      obtain rfl := hr.length
      have hk := WString.concat_arg_spec hh (fun value hp => hr.source value hp o t (hi.only ho ht))
        (hs o p _ ho ha)
      simpa only [step, Strings.step, Seqs.step, ho, ha, ht, hr.seq] using inv_set hi ho hk

theorem source_char {o : WString} {h : Heap UInt8} {t : List UInt8} (c : UInt8) :
    WString.Source o h t (.static [c]) [c] :=
  (WString.source_static : WString.Source o h t (.static ([c] ++ [])) [c])

theorem inv_concatChar (hi : Inv s) (i : Nat) (c : UInt8) (out : Realloc)
    (hs : s.Safe (.concatChar i c out)) : Inv (s.step (.concatChar i c out)) := by
  cases ho : s.real.objs i with
  | none => simpa only [step, Strings.step, Seqs.step, ho, hi.gone i ho] using hi
  | some o =>
    obtain ⟨t, ht, hh⟩ := hi.holds i o ho
    have hk := WString.concat_spec hh (source_char c) (hs o ho)
    simp only [step, Strings.step, Seqs.step, ho, ht]
    exact inv_set hi ho hk

theorem inv_concatNumber (hi : Inv s) (i : Nat) (value : Literal) (temp out : Realloc)
    (hs : s.Safe (.concatNumber i value temp out)) :
    Inv (s.step (.concatNumber i value temp out)) := by
  cases ho : s.real.objs i with
  | none => simpa only [step, Strings.step, Seqs.step, ho, hi.gone i ho] using hi
  | some o =>
    obtain ⟨t, ht, hh⟩ := hi.holds i o ho
    have hk := WString.concatNumber_spec hh (fun id hb => hi.fresh i o id ho hb) (hs o ho)
    simpa only [step, Strings.step, Seqs.step, ho, ht] using inv_set hi ho hk

theorem copied_eq (s : Paired) (value : Ptr UInt8) (n : Nat) (copy : Realloc) :
    s.copied copy n = (WString.init.assign s.real.heap value n copy).str :=
  (WString.assign_init value s.real.heap n copy).2.symm

theorem inv_plus (hi : Inv s) (left right : Arg) (copy out : Realloc)
    (hs : s.Safe (.plus left right copy out)) : Inv (s.step (.plus left right copy out)) := by
  cases ha : s.real.arg left with
  | none => simpa only [step, Strings.step, Seqs.step, ha, arg_none hi ha] using hi
  | some v =>
    obtain ⟨p, n⟩ := v
    obtain ⟨a, hra⟩ := arg_resolved hi ha
    obtain rfl := hra.length
    cases hb : s.real.arg right with
    | none =>
      simpa only [step, Strings.step, Seqs.step, ha, hb, hra.seq, arg_none hi hb] using hi
    | some v' =>
      obtain ⟨p', n'⟩ := v'
      obtain ⟨b, hrb⟩ := arg_resolved hi hb
      obtain rfl := hrb.length
      obtain ⟨hassign, hconcat⟩ := hs p _ p' _ ha hb
      rw [copied_eq s (Strings.orEmpty p)] at hconcat
      have hcopy := WString.assign_spec (WString.holds_init _)
        (hra.source_orEmpty (s.only_init [])) hassign
      have happend := WString.concat_arg_spec hcopy.holds
        (fun value hp => (hrb.source value hp .init [] (s.only_init [])).after hcopy) hconcat
      have hadd := inv_add hi (hcopy.trans happend)
      have hite : ∀ (c : Bool) (u : List UInt8),
          (if c then u ++ b else u) = u ++ if c then b else [] := by
        intro c u
        cases c <;> simp
      rw [hite] at hadd
      simpa only [step, Strings.step, Seqs.step, ha, hb, hra.seq, hrb.seq] using hadd

theorem inv_destroy (hi : Inv s) (i : Nat) : Inv (s.step (.destroy i)) := by
  cases ho : s.real.objs i with
  | none =>
    have hq : Function.update s.seqs i none = s.seqs := by
      rw [← hi.gone i ho, Function.update_eq_self]
    simpa only [step, Strings.step, Seqs.step, ho, hq] using hi
  | some o =>
    have hforget := inv_forget (inv_drop hi ho) i
    simpa only [step, Strings.step, Seqs.step, ho, Strings.set, Function.update_idem] using hforget

/-- A safe call keeps the invariant. -/
theorem inv_step (hi : Inv s) (l : StringLabel) (hs : s.Safe l) : Inv (s.step l) := by
  cases l with
  | new a out => exact inv_new hi a out hs
  | newChar c out => exact inv_newChar hi c out
  | newMove j => exact inv_newMove hi j
  | assign i a out => exact inv_assign hi i a out hs
  | assignMove i j => exact inv_assignMove hi i j
  | reserve i size out => exact inv_reserve hi i size out hs
  | concat i a out => exact inv_concat hi i a out hs
  | concatChar i c out => exact inv_concatChar hi i c out hs
  | concatNumber i value temp out => exact inv_concatNumber hi i value temp out hs
  | plus left right copy out => exact inv_plus hi left right copy out hs
  | destroy i => exact inv_destroy hi i

/-! ## Unsafe steps -/

theorem not_sound_of_broken {s' : Paired} {i : Nat} {r : Done} (hr : WString.Broken r)
    (hheap : s'.real.heap = r.heap) (hobj : s'.real.objs i = some r.str) : ¬ Sound s' := by
  intro h
  rcases hr with hf | hnot
  · rw [← hheap, h.fault] at hf
    cases hf
  · obtain ⟨t, -, hshows⟩ := h.shows i r.str hobj
    rw [hheap] at hshows
    exact hnot t hshows

theorem not_sound_set {i : Nat} {r : Done} (hr : WString.Broken r) (q : Seqs) :
    ¬ Sound ⟨s.real.set i r, q⟩ :=
  not_sound_of_broken hr rfl (Function.update_self i _ _)

theorem not_sound_add {r : Done} (hr : WString.Broken r) (q : Seqs) :
    ¬ Sound ⟨s.real.add r, q⟩ :=
  not_sound_of_broken hr rfl (Function.update_self s.real.next _ _)

theorem not_sound_new (hi : Inv s) {a : Arg} {out : Realloc} (hs : ¬ s.Safe (.new a out)) :
    ¬ Sound (s.step (.new a out)) := by
  obtain ⟨p, n, ha, hbad⟩ : ∃ p n, s.real.arg a = some (p, n) ∧
      ¬ WString.init.AssignSafe (Strings.orEmpty p) n out := by
    simpa only [Safe, not_forall, exists_prop] using hs
  obtain ⟨d, hr⟩ := arg_resolved hi ha
  obtain rfl := hr.length
  have hbroken := WString.assign_broken (WString.holds_init _)
    (hr.source_orEmpty (s.only_init [])) hr.short hbad
  simpa only [step, Strings.step, ha] using not_sound_add hbroken _

theorem not_sound_assign (hi : Inv s) {i : Nat} {a : Arg} {out : Realloc}
    (hs : ¬ s.Safe (.assign i a out)) : ¬ Sound (s.step (.assign i a out)) := by
  obtain ⟨hself, o, p, n, ho, ha, hbad⟩ : a ≠ .string i ∧ ∃ o p n, s.real.objs i = some o ∧
      s.real.arg a = some (p, n) ∧ ¬ o.AssignSafe (Strings.orEmpty p) n out := by
    simpa only [Safe, not_forall, exists_prop] using hs
  obtain ⟨t, ht, hh⟩ := hi.holds i o ho
  obtain ⟨d, hr⟩ := arg_resolved hi ha
  obtain rfl := hr.length
  have hbroken := WString.assign_broken hh (hr.source_orEmpty (hi.only ho ht)) hr.short hbad
  simpa only [step, Strings.step, ho, ha, if_neg hself] using not_sound_set hbroken _

theorem not_sound_reserve (hi : Inv s) {i : Nat} {size : BitVec 32} {out : Realloc}
    (hs : ¬ s.Safe (.reserve i size out)) : ¬ Sound (s.step (.reserve i size out)) := by
  obtain ⟨o, ho, hbad⟩ : ∃ o, s.real.objs i = some o ∧ ¬ o.ReserveSafe size.toNat out := by
    simpa only [Safe, not_forall, exists_prop] using hs
  obtain ⟨t, -, hh⟩ := hi.holds i o ho
  have hbroken := WString.reserve_broken hh size.isLt hbad
  simpa only [step, Strings.step, ho] using not_sound_set hbroken _

theorem not_sound_concat (hi : Inv s) {i : Nat} {a : Arg} {out : Realloc}
    (hs : ¬ s.Safe (.concat i a out)) : ¬ Sound (s.step (.concat i a out)) := by
  obtain ⟨o, p, n, ho, ha, hbad⟩ : ∃ o p n, s.real.objs i = some o ∧
      s.real.arg a = some (p, n) ∧ ¬ o.ConcatSafe p n out := by
    simpa only [Safe, not_forall, exists_prop] using hs
  obtain ⟨t, ht, hh⟩ := hi.holds i o ho
  obtain ⟨d, hr⟩ := arg_resolved hi ha
  obtain rfl := hr.length
  have hbroken := WString.concat_arg_broken hh
    (fun value hp => hr.source value hp o t (hi.only ho ht)) hr.short hbad
  simpa only [step, Strings.step, ho, ha] using not_sound_set hbroken _

theorem not_sound_concatChar (hi : Inv s) {i : Nat} {c : UInt8} {out : Realloc}
    (hs : ¬ s.Safe (.concatChar i c out)) : ¬ Sound (s.step (.concatChar i c out)) := by
  obtain ⟨o, ho, hbad⟩ : ∃ o, s.real.objs i = some o ∧
      ¬ o.ConcatSafe (some (.static [c])) 1 out := by
    simpa only [Safe, not_forall, exists_prop] using hs
  obtain ⟨t, -, hh⟩ := hi.holds i o ho
  have hbroken := WString.concat_broken hh (source_char c) (show 1 < 2 ^ 32 by decide) hbad
  simp only [step, Strings.step, ho]
  exact not_sound_set hbroken _

theorem not_sound_concatNumber (hi : Inv s) {i : Nat} {value : Literal} {temp out : Realloc}
    (hs : ¬ s.Safe (.concatNumber i value temp out)) :
    ¬ Sound (s.step (.concatNumber i value temp out)) := by
  obtain ⟨o, ho, hbad⟩ : ∃ o, s.real.objs i = some o ∧ ¬ o.NumberSafe value.chars temp out := by
    simpa only [Safe, not_forall, exists_prop] using hs
  obtain ⟨t, ht, hh⟩ := hi.holds i o ho
  obtain ⟨hne, hsame | hbroken⟩ :=
    WString.concatNumber_broken hh (fun id hb => hi.fresh i o id ho hb) value.short hbad
  · simp only [step, Strings.step, Seqs.step, ho, ht, hsame, if_true]
    intro hsound
    obtain ⟨u, hu, hshows⟩ := hsound.shows i o (Function.update_self i _ _)
    obtain rfl := Option.some.inj ((Function.update_self i _ _).symm.trans hu)
    have hlen := hshows.length
    rw [hh.length, List.length_append] at hlen
    have hpos := List.length_pos_iff.mpr hne
    omega
  · simpa only [step, Strings.step, ho] using not_sound_set hbroken _

theorem not_sound_plus (hi : Inv s) {left right : Arg} {copy out : Realloc}
    (hs : ¬ s.Safe (.plus left right copy out)) :
    ¬ Sound (s.step (.plus left right copy out)) := by
  obtain ⟨p, n, p', n', ha, hb, hbad⟩ : ∃ p n p' n', s.real.arg left = some (p, n) ∧
      s.real.arg right = some (p', n') ∧
        ¬ (WString.init.AssignSafe (Strings.orEmpty p) n copy ∧
          (s.copied copy n).ConcatSafe p' n' out) := by
    simpa only [Safe, not_forall, exists_prop] using hs
  obtain ⟨a, hra⟩ := arg_resolved hi ha
  obtain ⟨b, hrb⟩ := arg_resolved hi hb
  obtain rfl := hra.length
  obtain rfl := hrb.length
  simp only [step, Strings.step, ha, hb]
  refine not_sound_add ?_ _
  by_cases hassign : WString.init.AssignSafe (Strings.orEmpty p) a.length copy
  · have hcopy := WString.assign_spec (WString.holds_init _)
      (hra.source_orEmpty (s.only_init [])) hassign
    refine WString.concat_arg_broken hcopy.holds
      (fun value hp => (hrb.source value hp .init [] (s.only_init [])).after hcopy) hrb.short
      fun hconcat => hbad ⟨hassign, ?_⟩
    rwa [copied_eq s (Strings.orEmpty p)]
  · have hfault := (WString.assign_init_fault (h := s.real.heap) hra.short hassign).2
    exact Or.inl (WString.fault_concat hfault)

/-- An unsafe call breaks a string or misuses memory. -/
theorem not_sound_step (hi : Inv s) (l : StringLabel) (hs : ¬ s.Safe l) : ¬ Sound (s.step l) := by
  cases l with
  | newChar | newMove | assignMove | destroy => exact absurd trivial hs
  | new a out => exact not_sound_new hi hs
  | assign i a out => exact not_sound_assign hi hs
  | reserve i size out => exact not_sound_reserve hi hs
  | concat i a out => exact not_sound_concat hi hs
  | concatChar i c out => exact not_sound_concatChar hi hs
  | concatNumber i value temp out => exact not_sound_concatNumber hi hs
  | plus left right copy out => exact not_sound_plus hi hs

/-! ## Runs -/

/-- **Refinement**: the strings of a program show their sequences after every call, and no memory
is misused, if and only if every call is safe. -/
theorem refines_iff (labels : List StringLabel) :
    Along step Sound start labels ↔ Meets step Safe start labels :=
  along_iff_meets (V := fun _ _ => True) (fun _ l hi _ hs => inv_step hi l hs)
    (fun _ hi => sound_of_inv hi) (fun _ l hi _ hs => not_sound_step hi l hs) inv_start
    (meets_of_forall (fun _ _ => trivial) _ _)

/-- `s += s` reads the block that `realloc` has moved away. -/
theorem not_refines_self : ¬ ∀ labels, Along step Sound start labels := by
  intro h
  have hsound : Sound (runs step start
      [.new (.text ⟨⟨[97], by decide⟩, by decide⟩) .inPlace, .concat 0 (.string 0) .moves]) :=
    (h _).last
  have hfault := hsound.fault
  revert hfault
  decide

end Paired

end Bl616cl.Core
