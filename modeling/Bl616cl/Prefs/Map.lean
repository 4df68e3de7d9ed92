import Bl616cl.Lib.Run
import Bl616cl.Prefs.Puts

/-!
# Preferences as a map

Any number of `Preferences` objects over one store, next to the map from namespaces and keys to
typed values that they are meant to be. The two agree at a pair as long as no operation on another
pair has the same joined key, and no other namespace is cleared whose name and slash the joined key
starts with. Names without a slash never get in each other's way.
-/

namespace Bl616cl.Prefs

open Bl616cl.Lib Preferences

/-- An operation on the object with number `i`. -/
inductive PrefOp where
  | begin (i : Nat) (name : Option CStr) (readOnly : Bool)
  | end_ (i : Nat)
  | put (i : Nat) (key : CStr) (arg : PutArg)
  | get (i : Nat) (key : CStr)
  | remove (i : Nat) (key : CStr)
  | clear (i : Nat)

/-- The objects and the store, with the abstract map. -/
structure System where
  objs : Nat → Preferences
  store : Store
  map : List UInt8 → List UInt8 → Option Value

/-- A put that its own checks and the length of the file path let through. -/
def Accepts (p : Preferences) (key : CStr) (v : Value) : Prop :=
  p.readOnly = false ∧ p.ns.text ≠ [] ∧ v.payload.length ≤ 0xFFFFFF ∧
    (joined p.ns.text key).length < efEnvNameMax ∧ (kvKey2Path (joined p.ns.text key)).isSome

instance (p : Preferences) (key : CStr) (v : Value) : Decidable (Accepts p key v) :=
  inferInstanceAs (Decidable (_ ∧ _))

namespace System

def start : System := ⟨fun _ => Preferences.initial, ∅, fun _ _ => none⟩

variable (s : System)

/-- What an operation does to the abstract map. -/
def mapStep : PrefOp → List UInt8 → List UInt8 → Option Value
  | .put i key arg =>
    match arg.value with
    | none => s.map
    | some v => fun n k =>
      if Accepts (s.objs i) key v ∧ (n, k) = ((s.objs i).ns.text, key.chars) then some v
      else s.map n k
  | .remove i key => fun n k =>
    if (n, k) = ((s.objs i).ns.text, key.chars) then none else s.map n k
  | .clear i => fun n k => if n = (s.objs i).ns.text then none else s.map n k
  | .begin .. | .end_ _ | .get .. => s.map

/-- What it does to the objects and the store, when nothing fails. -/
def effect : PrefOp → (Nat → Preferences) × Store
  | .begin i name readOnly =>
    (Function.update s.objs i ((s.objs i).begin name readOnly []).1, s.store)
  | .end_ i => (Function.update s.objs i (s.objs i).end_, s.store)
  | .put i key arg => (s.objs, ((s.objs i).put s.store (some key) arg [] .allOk).1)
  | .get .. => (s.objs, s.store)
  | .remove i key => (s.objs, ((s.objs i).remove s.store (some key)).1)
  | .clear i => (s.objs, ((s.objs i).clear s.store).1)

def step (op : PrefOp) : System := ⟨(s.effect op).1, (s.effect op).2, s.mapStep op⟩

/-- Every object with this namespace reads from the store what the map has for the key. -/
def Faithful (n : List UInt8) (k : CStr) (s : System) : Prop :=
  ∀ i, (s.objs i).ns.text = n → (s.objs i).Reads s.store (some k) (s.map n k.chars)

/-- The operation is not one on another pair, or a `clear` of another namespace, that reaches this
pair's file. -/
def Apart (n : List UInt8) (k : CStr) (s : System) : PrefOp → Prop
  | .put i key arg => ∀ v, arg.value = some v → Accepts (s.objs i) key v →
    joined (s.objs i).ns.text key = joined n k → (s.objs i).ns.text = n
  | .remove i key => (s.objs i).ns.text ≠ [] →
    joined (s.objs i).ns.text key = joined n k → (s.objs i).ns.text = n
  | .clear i => (s.objs i).ns.text ≠ [] →
    (s.objs i).ns.text ++ [0x2F] <+: joined n k → (s.objs i).ns.text = n
  | _ => True

/-- The invariant over runs. -/
structure Agrees (n : List UInt8) (k : CStr) (s : System) : Prop where
  noNul : ∀ i, 0 ∉ (s.objs i).ns.text
  bounded : ∀ v, s.map n k.chars = some v → v.payload.length ≤ 0xFFFFFF
  unnamed : n = [] → s.map n k.chars = none
  content : n ≠ [] → efGetEnvBlob s.store (joined n k) = (s.map n k.chars).map Value.toBlob

end System

/-! ## What the operations do to a key's file -/

variable {p : Preferences} {store : Store} {k key : CStr} {n : List UInt8} {arg : PutArg}
  {v : Value}

theorem joined_eq {n n' : List UInt8} {k k' : CStr} (h : joined n k = joined n' k')
    (hn : n = n') : k.chars = k'.chars := by
  subst hn
  simpa [joined] using h

theorem accepts_iff : Accepts p key v ↔ ∃ path, Reaches p key v [] path := by
  constructor
  · rintro ⟨hro, hns, hlong, hmax, hfit⟩
    obtain ⟨path, hpath⟩ := Option.isSome_iff_exists.mp hfit
    rw [← built_nil] at hmax hpath
    refine ⟨path, hro, hns, hlong, ?_, hmax, rfl, hpath⟩
    rw [built_nil, joined]
    exact List.append_ne_nil_of_right_ne_nil _ (List.cons_ne_nil _ _)
  · rintro ⟨path, hr⟩
    have hmax := hr.keyShort
    have hpath := hr.fits
    rw [built_nil] at hmax hpath
    exact ⟨hr.writable, hr.named, hr.lengthOk, hmax, Option.isSome_iff_exists.mpr ⟨path, hpath⟩⟩

theorem store_put (harg : arg.value = some v) : (p.put store (some key) arg [] .allOk).1 =
    if Accepts p key v then (efSetEnvBlob store (joined p.ns.text key) v.toBlob .allOk).1
    else store := by
  by_cases ha : Accepts p key v
  · obtain ⟨path, hr⟩ := accepts_iff.mp ha
    rw [if_pos ha, put_reached harg hr, built_nil]
  · rw [if_neg ha, put_refused harg fun path hr => ha (accepts_iff.mpr ⟨path, hr⟩)]

theorem store_remove : (p.remove store (some key)).1 =
    if p.ns.text = [] then store else (efDelEnv store (joined p.ns.text key)).1 := by
  by_cases hns : p.ns.text = []
  · simp [remove, WString.length, hns]
  · have hpos : ¬ (p.makeKey (some key) []).1.length = 0 := by
      rw [WString.length, makeKey_joined hns, length_joined]
      omega
    simp [remove, length_ns hns, hpos, hns, makeKey_joined hns]

theorem strncmpEq_iff {a b : List UInt8} (hb : 0 ∉ b) :
    strncmpEq b.length a b = true ↔ b <+: a := by
  induction b generalizing a with
  | nil => simp [strncmpEq]
  | cons c cs ih =>
    have hc : c ≠ 0 := fun h => hb (h ▸ List.mem_cons_self ..)
    have hcs : 0 ∉ cs := fun h => hb (List.mem_cons_of_mem _ h)
    cases a with
    | nil => simp [strncmpEq, hc.symm]
    | cons d ds =>
      by_cases hd : d = c
      · subst hd
        simp [strncmpEq, hc, ih hcs]
      · simp [strncmpEq, hd, Ne.symm hd]

/-- A key belongs to a namespace if it starts with the name and a slash. -/
theorem nsMatch_iff {ns : List UInt8} (key : List UInt8) (hns : 0 ∉ ns) :
    nsMatch ns key = true ↔ ns ++ [0x2F] <+: key := by
  rw [nsMatch, Bool.and_eq_true, strncmpEq_iff hns, beq_iff_eq]
  constructor
  · rintro ⟨⟨rest, rfl⟩, hslash⟩
    rw [List.drop_left] at hslash
    cases rest with
    | nil => simp at hslash
    | cons c cs =>
      obtain rfl : c = 0x2F := hslash
      exact ⟨cs, by simp⟩
  · rintro ⟨rest, rfl⟩
    exact ⟨⟨[0x2F] ++ rest, by simp⟩, by simp⟩

/-- `clear` takes away the keys of its namespace and no others. -/
theorem efGetEnvBlob_clear (store : Store) (hns : p.ns.text ≠ []) (key : List UInt8) :
    efGetEnvBlob (p.clear store).1 key =
      if nsMatch p.ns.text key then none else efGetEnvBlob store key := by
  simp only [Preferences.clear, if_neg (length_ns hns), efGetEnvBlob_delAll, List.mem_filter]
  by_cases hm : nsMatch p.ns.text key = true
  · by_cases hnone : efGetEnvBlob store key = none
    · simp [hm, hnone]
    · simp [hm, mem_efForeachEnv hnone]
  · simp [hm]

/-! ## Runs -/

namespace System

variable {s : System} {i : Nat}

theorem agrees_start : Agrees n k start := by
  refine ⟨fun i => List.not_mem_nil, ?_, fun _ => rfl, fun _ => ?_⟩
  · rintro v ⟨⟩
  · cases h : kvKey2Path (joined n k) <;> simp [efGetEnvBlob, start, h]

theorem text_begin (name : Option CStr) (readOnly : Bool) :
    (p.begin name readOnly []).1.ns.text = p.ns.text ∨
      ∃ c : CStr, name = some c ∧ (p.begin name readOnly []).1.ns.text = c.chars := by
  cases name with
  | none => exact Or.inl rfl
  | some c =>
    rw [Preferences.begin]
    split
    · exact Or.inl rfl
    · refine Or.inr ⟨c, rfl, ?_⟩
      simp only [WString.assign, WString.reserve, alloc]
      split <;> simp_all

theorem agrees_update (h : Agrees n k s) {q : Preferences} (hq : 0 ∉ q.ns.text) :
    Agrees n k ⟨Function.update s.objs i q, s.store, s.map⟩ := by
  refine ⟨fun j => ?_, h.bounded, h.unnamed, h.content⟩
  by_cases hj : j = i
  · subst hj
    simpa using hq
  · simpa [Function.update_of_ne hj] using h.noNul j

theorem Agrees.kept {s' : System} (h : Agrees n k s) (hobjs : s'.objs = s.objs)
    (hmap : s'.map n k.chars = s.map n k.chars)
    (hget : n ≠ [] → efGetEnvBlob s'.store (joined n k) = efGetEnvBlob s.store (joined n k)) :
    Agrees n k s' := by
  refine ⟨fun i => hobjs ▸ h.noNul i, fun v hv => h.bounded v (hmap ▸ hv),
    fun hn => hmap.trans (h.unnamed hn), fun hn => ?_⟩
  rw [hget hn, hmap, h.content hn]

theorem Agrees.gone {s' : System} (h : Agrees n k s) (hobjs : s'.objs = s.objs)
    (hmap : s'.map n k.chars = none)
    (hget : n ≠ [] → efGetEnvBlob s'.store (joined n k) = none) : Agrees n k s' := by
  refine ⟨fun i => hobjs ▸ h.noNul i, fun v hv => ?_, fun _ => hmap, fun hn => ?_⟩
  · rw [hmap] at hv
    cases hv
  · rw [hget hn, hmap]
    rfl

theorem agrees_put (h : Agrees n k s) (hc : Apart n k s (.put i key arg)) :
    Agrees n k (s.step (.put i key arg)) := by
  cases harg : arg.value with
  | none =>
    have hstep : s.step (.put i key arg) = s := by
      simp only [step, effect, mapStep, harg, put_null harg]
    rwa [hstep]
  | some v =>
    have hmap : (s.step (.put i key arg)).map n k.chars =
        if Accepts (s.objs i) key v ∧ (n, k.chars) = ((s.objs i).ns.text, key.chars) then some v
        else s.map n k.chars := by
      simp only [step, mapStep, harg]
    have hstore : (s.step (.put i key arg)).store = if Accepts (s.objs i) key v then
        (efSetEnvBlob s.store (joined (s.objs i).ns.text key) v.toBlob .allOk).1 else s.store :=
      store_put harg
    by_cases ha : Accepts (s.objs i) key v
    · simp only [ha, true_and, if_true] at hmap hstore
      obtain ⟨path, hfit⟩ := Option.isSome_iff_exists.mp ha.2.2.2.2
      have hget := efGetEnvBlob_set s.store hfit (toBlob_ne_nil (v := v)) (joined n k)
      rw [← hstore] at hget
      by_cases hpair : (n, k.chars) = ((s.objs i).ns.text, key.chars)
      · obtain ⟨hn, hk⟩ := Prod.mk.inj hpair
        have hkey : joined n k = joined (s.objs i).ns.text key := by rw [joined, joined, hn, hk]
        rw [if_pos hpair] at hmap
        rw [if_pos hkey] at hget
        refine ⟨h.noNul, fun w hw => ?_, fun he => absurd (hn.symm.trans he) ha.2.1, fun _ => ?_⟩
        · obtain rfl := Option.some.inj (hmap.symm.trans hw)
          exact ha.2.2.1
        · rw [hget, hmap]
          rfl
      · have hother : joined n k ≠ joined (s.objs i).ns.text key := by
          intro he
          have hns := hc v harg ha he.symm
          exact hpair (Prod.ext hns.symm (joined_eq he hns.symm))
        rw [if_neg hpair] at hmap
        rw [if_neg hother] at hget
        exact h.kept rfl hmap fun _ => hget
    · simp only [ha, false_and, if_false] at hmap hstore
      exact h.kept rfl hmap fun _ => by rw [hstore]

theorem agrees_remove (h : Agrees n k s) (hc : Apart n k s (.remove i key)) :
    Agrees n k (s.step (.remove i key)) := by
  have hmap : (s.step (.remove i key)).map n k.chars =
      if (n, k.chars) = ((s.objs i).ns.text, key.chars) then none else s.map n k.chars := rfl
  have hstore : (s.step (.remove i key)).store = if (s.objs i).ns.text = [] then s.store
      else (efDelEnv s.store (joined (s.objs i).ns.text key)).1 := store_remove
  by_cases hpair : (n, k.chars) = ((s.objs i).ns.text, key.chars)
  · obtain ⟨hname, hk⟩ := Prod.mk.inj hpair
    have hkey : joined n k = joined (s.objs i).ns.text key := by rw [joined, joined, hname, hk]
    rw [if_pos hpair] at hmap
    refine h.gone rfl hmap fun hn => ?_
    rw [hstore, if_neg fun hns => hn (hname.trans hns), efGetEnvBlob_del, if_pos hkey]
  · rw [if_neg hpair] at hmap
    refine h.kept rfl hmap fun _ => ?_
    by_cases hns : (s.objs i).ns.text = []
    · rw [hstore, if_pos hns]
    · have hother : joined n k ≠ joined (s.objs i).ns.text key := by
        intro he
        have hname := hc hns he.symm
        exact hpair (Prod.ext hname.symm (joined_eq he hname.symm))
      rw [hstore, if_neg hns, efGetEnvBlob_del, if_neg hother]

theorem agrees_clear (h : Agrees n k s) (hc : Apart n k s (.clear i)) :
    Agrees n k (s.step (.clear i)) := by
  have hmap : (s.step (.clear i)).map n k.chars =
      if n = (s.objs i).ns.text then none else s.map n k.chars := rfl
  have hmatch := nsMatch_iff (joined n k) (h.noNul i)
  by_cases hname : n = (s.objs i).ns.text
  · rw [if_pos hname] at hmap
    refine h.gone rfl hmap fun hn => ?_
    have hget := efGetEnvBlob_clear s.store (hname ▸ hn) (joined n k)
    rwa [if_pos (hmatch.mpr ⟨k.chars, by simp [joined, hname]⟩)] at hget
  · rw [if_neg hname] at hmap
    refine h.kept rfl hmap fun _ => ?_
    by_cases hns : (s.objs i).ns.text = []
    · simp [step, effect, Preferences.clear, WString.length, hns]
    · have hget := efGetEnvBlob_clear s.store hns (joined n k)
      rwa [if_neg fun hm => hname (hc hns (hmatch.mp hm)).symm] at hget

/-- **Step**: every operation apart from the pair keeps store and map in agreement at it. -/
theorem agrees_step (op : PrefOp) (h : Agrees n k s) (hc : Apart n k s op) :
    Agrees n k (s.step op) := by
  cases op with
  | begin i name readOnly =>
    apply agrees_update h
    rcases text_begin (p := s.objs i) name readOnly with ht | ⟨c, -, ht⟩
    · rw [ht]
      exact h.noNul i
    · rw [ht]
      exact c.noNul
  | end_ i => exact agrees_update h List.not_mem_nil
  | put i key arg => exact agrees_put h hc
  | get i key => exact h
  | remove i key => exact agrees_remove h hc
  | clear i => exact agrees_clear h hc

theorem faithful_of_agrees (h : Agrees n k s) : Faithful n k s := by
  rintro i rfl
  by_cases hns : (s.objs i).ns.text = []
  · rw [h.unnamed hns]
    apply reads_none
    simp [blobOf, WString.length, hns]
  · have hget := h.content hns
    have hblob := blobOf_eq s.store (k := k) hns
    cases hv : s.map (s.objs i).ns.text k.chars with
    | none =>
      rw [hv] at hget
      exact reads_none (hblob.trans (readBlob_none hget))
    | some v =>
      rw [hv] at hget
      exact reads_of_blob (hblob.trans (readBlob_toBlob hget)) (h.bounded v hv)

/-- **Preferences**: over any run of any number of objects, what is read at a pair is what the map
has for it, as long as every operation on the way stays apart from the pair. -/
theorem faithful_of_apart (n : List UInt8) (k : CStr) (ops : List PrefOp)
    (h : Meets step (Apart n k) start ops) : Along step (Faithful n k) start ops :=
  (along_of_meets (fun _ op ha hc => agrees_step op ha hc) agrees_start h).mono
    fun _ => faithful_of_agrees

/-! ## Names without a slash -/

/-- A name without a slash is what stands before the first slash of the joined key. -/
theorem takeWhile_slash (hn : 0x2F ∉ n) (rest : List UInt8) :
    (n ++ 0x2F :: rest).takeWhile (· ≠ 0x2F) = n := by
  rw [List.takeWhile_append_of_pos]
  · simp
  · intro c hc
    have hne : c ≠ 0x2F := fun h => hn (h ▸ hc)
    simpa using hne

theorem name_unique {n' r r' : List UInt8} (hn : 0x2F ∉ n) (hn' : 0x2F ∉ n')
    (h : n ++ 0x2F :: r = n' ++ 0x2F :: r') : n = n' := by
  rw [← takeWhile_slash hn r, h, takeWhile_slash hn' r']

/-- The operation gives no object a name with a slash. -/
def Plain : PrefOp → Prop
  | .begin _ (some name) _ => 0x2F ∉ name.chars
  | _ => True

theorem apart_of_plain (hn : 0x2F ∉ n) (hs : ∀ i, 0x2F ∉ (s.objs i).ns.text) (op : PrefOp) :
    Apart n k s op := by
  cases op with
  | put i key arg => exact fun v _ _ h => name_unique (hs i) hn h
  | remove i key => exact fun _ h => name_unique (hs i) hn h
  | clear i =>
    rintro - ⟨rest, h⟩
    rw [List.append_assoc] at h
    exact name_unique (hs i) hn h
  | begin i name readOnly => trivial
  | end_ i => trivial
  | get i key => trivial

theorem plain_step {op : PrefOp} (hs : ∀ i, 0x2F ∉ (s.objs i).ns.text) (hop : Plain op) (i : Nat) :
    0x2F ∉ ((s.step op).objs i).ns.text := by
  cases op with
  | begin j name readOnly =>
    by_cases hij : i = j
    · subst hij
      simp only [step, effect, Function.update_self]
      rcases text_begin (p := s.objs i) name readOnly with ht | ⟨c, rfl, ht⟩
      · rw [ht]
        exact hs i
      · rw [ht]
        exact hop
    · simpa [step, effect, Function.update_of_ne hij] using hs i
  | end_ j =>
    by_cases hij : i = j
    · subst hij
      simp [step, effect, end_, WString.init]
    · simpa [step, effect, Function.update_of_ne hij] using hs i
  | put j key arg => exact hs i
  | remove j key => exact hs i
  | clear j => exact hs i
  | get j key => exact hs i

/-- Objects whose names have no slash never get in each other's way, whatever their keys. -/
theorem faithful_of_plain (hn : 0x2F ∉ n) (k : CStr) (ops : List PrefOp)
    (h : Meets step (fun _ => Plain) start ops) : Along step (Faithful n k) start ops := by
  have hrun : Along step (fun s => Agrees n k s ∧ ∀ i, 0x2F ∉ (s.objs i).ns.text) start ops := by
    refine along_of_meets (fun s op ⟨ha, hs⟩ hop => ⟨?_, plain_step hs hop⟩)
      ⟨agrees_start, fun i => List.not_mem_nil⟩ h
    exact agrees_step op ha (apart_of_plain hn hs op)
  exact hrun.mono fun _ hs => faithful_of_agrees hs.1

/-! ## Names with a slash -/

def nameA : CStr := ⟨[0x61], by decide⟩
def nameAB : CStr := ⟨[0x61, 0x2F, 0x62], by decide⟩
def nameB : CStr := ⟨[0x62], by decide⟩

theorem faithful_twoObjects : Along step (Faithful nameA.chars nameB) start
    [.begin 0 (some nameA) false, .begin 1 (some nameB) false,
      .put 0 nameB (.scalar .uChar 7#8), .put 1 nameB (.scalar .uChar 8#8), .clear 1] := by
  refine faithful_of_apart _ _ _ ⟨trivial, trivial, ?_, ?_, ?_, trivial⟩
  · exact fun v _ _ _ => rfl
  · exact fun v _ _ h => absurd h (by decide)
  · exact fun _ h => absurd h (by decide)

/-- Clearing the namespace `a` takes the keys of `a/b` with it. -/
theorem clear_prefix : ¬ ∀ (n : List UInt8) (k : CStr) (ops : List PrefOp),
    Along step (Faithful n k) start ops := by
  intro h
  have hread := (h nameAB.chars nameB [.begin 0 (some nameA) false, .begin 1 (some nameAB) false,
    .put 1 nameB (.scalar .uChar 7#8), .clear 0]).last 1 rfl
  have htype := hread.type
  revert htype
  decide

end System

end Bl616cl.Prefs
