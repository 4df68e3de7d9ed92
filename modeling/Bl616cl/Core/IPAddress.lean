import Bl616cl.Prefs.WString
import Bl616cl.Core.Print

/-!
# IPAddress

Addresses as dotted quads: `fromString` reads them in one pass, `toString` and `printTo` write them.
The `String` in `toString` is taken to get its memory.
-/

namespace Bl616cl.Core

open Bl616cl.Lib
open Bl616cl.Prefs (CStr)

structure IPAddress where
  b0 : UInt8
  b1 : UInt8
  b2 : UInt8
  b3 : UInt8
  deriving DecidableEq, Repr

def IPAddress.bytes (a : IPAddress) : List UInt8 := [a.b0, a.b1, a.b2, a.b3]

/-- `character >= '0' && character <= '9'`. -/
def isDigit (c : UInt8) : Bool := '0'.toNat ≤ c.toNat && c.toNat ≤ '9'.toNat

/-- `character - '0'`. -/
def decimalDigit (c : UInt8) : Nat := c.toNat - '0'.toNat

namespace IPAddress

/-! ## Reading -/

/-- The loop in `fromString`, up to `break`. The octets in `parsed` are those before `octet`. -/
def parse (parsed : List UInt8) (value : Nat) (haveDigit : Bool) :
    List UInt8 → Option (List UInt8)
  | [] => if !haveDigit || parsed.length ≥ 4 then none else some (parsed ++ [.ofNat value])
  | c :: text =>
    if isDigit c then
      let value := value * 10 + decimalDigit c
      if value > 255 then none else parse parsed value true text
    else if c = dot then
      if !haveDigit || parsed.length ≥ 4 then none
      else parse (parsed ++ [.ofNat value]) 0 false text
    else none

/-- `fromString`; the text may be null. -/
def fromString (a : IPAddress) : Option CStr → Bool × IPAddress
  | none => (false, a)
  | some text =>
    match parse [] 0 false text.chars with
    | some [b0, b1, b2, b3] => (true, ⟨b0, b1, b2, b3⟩)
    | _ => (false, a)

/-! ## Writing -/

/-- `%u`. -/
def decimal (byte : UInt8) : List UInt8 := numeral (digitChar 'a') 10 byte.toNat

/-- `"%u.%u.%u.%u"`. -/
def dotted (a : IPAddress) : List UInt8 :=
  decimal a.b0 ++ dot :: (decimal a.b1 ++ dot :: (decimal a.b2 ++ dot :: decimal a.b3))

def toString (a : IPAddress) : Formatted := .ofBuffer 16 (snprintf 16 a.dotted)

/-- `printTo`: what it emits. -/
def printTo (a : IPAddress) : List UInt8 :=
  a.bytes.zipIdx.flatMap fun (byte, index) =>
    (printUnsignedChar byte.toBitVec 10).text ++ if index ≠ 3 then [dot] else []

/-! ## Dotted quads -/

/-- A string of digits and its value. -/
structure Octet (s : List UInt8) (v : UInt8) : Prop where
  nonempty : s ≠ []
  digits : ∀ c ∈ s, isDigit c = true
  value : positional decimalDigit 10 0 s = v.toNat

/-- Octets with a single dot between any two. -/
inductive Dotted : List UInt8 → List UInt8 → Prop
  | one {s v} (h : Octet s v) : Dotted s [v]
  | more {s v t vs} (h : Octet s v) (rest : Dotted t vs) : Dotted (s ++ dot :: t) (v :: vs)

/-- `fromString` takes the dotted quads, and nothing else, for what they say. -/
structure Reads (a : IPAddress) (t : CStr) : Prop where
  accepts : (a.fromString (some t)).1 = true ↔ ∃ b : IPAddress, Dotted t.chars b.bytes
  sets : ∀ b : IPAddress, Dotted t.chars b.bytes → (a.fromString (some t)).2 = b
  unchanged : (a.fromString (some t)).1 = false → (a.fromString (some t)).2 = a

/-- An address is written as itself, and read back. -/
structure Writes (a : IPAddress) : Prop where
  text : a.toString.text = a.dotted
  fits : a.dotted.length + 1 ≤ a.toString.size
  prints : a.printTo = a.toString.text
  restores : ∀ (b : IPAddress) (t : CStr), t.chars = a.toString.text →
    b.fromString (some t) = (true, a)

/-! ## The loop -/

variable {s t parsed out vs : List UInt8} {value : Nat} {haveDigit : Bool}

theorem parse_digits (hs : ∀ c ∈ s, isDigit c = true) (hv : value ≤ 255) :
    parse parsed value haveDigit (s ++ t) =
      if positional decimalDigit 10 value s ≤ 255 then
        parse parsed (positional decimalDigit 10 value s) (haveDigit || !s.isEmpty) t
      else none := by
  induction s generalizing value haveDigit with
  | nil => simp [positional, hv]
  | cons c s ih =>
    obtain ⟨hc, hs⟩ := List.forall_mem_cons.mp hs
    have hstep : positional decimalDigit 10 value (c :: s) =
        positional decimalDigit 10 (value * 10 + decimalDigit c) s := rfl
    have hle := le_positional decimalDigit (by decide : 0 < 10)
      (value * 10 + decimalDigit c) s
    rw [List.cons_append, parse, if_pos hc, hstep]
    by_cases hbig : value * 10 + decimalDigit c > 255
    · rw [if_pos hbig, if_neg (by omega)]
    · rw [if_neg hbig, ih hs (by omega)]
      simp

theorem parse_octet {v : UInt8} (h : Octet s v) :
    parse parsed 0 false (s ++ t) = parse parsed v.toNat true t := by
  have hlt := v.toNat_lt
  have hne : s.isEmpty = false := by simpa using h.nonempty
  rw [parse_digits h.digits (by decide), h.value, if_pos (by omega), hne]
  rfl

/-- Dotted octets are read, by induction on them. -/
theorem parse_of_dotted (h : Dotted t vs) (hlen : parsed.length + vs.length ≤ 4) :
    parse parsed 0 false t = some (parsed ++ vs) := by
  induction h generalizing parsed with
  | @one s v h =>
    have hoctet : parse parsed 0 false (s ++ []) = parse parsed v.toNat true [] := parse_octet h
    simp only [List.length_singleton] at hlen
    rw [List.append_nil] at hoctet
    rw [hoctet, parse, if_neg (by simp; omega), UInt8.ofNat_toNat]
  | more h rest ih =>
    simp only [List.length_cons] at hlen
    rw [parse_octet h, parse, if_neg (by decide), if_pos rfl, if_neg (by simp; omega),
      UInt8.ofNat_toNat, ih (by simp; omega), List.append_assoc]
    rfl

theorem octet_of_digits (hs : ∀ c ∈ s, isDigit c = true) (hne : s ≠ [])
    (hle : positional decimalDigit 10 0 s ≤ 255) :
    Octet s (.ofNat (positional decimalDigit 10 0 s)) := by
  refine ⟨hne, hs, ?_⟩
  rw [UInt8.toNat_ofNat', Nat.mod_eq_of_lt (by omega)]

/-- What is read is dotted octets: the digits first, then by induction on what is behind the dot. -/
theorem dotted_of_parse (h : parse parsed 0 false t = some out) :
    ∃ vs, Dotted t vs ∧ out = parsed ++ vs ∧ out.length ≤ 4 := by
  induction hn : t.length using Nat.strong_induction_on generalizing t parsed with
  | _ n ih =>
    have hs : ∀ c ∈ t.takeWhile isDigit, isDigit c = true := 
      List.all_eq_true.mp List.all_takeWhile
    have ht := (List.takeWhile_append_dropWhile (p := isDigit) (l := t)).symm
    have hstop : ∀ c r, t.dropWhile isDigit = c :: r → isDigit c = false := fun c r hr => by
      have hhead := List.head?_dropWhile_not isDigit t
      rw [hr] at hhead
      simpa using hhead
    generalize t.takeWhile isDigit = s at hs ht
    generalize t.dropWhile isDigit = r at ht hstop
    subst ht
    rw [parse_digits hs (by decide)] at h
    split at h
    · next hle =>
      cases r with
      | nil =>
        simp only [parse, Bool.false_or, Bool.not_not] at h
        split at h
        · cases h
        · next hno =>
          obtain ⟨hne, hlen⟩ : s ≠ [] ∧ parsed.length < 4 := by simpa using hno
          obtain rfl := Option.some.inj h
          rw [List.append_nil]
          exact ⟨_, .one (octet_of_digits hs hne hle), rfl, by simpa using hlen⟩
      | cons c r =>
        have hc := hstop c r rfl
        simp only [parse, hc, Bool.false_eq_true, if_false, Bool.false_or, Bool.not_not] at h
        split at h
        · next hdot =>
          subst hdot
          split at h
          · cases h
          · next hno =>
            obtain ⟨hne, hlen⟩ : s ≠ [] ∧ parsed.length < 4 := by simpa using hno
            obtain ⟨vs, hrest, rfl, hout⟩ := ih r.length (by simp at hn; omega) h rfl
            refine ⟨_, .more (octet_of_digits hs hne hle) hrest, ?_, hout⟩
            simp
        · cases h
    · cases h

theorem dotted_bytes_iff (t : List UInt8) (a : IPAddress) :
    Dotted t a.bytes ↔ parse [] 0 false t = some a.bytes := by
  constructor
  · intro h
    exact parse_of_dotted h (by simp)
  · intro h
    obtain ⟨vs, hd, hvs, -⟩ := dotted_of_parse h
    rwa [hvs]

theorem fromString_of_parse {a b : IPAddress} {t : CStr}
    (h : parse [] 0 false t.chars = some b.bytes) : a.fromString (some t) = (true, b) := by
  simp only [fromString, h]
  rfl

/-- Anything else than four octets leaves the address alone. -/
theorem fromString_cases (a : IPAddress) (t : CStr) :
    (∃ b : IPAddress, Dotted t.chars b.bytes ∧ a.fromString (some t) = (true, b)) ∨
      (¬ ∃ b : IPAddress, Dotted t.chars b.bytes) ∧ a.fromString (some t) = (false, a) := by
  by_cases h : ∃ b : IPAddress, Dotted t.chars b.bytes
  · obtain ⟨b, hb⟩ := h
    exact Or.inl ⟨b, hb, fromString_of_parse ((dotted_bytes_iff _ b).mp hb)⟩
  · refine Or.inr ⟨h, ?_⟩
    simp only [fromString]
    split
    · next hparse => exact absurd ⟨⟨_, _, _, _⟩, (dotted_bytes_iff _ _).mpr hparse⟩ h
    · rfl

theorem reads (a : IPAddress) (t : CStr) : Reads a t := by
  rcases fromString_cases a t with ⟨b, hb, heq⟩ | ⟨hno, heq⟩
  · refine ⟨?_, fun b' hb' => ?_, fun h => ?_⟩
    · rw [heq]
      exact iff_of_true rfl ⟨b, hb⟩
    · rw [fromString_of_parse ((dotted_bytes_iff _ b').mp hb')]
    · rw [heq] at h
      cases h
  · refine ⟨?_, fun b' hb' => absurd ⟨b', hb'⟩ hno, fun _ => by rw [heq]⟩
    rw [heq]
    exact iff_of_false Bool.false_ne_true hno

/-! ## Written addresses -/

theorem octet_decimal (v : UInt8) : Octet (decimal v) v := by
  refine ⟨numeral_ne_nil _ (by decide) _, fun c hc => ?_, ?_⟩
  · obtain ⟨d, hd, rfl⟩ := mem_numeral (by decide) hc
    have hall : ∀ e ∈ List.range 10, isDigit (digitChar 'a' e) = true := by decide
    exact hall d (List.mem_range.mpr hd)
  · have hall : ∀ e ∈ List.range 10, decimalDigit (digitChar 'a' e) = e := by decide
    exact positional_numeral (by decide) (fun d hd => hall d (List.mem_range.mpr hd)) _

theorem dotted_dotted (a : IPAddress) : Dotted a.dotted a.bytes :=
  .more (octet_decimal _) <| .more (octet_decimal _) <| .more (octet_decimal _) <|
    .one (octet_decimal _)

theorem length_decimal (v : UInt8) : (decimal v).length ≤ 3 :=
  length_numeral_le _ (by decide) (by decide) (v.toNat_lt.trans (by decide))

theorem length_dotted (a : IPAddress) : a.dotted.length < 16 := by
  have h0 := length_decimal a.b0
  have h1 := length_decimal a.b1
  have h2 := length_decimal a.b2
  have h3 := length_decimal a.b3
  simp only [dotted, List.length_append, List.length_cons]
  omega

theorem zero_notMem_dotted (a : IPAddress) : 0 ∉ a.dotted := by
  have hdecimal : ∀ v, 0 ∉ decimal v := fun v =>
    zero_notMem_numeral (by simp) (by decide) (by decide) _
  have hdot : (0 : UInt8) ≠ dot := by decide
  simp [dotted, hdecimal, hdot]

theorem toString_text (a : IPAddress) : a.toString.text = a.dotted := by
  unfold toString
  rw [snprintf_of_lt a.length_dotted]
  exact cText_append_zero a.zero_notMem_dotted

theorem print_octet (v : UInt8) : (printUnsignedChar v.toBitVec 10).text = decimal v := by
  have hwide : (v.toBitVec.setWidth 32).toNat = v.toNat := by
    rw [BitVec.toNat_setWidth]
    exact Nat.mod_eq_of_lt (v.toNat_lt.trans (by decide))
  have hcase : ∀ e ∈ List.range 10, digitChar 'A' e = digitChar 'a' e := by decide
  unfold printUnsignedChar printUnsignedLong
  rw [if_neg (by decide), (printNumber_eq (by decide) (by decide) _).1, hwide]
  exact numeral_congr _ (by decide) (fun d hd => hcase d (List.mem_range.mpr hd)) _

theorem printTo_eq (a : IPAddress) : a.printTo = a.dotted := by
  simp [printTo, bytes, dotted, print_octet]

theorem writes (a : IPAddress) : Writes a :=
  ⟨a.toString_text, a.length_dotted, by rw [printTo_eq, toString_text], fun b t ht =>
    fromString_of_parse ((dotted_bytes_iff _ a).mp (by
      rw [ht, toString_text]
      exact a.dotted_dotted))⟩

/-- **IPAddress**: `fromString` takes exactly the dotted quads, and printing is its inverse. -/
theorem reads_and_writes (a : IPAddress) : (∀ t : CStr, Reads a t) ∧ Writes a :=
  ⟨reads a, writes a⟩

end IPAddress

end Bl616cl.Core
