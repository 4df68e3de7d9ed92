import Mathlib.Data.List.Basic
import Bl616cl.Lib.Text

/-!
# Quoted names

Names that are byte strings, printed as they are where all characters are plain, and otherwise
between double quotes with C's escapes. A quoted name shows where it ends, so that no other begins
with it.
-/

namespace Bl616cl.Lib

def byteChar (b : UInt8) : Char := Char.ofNat b.toNat

/-- Printed without quotes. -/
def isPlain (b : UInt8) : Bool := 32 < b && b < 127 && b != 34 && b != 92

def octalDigit (n : UInt8) : Char := Char.ofNat (48 + n.toNat % 8)

/-- What stands for a byte between quotes. -/
def escape (b : UInt8) : List Char :=
  if b = 7 then ['\\', 'a']
  else if b = 8 then ['\\', 'b']
  else if b = 9 then ['\\', 't']
  else if b = 10 then ['\\', 'n']
  else if b = 11 then ['\\', 'v']
  else if b = 12 then ['\\', 'f']
  else if b = 13 then ['\\', 'r']
  else if b = 34 then ['\\', '"']
  else if b = 92 then ['\\', '\\']
  else if 32 ≤ b ∧ b < 127 then [byteChar b]
  else ['\\', octalDigit (b / 64), octalDigit (b / 8), octalDigit b]

def quote (name : List UInt8) : List Char := '"' :: (name.flatMap escape ++ ['"'])

def printName (name : List UInt8) : List Char :=
  if name.all isPlain then name.map byteChar else quote name

/-! ## Escapes -/

/-- How long the first escape of a text is. -/
def escapeWidth : List Char → Nat
  | '\\' :: c :: _ => if '0' ≤ c ∧ c ≤ '7' then 4 else 2
  | _ => 1

/-- The byte of an escape. -/
def unescapeByte : List Char → Nat
  | ['\\', c] =>
    match c with
    | 'a' => 7 | 'b' => 8 | 't' => 9 | 'n' => 10 | 'v' => 11 | 'f' => 12 | 'r' => 13
    | c => c.toNat
  | ['\\', x, y, z] => (x.toNat - 48) * 64 + (y.toNat - 48) * 8 + (z.toNat - 48)
  | [c] => c.toNat
  | _ => 0

/-- What is true of the bytes one by one is true of all. -/
theorem forall_byte {P : UInt8 → Prop} (h : ∀ n < 256, P (UInt8.ofNat n)) (b : UInt8) : P b := by
  have := h b.toNat b.toNat_lt
  rwa [UInt8.ofNat_toNat] at this

theorem unescapeByte_escape (b : UInt8) : unescapeByte (escape b) = b.toNat := by
  revert b
  apply forall_byte
  decide +kernel

theorem escapeWidth_escape (b : UInt8) :
    escapeWidth (escape b) = (escape b).length ∧ (escape b).head? ≠ none ∧
      ((escape b).head? = some '\\' → 2 ≤ (escape b).length) := by
  revert b
  apply forall_byte
  decide +kernel

theorem head_escape (b : UInt8) : (escape b).head? ≠ some '"' := by
  revert b
  apply forall_byte
  decide +kernel

theorem isBreak_escape (b : UInt8) : ∀ c ∈ escape b, isBreak c = false := by
  have hall : (escape b).all (fun c => !isBreak c) = true := by
    revert b
    apply forall_byte
    decide +kernel
  intro c hc
  simpa using List.all_eq_true.1 hall c hc

theorem plain_byteChar (b : UInt8) :
    isPlain b = true → isBreak (byteChar b) = false ∧ byteChar b ≠ '"' := by
  revert b
  apply forall_byte
  decide +kernel

theorem escapeWidth_append (b : UInt8) (rest : List Char) :
    escapeWidth (escape b ++ rest) = (escape b).length := by
  obtain ⟨hwidth, hhead, hlong⟩ := escapeWidth_escape b
  rw [← hwidth]
  match hb : escape b with
  | [] => exact absurd (by rw [hb]; rfl) hhead
  | [c] =>
    have hne : c ≠ '\\' := by
      rintro rfl
      have := hlong (by rw [hb]; rfl)
      rw [hb] at this
      exact absurd this (by decide)
    simp [escapeWidth, hne]
  | c :: c' :: cs =>
    by_cases hc : c = '\\'
    · rw [hc]
      rfl
    · simp [escapeWidth, hc]

theorem escape_append_inj {b c : UInt8} {rest rest' : List Char}
    (h : escape b ++ rest = escape c ++ rest') : b = c ∧ rest = rest' := by
  have hlen : (escape b).length = (escape c).length := by
    rw [← escapeWidth_append b rest, h, escapeWidth_append]
  obtain ⟨hesc, hrest⟩ := List.append_inj h hlen
  refine ⟨?_, hrest⟩
  have hvalue := congrArg unescapeByte hesc
  rw [unescapeByte_escape, unescapeByte_escape] at hvalue
  exact UInt8.toNat_inj.1 hvalue

theorem quote_ne_escape (b : UInt8) (rest rest' : List Char) : '"' :: rest ≠ escape b ++ rest' := by
  intro h
  have hhead := head_escape b
  obtain ⟨-, hne, -⟩ := escapeWidth_escape b
  match hb : escape b with
  | [] => exact hne (by rw [hb]; rfl)
  | c :: cs =>
    rw [hb] at h hhead
    exact hhead (congrArg some (List.cons.inj h).1.symm)

/-! ## Names -/

theorem body_append_inj {p q : List UInt8} {rest rest' : List Char}
    (h : p.flatMap escape ++ '"' :: rest = q.flatMap escape ++ '"' :: rest') : p = q := by
  induction p generalizing q with
  | nil =>
    cases q with
    | nil => rfl
    | cons c q =>
      rw [List.flatMap_cons, List.append_assoc] at h
      exact absurd h (quote_ne_escape c _ _)
  | cons b p ih =>
    cases q with
    | nil =>
      rw [List.flatMap_cons, List.append_assoc] at h
      exact absurd h.symm (quote_ne_escape b _ _)
    | cons c q =>
      rw [List.flatMap_cons, List.append_assoc, List.flatMap_cons, List.append_assoc] at h
      obtain ⟨rfl, hrest⟩ := escape_append_inj h
      rw [ih hrest]

/-- No quoted name begins another one. -/
theorem quote_append_inj {p q : List UInt8} {rest rest' : List Char}
    (h : quote p ++ rest = quote q ++ rest') : p = q := by
  simp only [quote, List.cons_append, List.append_assoc, List.nil_append] at h
  exact body_append_inj (List.cons.inj h).2

/-- A name is printed as it is, without quotes in it, or between them. -/
theorem printName_cases (name : List UInt8) :
    (printName name = name.map byteChar ∧ name.all isPlain = true ∧ '"' ∉ printName name) ∨
      printName name = quote name := by
  unfold printName
  cases hplain : name.all isPlain with
  | true =>
    refine .inl ⟨if_pos rfl, rfl, fun hmem => ?_⟩
    rw [if_pos rfl] at hmem
    obtain ⟨b, hb, heq⟩ := List.mem_map.1 hmem
    exact (plain_byteChar b (List.all_eq_true.1 hplain b hb)).2 heq
  | false => exact .inr (if_neg Bool.false_ne_true)

theorem isBreak_printName (name : List UInt8) : ∀ c ∈ printName name, isBreak c = false := by
  intro c hc
  rcases printName_cases name with ⟨heq, hplain, -⟩ | heq
  · rw [heq] at hc
    obtain ⟨b, hb, rfl⟩ := List.mem_map.1 hc
    exact (plain_byteChar b (List.all_eq_true.1 hplain b hb)).1
  · rw [heq, quote] at hc
    rcases List.mem_cons.1 hc with rfl | hc
    · rfl
    rcases List.mem_append.1 hc with hc | hc
    · obtain ⟨b, -, hcb⟩ := List.mem_flatMap.1 hc
      exact isBreak_escape b c hcb
    · rw [List.mem_singleton.1 hc]
      rfl

theorem toNat_byteChar (b : UInt8) : (byteChar b).toNat = b.toNat := by
  revert b
  apply forall_byte
  decide +kernel

theorem byteChar_inj {b c : UInt8} (h : byteChar b = byteChar c) : b = c := by
  have hnat := congrArg Char.toNat h
  rw [toNat_byteChar, toNat_byteChar] at hnat
  exact UInt8.toNat_inj.1 hnat

theorem printName_inj {p q : List UInt8} (h : printName p = printName q) : p = q := by
  have hquote : ∀ name : List UInt8, '"' ∈ quote name := fun name => List.mem_cons_self ..
  rcases printName_cases p with ⟨hp, -, hpq⟩ | hp <;>
    rcases printName_cases q with ⟨hq, -, hqq⟩ | hq
  · rw [hp, hq] at h
    exact List.map_injective_iff.2 (fun _ _ => byteChar_inj) h
  · rw [h, hq] at hpq
    exact absurd (hquote q) hpq
  · rw [← h, hp] at hqq
    exact absurd (hquote p) hqq
  · rw [hp, hq] at h
    exact quote_append_inj (congrArg (· ++ []) h)

end Bl616cl.Lib
