import Mathlib.Tactic.Common

/-!
# Text and its lines

Reading bytes as UTF-8, with U+FFFD in place of what is none, and cutting a text at its line
boundaries, both as Python does.
-/

namespace Bl616cl.Lib

/-! ## UTF-8 -/

/-- A character of which some bytes are still to come: how many, the bounds of the next one, and
the bits so far. -/
structure Partial where
  left : Nat
  low : Nat
  high : Nat
  bits : Nat

/-- A byte where a character begins: what it gives at once, and what it leaves open. -/
def firstByte (b : Nat) : List Char × Option Partial :=
  if b < 0x80 then ([Char.ofNat b], none)
  else if 0xC2 ≤ b ∧ b ≤ 0xDF then ([], some ⟨1, 0x80, 0xBF, b - 0xC0⟩)
  else if 0xE0 ≤ b ∧ b ≤ 0xEF then
    -- no overlong forms, no surrogates
    ([], some ⟨2, if b = 0xE0 then 0xA0 else 0x80, if b = 0xED then 0x9F else 0xBF, b - 0xE0⟩)
  else if 0xF0 ≤ b ∧ b ≤ 0xF4 then
    ([], some ⟨3, if b = 0xF0 then 0x90 else 0x80, if b = 0xF4 then 0x8F else 0xBF, b - 0xF0⟩)
  else (['\uFFFD'], none)

def decodeFrom : Option Partial → List UInt8 → List Char
  | none, [] => []
  | some _, [] => ['\uFFFD']
  | none, b :: bs =>
    let (out, next) := firstByte b.toNat
    out ++ decodeFrom next bs
  | some p, b :: bs =>
    let bits := p.bits * 64 + b.toNat % 64
    if p.low ≤ b.toNat ∧ b.toNat ≤ p.high then
      if p.left = 1 then Char.ofNat bits :: decodeFrom none bs
      else decodeFrom (some ⟨p.left - 1, 0x80, 0xBF, bits⟩) bs
    else
      -- the byte that does not go on begins a character of its own
      let (out, next) := firstByte b.toNat
      '\uFFFD' :: (out ++ decodeFrom next bs)

/-- `bytes.decode("utf-8", "replace")`. -/
def decodeUtf8 (bytes : List UInt8) : List Char := decodeFrom none bytes

example : decodeUtf8 [0x61, 0xE4, 0xBD, 0xA0, 0xE4, 0xBD, 0x62] = ['a', '你', '\uFFFD', 'b'] := by
  decide

/-! ## Lines -/

def isBreak (c : Char) : Bool :=
  ['\n', '\r', '\x0b', '\x0c', '\x1c', '\x1d', '\x1e', '\u0085', '\u2028', '\u2029'].contains c

/-- `str.splitlines`. -/
def splitlines : List Char → List (List Char)
  | [] => []
  | '\r' :: '\n' :: cs => [] :: splitlines cs
  | c :: cs =>
    if isBreak c then [] :: splitlines cs
    else match splitlines cs with
      | [] => [[c]]
      | l :: ls => (c :: l) :: ls

def startsWith (line : List Char) (start : String) : Bool := start.toList.isPrefixOf line

theorem splitlines_cons {c : Char} (h : isBreak c = false) (cs : List Char) :
    splitlines (c :: cs) = match splitlines cs with
      | [] => [[c]]
      | l :: ls => (c :: l) :: ls := by
  rw [splitlines]
  · rw [if_neg (by simp [h])]
  · intro cs' hc _
    rw [hc] at h
    exact absurd h (by decide)

theorem splitlines_newline (cs : List Char) : splitlines ('\n' :: cs) = [] :: splitlines cs := rfl

/-- A line without boundaries in it, and its end. -/
theorem splitlines_append {l : List Char} (h : ∀ c ∈ l, isBreak c = false) (cs : List Char) :
    splitlines (l ++ '\n' :: cs) = l :: splitlines cs := by
  induction l with
  | nil => exact splitlines_newline cs
  | cons c l ih =>
    obtain ⟨hc, hl⟩ := List.forall_mem_cons.1 h
    rw [List.cons_append, splitlines_cons hc, ih hl]

theorem splitlines_flatMap {lines : List (List Char)}
    (h : ∀ l ∈ lines, ∀ c ∈ l, isBreak c = false) :
    splitlines (lines.flatMap fun l => l ++ ['\n']) = lines := by
  induction lines with
  | nil => rfl
  | cons l lines ih =>
    obtain ⟨hl, hlines⟩ := List.forall_mem_cons.1 h
    rw [List.flatMap_cons, List.append_assoc, List.singleton_append, splitlines_append hl,
      ih hlines]

end Bl616cl.Lib
