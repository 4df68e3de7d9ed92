import Bl616cl.Lib.Numeral
import Bl616cl.Lib.Quoted

/-!
# What is hashed of untracked files

`sdk_fingerprint` writes a record for every untracked file that it finds, the name with the hash
or with size and time behind it, and nothing between two records. `told_eq` says that all the same
the text tells what is written of each of a list of names.
-/

namespace Bl616cl.Runtime

open Bl616cl.Lib

/-- What is written of a file. -/
inductive Told where
  | hash (digest : List Char)
  | stat (size mtimeNs : Nat)

def decimal (n : Nat) : List Char := numeral (fun d => Char.ofNat (48 + d)) 10 n

def Told.text : Told → List Char
  | hash digest => digest
  | stat size mtimeNs => decimal size ++ ':' :: decimal mtimeNs

/-- The bytes of one `digest.update`. -/
def record (name : List Char) : Option Told → List Char
  | none => []
  | some told => name ++ ':' :: told.text

/-- The bytes of all of them. -/
def records (told : List Char → Option Told) (names : List (List Char)) : List Char :=
  names.flatMap fun name => record name (told name)

/-- A hash has 64 digits, and a size fits into `off_t`. -/
def Told.Fits : Told → Prop
  | hash digest => digest.length = 64 ∧ ':' ∉ digest
  | stat size _ => size < 2 ^ 63

/-- A name that `git status` prints. -/
def IsPrinted (name : List Char) : Prop := ∃ path, path ≠ [] ∧ name = printName path

variable {names : List (List Char)} {name d x y : List Char} {a b : List Char → Option Told}
  {s t : Told}

/-! ## Numbers -/

theorem isDigit_of_mem_decimal {n : Nat} {c : Char} (h : c ∈ decimal n) : c.isDigit = true := by
  have hdigit : ∀ d < 10, (Char.ofNat (48 + d)).isDigit = true := by decide
  obtain ⟨d, hd, rfl⟩ := mem_numeral (by omega) h
  exact hdigit d hd

theorem decimal_inj {m n : Nat} (h : decimal m = decimal n) : m = n := by
  have hval : ∀ d < 10, (Char.ofNat (48 + d)).toNat - 48 = d := by decide
  calc m = positional (fun c => c.toNat - 48) 10 0 (decimal m) :=
        (positional_numeral (show 1 < 10 by omega) hval m).symm
    _ = positional (fun c => c.toNat - 48) 10 0 (decimal n) := by rw [h]
    _ = n := positional_numeral (show 1 < 10 by omega) hval n

theorem length_decimal_lt {n : Nat} (h : n < 2 ^ 63) : (decimal n).length < 64 := by
  have hle : (decimal n).length ≤ 19 :=
    (length_numeral_le_iff _ (show 1 < 10 by omega) (show 0 < 19 by omega)).2 (by omega)
  omega

theorem colon_notMem_decimal (n : Nat) : ':' ∉ decimal n := by
  intro h
  exact absurd (isDigit_of_mem_decimal h) (by decide)

/-- Some digits. -/
def Digits (d : List Char) : Prop := d ≠ [] ∧ ∀ c ∈ d, c.isDigit = true

theorem Digits.colon (h : Digits d) : ':' ∉ d := fun hmem => absurd (h.2 _ hmem) (by decide)

theorem Digits.ne_quote (h : Digits d) (z : List Char) : '"' :: z ≠ d ++ x := by
  obtain ⟨hne, hdigits⟩ := h
  intro heq
  cases d with
  | nil => exact hne rfl
  | cons c d =>
    obtain ⟨rfl, -⟩ := List.cons.inj heq
    exact absurd (hdigits '"' (List.mem_cons_self ..)) (by decide)

/-! ## One record -/

theorem decimal_append {m n : Nat} (h : decimal m ++ x = decimal n ++ y) :
    (m = n ∧ x = y) ∨ ∃ d, Digits d ∧ (x = d ++ y ∨ y = d ++ x) := by
  rcases List.append_eq_append_iff.1 h with ⟨d, hn, hx⟩ | ⟨d, hm, hy⟩
  · by_cases hd : d = []
    · rw [hd, List.append_nil] at hn
      exact .inl ⟨decimal_inj hn.symm, by rw [hx, hd]; rfl⟩
    · refine .inr ⟨d, ⟨hd, fun c hc => isDigit_of_mem_decimal (n := n) ?_⟩, .inl hx⟩
      rw [hn]
      exact List.mem_append_right _ hc
  · by_cases hd : d = []
    · rw [hd, List.append_nil] at hm
      exact .inl ⟨decimal_inj hm, by rw [hy, hd]; rfl⟩
    · refine .inr ⟨d, ⟨hd, fun c hc => isDigit_of_mem_decimal (n := m) ?_⟩, .inr hy⟩
      rw [hm]
      exact List.mem_append_right _ hc

theorem colon_append (hx : ':' ∉ x) (hy : ':' ∉ y) {p q : List Char}
    (h : x ++ ':' :: p = y ++ ':' :: q) : x = y ∧ p = q := by
  induction x generalizing y with
  | nil =>
    cases y with
    | nil => exact ⟨rfl, (List.cons.inj h).2⟩
    | cons c y => exact absurd (by rw [(List.cons.inj h).1]; exact List.mem_cons_self ..) hy
  | cons c x ih =>
    cases y with
    | nil => exact absurd (by rw [← (List.cons.inj h).1]; exact List.mem_cons_self ..) hx
    | cons c' y =>
      obtain ⟨rfl, htail⟩ := List.cons.inj h
      obtain ⟨rfl, rfl⟩ := ih (fun hm => hx (List.mem_cons_of_mem _ hm))
        (fun hm => hy (List.mem_cons_of_mem _ hm)) htail
      exact ⟨rfl, rfl⟩

/-- A hash is longer than a size, and has no colon. -/
theorem hash_ne_stat {digest : List Char} {size mtime : Nat}
    (hs : (Told.hash digest).Fits) (ht : (Told.stat size mtime).Fits) :
    digest ++ x ≠ decimal size ++ ':' :: y := by
  intro h
  obtain ⟨hlen, hcolon⟩ := hs
  have hlt := length_decimal_lt ht
  rcases List.append_eq_append_iff.1 h with ⟨d, hn, -⟩ | ⟨d, hd, hy⟩
  · have := congrArg List.length hn
    rw [List.length_append] at this
    omega
  · cases d with
    | nil =>
      rw [List.append_nil] at hd
      rw [hd] at hlen
      omega
    | cons c d =>
      refine hcolon ?_
      rw [hd, (List.cons.inj hy).1]
      exact List.mem_append_right _ (List.mem_cons_self ..)

/-- What is written of a file shows where it ends, up to digits of the time. -/
theorem text_append (hs : s.Fits) (ht : t.Fits) (h : s.text ++ x = t.text ++ y) :
    (s = t ∧ x = y) ∨ ∃ d, Digits d ∧ (x = d ++ y ∨ y = d ++ x) := by
  cases s with
  | hash p =>
    cases t with
    | hash q =>
      obtain ⟨rfl, rfl⟩ := List.append_inj h (hs.1.trans ht.1.symm)
      exact .inl ⟨rfl, rfl⟩
    | stat size mtime =>
      rw [Told.text, Told.text, List.append_assoc] at h
      exact absurd h (hash_ne_stat hs ht)
  | stat size mtime =>
    cases t with
    | hash q =>
      rw [Told.text, Told.text, List.append_assoc] at h
      exact absurd h.symm (hash_ne_stat ht hs)
    | stat size' mtime' =>
      rw [Told.text, Told.text, List.append_assoc, List.append_assoc] at h
      obtain ⟨hsize, hrest⟩ :=
        colon_append (colon_notMem_decimal size) (colon_notMem_decimal size') h
      rcases decimal_append hrest with ⟨rfl, rfl⟩ | hd
      · rw [decimal_inj hsize]
        exact .inl ⟨rfl, rfl⟩
      · exact .inr hd

/-! ## Records in a row -/

theorem printed_cases (h : IsPrinted name) :
    (name ≠ [] ∧ '"' ∉ name) ∨ ∃ path, name = quote path := by
  obtain ⟨path, hne, rfl⟩ := h
  rcases printName_cases path with ⟨heq, -, hquote⟩ | heq
  · refine .inl ⟨fun hnil => hne ?_, hquote⟩
    rw [heq] at hnil
    exact List.map_eq_nil_iff.1 hnil
  · exact .inr ⟨path, heq⟩

theorem records_cons (a : List Char → Option Told) (name : List Char) (names : List (List Char)) :
    records a (name :: names) = record name (a name) ++ records a names := rfl

/-- A record does not come again behind the digits that it begins with. -/
theorem not_shifted {n : List Char} (hd : Digits d) :
    n ++ ':' :: x ≠ d ++ (n ++ ':' :: y) := by
  intro h
  rcases List.append_eq_append_iff.1 h with ⟨e, he, hx⟩ | ⟨e, he, hy⟩
  · -- the digits go beyond the name
    cases e with
    | nil =>
      rw [List.append_nil] at he
      cases n with
      | nil => exact hd.1 he
      | cons c n =>
        refine hd.colon ?_
        rw [he, (List.cons.inj hx).1]
        exact List.mem_cons_self ..
    | cons c e =>
      refine hd.colon ?_
      rw [he, (List.cons.inj hx).1]
      exact List.mem_append_right _ (List.mem_cons_self ..)
  · have hlen : e.length < n.length := by
      have := List.length_pos_iff.2 hd.1
      rw [he, List.length_append]
      omega
    rw [he, List.append_assoc] at hy
    exact not_shifted hd hy.symm
termination_by n.length

/-- No record without quotes begins with digits and a quote. -/
theorem not_quoted (hd : Digits d) (hname : '"' ∉ name) : name ++ ':' :: x ≠ d ++ '"' :: y := by
  intro h
  rcases List.append_eq_append_iff.1 h with ⟨e, he, hx⟩ | ⟨e, he, hy⟩
  · cases e with
    | nil => exact absurd (List.cons.inj hx).1 (by decide)
    | cons c e =>
      refine hd.colon ?_
      rw [he, (List.cons.inj hx).1]
      exact List.mem_append_right _ (List.mem_cons_self ..)
  · cases e with
    | nil => exact absurd (List.cons.inj hy).1 (by decide)
    | cons c e =>
      refine hname ?_
      rw [he, (List.cons.inj hy).1]
      exact List.mem_append_right _ (List.mem_cons_self ..)

theorem records_ne_quoted (hnames : ∀ n ∈ names, IsPrinted n) (hd : Digits d) :
    records a names ≠ d ++ '"' :: y := by
  intro h
  induction names with
  | nil => exact hd.1 (List.append_eq_nil_iff.1 h.symm).1
  | cons n names ih =>
    obtain ⟨hn, hnames⟩ := List.forall_mem_cons.1 hnames
    rw [records_cons] at h
    cases hrec : a n with
    | none =>
      rw [hrec] at h
      exact ih hnames h
    | some s =>
      rw [hrec, record, List.append_assoc, List.cons_append] at h
      rcases printed_cases hn with ⟨-, hquote⟩ | ⟨path, rfl⟩
      · exact not_quoted hd hquote h
      · exact hd.ne_quote _ h

/-- A quoted name begins a row of records only if it is one of theirs. -/
theorem quoted_ne_records {path : List UInt8} (hnames : ∀ n ∈ names, IsPrinted n)
    (hnot : quote path ∉ names) : quote path ++ x ≠ records b names := by
  intro h
  induction names with
  | nil => cases h
  | cons n names ih =>
    obtain ⟨hn, hnames⟩ := List.forall_mem_cons.1 hnames
    have hne : quote path ≠ n := fun heq => hnot (by rw [heq]; exact List.mem_cons_self ..)
    have hnot' : quote path ∉ names := fun hm => hnot (List.mem_cons_of_mem n hm)
    rw [records_cons] at h
    cases hrec : b n with
    | none =>
      rw [hrec] at h
      exact ih hnames hnot' h
    | some t =>
      rw [hrec, record, List.append_assoc, List.cons_append] at h
      rcases printed_cases hn with ⟨hnil, hquote⟩ | ⟨path', rfl⟩
      · cases n with
        | nil => exact hnil rfl
        | cons c n =>
          refine hquote ?_
          rw [← (List.cons.inj h).1]
          exact List.mem_cons_self ..
      · exact hne (by rw [quote_append_inj h])

/-- The plain names have records in both rows, or in none. -/
def SamePlain (a b : List Char → Option Told) (names : List (List Char)) : Prop :=
  ∀ n ∈ names, '"' ∉ n → (a n).isSome = (b n).isSome

theorem SamePlain.symm (h : SamePlain a b names) : SamePlain b a names :=
  fun n hn hquote => (h n hn hquote).symm

theorem quoted_of_isSome_ne (hname : IsPrinted name)
    (hsame : '"' ∉ name → (a name).isSome = (b name).isSome)
    (hne : (a name).isSome ≠ (b name).isSome) : ∃ path, name = quote path := by
  rcases printed_cases hname with ⟨-, hquote⟩ | hquoted
  · exact absurd (hsame hquote) hne
  · exact hquoted

theorem records_ne_digits (hnames : ∀ n ∈ names, IsPrinted n) (hsame : SamePlain a b names)
    (hd : Digits d) : records a names ≠ d ++ records b names := by
  intro h
  induction names with
  | nil => exact hd.1 (List.append_eq_nil_iff.1 h.symm).1
  | cons n names ih =>
    obtain ⟨hn, hnames'⟩ := List.forall_mem_cons.1 hnames
    obtain ⟨hplain, hsame'⟩ := List.forall_mem_cons.1 hsame
    rw [records_cons, records_cons] at h
    cases ha : a n with
    | none =>
      cases hb : b n with
      | none =>
        rw [ha, hb] at h
        exact ih hnames' hsame' h
      | some t =>
        obtain ⟨path, rfl⟩ := quoted_of_isSome_ne hn hplain (by simp [ha, hb])
        rw [ha, hb, record, record, List.nil_append] at h
        exact records_ne_quoted hnames' hd h
    | some s =>
      cases hb : b n with
      | none =>
        obtain ⟨path, rfl⟩ := quoted_of_isSome_ne hn hplain (by simp [ha, hb])
        rw [ha, record] at h
        exact hd.ne_quote _ h
      | some t =>
        rw [ha, hb, record, record, List.append_assoc, List.append_assoc, List.cons_append,
          List.cons_append] at h
        exact not_shifted hd h

/-- The text tells what is written of each name. -/
theorem told_eq (hnames : ∀ n ∈ names, IsPrinted n) (hnodup : names.Nodup)
    (hsame : SamePlain a b names) (hfits : ∀ n, ∀ t ∈ a n, t.Fits)
    (hfits' : ∀ n, ∀ t ∈ b n, t.Fits) (h : records a names = records b names) :
    ∀ n ∈ names, a n = b n := by
  induction names with
  | nil => exact fun n hn => by cases hn
  | cons n names ih =>
    obtain ⟨hn, hnames'⟩ := List.forall_mem_cons.1 hnames
    obtain ⟨hplain, hsame'⟩ := List.forall_mem_cons.1 hsame
    obtain ⟨hnot, hnodup'⟩ := List.nodup_cons.1 hnodup
    rw [records_cons, records_cons] at h
    have hhead : a n = b n ∧ records a names = records b names := by
      cases ha : a n with
      | none =>
        cases hb : b n with
        | none =>
          rw [ha, hb] at h
          exact ⟨rfl, h⟩
        | some t =>
          obtain ⟨path, rfl⟩ := quoted_of_isSome_ne hn hplain (by simp [ha, hb])
          rw [ha, hb, record, record, List.nil_append, List.append_assoc] at h
          exact absurd h.symm (quoted_ne_records hnames' hnot)
      | some s =>
        cases hb : b n with
        | none =>
          obtain ⟨path, rfl⟩ := quoted_of_isSome_ne hn hplain (by simp [ha, hb])
          rw [ha, hb, record, record, List.nil_append, List.append_assoc] at h
          exact absurd h (quoted_ne_records hnames' hnot)
        | some t =>
          rw [ha, hb, record, record, List.append_assoc, List.append_assoc] at h
          have hrest := (List.cons.inj (List.append_cancel_left h)).2
          rcases text_append (hfits n s ha) (hfits' n t hb) hrest with
            ⟨rfl, hrow⟩ | ⟨d, hd, hx | hy⟩
          · exact ⟨rfl, hrow⟩
          · exact absurd hx (records_ne_digits hnames' hsame' hd)
          · exact absurd hy (records_ne_digits hnames' (SamePlain.symm hsame') hd)
    exact List.forall_mem_cons.2 ⟨hhead.1, ih hnames' hnodup' hsame' hhead.2⟩

end Bl616cl.Runtime
