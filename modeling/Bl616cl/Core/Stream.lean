import Mathlib.Data.List.Chain
import Bl616cl.Core.WString
import Bl616cl.Lib.Word

/-!
# Stream

The reading functions of `Stream`, against a stream that has the next byte or none at each poll and
a clock of 32 bits. What they return and what they take from the stream is one thing, up to one
terminator; a timeout is never too early, and it is missed only by a clock that jumps over it.

A list of polls is what a call may see. Where it is used up the call is still waiting.
-/

namespace Bl616cl.Core

open Bl616cl.Lib

/-- One `read()`, with the time in ms when `start_millis_` would be taken before it, and when the
loop makes its test behind it. -/
structure Poll where
  before : Nat
  result : Option UInt8
  after : Nat
  deriving DecidableEq, Repr

/-- `millis()` at this time. -/
def millis (time : Nat) : Nat := time % 2 ^ 32

/-- The clock goes on from poll to poll. -/
structure Advances (ps : List Poll) : Prop where
  within : ∀ p ∈ ps, p.before ≤ p.after
  next : ps.Pairwise fun p q => p.after ≤ q.before ∧ p.after < q.after

structure Schedule where
  polls : List Poll
  advances : Advances polls

section

variable (timeout : BitVec 32)

/-! ## The functions -/

/-- The test of `timedRead`. -/
def goesOn (start : Nat) (p : Poll) : Bool :=
  decide (sub32 (millis p.after) (millis start) < timeout.toNat)

/-- The loop of `timedRead`: what it returns, and the polls left. -/
def timedReadFrom (start : Nat) : List Poll → Option (Option UInt8 × List Poll)
  | [] => none
  | p :: ps =>
    match p.result with
    | some value => some (some value, ps)
    | none => if goesOn timeout start p then timedReadFrom start ps else some (none, ps)

def timedRead : List Poll → Option (Option UInt8 × List Poll)
  | [] => none
  | p :: ps => timedReadFrom timeout p.before (p :: ps)

/-- The loop of `readBytes` and `readBytesUntil`, with room for some bytes more: those it stores,
and the polls left. -/
def readLoop (stop : UInt8 → Bool) : Nat → List Poll → Option (List UInt8 × List Poll)
  | 0, ps => some ([], ps)
  | room + 1, ps =>
    match timedRead timeout ps with
    | none => none
    | some (none, rest) => some ([], rest)
    | some (some value, rest) =>
      if stop value then some ([], rest)
      else (readLoop stop room rest).map fun r => (value :: r.1, r.2)

def readBytes (length : Nat) (ps : List Poll) : Option (List UInt8 × List Poll) :=
  readLoop timeout (fun _ => false) length ps

/-- A plain `char` is unsigned. -/
def readBytesUntil (terminator : UInt8) (length : Nat) (ps : List Poll) :
    Option (List UInt8 × List Poll) :=
  readLoop timeout (· == terminator) length ps

/-- A string that is returned, and the polls left. -/
structure Returned where
  str : WString
  heap : Heap UInt8
  rest : List Poll

/-- The loop of `readString` and `readStringUntil`; the appends have the results `out k`. A poll at
least is used for every byte. -/
def readStringLoop (stop : UInt8 → Bool) (out : Nat → Realloc) :
    Nat → Nat → WString → Heap UInt8 → List Poll → Option Returned
  | 0, _, _, _, _ => none
  | fuel + 1, k, str, heap, ps =>
    match timedRead timeout ps with
    | none => none
    | some (none, rest) => some ⟨str, heap, rest⟩
    | some (some value, rest) =>
      if stop value then some ⟨str, heap, rest⟩
      else
        let r := str.concat heap (some (.static [value])) 1 (out k)
        readStringLoop stop out fuel (k + 1) r.str r.heap rest

def readString (out : Nat → Realloc) (heap : Heap UInt8) (ps : List Poll) : Option Returned :=
  readStringLoop timeout (fun _ => false) out (ps.length + 1) 0 .init heap ps

def readStringUntil (terminator : UInt8) (out : Nat → Realloc) (heap : Heap UInt8)
    (ps : List Poll) : Option Returned :=
  readStringLoop timeout (· == terminator) out (ps.length + 1) 0 .init heap ps

/-! ## What they are for -/

/-- The bytes that polls deliver. -/
def delivered (ps : List Poll) : List UInt8 := ps.filterMap Poll.result

/-- The longest prefix without a byte to stop at, of a limited length. -/
def longest (stop : UInt8 → Bool) (limit : Option Nat) (bytes : List UInt8) : List UInt8 :=
  (match limit with
    | some n => bytes.take n
    | none => bytes).takeWhile fun value => !stop value

/-- No byte comes for the time of the timeout. -/
def Silent (ps : List Poll) : Prop :=
  (∀ p ∈ ps, p.result = none) ∧
    ∃ first ∈ ps.head?, ∃ last ∈ ps.getLast?, timeout.toNat ≤ last.after - first.before

/-- What is returned is the longest prefix, and with at most one terminator all that is used. -/
inductive Delimited (stop : UInt8 → Bool) (limit : Option Nat) (ps : List Poll)
    (data : List UInt8) (rest : List Poll) : Prop
  | full (used : List Poll) : ps = used ++ rest → delivered used = data →
      limit = some data.length → data = longest stop limit (delivered ps) → Delimited ..
  | stopped (used : List Poll) (value : UInt8) : ps = used ++ rest →
      delivered used = data ++ [value] → stop value = true → (∀ n ∈ limit, data.length < n) →
      data = longest stop limit (delivered ps) → Delimited ..
  | early (used silent : List Poll) : ps = used ++ silent ++ rest → Silent timeout silent →
      delivered used = data → (∀ n ∈ limit, data.length < n) →
      data = longest stop limit (delivered used) → Delimited ..

/-- The functions with a buffer store exactly what they take from the stream, one terminator apart,
and a timeout is not too early. -/
structure ReadsBytes (terminator : UInt8) (length : Nat) (ps : List Poll) : Prop where
  bytesUntil : ∀ data rest, readBytesUntil timeout terminator length ps = some (data, rest) →
    Delimited timeout (· == terminator) (some length) ps data rest
  bytes : ∀ data rest, readBytes timeout length ps = some (data, rest) →
    Delimited timeout (fun _ => false) (some length) ps data rest
  notEarly : ∀ rest, timedRead timeout ps = some (none, rest) →
    ∃ silent, ps = silent ++ rest ∧ Silent timeout silent

/-- The functions with a string return what they take. -/
structure ReadsStrings (terminator : UInt8) (out : Nat → Realloc) (heap : Heap UInt8)
    (ps : List Poll) : Prop where
  stringUntil : ∀ r, readStringUntil timeout terminator out heap ps = some r →
    ∃ data, r.str.Shows r.heap data ∧ Delimited timeout (· == terminator) none ps data r.rest
  string : ∀ r, readString timeout out heap ps = some r →
    ∃ data, r.str.Shows r.heap data ∧ Delimited timeout (fun _ => false) none ps data r.rest

/-- They take what they should, and return of it, in order, what there was memory for. -/
structure TakesStrings (terminator : UInt8) (out : Nat → Realloc) (heap : Heap UInt8)
    (ps : List Poll) : Prop where
  stringUntil : ∀ r, readStringUntil timeout terminator out heap ps = some r →
    ∃ data, Delimited timeout (· == terminator) none ps data r.rest ∧
      ((delivered ps).length + 1 < 2 ^ 32 →
        ∃ kept, kept.Sublist data ∧ r.str.Shows r.heap kept)
  string : ∀ r, readString timeout out heap ps = some r →
    ∃ data, Delimited timeout (fun _ => false) none ps data r.rest ∧
      ((delivered ps).length + 1 < 2 ^ 32 →
        ∃ kept, kept.Sublist data ∧ r.str.Shows r.heap kept)

/-- A timeout is not missed, and the functions return. -/
structure InTime (terminator : UInt8) (length : Nat) (out : Nat → Realloc) (heap : Heap UInt8)
    (ps : List Poll) : Prop where
  notMissed : ∀ silent rest, ps = silent ++ rest → Silent timeout silent →
    ∃ used more, silent = used ++ more ∧ timedRead timeout ps = some (none, more ++ rest)
  bytesReturn : length * (timeout.toNat + 1) ≤ ps.length →
    (readBytesUntil timeout terminator length ps).isSome = true ∧
      (readBytes timeout length ps).isSome = true
  stringReturns : ((delivered ps).length + 1) * (timeout.toNat + 1) ≤ ps.length →
    (readStringUntil timeout terminator out heap ps).isSome = true ∧
      (readString timeout out heap ps).isSome = true

/-- A call returns exactly what it takes from the stream, one terminator apart; it waits as long as
the timeout says, and no longer. -/
structure Reads (terminator : UInt8) (length : Nat) (out : Nat → Realloc) (heap : Heap UInt8)
    (ps : List Poll) : Prop
  extends ReadsBytes timeout terminator length ps, ReadsStrings timeout terminator out heap ps,
    InTime timeout terminator length out heap ps

/-- In a wait the clock makes no step by which it could pass all the values that show the
timeout. -/
structure Steady (ps : List Poll) : Prop where
  within : ∀ p ∈ ps, p.after ≤ p.before + (2 ^ 32 - timeout.toNat)
  next : ps.IsChain fun p q => p.result = none → q.after ≤ p.after + (2 ^ 32 - timeout.toNat)

end

variable {timeout : BitVec 32} {ps qs rest used : List Poll} {p q : Poll} {start prev low : Nat}
  {stop : UInt8 → Bool} {value : UInt8} {data : List UInt8}

theorem Advances.drop (h : Advances (ps ++ qs)) : Advances qs :=
  ⟨fun p hp => h.within p (List.mem_append_right ps hp), (List.pairwise_append.1 h.next).2.1⟩

theorem Steady.drop (h : Steady timeout (ps ++ qs)) : Steady timeout qs :=
  ⟨fun p hp => h.within p (List.mem_append_right ps hp), h.next.right_of_append⟩

theorem Advances.tail (h : Advances (p :: ps)) : Advances ps :=
  Advances.drop (show Advances ([p] ++ ps) from h)

theorem Steady.tail (h : Steady timeout (p :: ps)) : Steady timeout ps :=
  Steady.drop (show Steady timeout ([p] ++ ps) from h)

theorem delivered_append (ps qs : List Poll) :
    delivered (ps ++ qs) = delivered ps ++ delivered qs := List.filterMap_append

theorem delivered_eq_nil (h : ∀ p ∈ ps, p.result = none) : delivered ps = [] :=
  List.filterMap_eq_nil_iff.2 h

/-! ## The clock -/

theorem sub32_millis_le (h : start ≤ p.after) :
    sub32 (millis p.after) (millis start) ≤ p.after - start := by
  unfold sub32 millis
  omega

theorem sub32_millis (h : start ≤ p.after) (hlt : p.after - start < 2 ^ 32) :
    sub32 (millis p.after) (millis start) = p.after - start := by
  unfold sub32 millis
  omega

/-- The loop does not end before the time, whatever the clock does. -/
theorem timeout_le_of_goesOn (h : start ≤ p.after) (hgo : goesOn timeout start p = false) :
    timeout.toNat ≤ p.after - start := by
  have := sub32_millis_le h
  have := of_decide_eq_false hgo
  omega

/-- A test that comes in time goes on only before the time. -/
theorem lt_of_goesOn (hle : start ≤ p.after) (hstep : p.after ≤ prev + (2 ^ 32 - timeout.toNat))
    (hprev : prev < start + timeout.toNat ∨ timeout.toNat = 0)
    (hgo : goesOn timeout start p = true) : p.after < start + timeout.toNat := by
  have hlt := of_decide_eq_true hgo
  have := timeout.isLt
  rw [sub32_millis hle (by omega)] at hlt
  omega

/-! ## One byte -/

theorem timedReadFrom_some {r : Option UInt8} (hstart : ∀ p ∈ ps, start ≤ p.after)
    (h : timedReadFrom timeout start ps = some (r, rest)) :
    ∃ silent p, ps = silent ++ p :: rest ∧ (∀ q ∈ silent, q.result = none) ∧ p.result = r ∧
      (r = none → timeout.toNat ≤ p.after - start) := by
  induction ps with
  | nil => cases h
  | cons p ps ih =>
    obtain ⟨hp, hps⟩ := List.forall_mem_cons.1 hstart
    rw [timedReadFrom] at h
    cases hres : p.result with
    | some value =>
      rw [hres] at h
      cases h
      exact ⟨[], p, rfl, fun q hq => (by cases hq), hres, fun h => (by cases h)⟩
    | none =>
      rw [hres] at h
      cases hgo : goesOn timeout start p with
      | false =>
        simp only [hgo, Bool.false_eq_true, if_false] at h
        cases h
        exact ⟨[], p, rfl, fun q hq => (by cases hq), hres,
          fun _ => timeout_le_of_goesOn hp hgo⟩
      | true =>
        simp only [hgo, if_true] at h
        obtain ⟨silent, last, rfl, hsilent, hlast, htime⟩ := ih hps h
        exact ⟨p :: silent, last, rfl, List.forall_mem_cons.2 ⟨hres, hsilent⟩, hlast, htime⟩

theorem before_le_after (h : Advances (p :: ps)) : ∀ q ∈ p :: ps, p.before ≤ q.after := by
  intro q hq
  have hp := h.within p (List.mem_cons_self ..)
  rcases List.mem_cons.1 hq with rfl | hq
  · exact hp
  · have := (List.pairwise_cons.1 h.next).1 q hq
    omega

/-- What is used are polls without a byte, and the one that ends the wait. -/
theorem timedRead_some {r : Option UInt8} (hadv : Advances ps)
    (h : timedRead timeout ps = some (r, rest)) :
    ∃ silent last, ps = (silent ++ [last]) ++ rest ∧ (∀ q ∈ silent, q.result = none) ∧
      last.result = r ∧ (r = none →
        ∃ first ∈ (silent ++ [last]).head?, timeout.toNat ≤ last.after - first.before) := by
  cases ps with
  | nil => cases h
  | cons p ps =>
    obtain ⟨silent, last, heq, hsilent, hlast, htime⟩ :=
      timedReadFrom_some (before_le_after hadv) h
    have hfirst : p ∈ (silent ++ [last]).head? := by
      cases silent with
      | nil => simpa using (List.cons.inj heq).1.symm
      | cons q silent => simpa using (List.cons.inj heq).1.symm
    refine ⟨silent, last, ?_, hsilent, hlast, fun hnone => ⟨p, hfirst, htime hnone⟩⟩
    rw [heq, List.append_assoc]
    rfl

theorem timedRead_value (hadv : Advances ps)
    (h : timedRead timeout ps = some (some value, rest)) :
    ∃ used, ps = used ++ rest ∧ delivered used = [value] ∧ used ≠ [] := by
  obtain ⟨silent, last, heq, hsilent, hlast, -⟩ := timedRead_some hadv h
  refine ⟨silent ++ [last], heq, ?_, by simp⟩
  rw [delivered_append, delivered_eq_nil hsilent]
  simp [delivered, hlast]

theorem timedRead_timeout (hadv : Advances ps) (h : timedRead timeout ps = some (none, rest)) :
    ∃ silent, ps = silent ++ rest ∧ Silent timeout silent := by
  obtain ⟨silent, last, heq, hsilent, hlast, htime⟩ := timedRead_some hadv h
  obtain ⟨first, hfirst, hlate⟩ := htime rfl
  refine ⟨silent ++ [last], heq, ?_, first, hfirst, last, by simp, hlate⟩
  intro q hq
  rcases List.mem_append.1 hq with hq | hq
  · exact hsilent q hq
  · rw [List.mem_singleton.1 hq]
    exact hlast

/-- The readings of the clock in a wait from here on: not before `low`, and none far behind the one
before. -/
def Ticks (timeout : BitVec 32) : Nat → Nat → List Poll → Prop
  | _, _, [] => True
  | prev, low, p :: ps =>
    low ≤ p.after ∧ p.after ≤ prev + (2 ^ 32 - timeout.toNat) ∧
      (p.result = none → Ticks timeout p.after (p.after + 1) ps)

theorem ticks_of_steady (hadv : Advances (p :: ps)) (hsteady : Steady timeout (p :: ps)) :
    Ticks timeout p.before p.before (p :: ps) := by
  refine ⟨hadv.within p (List.mem_cons_self ..), hsteady.within p (List.mem_cons_self ..), ?_⟩
  induction ps generalizing p with
  | nil => exact fun _ => trivial
  | cons q ps ih =>
    intro hres
    have hq := (List.pairwise_cons.1 hadv.next).1 q (List.mem_cons_self ..)
    refine ⟨by omega, (List.isChain_cons_cons.1 hsteady.next).1 hres, ?_⟩
    exact ih hadv.tail hsteady.tail

theorem timedReadFrom_returns (hticks : Ticks timeout prev low ps) (hstart : start ≤ low)
    (hprev : prev < start + timeout.toNat ∨ timeout.toNat = 0) (hlow : low ≤ start + timeout.toNat)
    (hlen : start + timeout.toNat < low + ps.length) :
    ∃ r used rest, ps = used ++ rest ∧ timedReadFrom timeout start ps = some (r, rest) ∧
      low + used.length ≤ start + timeout.toNat + 1 := by
  induction ps generalizing prev low with
  | nil =>
    rw [List.length_nil] at hlen
    omega
  | cons p ps ih =>
    obtain ⟨hp, hstep, hrest⟩ := hticks
    rw [timedReadFrom]
    cases hres : p.result with
    | some value => exact ⟨some value, [p], ps, rfl, rfl, by simp; omega⟩
    | none =>
      cases hgo : goesOn timeout start p with
      | false => exact ⟨none, [p], ps, rfl, rfl, by simp; omega⟩
      | true =>
        have hlt := lt_of_goesOn (by omega) hstep hprev hgo
        rw [List.length_cons] at hlen
        obtain ⟨r, used, rest, rfl, heq, hused⟩ :=
          ih (hrest hres) (by omega) (.inl hlt) (by omega) (by omega)
        refine ⟨r, p :: used, rest, rfl, heq, ?_⟩
        rw [List.length_cons]
        omega

/-- In a silence the loop ends at the first poll that shows the time. -/
theorem timedReadFrom_silent (hticks : Ticks timeout prev low (ps ++ rest)) (hstart : start ≤ low)
    (hprev : prev < start + timeout.toNat ∨ timeout.toNat = 0)
    (hnone : ∀ p ∈ ps, p.result = none)
    (hlast : ∃ last ∈ ps.getLast?, start + timeout.toNat ≤ last.after) :
    ∃ used more, ps = used ++ more ∧
      timedReadFrom timeout start (ps ++ rest) = some (none, more ++ rest) := by
  induction ps generalizing prev low with
  | nil =>
    obtain ⟨last, hmem, -⟩ := hlast
    cases hmem
  | cons p ps ih =>
    obtain ⟨hp, hstep, hrest⟩ := hticks
    obtain ⟨hres, hnone⟩ := List.forall_mem_cons.1 hnone
    rw [List.cons_append, timedReadFrom, hres]
    cases hgo : goesOn timeout start p with
    | false => exact ⟨[p], ps, rfl, rfl⟩
    | true =>
      have hlt := lt_of_goesOn (by omega) hstep hprev hgo
      obtain ⟨last, hmem, htime⟩ := hlast
      cases ps with
      | nil =>
        obtain rfl : p = last := by simpa using hmem
        omega
      | cons q ps =>
        obtain ⟨used, more, heq, hread⟩ :=
          ih (hrest hres) (by omega) (.inl hlt) hnone ⟨last, by simpa using hmem, htime⟩
        exact ⟨p :: used, more, by rw [heq]; rfl, hread⟩

theorem timedRead_returns (hadv : Advances ps) (hsteady : Steady timeout ps)
    (hlen : timeout.toNat < ps.length) :
    ∃ r used rest, ps = used ++ rest ∧ timedRead timeout ps = some (r, rest) ∧
      used.length ≤ timeout.toNat + 1 := by
  cases ps with
  | nil => cases hlen
  | cons p ps =>
    obtain ⟨r, used, rest, heq, hread, hused⟩ :=
      timedReadFrom_returns (ticks_of_steady hadv hsteady) (Nat.le_refl _) (by omega) (by omega)
        (Nat.add_lt_add_left hlen _)
    exact ⟨r, used, rest, heq, hread, by omega⟩

theorem timedRead_silent (hadv : Advances (ps ++ rest)) (hsteady : Steady timeout (ps ++ rest))
    (hsilent : Silent timeout ps) :
    ∃ used more, ps = used ++ more ∧
      timedRead timeout (ps ++ rest) = some (none, more ++ rest) := by
  obtain ⟨hnone, first, hfirst, last, hlast, htime⟩ := hsilent
  cases ps with
  | nil => cases hfirst
  | cons p ps =>
    obtain rfl : p = first := by simpa using hfirst
    have hle : p.before ≤ last.after :=
      before_le_after hadv last (List.mem_append_left _ (List.mem_of_getLast? hlast))
    exact timedReadFrom_silent (ticks_of_steady hadv hsteady) (Nat.le_refl _) (by omega) hnone
      ⟨last, hlast, by omega⟩

/-! ## Many bytes -/

theorem longest_cons (hstop : stop value = false) (limit : Option Nat) (bytes : List UInt8) :
    longest stop (limit.map (· + 1)) (value :: bytes) = value :: longest stop limit bytes := by
  cases limit <;> simp [longest, hstop]

theorem longest_stop (hstop : stop value = true) (limit : Option Nat) (bytes : List UInt8) :
    longest stop limit (value :: bytes) = [] := by
  cases limit with
  | none => simp [longest, hstop]
  | some n => cases n <;> simp [longest, hstop]

variable {limit : Option Nat}

theorem Delimited.cons (hused : delivered used = [value]) (hstop : stop value = false)
    (h : Delimited timeout stop limit ps data rest) :
    Delimited timeout stop (limit.map (· + 1)) (used ++ ps) (value :: data) rest := by
  have hmore : ∀ qs, delivered (used ++ qs) = value :: delivered qs := by
    intro qs
    rw [delivered_append, hused]
    rfl
  have hroom : (∀ n ∈ limit, data.length < n) →
      ∀ n ∈ limit.map (· + 1), (value :: data).length < n := by
    intro h n hn
    obtain ⟨m, hm, rfl⟩ := Option.map_eq_some_iff.1 hn
    exact Nat.succ_lt_succ (h m hm)
  cases h with
  | full used' heq hdata hlimit hlong =>
    refine .full (used ++ used') (by rw [heq, List.append_assoc]) (by rw [hmore, hdata]) ?_ ?_
    · rw [hlimit]
      rfl
    · rw [hmore, longest_cons hstop, ← hlong]
  | stopped used' last heq hdata hlast hlt hlong =>
    refine .stopped (used ++ used') last (by rw [heq, List.append_assoc]) ?_ hlast (hroom hlt) ?_
    · rw [hmore, hdata]
      rfl
    · rw [hmore, longest_cons hstop, ← hlong]
  | early used' silent heq hsilent hdata hlt hlong =>
    refine .early (used ++ used') silent ?_ hsilent (by rw [hmore, hdata]) (hroom hlt) ?_
    · rw [heq, List.append_assoc, List.append_assoc, List.append_assoc]
    · rw [hmore, longest_cons hstop, ← hlong]

theorem Delimited.ofStop (hused : delivered used = [value]) (hstop : stop value = true)
    (hroom : ∀ n ∈ limit, 0 < n) : Delimited timeout stop limit (used ++ rest) [] rest := by
  refine .stopped used value rfl hused hstop hroom ?_
  rw [delivered_append, hused]
  exact (longest_stop hstop limit _).symm

theorem Delimited.ofSilent (hsilent : Silent timeout ps) (hroom : ∀ n ∈ limit, 0 < n) :
    Delimited timeout stop limit (ps ++ rest) [] rest := by
  refine .early [] ps rfl hsilent rfl hroom ?_
  cases limit <;> simp [longest, delivered]

/-- What the loop of `readBytesUntil` stores and uses. -/
theorem delimited_readLoop {n : Nat} (hadv : Advances ps)
    (h : readLoop timeout stop n ps = some (data, rest)) :
    Delimited timeout stop (some n) ps data rest := by
  induction n generalizing ps data with
  | zero =>
    cases h
    exact .full [] rfl rfl rfl rfl
  | succ n ih =>
    have hroom : ∀ m ∈ some (n + 1), 0 < m := by
      intro m hm
      cases hm
      exact Nat.succ_pos n
    rw [readLoop] at h
    cases hread : timedRead timeout ps with
    | none =>
      rw [hread] at h
      cases h
    | some r =>
      obtain ⟨byte, middle⟩ := r
      cases byte with
      | none =>
        rw [hread] at h
        cases h
        obtain ⟨silent, rfl, hsilent⟩ := timedRead_timeout hadv hread
        exact .ofSilent hsilent hroom
      | some value =>
        obtain ⟨used, rfl, hused, -⟩ := timedRead_value hadv hread
        simp only [hread] at h
        cases hstop : stop value with
        | true =>
          simp only [hstop, if_true] at h
          cases h
          exact .ofStop hused hstop hroom
        | false =>
          simp only [hstop, Bool.false_eq_true, if_false] at h
          obtain ⟨⟨data', rest'⟩, hloop, heq⟩ := Option.map_eq_some_iff.1 h
          cases heq
          exact .cons hused hstop (ih hadv.drop hloop)

theorem isSome_readLoop {n : Nat} (hadv : Advances ps) (hsteady : Steady timeout ps)
    (hlen : n * (timeout.toNat + 1) ≤ ps.length) : (readLoop timeout stop n ps).isSome = true := by
  induction n generalizing ps with
  | zero => rfl
  | succ n ih =>
    rw [Nat.succ_mul] at hlen
    obtain ⟨r, used, rest, rfl, hread, hused⟩ := timedRead_returns hadv hsteady (by omega)
    rw [List.length_append] at hlen
    rw [readLoop, hread]
    cases r with
    | none => rfl
    | some value =>
      cases hstop : stop value with
      | true => simp [hstop]
      | false =>
        have := ih hadv.drop hsteady.drop (by omega)
        simpa [hstop] using this

/-! ## Strings -/

theorem reserve_ok {s : WString} {h : Heap UInt8} {t : List UInt8} {out : Realloc}
    (hh : s.Holds h t) (hout : out.isNull = false) (size : Nat) :
    (s.reserve h size out).ok = true := by
  by_cases henough : s.capacity ≥ size ∧ s.buffer.isSome = true
  · rw [WString.reserve_enough henough]
  · obtain ⟨id, h', hr, -⟩ := Heap.realloc_some hout hh.isSome_block ((size + 1) % 2 ^ 32)
    rw [WString.reserve_some henough hr]

/-- A byte is appended where there is memory for it, and is left out otherwise. -/
theorem holds_concat_byte {s : WString} {h : Heap UInt8} {t : List UInt8} (hh : s.Holds h t)
    (hlen : t.length + 2 < 2 ^ 32) (value : UInt8) (out : Realloc) :
    ∃ kept, kept.Sublist [value] ∧ (out.isNull = false → kept = [value]) ∧
      (s.concat h (some (.static [value])) 1 out).str.Holds
        (s.concat h (some (.static [value])) 1 out).heap (t ++ kept) := by
  have hs : s.length = t.length := hh.length
  have hsafe : s.ConcatSafe (some (.static [value])) [value].length out := by
    intro p hp _
    obtain rfl := Option.some.inj hp
    refine ⟨by simp; omega, .inr (.inl (by simp; omega)), ?_⟩
    rintro ⟨id, k, hvalue, -⟩
    cases hvalue
  have hspec := (WString.concat_spec hh
    (WString.source_static : WString.Source s h t (.static ([value] ++ [])) [value]) hsafe).holds
  simp only [List.append_nil, List.length_singleton] at hspec
  cases hok : (s.concat h (some (.static [value])) 1 out).ok with
  | true =>
    rw [hok, if_pos rfl] at hspec
    exact ⟨[value], .refl _, fun _ => rfl, hspec⟩
  | false =>
    rw [hok, if_neg Bool.false_ne_true] at hspec
    refine ⟨[], List.nil_sublist _, fun hout => ?_, by rwa [List.append_nil]⟩
    rw [WString.concat_ok (Nat.one_ne_zero) (by omega) (reserve_ok hh hout _)] at hok
    cases hok

/-- What the loop of `readStringUntil` takes from the stream, and what of it is in the string. -/
theorem takes_readStringLoop {out : Nat → Realloc} {fuel k : Nat} {str : WString}
    {heap : Heap UInt8} {r : Returned} (hadv : Advances ps)
    (h : readStringLoop timeout stop out fuel k str heap ps = some r) :
    ∃ data, Delimited timeout stop none ps data r.rest ∧
      ∀ t, str.Holds heap t → t.length + (delivered ps).length + 1 < 2 ^ 32 →
        ∃ kept, kept.Sublist data ∧ ((∀ k, (out k).isNull = false) → kept = data) ∧
          r.str.Holds r.heap (t ++ kept) := by
  have hroom : ∀ m ∈ (none : Option Nat), 0 < m := fun m hm => by cases hm
  have hend : ∀ t, str.Holds heap t → t.length + (delivered ps).length + 1 < 2 ^ 32 →
      ∃ kept, kept.Sublist [] ∧ ((∀ k, (out k).isNull = false) → kept = []) ∧
        str.Holds heap (t ++ kept) :=
    fun t hh _ => ⟨[], .refl _, fun _ => rfl, by rwa [List.append_nil]⟩
  induction fuel generalizing k str heap ps with
  | zero => cases h
  | succ fuel ih =>
    rw [readStringLoop] at h
    cases hread : timedRead timeout ps with
    | none =>
      rw [hread] at h
      cases h
    | some b =>
      obtain ⟨byte, middle⟩ := b
      cases byte with
      | none =>
        rw [hread] at h
        cases h
        obtain ⟨silent, rfl, hsilent⟩ := timedRead_timeout hadv hread
        exact ⟨[], .ofSilent hsilent hroom, hend⟩
      | some value =>
        obtain ⟨used, rfl, hused, -⟩ := timedRead_value hadv hread
        simp only [hread] at h
        cases hstop : stop value with
        | true =>
          simp only [hstop, if_true] at h
          cases h
          exact ⟨[], .ofStop hused hstop hroom, hend⟩
        | false =>
          simp only [hstop, Bool.false_eq_true, if_false] at h
          obtain ⟨data, hdel, hdata⟩ := ih hadv.drop h fun t hh _ =>
            ⟨[], .refl _, fun _ => rfl, by rwa [List.append_nil]⟩
          refine ⟨value :: data, hdel.cons hused hstop, fun t hh hlen => ?_⟩
          rw [delivered_append, hused, List.length_append, List.length_singleton] at hlen
          obtain ⟨byte, hbyte, hfull, hholds⟩ := holds_concat_byte hh (by omega) value (out k)
          have hshort := hbyte.length_le
          rw [List.length_singleton] at hshort
          obtain ⟨kept, hsub, hall, hholds⟩ := hdata (t ++ byte) hholds (by
            rw [List.length_append]
            omega)
          refine ⟨byte ++ kept, hbyte.append hsub, fun hout => ?_, ?_⟩
          · rw [hfull (hout k), hall hout]
            rfl
          · rwa [List.append_assoc] at hholds

theorem isSome_readStringLoop {out : Nat → Realloc} {fuel k : Nat} {str : WString}
    {heap : Heap UInt8} (hadv : Advances ps) (hsteady : Steady timeout ps)
    (hfuel : ps.length < fuel)
    (hlen : ((delivered ps).length + 1) * (timeout.toNat + 1) ≤ ps.length) :
    (readStringLoop timeout stop out fuel k str heap ps).isSome = true := by
  induction fuel generalizing k str heap ps with
  | zero => omega
  | succ fuel ih =>
    rw [Nat.succ_mul] at hlen
    obtain ⟨r, used, rest, rfl, hread, hused⟩ := timedRead_returns hadv hsteady (by omega)
    rw [readStringLoop, hread]
    cases r with
    | none => rfl
    | some value =>
      cases hstop : stop value with
      | true => simp [hstop]
      | false =>
        obtain ⟨used', heq, hbyte, hne⟩ := timedRead_value hadv hread
        obtain rfl := List.append_cancel_right heq
        have hpos := List.length_pos_iff.2 hne
        rw [delivered_append, hbyte, List.length_append, List.length_singleton, Nat.add_comm 1]
          at hlen
        rw [List.length_append] at hlen hfuel
        simp only [hstop, Bool.false_eq_true, if_false]
        exact ih hadv.drop hsteady.drop (by omega) (by omega)

/-! ## The reading functions -/

/-- A letter, a second without a byte in which the clock wraps, and a newline. -/
def slow : Schedule where
  polls := [⟨4294966796, some 0x61, 4294966797⟩, ⟨4294966896, none, 4294967196⟩,
    ⟨4294967246, none, 4294967596⟩, ⟨4294967696, none, 4294967996⟩,
    ⟨4294968000, some 0x0a, 4294968001⟩]
  advances := ⟨by decide, by decide⟩

example : readBytesUntil 1000 0x0a 80 slow.polls =
    some ([0x61], [⟨4294968000, some 0x0a, 4294968001⟩]) := by
  decide

/-- A letter and a newline. -/
def line : Schedule where
  polls := [⟨0, some 0x61, 0⟩, ⟨0, some 0x0a, 1⟩]
  advances := ⟨by decide, by decide⟩

/-- The clock makes a step of `2 ^ 32` ms between two polls. -/
def jump : Schedule where
  polls := [⟨0, none, 0⟩, ⟨1, none, 2 ^ 32⟩]
  advances := ⟨by decide, by decide⟩

end Bl616cl.Core
