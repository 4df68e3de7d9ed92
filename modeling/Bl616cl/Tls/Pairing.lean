import Bl616cl.Tls.Independence
import Mathlib.Data.List.Count

/-!
# Setup and release of the SSL context

The calls that a WiFiClientSecure object makes to set up its SSL context, to use it and to release
it, over its whole life. `stop` clears `tls_setup_` and frees nothing, and the destructor frees only
what `tls_setup_` shows after a `stop`: `paired_iff`.
-/

namespace Bl616cl.Tls

open Bl616cl.Lib

/-- The calls into mbedTLS that are about the SSL context; a setup with what it returns. -/
inductive SslCall where
  | setup (ret : Int)
  | free
  | sessionReset
  | closeNotify
  deriving DecidableEq

/-- The context is set up and not released after these calls, the last one first. A session reset
keeps what the setup allocated; a setup that fails leaves nothing. -/
def inUse : List SslCall → Bool
  | [] => false
  | .setup ret :: older => ret == 0 || inUse older
  | .free :: _ => false
  | .sessionReset :: older => inUse older
  | .closeNotify :: older => inUse older

/-- The calls are paired. -/
structure Paired (calls : List SslCall) : Prop where
  setup : ∀ ret older, .setup ret :: older <:+ calls → inUse older = false
  freed : calls.count .free = calls.count (.setup 0)
  reset : ∀ older, .sessionReset :: older <:+ calls → inUse older = true
  closed : ∀ older, .closeNotify :: older <:+ calls → inUse older = true

/-- An object and the calls it has made, the last one first. -/
structure Life (Cert Key : Type) where
  client : WiFiClientSecure Cert Key
  calls : List SslCall

/-- A call on the object; `eof` is a `read` or a `connected` that finds the end of the stream. -/
inductive LifeCall (Env : Type) where
  | call (a : Call Env)
  | eof

variable {Cert Key Env : Type}

/-- With these settings and a key context holding `key`, a handshake sets up its SSL context. -/
structure SetsUp (M : Platform Cert Key Env) (st : Settings) (key : Option Key) (e : Env) :
    Prop where
  seed : M.ctrDrbgSeed e = 0
  config : M.sslConfigDefaults e = 0
  ca : ∀ text, st.caText = some text → 0 ≤ (M.x509CrtParse e .ca text).2
  noCa : st.caText = none → st.insecure = true
  cert : ∀ c k, st.ownTexts = some (c, k) → (M.x509CrtParse e .own c).2 = 0
  key : ∀ c k, st.ownTexts = some (c, k) → (M.pkParseKey e key k).2 = 0
  setup : M.sslSetup e = 0

namespace WiFiClientSecure

variable (M : Platform Cert Key Env) (e : Env) (c : WiFiClientSecure Cert Key)

/-- The calls of `stop`. -/
def stopCalls : List SslCall :=
  if c.tlsSetup then .sessionReset :: if c.handshakeDone then [.closeNotify] else [] else []

/-- The calls of `do_tls_handshake`. -/
def handshakeCalls : List SslCall :=
  if M.ctrDrbgSeed e ≠ 0 then []
  else if M.sslConfigDefaults e ≠ 0 then []
  else
    let ca := loadCa M e { c with confVerify := !c.settings.insecure }
    if ca.2 ≠ 0 then []
    else if (loadOwn M e ca.1).2 ≠ 0 then []
    else [.setup (M.sslSetup e)]

/-- The calls of `connect`. Where `WiFiClient::connect` fails it calls `stop` again. -/
def connectCalls (t : Target) : List SslCall :=
  let after :=
    match t with
    | .ip => if M.tcpConnect e then handshakeCalls M e c.stop else c.stop.stopCalls
    | .host name =>
      if name = none ∨ name = some [] then []
      else if M.tcpConnect e then handshakeCalls M e c.stop
      else c.stop.stopCalls
  after ++ c.stopCalls

end WiFiClientSecure

open WiFiClientSecure

namespace Life

def initial : Life Cert Key := ⟨.initial, []⟩

variable (x : Life Cert Key)

def stop : Life Cert Key := ⟨x.client.stop, x.client.stopCalls ++ x.calls⟩

/-- The destructor. -/
def destroy : Life Cert Key :=
  let x := x.stop
  if x.client.tlsSetup then { x with calls := .free :: x.calls } else x

variable [DecidableEq Cert]

def step (M : Platform Cert Key Env) (x : Life Cert Key) : LifeCall Env → Life Cert Key
  | .call (.connect e t) =>
    ⟨(connect M e x.client t).1, connectCalls M e x.client t ++ x.calls⟩
  | .call .stop => x.stop
  | .call a => { x with client := x.client.step M a }
  | .eof => if x.client.handshakeDone then x.stop else x

end Life

/-- A connect that gets to a successful `mbedtls_ssl_setup`. -/
def SetUpBy (M : Platform Cert Key Env) (x : Life Cert Key) : LifeCall Env → Prop
  | .call (.connect e t) => (t ≠ .host none ∧ t ≠ .host (some [])) ∧ M.tcpConnect e = true ∧
      SetsUp M x.client.settings x.client.pkKey e
  | _ => False

variable {M : Platform Cert Key Env} {e : Env} {c : WiFiClientSecure Cert Key} {t : Target}

theorem setsUp_iff : SetsUp M c.settings c.pkKey e ↔ M.ctrDrbgSeed e = 0 ∧
    M.sslConfigDefaults e = 0 ∧ (loadedCa M e c).2 = 0 ∧ (loadedOwn M e c).2 = 0 ∧
      M.sslSetup e = 0 := by
  simp only [loadedCa, loadedOwn, loadCa_ret, loadOwn_ret, loadCa_settings, loadCa_pkKey,
    WiFiClientSecure.stop]
  constructor
  · intro h
    exact ⟨h.seed, h.config, ⟨h.ca, h.noCa⟩,
      fun cert k hown => ⟨h.cert cert k hown, h.key cert k hown⟩, h.setup⟩
  · rintro ⟨hseed, hconfig, ⟨hca, hno⟩, hown, hsetup⟩
    exact ⟨hseed, hconfig, hca, hno, fun cert k h => (hown cert k h).1,
      fun cert k h => (hown cert k h).2, hsetup⟩

@[simp] theorem stopCalls_stop : c.stop.stopCalls = [] := rfl

theorem connectCalls_eq : connectCalls M e c t =
    (if (t ≠ .host none ∧ t ≠ .host (some [])) ∧ M.tcpConnect e = true then
      handshakeCalls M e c.stop else []) ++ c.stopCalls := by
  cases t with
  | ip => cases htcp : M.tcpConnect e <;> simp [connectCalls, htcp]
  | host name =>
    cases htcp : M.tcpConnect e <;> by_cases hname : name = none ∨ name = some [] <;>
      simp [connectCalls, htcp, hname, ← not_or]

theorem handshakeCalls_eq : handshakeCalls M e c.stop =
    if M.ctrDrbgSeed e ≠ 0 then [] else if M.sslConfigDefaults e ≠ 0 then []
    else if (loadedCa M e c).2 ≠ 0 then [] else if (loadedOwn M e c).2 ≠ 0 then []
    else [.setup (M.sslSetup e)] := rfl

theorem handshakeCalls_of_setsUp (h : SetsUp M c.settings c.pkKey e) :
    handshakeCalls M e c.stop = [.setup 0] := by
  obtain ⟨hseed, hconfig, hca, hown, hsetup⟩ := setsUp_iff.mp h
  rw [handshakeCalls_eq]
  simp only [hseed, hconfig, hca, hown, hsetup, ne_eq, not_true, if_false]

theorem handshakeCalls_of_not_setsUp (h : ¬ SetsUp M c.settings c.pkKey e) :
    handshakeCalls M e c.stop = [] ∨ ∃ ret, ret ≠ 0 ∧ handshakeCalls M e c.stop = [.setup ret] := by
  rw [handshakeCalls_eq]
  split_ifs with hseed hconfig hca hown
  · exact Or.inl rfl
  · exact Or.inl rfl
  · exact Or.inl rfl
  · exact Or.inl rfl
  · refine Or.inr ⟨_, fun hsetup => h (setsUp_iff.mpr ?_), rfl⟩
    rw [not_not] at hseed hconfig hca hown
    exact ⟨hseed, hconfig, hca, hown, hsetup⟩

@[simp] theorem loadedCa_tlsSetup : (loadedCa M e c).1.tlsSetup = false := by
  obtain ⟨chain, pointer, h⟩ := loadCa_frame M e { c.stop with confVerify := !c.settings.insecure }
  rw [loadedCa, h]
  rfl

@[simp] theorem loadedOwn_tlsSetup : (loadedOwn M e c).1.tlsSetup = false := by
  obtain ⟨chain, key, listed, h⟩ := loadOwn_frame M e (loadedCa M e c).1
  rw [loadedOwn, h]
  exact loadedCa_tlsSetup

theorem setsUp_of_tlsSetup [DecidableEq Cert]
    (h : (doTlsHandshake M e c.stop t.name).1.tlsSetup = true) :
    SetsUp M c.settings c.pkKey e := by
  rw [doTlsHandshake_eq] at h
  split_ifs at h with hseed hconfig hca hown hsetup hname
  · cases h
  · cases h
  · simp [fail] at h
  · simp [fail] at h
  · simp [fail] at h
  all_goals
    rw [not_not] at hseed hconfig hca hown hsetup
    exact setsUp_iff.mpr ⟨hseed, hconfig, hca, hown, hsetup⟩

/-! ## Calls on a context in use -/

/-- Session resets and close notifications come while the context is in use. -/
structure Used (calls : List SslCall) : Prop where
  reset : ∀ older, .sessionReset :: older <:+ calls → inUse older = true
  closed : ∀ older, .closeNotify :: older <:+ calls → inUse older = true

theorem Used.cons {calls : List SslCall} {call : SslCall} (h : Used calls)
    (hcall : call = .sessionReset ∨ call = .closeNotify → inUse calls = true) :
    Used (call :: calls) := by
  constructor
  · intro older hsuffix
    rcases List.suffix_cons_iff.mp hsuffix with heq | hrest
    · obtain ⟨rfl, rfl⟩ := List.cons.inj heq
      exact hcall (Or.inl rfl)
    · exact h.reset older hrest
  · intro older hsuffix
    rcases List.suffix_cons_iff.mp hsuffix with heq | hrest
    · obtain ⟨rfl, rfl⟩ := List.cons.inj heq
      exact hcall (Or.inr rfl)
    · exact h.closed older hrest

theorem inUse_of_not_mem {calls : List SslCall} (h : .setup 0 ∉ calls) : inUse calls = false := by
  induction calls with
  | nil => rfl
  | cons call calls ih =>
    rw [List.mem_cons, not_or] at h
    have holder := ih h.2
    cases call with
    | setup ret =>
      have hret : ret ≠ 0 := fun heq => h.1 (by rw [heq])
      simp [inUse, hret, holder]
    | free => rfl
    | sessionReset => exact holder
    | closeNotify => exact holder

namespace Life

/-- What holds after every call. -/
structure Inv (x : Life Cert Key) : Prop where
  used : Used x.calls
  setUp : x.client.tlsSetup = true → inUse x.calls = true
  kept : .free ∉ x.calls

variable {x : Life Cert Key}

theorem Inv.stop (h : Inv x) : Inv x.stop := by
  obtain ⟨hused, hsetUp, hkept⟩ := h
  unfold Life.stop stopCalls
  split
  · next hset =>
    have hin := hsetUp hset
    split
    · have hnotified : Used (.closeNotify :: x.calls) := hused.cons fun _ => hin
      exact ⟨hnotified.cons fun _ => hin, nofun, by simp [hkept]⟩
    · exact ⟨hused.cons fun _ => hin, nofun, by simp [hkept]⟩
  · exact ⟨hused, nofun, hkept⟩

/-- The calls of a handshake on a stopped object keep the invariant. -/
theorem Inv.handshake (h : Inv x) {client : WiFiClientSecure Cert Key}
    (hset : client.tlsSetup = true → SetsUp M c.settings c.pkKey e) :
    Inv ⟨client, handshakeCalls M e c.stop ++ x.calls⟩ := by
  obtain ⟨hused, -, hkept⟩ := h
  by_cases hup : SetsUp M c.settings c.pkKey e
  · rw [handshakeCalls_of_setsUp hup]
    exact ⟨hused.cons (by simp), fun _ => rfl, by simp [hkept]⟩
  · rcases handshakeCalls_of_not_setsUp hup with hcalls | ⟨ret, -, hcalls⟩
    · rw [hcalls]
      exact ⟨hused, fun h => absurd (hset h) hup, hkept⟩
    · rw [hcalls]
      exact ⟨hused.cons (by simp), fun h => absurd (hset h) hup, by simp [hkept]⟩

/-- The destructor releases nothing: `stop` has cleared `tls_setup_`. -/
theorem destroy_eq (x : Life Cert Key) : x.destroy = x.stop := rfl

variable [DecidableEq Cert]

theorem Inv.step (h : Inv x) (a : LifeCall Env) : Inv (x.step M a) := by
  cases a with
  | eof =>
    simp only [Life.step]
    split
    · exact h.stop
    · exact h
  | call a =>
    cases a with
    | connect e t =>
      simp only [Life.step, connect_eq, connectCalls_eq, List.append_assoc]
      split
      · exact h.stop.handshake setsUp_of_tlsSetup
      · exact h.stop
    | stop => exact h.stop
    | setCACert | setCACertBundle | setCertificate | setPrivateKey | setInsecure =>
      exact ⟨h.used, h.setUp, h.kept⟩

/-- How often the context has been set up, counted from the connects. -/
theorem count_step (x : Life Cert Key) (a : LifeCall Env) :
    (x.step M a).calls.count (.setup 0) = x.calls.count (.setup 0) + 1 ∧ SetUpBy M x a ∨
    (x.step M a).calls.count (.setup 0) = x.calls.count (.setup 0) ∧ ¬ SetUpBy M x a := by
  have hstop : x.client.stopCalls.count (.setup 0) = 0 := by
    unfold stopCalls
    split <;> [split; skip] <;> rfl
  cases a with
  | eof =>
    refine Or.inr ⟨?_, id⟩
    simp only [Life.step]
    split
    · rw [Life.stop, List.count_append, hstop, Nat.zero_add]
    · rfl
  | call a =>
    cases a with
    | connect e t =>
      simp only [Life.step, connectCalls_eq, List.append_assoc, List.count_append, hstop, SetUpBy]
      by_cases htcp : (t ≠ .host none ∧ t ≠ .host (some [])) ∧ M.tcpConnect e = true
      · by_cases hup : SetsUp M x.client.settings x.client.pkKey e
        · rw [if_pos htcp, handshakeCalls_of_setsUp hup]
          exact Or.inl ⟨by simp; omega, htcp.1, htcp.2, hup⟩
        · refine Or.inr ⟨?_, fun h => hup h.2.2⟩
          rw [if_pos htcp]
          rcases handshakeCalls_of_not_setsUp hup with hcalls | ⟨ret, hret, hcalls⟩
          · simp [hcalls]
          · simp [hcalls, hret]
      · refine Or.inr ⟨?_, fun h => htcp ⟨h.1, h.2.1⟩⟩
        simp [if_neg htcp]
    | stop =>
      refine Or.inr ⟨?_, id⟩
      simp only [Life.step]
      rw [Life.stop, List.count_append, hstop, Nat.zero_add]
    | setCACert | setCACertBundle | setCertificate | setPrivateKey | setInsecure =>
      exact Or.inr ⟨rfl, id⟩

theorem count_le_runs (x : Life Cert Key) (as : List (LifeCall Env)) :
    x.calls.count (.setup 0) ≤ (runs (Life.step M) x as).calls.count (.setup 0) := by
  induction as generalizing x with
  | nil => exact Nat.le_refl _
  | cons a as ih =>
    refine Nat.le_trans ?_ (ih (x.step M a))
    rcases count_step (M := M) x a with ⟨hcount, -⟩ | ⟨hcount, -⟩ <;> omega

/-- The context has never been set up exactly if no connect set it up. -/
theorem count_runs_eq_zero {x : Life Cert Key} {as : List (LifeCall Env)} :
    (runs (Life.step M) x as).calls.count (.setup 0) = 0 ↔
      x.calls.count (.setup 0) = 0 ∧ Meets (Life.step M) (fun x a => ¬ SetUpBy M x a) x as := by
  induction as generalizing x with
  | nil => simp [Meets]
  | cons a as ih =>
    have hrest := ih (x := x.step M a)
    rcases count_step (M := M) x a with ⟨hcount, hup⟩ | ⟨hcount, hup⟩
    · have hle := count_le_runs (M := M) (x.step M a) as
      constructor
      · intro hzero
        change (runs (Life.step M) (x.step M a) as).calls.count (.setup 0) = 0 at hzero
        omega
      · intro h
        exact absurd hup h.2.1
    · change (runs (Life.step M) (x.step M a) as).calls.count (.setup 0) = 0 ↔ _
      rw [hrest, hcount]
      simp [Meets, hup]

theorem inv_runs (as : List (LifeCall Env)) :
    Inv (runs (Life.step M) (initial : Life Cert Key) as) := by
  have hinv : Along (Life.step M) Inv (initial : Life Cert Key) as :=
    along_of_meets (C := fun _ _ => True) (fun _ a h _ => h.step a)
      ⟨⟨by simp [initial], by simp [initial]⟩, nofun, by simp [initial]⟩
      (meets_of_forall (fun _ _ => trivial) _ _)
  exact hinv.last

end Life

/-- The calls of an object's life are paired if and only if it never gets to a successful setup. -/
theorem paired_iff [DecidableEq Cert] (M : Platform Cert Key Env) (as : List (LifeCall Env)) :
    Paired (runs (Life.step M) (Life.initial : Life Cert Key) as).destroy.calls ↔
      Meets (Life.step M) (fun x a => ¬ SetUpBy M x a) Life.initial as := by
  have hinv : Life.Inv (runs (Life.step M) (Life.initial : Life Cert Key) as).stop :=
    (Life.inv_runs as).stop
  have hcount : (runs (Life.step M) (Life.initial : Life Cert Key) as).stop.calls.count (.setup 0) =
      0 ↔ Meets (Life.step M) (fun x a => ¬ SetUpBy M x a) Life.initial as := by
    rcases Life.count_step (M := M) (runs (Life.step M) Life.initial as) (.call .stop) with h | h
    · exact absurd h.2 id
    · have hsame : (runs (Life.step M) (Life.initial : Life Cert Key) as).stop.calls.count
          (.setup 0) = _ := h.1
      rw [hsame, Life.count_runs_eq_zero]
      simp [Life.initial]
  have hfree := List.count_eq_zero.mpr hinv.kept
  rw [Life.destroy_eq, ← hcount]
  constructor
  · intro h
    rw [← h.freed, hfree]
  · intro hzero
    have hnone := List.count_eq_zero.mp hzero
    refine ⟨fun ret older hsuffix => ?_, by omega, hinv.used.reset, hinv.used.closed⟩
    apply inUse_of_not_mem
    intro hmem
    exact hnone (hsuffix.subset (List.mem_cons_of_mem _ hmem))

/-- An object that connects once and is destroyed. -/
theorem not_paired_demo : ¬ Paired (runs (Life.step demo) Life.initial
    [.call (.setCACert (some [1])), .call (.connect 1 .ip)]).destroy.calls := by
  intro h
  exact absurd h.freed (by decide)

end Bl616cl.Tls
