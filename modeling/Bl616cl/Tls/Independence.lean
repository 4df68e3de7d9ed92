import Bl616cl.Lib.Run
import Bl616cl.Tls.WiFiClientSecure

/-!
# What a connect inherits

A connect is independent of its object's past if a new object with the same settings, in the same
environment, ends it the same way after a handshake with the same view. `independent_iff` says when
it is, after any history: unless the new object fails in its local setup too, nothing may be left
in the contexts that the settings do not replace.
-/

namespace Bl616cl.Tls

open Bl616cl.Lib

variable {Cert Key Env : Type}

/-- The name that a connect sets in the SSL context. -/
def Target.name : Target → Option Text
  | .ip => none
  | .host name => name

/-- With these settings and a key context holding `key`, a connect gets to its handshake. -/
structure Passes (M : Platform Cert Key Env) (st : Settings) (key : Option Key) (e : Env)
    (t : Target) : Prop where
  named : t ≠ .host none ∧ t ≠ .host (some [])
  tcp : M.tcpConnect e = true
  seed : M.ctrDrbgSeed e = 0
  config : M.sslConfigDefaults e = 0
  ca : ∀ text, st.caText = some text → 0 ≤ (M.x509CrtParse e .ca text).2
  noCa : st.caText = none → st.insecure = true
  cert : ∀ c k, st.ownTexts = some (c, k) → (M.x509CrtParse e .own c).2 = 0
  key : ∀ c k, st.ownTexts = some (c, k) → (M.pkParseKey e key k).2 = 0
  setup : M.sslSetup e = 0
  hostname : ∀ h, t.name = some h → (M.sslSetHostname e none h).2 = 0

/-- Nothing is left in the contexts that this connect does not replace. -/
structure NoResidue (M : Platform Cert Key Env) (c : WiFiClientSecure Cert Key) (e : Env)
    (t : Target) : Prop where
  /-- The anchors of earlier connects are among those of the CA text set now. -/
  anchors : ∀ text, c.settings.caText = some text →
    ∀ x ∈ c.caCert, x ∈ (M.x509CrtParse e .ca text).1
  /-- Without a CA text the config does not point to anchors of earlier connects. -/
  noAnchors : c.settings.caText = none → c.confCaChain = true → c.caCert = []
  /-- The key context is empty if a key is to be parsed into it. -/
  key : c.settings.ownTexts ≠ none → c.pkKey = none
  /-- So is the client's chain. -/
  chain : c.settings.ownTexts ≠ none → M.sslConfOwnCert e = true → c.clientCert = []
  /-- Without a certificate and key the config lists none. -/
  own : c.settings.ownTexts = none ∨ M.sslConfOwnCert e = false → c.confOwnCerts = 0
  /-- Without a host name the SSL context has none. -/
  hostname : t.name = none → c.hostname = none

namespace WiFiClientSecure

variable {M : Platform Cert Key Env} {e : Env} {c : WiFiClientSecure Cert Key} {t : Target}
  {st : Settings} {key : Option Key}

/-! ## The steps of the setup -/

theorem loadCa_ret : (loadCa M e c).2 = 0 ↔
    (∀ text, c.settings.caText = some text → 0 ≤ (M.x509CrtParse e .ca text).2) ∧
      (c.settings.caText = none → c.settings.insecure = true) := by
  unfold loadCa
  cases hca : c.settings.caText with
  | none => cases hin : c.settings.insecure <;> simp [errX509BadInputData]
  | some text =>
    by_cases hneg : (M.x509CrtParse e .ca text).2 < 0
    · simp [hneg]
      omega
    · simp [hneg, Int.not_lt.mp hneg]

theorem loadOwn_ret : (loadOwn M e c).2 = 0 ↔ ∀ cert k, c.settings.ownTexts = some (cert, k) →
    (M.x509CrtParse e .own cert).2 = 0 ∧ (M.pkParseKey e c.pkKey k).2 = 0 := by
  unfold loadOwn
  cases hown : c.settings.ownTexts with
  | none => simp
  | some texts =>
    obtain ⟨cert, k⟩ := texts
    by_cases hcert : (M.x509CrtParse e .own cert).2 = 0
    · by_cases hkey : (M.pkParseKey e c.pkKey k).2 = 0 <;> simp [hcert, hkey]
    · simp [hcert]

theorem loadHostname_ret {host : Option Text} : (loadHostname M e c host).2 = 0 ↔
    ∀ h, host.filter (· ≠ []) = some h → (M.sslSetHostname e none h).2 = 0 := by
  unfold loadHostname
  cases host.filter (· ≠ []) with
  | none => simp
  | some h => simp [M.sslSetHostname_ret e c.hostname h]

/-! ## What each step touches -/

theorem loadCa_frame (M : Platform Cert Key Env) (e : Env) (c : WiFiClientSecure Cert Key) :
    ∃ chain pointer, (loadCa M e c).1 = { c with caCert := chain, confCaChain := pointer } := by
  unfold loadCa
  cases c.settings.caText <;> dsimp only <;> split <;> exact ⟨_, _, rfl⟩

theorem loadOwn_frame (M : Platform Cert Key Env) (e : Env) (c : WiFiClientSecure Cert Key) :
    ∃ chain key listed, (loadOwn M e c).1 =
      { c with clientCert := chain, pkKey := key, confOwnCerts := listed } := by
  unfold loadOwn
  cases c.settings.ownTexts with
  | none => exact ⟨_, _, _, rfl⟩
  | some texts =>
    dsimp only
    split
    · exact ⟨_, _, _, rfl⟩
    · split <;> exact ⟨_, _, _, rfl⟩

theorem loadHostname_frame (M : Platform Cert Key Env) (e : Env) (c : WiFiClientSecure Cert Key)
    (host : Option Text) : ∃ name, (loadHostname M e c host).1 = { c with hostname := name } := by
  unfold loadHostname
  cases host.filter (· ≠ []) <;> exact ⟨_, rfl⟩

@[simp] theorem loadCa_settings : (loadCa M e c).1.settings = c.settings := by
  obtain ⟨chain, pointer, h⟩ := loadCa_frame M e c
  rw [h]

@[simp] theorem loadCa_pkKey : (loadCa M e c).1.pkKey = c.pkKey := by
  obtain ⟨chain, pointer, h⟩ := loadCa_frame M e c
  rw [h]

@[simp] theorem loadCa_confOwnCerts : (loadCa M e c).1.confOwnCerts = c.confOwnCerts := by
  obtain ⟨chain, pointer, h⟩ := loadCa_frame M e c
  rw [h]

@[simp] theorem loadOwn_settings : (loadOwn M e c).1.settings = c.settings := by
  obtain ⟨chain, key, listed, h⟩ := loadOwn_frame M e c
  rw [h]

@[simp] theorem loadOwn_caCert : (loadOwn M e c).1.caCert = c.caCert := by
  obtain ⟨chain, key, listed, h⟩ := loadOwn_frame M e c
  rw [h]

variable {host : Option Text}

@[simp] theorem loadHostname_settings : (loadHostname M e c host).1.settings = c.settings := by
  obtain ⟨name, h⟩ := loadHostname_frame M e c host
  rw [h]

@[simp] theorem loadHostname_caCert : (loadHostname M e c host).1.caCert = c.caCert := by
  obtain ⟨name, h⟩ := loadHostname_frame M e c host
  rw [h]

@[simp] theorem loadHostname_confOwnCerts :
    (loadHostname M e c host).1.confOwnCerts = c.confOwnCerts := by
  obtain ⟨name, h⟩ := loadHostname_frame M e c host
  rw [h]

theorem loadCa_caCert : (loadCa M e c).1.caCert = c.caCert ++
    match c.settings.caText with
    | some text => (M.x509CrtParse e .ca text).1
    | none => [] := by
  unfold loadCa
  cases c.settings.caText <;> dsimp only <;> split <;> simp

theorem loadOwn_none (h : c.settings.ownTexts = none) : loadOwn M e c = (c, 0) := by
  rw [loadOwn, h]

/-- The contexts that a connect runs its handshake with. -/
def loadedCa (M : Platform Cert Key Env) (e : Env) (c : WiFiClientSecure Cert Key) :=
  loadCa M e { c.stop with confVerify := !c.settings.insecure }

def loadedOwn (M : Platform Cert Key Env) (e : Env) (c : WiFiClientSecure Cert Key) :=
  loadOwn M e (loadedCa M e c).1

def loaded (M : Platform Cert Key Env) (e : Env) (c : WiFiClientSecure Cert Key) (t : Target) :=
  loadHostname M e { (loadedOwn M e c).1 with tlsSetup := true } t.name

theorem loaded_settings : (loaded M e c t).1.settings = c.settings := by
  simp [loaded, loadedOwn, loadedCa, stop]

theorem filter_name (h : t ≠ .host none ∧ t ≠ .host (some [])) :
    t.name.filter (· ≠ []) = t.name := by
  cases t with
  | ip => rfl
  | host name =>
    cases name with
    | none => rfl
    | some text =>
      have hne : text ≠ [] := fun he => h.2 (by rw [he])
      simp [Target.name, hne]

theorem passes_iff : Passes M c.settings c.pkKey e t ↔
    (t ≠ .host none ∧ t ≠ .host (some [])) ∧ M.tcpConnect e = true ∧ M.ctrDrbgSeed e = 0 ∧
      M.sslConfigDefaults e = 0 ∧ (loadedCa M e c).2 = 0 ∧ (loadedOwn M e c).2 = 0 ∧
      M.sslSetup e = 0 ∧ (loaded M e c t).2 = 0 := by
  simp only [loadedCa, loadedOwn, loaded, loadCa_ret, loadOwn_ret, loadHostname_ret,
    loadCa_settings, loadCa_pkKey, stop]
  constructor
  · intro h
    refine ⟨h.named, h.tcp, h.seed, h.config, ⟨h.ca, h.noCa⟩, fun cert k hown => ?_, h.setup, ?_⟩
    · exact ⟨h.cert cert k hown, h.key cert k hown⟩
    · rw [filter_name h.named]
      exact h.hostname
  · rintro ⟨hnamed, htcp, hseed, hconfig, ⟨hca, hno⟩, hown, hsetup, hhost⟩
    rw [filter_name hnamed] at hhost
    exact ⟨hnamed, htcp, hseed, hconfig, hca, hno, fun cert k h => (hown cert k h).1,
      fun cert k h => (hown cert k h).2, hsetup, hhost⟩

/-- A key in the context can only make the setup fail. -/
theorem passes_fresh (h : Passes M st key e t) : Passes M st none e t := by
  refine { h with key := fun cert k hown => ?_ }
  cases key with
  | none => exact h.key cert k hown
  | some old => exact absurd (h.key cert k hown) (M.pkParseKey_busy e old k)

theorem pkKey_none (h : Passes M c.settings c.pkKey e t) (hown : c.settings.ownTexts ≠ none) :
    c.pkKey = none := by
  obtain ⟨⟨cert, k⟩, htexts⟩ := Option.ne_none_iff_exists'.mp hown
  by_contra hkey
  obtain ⟨old, hold⟩ := Option.ne_none_iff_exists'.mp hkey
  exact M.pkParseKey_busy e old k (hold ▸ h.key cert k htexts)

theorem loadCa_ok (h : (loadCa M e c).2 = 0) : (loadCa M e c).1 =
    match c.settings.caText with
    | some text =>
      { c with caCert := c.caCert ++ (M.x509CrtParse e .ca text).1, confCaChain := true }
    | none => c := by
  revert h
  unfold loadCa
  cases c.settings.caText with
  | none => dsimp only; split <;> simp
  | some text =>
    dsimp only
    split
    · next hneg =>
      intro h
      exact absurd h (Int.ne_of_lt hneg)
    · simp

theorem loadOwn_ok (h : (loadOwn M e c).2 = 0) : (loadOwn M e c).1 =
    match c.settings.ownTexts with
    | some (cert, k) => { c with
        clientCert := c.clientCert ++ (M.x509CrtParse e .own cert).1
        pkKey := (M.pkParseKey e c.pkKey k).1
        confOwnCerts := c.confOwnCerts + if M.sslConfOwnCert e then 1 else 0 }
    | none => c := by
  revert h
  unfold loadOwn
  cases c.settings.ownTexts with
  | none => simp
  | some texts =>
    dsimp only
    split
    · next hcert => exact fun h => absurd h hcert
    · split
      · next hkey => exact fun h => absurd h hkey
      · simp

variable [DecidableEq Cert]

theorem doTlsHandshake_eq : doTlsHandshake M e c.stop t.name =
    if M.ctrDrbgSeed e ≠ 0 then c.stop.fail (M.ctrDrbgSeed e)
    else if M.sslConfigDefaults e ≠ 0 then c.stop.fail (M.sslConfigDefaults e)
    else if (loadedCa M e c).2 ≠ 0 then (loadedCa M e c).1.fail (loadedCa M e c).2
    else if (loadedOwn M e c).2 ≠ 0 then (loadedOwn M e c).1.fail (loadedOwn M e c).2
    else if M.sslSetup e ≠ 0 then (loadedOwn M e c).1.fail (M.sslSetup e)
    else if (loaded M e c t).2 ≠ 0 then (loaded M e c t).1.fail (loaded M e c t).2
    else handshake M e (loaded M e c t).1 := rfl

theorem connect_eq : connect M e c t =
    if (t ≠ .host none ∧ t ≠ .host (some [])) ∧ M.tcpConnect e = true then
      doTlsHandshake M e c.stop t.name
    else (c.stop, ⟨some 0, none⟩) := by
  cases t with
  | ip => cases htcp : M.tcpConnect e <;> simp [connect, htcp, Target.name]
  | host name =>
    cases htcp : M.tcpConnect e <;> by_cases hname : name = none ∨ name = some [] <;>
      simp [connect, htcp, hname, Target.name, ← not_or]

theorem connect_passes (h : Passes M c.settings c.pkKey e t) :
    (connect M e c t).2 = (handshake M e (loaded M e c t).1).2 := by
  obtain ⟨hnamed, htcp, hseed, hconfig, hca, hown, hsetup, hhost⟩ := passes_iff.mp h
  rw [connect_eq, if_pos (And.intro hnamed htcp), doTlsHandshake_eq]
  simp only [hseed, hconfig, hca, hown, hsetup, hhost, ne_eq, not_true, if_false]

theorem connect_fails (h : ¬ Passes M c.settings c.pkKey e t) :
    (connect M e c t).2 = ⟨some 0, none⟩ := by
  rw [connect_eq]
  split
  · next htarget =>
    rw [doTlsHandshake_eq]
    split_ifs with hseed hconfig hca hown hsetup hhost
    any_goals rfl
    refine absurd (passes_iff.mpr ?_) h
    rw [not_not] at hseed hconfig hca hown hsetup hhost
    exact ⟨htarget.1, htarget.2, hseed, hconfig, hca, hown, hsetup, hhost⟩
  · rfl

/-! ## The view -/

theorem handshake_outcome : (handshake M e c).2 =
    ⟨(handshakeLoop (M.sslHandshake e c.view)).map fun ret =>
      if ret = 0 ∧ (c.settings.insecure = true ∨ M.sslGetVerifyResult e c.view = 0) then 1 else 0,
      some c.view⟩ := by
  unfold handshake
  cases handshakeLoop (M.sslHandshake e c.view) with
  | none => rfl
  | some ret =>
    by_cases hret : ret = 0
    · cases hin : c.settings.insecure <;>
        by_cases hflags : M.sslGetVerifyResult e c.view = 0 <;> simp [hret, hflags]
    · simp [hret]

/-- What the handshake sees, in terms of what was left in the contexts before. -/
def viewBefore (M : Platform Cert Key Env) (e : Env) (c : WiFiClientSecure Cert Key) (t : Target) :
    View Cert Key where
  verify := !c.settings.insecure
  anchors := match c.settings.caText with
    | some text => (c.caCert ++ (M.x509CrtParse e .ca text).1).toFinset
    | none => if c.confCaChain then c.caCert.toFinset else ∅
  own := match c.settings.ownTexts with
    | some (cert, k) =>
      if M.sslConfOwnCert e = false ∧ c.confOwnCerts = 0 then none
      else some (c.clientCert ++ (M.x509CrtParse e .own cert).1, (M.pkParseKey e c.pkKey k).1)
    | none => if c.confOwnCerts = 0 then none else some (c.clientCert, c.pkKey)
  hostname := t.name.or c.hostname

theorem view_loaded (hnamed : t ≠ .host none ∧ t ≠ .host (some []))
    (hca : (loadedCa M e c).2 = 0) (hown : (loadedOwn M e c).2 = 0)
    (hset : ∀ h, t.name = some h → (M.sslSetHostname e none h).2 = 0) :
    (loaded M e c t).1.view = viewBefore M e c t := by
  have hhost : ∀ name, t.name = some name → (M.sslSetHostname e c.hostname name).1 = some name := by
    intro name hname
    apply M.sslSetHostname_set
    rw [M.sslSetHostname_ret]
    exact hset name hname
  rw [loaded, loadHostname, filter_name hnamed, loadedOwn, loadOwn_ok hown, loadedCa,
    loadCa_ok hca]
  cases hcaText : c.settings.caText <;> cases hownTexts : c.settings.ownTexts <;>
    cases hname : t.name <;> cases hmem : M.sslConfOwnCert e <;>
    simp_all [view, viewBefore, stop]

theorem view_of_passes (h : Passes M c.settings c.pkKey e t) :
    (loaded M e c t).1.view = viewBefore M e c t := by
  obtain ⟨hnamed, -, -, -, hca, hown, -, -⟩ := passes_iff.mp h
  exact view_loaded hnamed hca hown h.hostname

/-! ## Independence -/

/-- A new object with the same settings ends the connect the same way. -/
def Independent (M : Platform Cert Key Env) (c : WiFiClientSecure Cert Key) (e : Env)
    (t : Target) : Prop :=
  (connect M e c t).2 = (connect M e (fresh c.settings) t).2

theorem toFinset_append_eq {old new : List Cert} :
    (old ++ new).toFinset = new.toFinset ↔ ∀ x ∈ old, x ∈ new := by
  constructor
  · intro h x hx
    rw [← List.mem_toFinset, ← h]
    simp [hx]
  · intro h
    ext x
    simpa using h x

/-- Two connects that pass have the same view exactly if nothing is left over. -/
theorem view_eq_iff (h : Passes M c.settings c.pkKey e t) :
    (loaded M e c t).1.view = (loaded M e (fresh c.settings) t).1.view ↔ NoResidue M c e t := by
  have hnew : Passes M (fresh c.settings : WiFiClientSecure Cert Key).settings
    (fresh c.settings : WiFiClientSecure Cert Key).pkKey e t := passes_fresh h
  have hkey := pkKey_none h
  rw [view_of_passes h, view_of_passes hnew, viewBefore, viewBefore, View.mk.injEq]
  simp only [fresh, true_and, List.nil_append]
  constructor
  · rintro ⟨hanchors, hown, hhost⟩
    refine ⟨fun text hca => ?_, fun hca hptr => ?_, hkey, fun hset hmem => ?_, ?_, fun hname => ?_⟩
    · simp only [hca] at hanchors
      exact toFinset_append_eq.mp hanchors
    · simpa [hca, hptr] using hanchors
    · obtain ⟨⟨cert, k⟩, htexts⟩ := Option.ne_none_iff_exists'.mp hset
      simpa [htexts, hmem, hkey hset] using hown
    · rintro (hset | hmem)
      · simpa [hset] using hown
      · cases htexts : c.settings.ownTexts with
        | none => simpa [htexts] using hown
        | some texts => simpa [htexts, hmem] using hown
    · simpa [hname] using hhost
  · intro hn
    refine ⟨?_, ?_, ?_⟩
    · cases hca : c.settings.caText with
      | none => cases hptr : c.confCaChain <;> simp [hn.noAnchors hca, hptr]
      | some text => exact toFinset_append_eq.mpr (hn.anchors text hca)
    · cases htexts : c.settings.ownTexts with
      | none => simp [hn.own (Or.inl htexts)]
      | some texts =>
        have hset : c.settings.ownTexts ≠ none := by simp [htexts]
        cases hmem : M.sslConfOwnCert e with
        | false => simp [hn.own (Or.inr hmem)]
        | true => simp [hkey hset, hn.chain hset hmem]
    · cases hname : t.name with
      | none => simpa using hn.hostname hname
      | some name => rfl

theorem independent_iff_noResidue (M : Platform Cert Key Env) (c : WiFiClientSecure Cert Key)
    (e : Env) (t : Target) :
    Independent M c e t ↔ (Passes M c.settings none e t → NoResidue M c e t) := by
  unfold Independent
  by_cases hnew : Passes M c.settings none e t
  · have hfresh : (connect M e (fresh c.settings) t).2 =
      (handshake M e (loaded M e (fresh c.settings) t).1).2 := connect_passes hnew
    rw [hfresh, imp_iff_right hnew]
    by_cases h : Passes M c.settings c.pkKey e t
    · rw [connect_passes h, ← view_eq_iff h]
      constructor
      · intro heq
        have hview := congrArg Outcome.view heq
        simpa only [handshake_outcome, Option.some.injEq] using hview
      · intro hview
        rw [handshake_outcome, handshake_outcome, hview, loaded_settings, loaded_settings]
        rfl
    · rw [connect_fails h, handshake_outcome]
      constructor
      · intro heq
        cases congrArg Outcome.view heq
      · intro hn
        refine absurd { hnew with key := fun cert k htexts => ?_ } h
        rw [hn.key (by simp [htexts])]
        exact hnew.key cert k htexts
  · have h : ¬ Passes M c.settings c.pkKey e t := fun h => hnew (passes_fresh h)
    have hfresh : (connect M e (fresh c.settings : WiFiClientSecure Cert Key) t).2 =
      ⟨some 0, none⟩ := connect_fails hnew
    rw [connect_fails h, hfresh]
    simp [hnew]

/-- **Independence**: after any history, the next connect ends as on a new object with the same
settings exactly if that object fails before its handshake or nothing is left over. -/
theorem independent_iff (M : Platform Cert Key Env) (calls : List (Call Env)) (e : Env)
    (t : Target) : Independent M (runs (step M) initial calls) e t ↔
      (Passes M (runs (step M) initial calls).settings none e t →
        NoResidue M (runs (step M) initial calls) e t) :=
  independent_iff_noResidue M _ e t

/-! ## Anchors that stay -/

/-- A platform where every byte of a text is a certificate, and a server's certificate verifies
under the anchor with the server's number. -/
def demo : Platform Nat Nat Nat where
  tcpConnect _ := true
  ctrDrbgSeed _ := 0
  sslConfigDefaults _ := 0
  x509CrtParse _ _ text := (text.map UInt8.toNat, if text = [] then -0x2180 else 0)
  pkParseKey _ old text := if old.isSome then (none, -0x3E80) else (some text.length, 0)
  sslConfOwnCert _ := true
  sslSetup _ := 0
  sslSetHostname _ _ host := (some host, 0)
  sslHandshake server v := [if v.verify ∧ server ∉ v.anchors then -0x2700 else 0]
  sslGetVerifyResult _ _ := 0
  pkParseKey_busy _ _ _ := by simp
  sslSetHostname_ret _ _ _ := rfl
  sslSetHostname_set _ _ _ _ := rfl

/-- After a connect under the anchor 1, a server of anchor 1 is accepted under the anchor 2. -/
theorem stale_anchor_accepted : ¬ ∀ (M : Platform Nat Nat Nat) (calls : List (Call Nat)) (e : Nat)
    (t : Target), Independent M (runs (step M) initial calls) e t := by
  intro h
  have hsame := h demo [.setCACert (some [1]), .connect 1 .ip, .setCACert (some [2])] 1 .ip
  exact absurd (congrArg Outcome.ret hsame) (by decide)

/-! ## What stays -/

/-- Wherever a connect ends, its contexts are those of the stage it has got to. -/
theorem connect_cases : ∃ b, (b = c.stop ∨ b = (loadedCa M e c).1 ∨ b = (loadedOwn M e c).1 ∨
      b = (loaded M e c t).1) ∧ ∃ setup done err, (connect M e c t).1 =
        { b with tlsSetup := setup, handshakeDone := done, lastError := err } := by
  rw [connect_eq]
  split
  · rw [doTlsHandshake_eq]
    split_ifs
    · exact ⟨_, Or.inl rfl, _, _, _, rfl⟩
    · exact ⟨_, Or.inl rfl, _, _, _, rfl⟩
    · exact ⟨_, Or.inr (Or.inl rfl), _, _, _, rfl⟩
    · exact ⟨_, Or.inr (Or.inr (Or.inl rfl)), _, _, _, rfl⟩
    · exact ⟨_, Or.inr (Or.inr (Or.inl rfl)), _, _, _, rfl⟩
    · exact ⟨_, Or.inr (Or.inr (Or.inr rfl)), _, _, _, rfl⟩
    · refine ⟨_, Or.inr (Or.inr (Or.inr rfl)), ?_⟩
      unfold handshake
      cases handshakeLoop (M.sslHandshake e (loaded M e c t).1.view) with
      | none => exact ⟨_, _, _, rfl⟩
      | some ret =>
        dsimp only
        split
        · exact ⟨_, _, _, rfl⟩
        · split <;> exact ⟨_, _, _, rfl⟩
  · exact ⟨_, Or.inl rfl, _, _, _, rfl⟩

theorem connect_caCert : (connect M e c t).1.caCert = c.caCert ∨
    (connect M e c t).1.caCert = (loadedCa M e c).1.caCert := by
  obtain ⟨b, hb, setup, done, err, heq⟩ := connect_cases (M := M) (e := e) (c := c) (t := t)
  rw [heq]
  rcases hb with rfl | rfl | rfl | rfl
  · exact Or.inl rfl
  · exact Or.inr rfl
  · exact Or.inr (by simp [loadedOwn])
  · exact Or.inr (by simp [loaded, loadedOwn])

/-- **Anchors stay**: no call takes a certificate out of the CA chain. -/
theorem caCert_runs (calls : List (Call Env)) :
    c.caCert <+: (runs (step M) c calls).caCert := by
  induction calls generalizing c with
  | nil => exact List.prefix_refl _
  | cons call calls ih =>
    refine List.IsPrefix.trans ?_ ih
    cases call with
    | connect e t =>
      have hca : c.caCert <+: (loadedCa M e c).1.caCert := by
        rw [loadedCa, loadCa_caCert]
        exact List.prefix_append _ _
      rcases connect_caCert (M := M) (e := e) (c := c) (t := t) with h | h
      · exact h ▸ List.prefix_refl _
      · exact h ▸ hca
    | setCACert cert => exact List.prefix_refl _
    | setCACertBundle bundle => exact List.prefix_refl _
    | setCertificate cert => exact List.prefix_refl _
    | setPrivateKey key => exact List.prefix_refl _
    | setInsecure => exact List.prefix_refl _
    | stop => exact List.prefix_refl _

/-- From the connect that parsed an anchor on, no connect that passes is independent under a CA
text without it. -/
theorem not_independent_of_stale {x : Cert} {text : Text} (hx : x ∈ c.caCert)
    (calls : List (Call Env)) (hpass : Passes M (runs (step M) c calls).settings none e t)
    (hca : (runs (step M) c calls).settings.caText = some text)
    (hnew : x ∉ (M.x509CrtParse e .ca text).1) : ¬ Independent M (runs (step M) c calls) e t := by
  intro h
  have hn := (independent_iff_noResidue M _ e t).mp h hpass
  exact hnew (hn.anchors text hca x ((caCert_runs calls).subset hx))

/-! ## Steady use -/

/-- Connects with one CA text, which always parses to the same anchors, to named hosts, without a
client certificate. -/
def Steady (M : Platform Cert Key Env) (text : Text) (anchors : List Cert)
    (c : WiFiClientSecure Cert Key) : Call Env → Prop
  | .connect e t => c.settings.caText = some text ∧ (M.x509CrtParse e .ca text).1 = anchors ∧
      t.name ≠ none ∧ c.settings.ownTexts = none
  | _ => True

theorem steady_connect {text : Text} {anchors : List Cert}
    (hc : Steady M text anchors c (.connect e t)) (hca : c.caCert ⊆ anchors)
    (hown : c.confOwnCerts = 0) : (connect M e c t).1.caCert ⊆ anchors ∧
      (connect M e c t).1.confOwnCerts = 0 := by
  obtain ⟨htext, hparse, -, hnone⟩ := hc
  constructor
  · rcases connect_caCert (M := M) (e := e) (c := c) (t := t) with h | h
    · exact h ▸ hca
    · rw [h, loadedCa, loadCa_caCert]
      simp only [stop, htext, hparse]
      exact List.append_subset.mpr ⟨hca, List.Subset.refl _⟩
  · obtain ⟨b, hb, setup, done, err, heq⟩ := connect_cases (M := M) (e := e) (c := c) (t := t)
    have hload : loadedOwn M e c = ((loadedCa M e c).1, 0) := by
      apply loadOwn_none
      simp [loadedCa, stop, hnone]
    rw [heq]
    rcases hb with rfl | rfl | rfl | rfl <;> simp [loaded, hload, loadedCa, stop, hown]

/-- In steady use every connect is independent of the ones before it. -/
theorem independent_of_steady {text : Text} {anchors : List Cert} (calls : List (Call Env))
    (h : Meets (step M) (Steady M text anchors) initial (calls ++ [.connect e t])) :
    Independent M (runs (step M) initial calls) e t := by
  obtain ⟨hruns, hlast, -⟩ := meets_append.mp h
  have hinv := (along_of_meets (I := fun c : WiFiClientSecure Cert Key =>
    c.caCert ⊆ anchors ∧ c.confOwnCerts = 0) ?_ ⟨List.nil_subset _, rfl⟩ hruns).last
  · obtain ⟨htext, hparse, hname, hown⟩ := hlast
    rw [independent_iff_noResidue]
    intro _
    refine ⟨fun text' hca x hx => ?_, fun hca => ?_, fun hset => absurd hown hset,
      fun hset => absurd hown hset, fun _ => hinv.2, fun hnone => absurd hnone hname⟩
    · obtain rfl := Option.some.inj (htext.symm.trans hca)
      exact hparse ▸ hinv.1 hx
    · rw [htext] at hca
      cases hca
  · rintro c call ⟨hca, hown⟩ hc
    cases call with
    | connect e t => exact steady_connect hc hca hown
    | setCACert cert => exact ⟨hca, hown⟩
    | setCACertBundle bundle => exact ⟨hca, hown⟩
    | setCertificate cert => exact ⟨hca, hown⟩
    | setPrivateKey key => exact ⟨hca, hown⟩
    | setInsecure => exact ⟨hca, hown⟩
    | stop => exact ⟨hca, hown⟩

end WiFiClientSecure

end Bl616cl.Tls
