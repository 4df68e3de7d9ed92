import Mathlib.Data.Finset.Dedup
import Mathlib.Data.Finset.Insert
import Mathlib.Tactic.Common

/-!
# WiFiClientSecure

One object with the mbedTLS contexts that it allocates once and keeps, its setters, `connect` and
`stop`. mbedTLS and the network are a parameter, `Platform`; the class's own code is written out.
A C string is the list of its characters before the NUL, `none` the null pointer.
-/

namespace Bl616cl.Tls

abbrev Text := List UInt8

/-- `MBEDTLS_ERR_X509_BAD_INPUT_DATA`. -/
def errX509BadInputData : Int := -0x2800

/-- `MBEDTLS_ERR_SSL_WANT_READ` and `MBEDTLS_ERR_SSL_WANT_WRITE`. -/
def errSslWantRead : Int := -0x6900
def errSslWantWrite : Int := -0x6880

/-- What a handshake is run with: what it can see of the config and the SSL context. -/
structure View (Cert Key : Type) where
  /-- `MBEDTLS_SSL_VERIFY_REQUIRED`. -/
  verify : Bool
  anchors : Finset Cert
  own : Option (List Cert × Option Key)
  hostname : Option Text
  deriving DecidableEq

/-- Which of a connect's two chains a certificate is parsed into. -/
inductive Chain where
  | ca | own
  deriving DecidableEq

/-- The network and mbedTLS. `Env` is everything that may differ from one connect to the next:
entropy, memory, the server. A parse appends its certificates to the chain it is given, whatever
that holds; a key is parsed into a context that may hold one; `ssl_handshake` gives the results
of its successive calls, and blocks after the last of them. -/
structure Platform (Cert Key Env : Type) where
  tcpConnect : Env → Bool
  ctrDrbgSeed : Env → Int
  sslConfigDefaults : Env → Int
  x509CrtParse : Env → Chain → Text → List Cert × Int
  pkParseKey : Env → Option Key → Text → Option Key × Int
  /-- Whether `ssl_conf_own_cert` had the memory to append; the class does not look. -/
  sslConfOwnCert : Env → Bool
  sslSetup : Env → Int
  sslSetHostname : Env → Option Text → Text → Option Text × Int
  sslHandshake : Env → View Cert Key → List Int
  sslGetVerifyResult : Env → View Cert Key → UInt32
  /-- A context that holds a key takes no other. -/
  pkParseKey_busy : ∀ e key text, (pkParseKey e (some key) text).2 ≠ 0
  /-- Whether a host name can be set does not depend on the one it replaces. -/
  sslSetHostname_ret : ∀ e old host,
    (sslSetHostname e old host).2 = (sslSetHostname e none host).2
  sslSetHostname_set : ∀ e old host, (sslSetHostname e old host).2 = 0 →
    (sslSetHostname e old host).1 = some host

structure Settings where
  caPem : Option Text
  caBundle : Option Text
  certPem : Option Text
  keyPem : Option Text
  insecure : Bool
  deriving DecidableEq, Repr

namespace Settings

/-- The CA text to parse; an empty one counts as none. -/
def caText (st : Settings) : Option Text := (st.caPem.or st.caBundle).filter (· ≠ [])

/-- The client certificate and key, if both are set. -/
def ownTexts (st : Settings) : Option (Text × Text) :=
  match st.certPem, st.keyPem with
  | some cert, some key => some (cert, key)
  | _, _ => none

end Settings

structure WiFiClientSecure (Cert Key : Type) where
  settings : Settings
  caCert : List Cert
  clientCert : List Cert
  pkKey : Option Key
  /-- The config's authmode, its pointer to `caCert`, and how often it lists the client's own
  certificate and key; all of its entries point to `clientCert` and `pkKey`. -/
  confVerify : Bool
  confCaChain : Bool
  confOwnCerts : Nat
  /-- The SSL context's host name. -/
  hostname : Option Text
  tlsSetup : Bool
  handshakeDone : Bool
  lastError : Int

/-- What a caller, the server and the handshake see of a connect: its return value, `none` where
it does not return, and the view it runs its handshake with, if it gets there. -/
structure Outcome (Cert Key : Type) where
  ret : Option Int
  view : Option (View Cert Key)
  deriving DecidableEq

/-- `connect(IPAddress)` or `connect(const char *)`. -/
inductive Target where
  | ip
  | host (name : Option Text)
  deriving DecidableEq

/-- The calls on one object. -/
inductive Call (Env : Type) where
  | setCACert (cert : Option Text)
  | setCACertBundle (bundle : Option Text)
  | setCertificate (cert : Option Text)
  | setPrivateKey (key : Option Text)
  | setInsecure
  | connect (e : Env) (t : Target)
  | stop

namespace WiFiClientSecure

variable {Cert Key Env : Type}

/-- A newly constructed object with these settings. -/
def fresh (st : Settings) : WiFiClientSecure Cert Key where
  settings := st
  caCert := []
  clientCert := []
  pkKey := none
  confVerify := false
  confCaChain := false
  confOwnCerts := 0
  hostname := none
  tlsSetup := false
  handshakeDone := false
  lastError := 0

def initial : WiFiClientSecure Cert Key := fresh ⟨none, none, none, none, false⟩

variable (M : Platform Cert Key Env) (e : Env) (c : WiFiClientSecure Cert Key)

/-- `stop`. The session reset keeps the context's host name; the other contexts are not touched. -/
def stop : WiFiClientSecure Cert Key :=
  { c with tlsSetup := false, handshakeDone := false, lastError := 0 }

/-- Parse the CA text into the CA chain and point the config to it. -/
def loadCa : WiFiClientSecure Cert Key × Int :=
  match c.settings.caText with
  | some text =>
    let r := M.x509CrtParse e .ca text
    let c := { c with caCert := c.caCert ++ r.1 }
    if r.2 < 0 then (c, r.2) else ({ c with confCaChain := true }, 0)
  | none => if !c.settings.insecure then (c, errX509BadInputData) else (c, 0)

/-- Parse the client's certificate and key and list them in the config. -/
def loadOwn : WiFiClientSecure Cert Key × Int :=
  match c.settings.ownTexts with
  | some (cert, key) =>
    let r := M.x509CrtParse e .own cert
    let c := { c with clientCert := c.clientCert ++ r.1 }
    if r.2 ≠ 0 then (c, r.2)
    else
      let k := M.pkParseKey e c.pkKey key
      let c := { c with pkKey := k.1 }
      if k.2 ≠ 0 then (c, k.2)
      else ({ c with confOwnCerts := c.confOwnCerts + if M.sslConfOwnCert e then 1 else 0 }, 0)
  | none => (c, 0)

def loadHostname (hostname : Option Text) : WiFiClientSecure Cert Key × Int :=
  match hostname.filter (· ≠ []) with
  | some host =>
    let r := M.sslSetHostname e c.hostname host
    ({ c with hostname := r.1 }, r.2)
  | none => (c, 0)

/-- Call `ssl_handshake` until it wants neither to read nor to write. -/
def handshakeLoop : List Int → Option Int
  | [] => none
  | ret :: rets =>
    if ret = errSslWantRead ∨ ret = errSslWantWrite then handshakeLoop rets else some ret

/-- Give up before the handshake. -/
def fail (err : Int) : WiFiClientSecure Cert Key × Outcome Cert Key :=
  ({ c with lastError := err }, ⟨some 0, none⟩)

variable [DecidableEq Cert]

/-- The handshake's view of the contexts. -/
def view : View Cert Key where
  verify := c.confVerify
  anchors := if c.confCaChain then c.caCert.toFinset else ∅
  own := if c.confOwnCerts = 0 then none else some (c.clientCert, c.pkKey)
  hostname := c.hostname

def handshake : WiFiClientSecure Cert Key × Outcome Cert Key :=
  match handshakeLoop (M.sslHandshake e c.view) with
  | none => (c, ⟨none, some c.view⟩)
  | some ret =>
    if ret ≠ 0 then ({ c with lastError := ret }, ⟨some 0, some c.view⟩)
    else
      let flags := M.sslGetVerifyResult e c.view
      if !c.settings.insecure ∧ flags ≠ 0 then
        ({ c with lastError := flags.toBitVec.toInt }, ⟨some 0, some c.view⟩)
      else ({ c with handshakeDone := true }, ⟨some 1, some c.view⟩)

def doTlsHandshake (hostname : Option Text) : WiFiClientSecure Cert Key × Outcome Cert Key :=
  if M.ctrDrbgSeed e ≠ 0 then c.fail (M.ctrDrbgSeed e)
  else if M.sslConfigDefaults e ≠ 0 then c.fail (M.sslConfigDefaults e)
  else
    let ca := loadCa M e { c with confVerify := !c.settings.insecure }
    if ca.2 ≠ 0 then ca.1.fail ca.2
    else
      let own := loadOwn M e ca.1
      if own.2 ≠ 0 then own.1.fail own.2
      else if M.sslSetup e ≠ 0 then own.1.fail (M.sslSetup e)
      else
        let named := loadHostname M e { own.1 with tlsSetup := true } hostname
        if named.2 ≠ 0 then named.1.fail named.2 else handshake M e named.1

/-- `connect`. `WiFiClient::connect` refuses a missing or empty name. -/
def connect (t : Target) : WiFiClientSecure Cert Key × Outcome Cert Key :=
  match t with
  | .ip => if M.tcpConnect e then doTlsHandshake M e c.stop none else (c.stop, ⟨some 0, none⟩)
  | .host name =>
    if name = none ∨ name = some [] then (c.stop, ⟨some 0, none⟩)
    else if M.tcpConnect e then doTlsHandshake M e c.stop name else (c.stop, ⟨some 0, none⟩)

def step (c : WiFiClientSecure Cert Key) : Call Env → WiFiClientSecure Cert Key
  | .setCACert cert => { c with settings := { c.settings with caPem := cert, caBundle := none } }
  | .setCACertBundle bundle =>
    { c with settings := { c.settings with caBundle := bundle, caPem := none } }
  | .setCertificate cert => { c with settings := { c.settings with certPem := cert } }
  | .setPrivateKey key => { c with settings := { c.settings with keyPem := key } }
  | .setInsecure => { c with settings := { c.settings with insecure := true } }
  | .connect e t => (connect M e c t).1
  | .stop => c.stop

end WiFiClientSecure

end Bl616cl.Tls
