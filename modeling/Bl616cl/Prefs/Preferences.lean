import Mathlib.Data.Nat.Bitwise
import Bl616cl.Prefs.EasyFlash
import Bl616cl.Prefs.WString

/-!
# Preferences

`Preferences.cpp`: a namespace and a key are joined with a slash to one EasyFlash key, and a value
is stored behind a header of its type and length. Every typed put is `putValue` with the type's
code and bytes; every typed get reads the blob back and checks the header.

The puts take the outcomes of their allocations (`Heap`) and of the LittleFS calls below
`ef_set_env_blob` (`LfsOutcome`). The other functions are on a heap and a file system that do not
fail; `ensure_easyflash` has succeeded.
-/

namespace Bl616cl.Prefs

/-- `VALUE_HEADER`. -/
def valueHeader : Nat := 5

inductive PreferenceType where
  | i8 | u8 | i16 | u16 | i32 | u32 | i64 | u64 | str | blob | invalid
  deriving DecidableEq, Repr

namespace PreferenceType

def code : PreferenceType → UInt8
  | i8 => 0 | u8 => 1 | i16 => 2 | u16 => 3 | i32 => 4 | u32 => 5 | i64 => 6 | u64 => 7
  | str => 8 | blob => 9 | invalid => 10

/-- The cast from a stored type byte. -/
def ofCode (c : UInt8) : PreferenceType :=
  if c = 0 then i8 else if c = 1 then u8 else if c = 2 then i16 else if c = 3 then u16
  else if c = 4 then i32 else if c = 5 then u32 else if c = 6 then i64 else if c = 7 then u64
  else if c = 8 then str else if c = 9 then blob else invalid

theorem ofCode_code (t : PreferenceType) : ofCode t.code = t := by
  cases t <;> rfl

theorem code_inj {t t' : PreferenceType} : t.code = t'.code ↔ t = t' :=
  ⟨fun h => by rw [← ofCode_code t, h, ofCode_code], fun h => h ▸ rfl⟩

end PreferenceType

/-! ## Blobs -/

def putLe32 (v : Nat) : List UInt8 :=
  [UInt8.ofNat v, UInt8.ofNat (v >>> 8), UInt8.ofNat (v >>> 16), UInt8.ofNat (v >>> 24)]

def getLe32 (src : List UInt8) : Nat :=
  (src.getD 0 0).toNat ||| (src.getD 1 0).toNat <<< 8 ||| (src.getD 2 0).toNat <<< 16 |||
    (src.getD 3 0).toNat <<< 24

/-- The blob that `putValue` fills in. -/
def makeBlob (type : PreferenceType) (value : List UInt8) : List UInt8 :=
  type.code :: putLe32 value.length ++ value

/-- `read_blob`. -/
def readBlob (store : Store) (key : List UInt8) : Option (List UInt8) :=
  match efGetEnvBlob store key with
  | none => none
  | some blob => if blob.length < valueHeader then none else some blob

/-- The length field of a blob. -/
def blobLen (blob : List UInt8) : Nat := getLe32 (blob.drop 1)

/-! ## Integers -/

/-- The integer types with a put and a get of their own. -/
inductive IntKind where
  | char | uChar | short | uShort | int | uInt | long64 | uLong64
  deriving DecidableEq, Repr

namespace IntKind

def type : IntKind → PreferenceType
  | char => .i8 | uChar => .u8 | short => .i16 | uShort => .u16
  | int => .i32 | uInt => .u32 | long64 => .i64 | uLong64 => .u64

def size : IntKind → Nat
  | char | uChar => 1
  | short | uShort => 2
  | int | uInt => 4
  | long64 | uLong64 => 8

end IntKind

/-- The memory of an integer: `size` bytes, little endian. -/
def leBytes : Nat → Nat → List UInt8
  | 0, _ => []
  | size + 1, v => UInt8.ofNat v :: leBytes size (v / 256)

def ofLe : List UInt8 → Nat
  | [] => 0
  | b :: bs => b.toNat + 256 * ofLe bs

/-! ## The class -/

structure Preferences where
  ns : WString
  readOnly : Bool

namespace Preferences

/-- The constructor. -/
def initial : Preferences := ⟨WString.init, false⟩

variable (p : Preferences) (store : Store)

/-- `none` is the null pointer. -/
def begin (name : Option CStr) (readOnly : Bool) (heap : Heap) : Preferences × Bool :=
  match name with
  | none => (p, false)
  | some name =>
    if name.chars = [] ∨ name.chars.length > 15 then (p, false)
    else (⟨(p.ns.assign name.chars heap).1, readOnly⟩, true)

def end_ : Preferences := { p with ns := WString.init }

def makeKey (key : Option CStr) (heap : Heap) : WString × Heap :=
  match key with
  | none => (WString.init, heap)
  | some key =>
    if p.ns.length = 0 then (WString.init, heap)
    else
      let slashed := p.ns.add [0x2F] heap
      slashed.1.add key.chars slashed.2

def putValue (key : Option CStr) (type : PreferenceType) (value : Option (List UInt8))
    (heap : Heap) (lfs : LfsOutcome) : Store × Nat :=
  match value with
  | none => (store, 0)
  | some value =>
    if p.readOnly ∨ p.ns.length = 0 ∨ value.length > 0xFFFFFF then (store, 0)
    else
      let k := p.makeKey key heap
      if k.1.length = 0 ∨ k.1.length ≥ efEnvNameMax then (store, 0)
      else if !(alloc k.2).1 then (store, 0)
      else
        let rc := efSetEnvBlob store k.1.text (makeBlob type value) lfs
        (rc.1, if rc.2 then value.length else 0)

/-- The blob behind a key, for every get. -/
def blobOf (key : Option CStr) : Option (List UInt8) :=
  if p.ns.length = 0 then none
  else
    let k := (p.makeKey key []).1
    if k.length = 0 then none else readBlob store k.text

/-- The value bytes, where the blob has the type and the length asked for. -/
def getValue (key : Option CStr) (type : PreferenceType) (len : Nat) : Option (List UInt8) :=
  match p.blobOf store key with
  | none => none
  | some blob =>
    if blob.headD 0 ≠ type.code then none
    else if blobLen blob ≠ len ∨ blob.length ≠ valueHeader + blobLen blob then none
    else some ((blob.drop valueHeader).take (blobLen blob))

/-- The put of an integer type. -/
def putScalar (K : IntKind) (key : Option CStr) (v : BitVec (8 * K.size)) (heap : Heap)
    (lfs : LfsOutcome) : Store × Nat :=
  p.putValue store key K.type (some (leBytes K.size v.toNat)) heap lfs

def putChar (key : Option CStr) (v : Int8) := p.putScalar store .char key v.toBitVec
def putUChar (key : Option CStr) (v : UInt8) := p.putScalar store .uChar key v.toBitVec
def putShort (key : Option CStr) (v : Int16) := p.putScalar store .short key v.toBitVec
def putUShort (key : Option CStr) (v : UInt16) := p.putScalar store .uShort key v.toBitVec
def putInt (key : Option CStr) (v : Int32) := p.putScalar store .int key v.toBitVec
def putUInt (key : Option CStr) (v : UInt32) := p.putScalar store .uInt key v.toBitVec
def putLong64 (key : Option CStr) (v : Int64) := p.putScalar store .long64 key v.toBitVec
def putULong64 (key : Option CStr) (v : UInt64) := p.putScalar store .uLong64 key v.toBitVec

def putString (key : Option CStr) (value : Option CStr) (heap : Heap) (lfs : LfsOutcome) :
    Store × Nat :=
  match value with
  | none => (store, 0)
  | some value => p.putValue store key .str (some value.chars) heap lfs

def putBytes (key : Option CStr) (value : Option (List UInt8)) (heap : Heap) (lfs : LfsOutcome) :
    Store × Nat :=
  p.putValue store key .blob value heap lfs

/-- The get of an integer type. -/
def getScalar (K : IntKind) (key : Option CStr) (defaultValue : BitVec (8 * K.size)) :
    BitVec (8 * K.size) :=
  match p.getValue store key K.type K.size with
  | some bytes => BitVec.ofNat _ (ofLe bytes)
  | none => defaultValue

def getChar (key : Option CStr) (d : Int8) := Int8.ofBitVec (p.getScalar store .char key d.toBitVec)
def getUChar (key : Option CStr) (d : UInt8) :=
  UInt8.ofBitVec (p.getScalar store .uChar key d.toBitVec)
def getShort (key : Option CStr) (d : Int16) :=
  Int16.ofBitVec (p.getScalar store .short key d.toBitVec)
def getUShort (key : Option CStr) (d : UInt16) :=
  UInt16.ofBitVec (p.getScalar store .uShort key d.toBitVec)
def getInt (key : Option CStr) (d : Int32) := Int32.ofBitVec (p.getScalar store .int key d.toBitVec)
def getUInt (key : Option CStr) (d : UInt32) :=
  UInt32.ofBitVec (p.getScalar store .uInt key d.toBitVec)
def getLong64 (key : Option CStr) (d : Int64) :=
  Int64.ofBitVec (p.getScalar store .long64 key d.toBitVec)
def getULong64 (key : Option CStr) (d : UInt64) :=
  UInt64.ofBitVec (p.getScalar store .uLong64 key d.toBitVec)

def getString (key : Option CStr) (defaultValue : List UInt8) : List UInt8 :=
  match p.blobOf store key with
  | none => defaultValue
  | some blob =>
    if blob.headD 0 ≠ PreferenceType.str.code then defaultValue
    else if blob.length ≠ valueHeader + blobLen blob then defaultValue
    else ((blob.drop valueHeader).take (blobLen blob)).takeWhile (· ≠ 0)

def getBytesLength (key : Option CStr) : Nat :=
  match p.blobOf store key with
  | none => 0
  | some blob =>
    if blob.headD 0 ≠ PreferenceType.blob.code then 0
    else if blob.length = valueHeader + blobLen blob then blobLen blob else 0

/-- The bytes written to the buffer; their number is the return value. -/
def getBytes (key : Option CStr) (maxLen : Nat) : List UInt8 :=
  match p.blobOf store key with
  | none => []
  | some blob =>
    if blob.headD 0 ≠ PreferenceType.blob.code then []
    else if blob.length ≠ valueHeader + blobLen blob ∨ blobLen blob > maxLen then []
    else (blob.drop valueHeader).take (blobLen blob)

def getType (key : Option CStr) : PreferenceType :=
  match p.blobOf store key with
  | none => .invalid
  | some blob => PreferenceType.ofCode (blob.headD 0)

/-- `strncmp(a, b, n) == 0`, on strings that end at their first NUL. -/
def strncmpEq : Nat → List UInt8 → List UInt8 → Bool
  | 0, _, _ => true
  | n + 1, a, b =>
    if a.headD 0 ≠ b.headD 0 then false
    else if a.headD 0 = 0 then true
    else strncmpEq n a.tail b.tail

def nsMatch (ns key : List UInt8) : Bool :=
  strncmpEq ns.length key ns && (key.drop ns.length).headD 0 == 0x2F

/-- Delete what `collect_cb` has collected. -/
def clear : Store × Bool :=
  if p.ns.length = 0 then (store, false)
  else
    let keys := (efForeachEnv store).filter (nsMatch p.ns.text)
    (keys.foldl (fun store key => (efDelEnv store key).1) store, true)

def remove (key : Option CStr) : Store × Bool :=
  if p.ns.length = 0 ∨ key = none then (store, false)
  else
    let k := (p.makeKey key []).1
    if k.length = 0 then (store, false) else efDelEnv store k.text

def freeEntries : Nat :=
  if p.ns.length = 0 then 0
  else ((efForeachEnv store).filter (nsMatch p.ns.text)).length

end Preferences

/-! ## Typed values -/

/-- A value of one of the ten types that can be put. -/
inductive Value where
  | scalar (K : IntKind) (v : BitVec (8 * K.size))
  | str (s : CStr)
  | blob (bytes : List UInt8)

namespace Value

def type : Value → PreferenceType
  | scalar K _ => K.type
  | str _ => .str
  | blob _ => .blob

def payload : Value → List UInt8
  | scalar K v => leBytes K.size v.toNat
  | str s => s.chars
  | blob bytes => bytes

/-- What the gets of each type return when this is the value at their key. -/
def asScalar (K : IntKind) (d : BitVec (8 * K.size)) : Option Value → BitVec (8 * K.size)
  | some (scalar K' v) => if h : K' = K then h ▸ v else d
  | _ => d

def asString (d : List UInt8) : Option Value → List UInt8
  | some (str s) => s.chars
  | _ => d

def asBytes (maxLen : Nat) : Option Value → List UInt8
  | some (blob bytes) => if bytes.length ≤ maxLen then bytes else []
  | _ => []

def asBytesLength : Option Value → Nat
  | some (blob bytes) => bytes.length
  | _ => 0

def asType : Option Value → PreferenceType
  | some v => v.type
  | none => .invalid

end Value

/-- The argument of a put; `none` is the null pointer. -/
inductive PutArg where
  | scalar (K : IntKind) (v : BitVec (8 * K.size))
  | str (s : Option CStr)
  | blob (bytes : Option (List UInt8))

def PutArg.value : PutArg → Option Value
  | .scalar K v => some (.scalar K v)
  | .str s => s.map .str
  | .blob bytes => bytes.map .blob

namespace Preferences

/-- The put of any type. -/
def put (p : Preferences) (store : Store) (key : Option CStr) (arg : PutArg) (heap : Heap)
    (lfs : LfsOutcome) : Store × Nat :=
  match arg with
  | .scalar K v => p.putScalar store K key v heap lfs
  | .str s => p.putString store key s heap lfs
  | .blob bytes => p.putBytes store key bytes heap lfs

variable {p : Preferences} {store : Store} {key : Option CStr} {heap : Heap} {lfs : LfsOutcome}

/-- Every put is `putValue` of its value's type and bytes. -/
theorem put_eq {arg : PutArg} {v : Value} (h : arg.value = some v) :
    p.put store key arg heap lfs = p.putValue store key v.type (some v.payload) heap lfs := by
  cases arg with
  | scalar K w =>
    obtain rfl := Option.some.inj h
    rfl
  | str s =>
    cases s with
    | none => cases h
    | some s =>
      obtain rfl := Option.some.inj h
      rfl
  | blob bytes =>
    cases bytes with
    | none => cases h
    | some bytes =>
      obtain rfl := Option.some.inj h
      rfl

theorem put_null {arg : PutArg} (h : arg.value = none) :
    p.put store key arg heap lfs = (store, 0) := by
  cases arg with
  | scalar K w => cases h
  | str s =>
    cases s with
    | none => rfl
    | some s => cases h
  | blob bytes =>
    cases bytes with
    | none => rfl
    | some bytes => cases h

end Preferences

/-! ## Blobs read back -/

theorem getLe32_eq (a b c d : UInt8) (rest : List UInt8) :
    getLe32 (a :: b :: c :: d :: rest) =
      a.toNat + b.toNat * 2 ^ 8 + c.toNat * 2 ^ 16 + d.toNat * 2 ^ 24 := by
  have hb : ∀ a n k : Nat, a < 2 ^ k → a ||| n <<< k = a + n * 2 ^ k := by
    intro a n k ha
    rw [Nat.lor_comm, ← Nat.shiftLeft_add_eq_or_of_lt ha, Nat.shiftLeft_eq, Nat.add_comm]
  have ha := a.toNat_lt
  have hb' := b.toNat_lt
  have hc := c.toNat_lt
  simp only [getLe32, List.getD_cons_zero, List.getD_cons_succ]
  rw [hb _ _ 8 (by omega), hb _ _ 16 (by omega), hb _ _ 24 (by omega)]

theorem getLe32_putLe32 {v : Nat} (h : v < 2 ^ 32) (rest : List UInt8) :
    getLe32 (putLe32 v ++ rest) = v := by
  simp only [putLe32, List.cons_append, List.nil_append, getLe32_eq, UInt8.toNat_ofNat',
    Nat.shiftRight_eq_div_pow]
  omega

@[simp] theorem length_leBytes (size v : Nat) : (leBytes size v).length = size := by
  induction size generalizing v with
  | zero => rfl
  | succ size ih => simp [leBytes, ih]

theorem ofLe_leBytes {size v : Nat} (h : v < 2 ^ (8 * size)) : ofLe (leBytes size v) = v := by
  induction size generalizing v with
  | zero =>
    simp only [Nat.mul_zero, Nat.pow_zero] at h
    simp only [leBytes, ofLe]
    omega
  | succ size ih =>
    have hdiv : v / 256 < 2 ^ (8 * size) := by
      rw [Nat.div_lt_iff_lt_mul (by decide)]
      rwa [Nat.mul_succ, Nat.pow_add] at h
    rw [leBytes, ofLe, ih hdiv, UInt8.toNat_ofNat']
    omega

variable {type : PreferenceType} {value : List UInt8}

theorem length_makeBlob : (makeBlob type value).length = valueHeader + value.length := by
  simp [makeBlob, putLe32, valueHeader]
  omega

theorem headD_makeBlob : (makeBlob type value).headD 0 = type.code := rfl

theorem drop_makeBlob : (makeBlob type value).drop valueHeader = value := rfl

theorem blobLen_makeBlob (h : value.length ≤ 0xFFFFFF) :
    blobLen (makeBlob type value) = value.length :=
  getLe32_putLe32 (by omega) value

end Bl616cl.Prefs
