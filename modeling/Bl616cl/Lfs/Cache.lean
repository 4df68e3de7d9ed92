import Bl616cl.Lfs.Blocks
import Bl616cl.Lfs.Crc
import Bl616cl.Lib.Wp

/-!
# littlefs: caches

The functions between the file system and the flash, with a cache for what is read and one that
collects what is programmed. What the flash answers, and what it makes of a block, is up to an
environment that knows the whole state.
-/

namespace Bl616cl.Lfs

open Bl616cl.Lib

/-- `lfs_cache_t`. -/
structure Cache where
  block : Nat
  off : Nat
  size : Nat
  buffer : Nat → UInt8

structure Bd where
  disk : Blocks
  pcache : Cache
  rcache : Cache
  /-- How often the flash has been asked. -/
  time : Nat

/-- The functions of `lfs_config`. -/
structure Flash where
  read : Bd → Nat → Nat → Nat → Option Err
  /-- What a read that fails leaves in the buffer. -/
  junk : Bd → Nat → UInt8
  /-- What programming leaves of the block. -/
  prog : Bd → Nat → Nat → List UInt8 → (Nat → UInt8) × Option Err
  erase : Bd → Nat → (Nat → UInt8) × Option Err
  sync : Bd → Option Err

abbrev BdM := EStateM Err Bd

variable (c : Config) (fl : Flash)

def Bd.tick (s : Bd) : Bd := { s with time := s.time + 1 }

def failWith : Option Err → BdM Unit
  | none => pure ()
  | some e => throw e

def flashRead (block off size : Nat) : BdM (List UInt8) := do
  let s ← get
  set s.tick
  failWith (fl.read s block off size)
  return Memory.read (s.disk block) off size

def flashProg (block off : Nat) (data : List UInt8) : BdM Unit := do
  let s ← get
  let r := fl.prog s block off data
  set { s.tick with disk := Function.update s.disk block r.1 }
  failWith r.2

def lfsCacheDrop : BdM Unit :=
  modify fun s => { s with rcache := { s.rcache with block := blockNull } }

def lfsCacheZero : BdM Unit :=
  modify fun s => { s with pcache := { s.pcache with block := blockNull, buffer := fun _ => 0xff } }

/-! ## Reading -/

/-- What the cache has from an offset on. -/
def Cache.hit (ca : Cache) (block off diff : Nat) : Option (List UInt8) :=
  if block = ca.block ∧ off < ca.off + ca.size ∧ ca.off ≤ off then
    some (Memory.read ca.buffer (off - ca.off) (min diff (ca.size - (off - ca.off))))
  else none

/-- The cache takes priority from its first byte on. -/
def Cache.limit (ca : Cache) (block off diff : Nat) : Nat :=
  if block = ca.block ∧ off < ca.off + ca.size then min diff (ca.off - off) else diff

/-- How much is loaded to the cache: what the hint says, and no more than a block and a cache. -/
def loadSize (hint off : Nat) : Nat :=
  min (sub32 (min (alignUp32 (add32 off hint) c.readSize) c.blockSize) (alignDown off c.readSize))
    c.cacheSize

/-- Loads to the cache. -/
def bdLoad (hint block off : Nat) : BdM Unit := do
  let start := alignDown off c.readSize
  let size := loadSize c hint off
  modify fun s => { s with rcache := { s.rcache with block, off := start, size } }
  let s ← get
  match fl.read s block start size with
  | some e => do
    set { s.tick with rcache := { s.rcache with buffer := fl.junk s } }
    throw e
  | none =>
    set { s.tick with rcache := { s.rcache with
      buffer := Memory.write s.rcache.buffer 0 (Memory.read (s.disk block) start size) } }

/-- A round of `lfs_bd_read`: some of the bytes, unless it has loaded the cache. -/
def bdReadPiece (pcache : Option Cache) (hint block off size : Nat) :
    BdM (Option (List UInt8)) := do
  let s ← get
  match pcache.bind fun ca => ca.hit block off size with
  | some data => return some data
  | none =>
    let diff := pcache.elim size fun ca => ca.limit block off size
    match s.rcache.hit block off diff with
    | some data => return some data
    | none =>
      let diff := s.rcache.limit block off diff
      if hint ≤ size ∧ off % c.readSize = 0 ∧ c.readSize ≤ size then
        -- bypass cache
        some <$> flashRead fl block off (alignDown diff c.readSize)
      else
        bdLoad c fl hint block off
        return none

def bdReadLoop (pcache : Option Cache) (hint block : Nat) : Nat → Nat → Nat → BdM (List UInt8)
  | 0, _, _ => pure []
  | fuel + 1, off, size =>
    if size = 0 then pure []
    else do
      let piece ← bdReadPiece c fl pcache hint block off size
      match piece with
      | some data => do
        let rest ← bdReadLoop pcache hint block fuel (add32 off data.length) (size - data.length)
        return data ++ rest
      | none => bdReadLoop pcache hint block fuel off size

/-- `lfs_bd_read`. No two rounds in a row load the cache. -/
def lfsBdRead (pcache : Option Cache) (hint block off size : Nat) : BdM (List UInt8) := do
  if add32 off size > c.blockSize ∨ c.blockCount ≤ block then throw .corrupt
  else bdReadLoop c fl pcache hint block (2 * size) off size

/-! ## Comparing and summing -/

/-- `memcmp`. -/
def memcmp : List UInt8 → List UInt8 → Ordering
  | x :: xs, y :: ys => (compare x y).then (memcmp xs ys)
  | _, _ => .eq

/-- By eight bytes at most. -/
def bdCmpLoop (pcache : Option Cache) (block : Nat) :
    Nat → Nat → Nat → List UInt8 → BdM Ordering
  | 0, _, _, _ => pure .eq
  | fuel + 1, hint, off, data =>
    if data = [] then pure .eq
    else do
      let diff := min data.length 8
      let dat ← lfsBdRead c fl pcache hint block off diff
      match memcmp dat (data.take diff) with
      | .eq => bdCmpLoop pcache block fuel (sub32 hint diff) (add32 off diff) (data.drop diff)
      | res => return res

def lfsBdCmp (pcache : Option Cache) (hint block off : Nat) (data : List UInt8) : BdM Ordering :=
  bdCmpLoop c fl pcache block data.length hint off data

def bdCrcLoop (pcache : Option Cache) (block : Nat) :
    Nat → Nat → Nat → Nat → BitVec 32 → BdM (BitVec 32)
  | 0, _, _, _, crc => pure crc
  | fuel + 1, hint, off, size, crc =>
    if size = 0 then pure crc
    else do
      let diff := min size 8
      let dat ← lfsBdRead c fl pcache hint block off diff
      bdCrcLoop pcache block fuel (sub32 hint diff) (add32 off diff) (size - diff) (lfsCrc crc dat)

def lfsBdCrc (pcache : Option Cache) (hint block off size : Nat) (crc : BitVec 32) :
    BdM (BitVec 32) :=
  bdCrcLoop c fl pcache block size hint off size crc

/-! ## Programming -/

/-- Checks the data on disk. -/
def flushCheck (ca : Cache) (diff : Nat) : BdM Unit := do
  lfsCacheDrop
  let res ← lfsBdCmp c fl none diff ca.block ca.off (Memory.read ca.buffer 0 diff)
  if res ≠ .eq then throw .corrupt

def lfsBdFlush (validate : Bool) : BdM Unit := do
  let s ← get
  let ca := s.pcache
  if ca.block ≠ blockNull ∧ ca.block ≠ blockInline then
    let diff := alignUp ca.size c.progSize
    flashProg fl ca.block ca.off (Memory.read ca.buffer 0 diff)
    if validate then flushCheck c fl ca diff
    lfsCacheZero

def lfsBdSync (validate : Bool) : BdM Unit := do
  lfsCacheDrop
  lfsBdFlush c fl validate
  let s ← get
  set s.tick
  failWith (fl.sync s)

def Cache.put (ca : Cache) (off : Nat) (data : List UInt8) : Cache :=
  { ca with
    size := max ca.size (off + data.length - ca.off)
    buffer := Memory.write ca.buffer (off - ca.off) data }

/-- A round of `lfs_bd_prog`: how many bytes went to the cache. -/
def bdProgPiece (validate : Bool) (block off : Nat) (data : List UInt8) : BdM Nat := do
  let s ← get
  let ca := s.pcache
  if block = ca.block ∧ ca.off ≤ off ∧ off < ca.off + c.cacheSize then
    let diff := min data.length (c.cacheSize - (off - ca.off))
    let ca := ca.put off (data.take diff)
    set { s with pcache := ca }
    -- eagerly flush out the cache
    if ca.size = c.cacheSize then lfsBdFlush c fl validate
    return diff
  else
    set { s with pcache := { ca with block, off := alignDown off c.progSize, size := 0 } }
    return 0

def bdProgLoop (validate : Bool) (block : Nat) : Nat → Nat → List UInt8 → BdM Unit
  | 0, _, _ => pure ()
  | fuel + 1, off, data =>
    if data = [] then pure ()
    else do
      let diff ← bdProgPiece c fl validate block off data
      bdProgLoop validate block fuel (off + diff) (data.drop diff)

/-- `lfs_bd_prog`. No two rounds in a row prepare the cache. -/
def lfsBdProg (validate : Bool) (block off : Nat) (data : List UInt8) : BdM Unit :=
  bdProgLoop c fl validate block (2 * data.length) off data

def lfsBdErase (block : Nat) : BdM Unit := do
  let s ← get
  let r := fl.erase s block
  set { s.tick with disk := s.disk.erase block r.1 }
  failWith r.2

end Bl616cl.Lfs
