import Bl616cl.Lfs.SkipList
import Bl616cl.Lib.Wp

/-!
# littlefs: open files

The functions on an open file above the caches. What the allocator and the device answer, and what
part of a block is in the cache of the file, is up to an environment that knows the whole state.
-/

namespace Bl616cl.Lfs

open Bl616cl.Lib

/-- `lfs_file_t`: the flags, the list that the file was last flushed to, where it is, and its
cache as far as it holds an inline file. -/
@[ext]
structure File where
  reading : Bool
  writing : Bool
  inl : Bool
  dirty : Bool
  errored : Bool
  append : Bool
  /-- Removed while open. -/
  removed : Bool
  head : Nat
  size : Nat
  pos : Nat
  block : Nat
  off : Nat
  buffer : Nat → UInt8

/-- What the directory says of the file. -/
inductive Saved where
  | inl (data : List UInt8)
  | ctz (head size : Nat)

def Saved.isInline : Saved → Bool
  | .inl _ => true
  | .ctz _ _ => false

/-- What the environment is asked for. A read that fails says where the file is then. -/
inductive Ask where
  | alloc
  | prog
  | flush
  | commit
  | find
  | read (failed : Option File)

structure State where
  d : Blocks
  file : File
  saved : Saved
  /-- What the environment has been asked for, and in which state, the last first. -/
  past : List (Ask × State)

structure Env where
  /-- The blocks that `lfs_alloc` delivers until one can be written. -/
  ask : State → List Alloc
  /-- The errors of `lfs_bd_prog`, of `lfs_bd_flush` and of `lfs_dir_commit`. -/
  prog : State → Option Err
  flush : State → Option Err
  commit : State → Option Err
  /-- The errors of `lfs_bd_read` in `lfs_ctz_find`, where a list is gone on with or cut. -/
  find : State → Option Err
  /-- Those in `lfs_file_flushedread`, of the file that is read. -/
  read : State → File → Option Err
  /-- Whether the cache of the file holds this offset. -/
  cached : State → Nat → Bool

abbrev M := EStateM Err State

/-- `LFS_FILE_MAX`. -/
def fileMax : Nat := 2 ^ 31 - 1

variable (c : Config) (env : Env)

/-- The most that is kept in the directory. -/
def inlineMax : Nat :=
  min 0x3fe (min c.cacheSize ((if c.metadataMax ≠ 0 then c.metadataMax else c.blockSize) / 8))

def State.asked (s : State) (q : Ask) : State := { s with past := (q, s) :: s.past }

theorem State.file_self (s : State) : State.mk s.d s.file s.saved s.past = s := by
  cases s
  rfl

def getFile : M File := fun s => .ok s.file s

def setFile (g : File → File) : M Unit := modify fun s => { s with file := g s.file }

/-- Marks the file when this fails. -/
def orErred {α : Type} (x : M α) : M α := fun s =>
  match x s with
  | .ok a s' => .ok a s'
  | .error e s' => .error e { s' with file := { s'.file with errored := true } }

/-! ## Reading -/

/-- A read of the device, or the error of `lfs_bd_read`. -/
def faulty {α : Type} (fault : Option Err) (x : Except Err α) : Except Err α :=
  match fault with
  | none => x
  | some e => .error e

section
variable (d : Blocks) (fault : File → Option Err)

/-- Checks if a new block is needed. -/
def readBlock : EStateM Err File Unit := do
  let f ← get
  if f.reading = false ∨ f.off = c.blockSize then
    if f.inl then set { f with block := blockInline, off := f.pos, reading := true }
    else
      let place ← ofExcept (faulty (fault f) (lfsCtzFind c d f.head f.size f.pos))
      set { f with block := place.1, off := place.2, reading := true }

/-- Reads as much as it can in the current block. -/
def readPiece (nsize : Nat) : EStateM Err File (List UInt8) := do
  let f ← get
  let diff := min nsize (c.blockSize - f.off)
  let data ← ofExcept
    (if f.inl then .ok (Memory.read f.buffer f.off diff)
    else faulty (fault f) (d.read c f.block f.off diff))
  set { f with pos := f.pos + diff, off := f.off + diff }
  return data

def readLoop : Nat → Nat → EStateM Err File (List UInt8)
  | 0, _ => pure []
  | fuel + 1, nsize =>
    if nsize = 0 then pure []
    else do
      readBlock c d fault
      let data ← readPiece c d fault nsize
      let rest ← readLoop fuel (nsize - data.length)
      return data ++ rest

/-- `lfs_file_flushedread`. Every round reads a byte at least. -/
def lfsFileFlushedread (size : Nat) : EStateM Err File (List UInt8) := do
  let f ← get
  if f.pos ≥ f.size then return []
  else
    let nsize := min size (f.size - f.pos)
    readLoop c d fault nsize nsize

end

/-- Reading leaves the device as it is. -/
def onFile {α : Type} (x : Blocks → (File → Option Err) → EStateM Err File α) : M α := fun s =>
  match x s.d (env.read s) s.file with
  | .ok a f => .ok a { s.asked (.read none) with file := f }
  | .error e f => .error e { s.asked (.read (some f)) with file := f }

/-! ## Writing -/

/-- What `lfs_file_relocate` copies. -/
def File.copied (f : File) (d : Blocks) : List UInt8 :=
  Memory.read (if f.inl then f.buffer else d f.block) 0 f.off

def relocateLoop (f : File) (d : Blocks) : List Alloc → Blocks × Except Err Nat
  | [] => (d, .error .nospc)
  | .fails e :: _ => (d, .error e)
  | .bad block left :: more => relocateLoop f (d.erase block left) more
  | .good nblock left :: _ =>
    let d := d.erase nblock left
    (d.prog nblock 0 (f.copied d), .ok nblock)

def lfsFileRelocate : M Unit := do
  let s ← get
  let r := relocateLoop s.file s.d (env.ask s)
  set { s.asked .alloc with d := r.1 }
  let nblock ← ofExcept r.2
  setFile fun f => { f with block := nblock, writing := true }

def lfsFileOutline : M Unit := do
  setFile fun f => { f with off := f.pos }
  lfsFileRelocate env
  setFile fun f => { f with inl := false }

/-- Finds out which block the file is extended from. -/
def writeHead : M Unit := do
  let s ← get
  if s.file.writing = false ∧ s.file.pos > 0 then
    set (s.asked .find)
    let place ← ofExcept
      (faulty (env.find s) (lfsCtzFind c s.d s.file.head s.file.size (s.file.pos - 1)))
    setFile fun f => { f with block := place.1 }

def writeExtend : M Unit := do
  let s ← get
  let r := lfsCtzExtend c s.file.block s.file.pos s.d (env.ask s)
  set { s.asked .alloc with d := r.1 }
  let place ← ofExcept r.2
  setFile fun f => { f with block := place.1, off := place.2, writing := true }

/-- Checks if a new block is needed. -/
def writeBlock : M Unit := do
  let f ← getFile
  if f.writing = false ∨ f.off = c.blockSize then
    if f.inl then setFile fun f => { f with block := blockInline, off := f.pos, writing := true }
    else
      writeHead c env
      writeExtend c env

/-- Programs a piece, in another block where this one is bad. No more blocks can be asked for than
there are. -/
def progLoop (data : List UInt8) : Nat → M Unit
  | 0 => throw .nospc
  | fuel + 1 => do
    let s ← get
    if s.file.inl then
      setFile fun f => { f with buffer := Memory.write f.buffer f.off data }
    else
      set (s.asked .prog)
      match env.prog s with
      | none => modify fun s => { s with d := s.d.prog s.file.block s.file.off data }
      | some .corrupt => do
        lfsFileRelocate env
        progLoop data fuel
      | some e => throw e

/-- Programs as much as it can in the current block. -/
def writePiece (data : List UInt8) : M Nat := do
  let f ← getFile
  let diff := min data.length (c.blockSize - f.off)
  progLoop env (data.take diff) c.blockCount
  setFile fun f => { f with pos := f.pos + diff, off := f.off + diff }
  return diff

def writeLoop : Nat → List UInt8 → M Unit
  | 0, _ => pure ()
  | fuel + 1, data =>
    if data = [] then pure ()
    else do
      writeBlock c env
      let diff ← writePiece c env data
      writeLoop fuel (data.drop diff)

def writeOutline (size : Nat) : M Unit := do
  let f ← getFile
  if f.inl ∧ max (f.pos + size) f.size > inlineMax c then lfsFileOutline env

/-- `lfs_file_flushedwrite`. Every round writes a byte at least. -/
def lfsFileFlushedwrite (data : List UInt8) : M Nat := orErred do
  writeOutline c env data.length
  writeLoop c env data.length data
  return data.length

/-! ## Flushing -/

/-- Copies what is behind the bytes written, from the list last flushed to. -/
def copyLoop : Nat → File → M Unit
  | 0, _ => pure ()
  | fuel + 1, orig => do
    let s ← get
    if s.file.pos < s.file.size then
      match lfsFileFlushedread c s.d (env.read s) 1 orig with
      | .error e orig => do
        set (s.asked (.read (some orig)))
        throw e
      | .ok data orig => do
        set (s.asked (.read none))
        let _ ← lfsFileFlushedwrite c env data
        copyLoop fuel orig

def flushLoop : Nat → M Unit
  | 0 => throw .nospc
  | fuel + 1 => do
    let s ← get
    set (s.asked .flush)
    match env.flush s with
    | none => pure ()
    | some .corrupt => do
      lfsFileRelocate env
      flushLoop fuel
    | some e => throw e

/-- The file as it is read while it is flushed. -/
def File.orig (f : File) : File :=
  { reading := false, writing := false, inl := false, dirty := false, errored := false,
    append := false, removed := false, head := f.head, size := f.size, pos := f.pos,
    block := 0, off := 0, buffer := f.buffer }

def flushWriting : M Unit := do
  let f ← getFile
  if f.inl then setFile fun f => { f with pos := max f.pos f.size }
  else
    copyLoop c env (f.size - f.pos) f.orig
    flushLoop env c.blockCount
  setFile fun g =>
    { g with head := g.block, size := g.pos, writing := false, dirty := true, pos := f.pos }

def lfsFileFlush : M Unit := do
  setFile fun f => { f with reading := false }
  let f ← getFile
  if f.writing then flushWriting c env

/-- What `lfs_file_rawsync` commits. -/
def File.save (f : File) : Saved :=
  if f.inl then .inl (Memory.read f.buffer 0 f.size) else .ctz f.head f.size

def syncCommit : M Unit := do
  let s ← get
  if s.file.dirty ∧ s.file.removed = false then
    set (s.asked .commit)
    ofExcept (faulty (env.commit s) (.ok ()))
    modify fun s => { s with saved := s.file.save, file := { s.file with dirty := false } }

def lfsFileRawsync : M Unit := do
  let f ← getFile
  if f.errored then pure ()
  else orErred do
    lfsFileFlush c env
    syncCommit env

/-! ## The operations -/

def lfsFileRawread (size : Nat) : M (List UInt8) := do
  let f ← getFile
  if f.writing then lfsFileFlush c env
  onFile env fun d fault => lfsFileFlushedread c d fault size

/-- Fills with zeros up to a position. -/
def zeroLoop (pos : Nat) : Nat → M Unit
  | 0 => pure ()
  | fuel + 1 => do
    let f ← getFile
    if f.pos < pos then
      let _ ← lfsFileFlushedwrite c env [0]
      zeroLoop pos fuel

def writeZeros : M Unit := do
  let f ← getFile
  if f.writing = false ∧ f.pos > f.size then
    setFile fun f => { f with pos := f.size }
    zeroLoop c env f.pos (f.pos - f.size)

/-- Files opened to append are written at their end. -/
def writeMove : M Unit :=
  setFile fun f => if f.append ∧ f.pos < f.size then { f with pos := f.size } else f

def writeReady (data : List UInt8) : M Nat := do
  let f ← getFile
  if add32 f.pos data.length > fileMax then throw .fbig
  else
    writeZeros c env
    let nsize ← lfsFileFlushedwrite c env data
    setFile fun f => { f with errored := false }
    return nsize

def lfsFileRawwrite (data : List UInt8) : M Nat := do
  let f ← getFile
  if f.reading then lfsFileFlush c env
  writeMove
  writeReady c env data

inductive Whence where
  | set
  | cur
  | «end»
  deriving DecidableEq, Repr

def File.rawsize (f : File) : Nat := if f.writing then max f.pos f.size else f.size

/-- The position that `lfs_file_rawseek` goes to. -/
def File.npos (f : File) (off : Int) (whence : Whence) : Except Err Nat :=
  let npos : Int := match whence with
    | .set => off
    | .cur => f.pos + off
    | .end => f.rawsize + off
  if npos < 0 ∨ npos > (fileMax : Int) then .error .inval else .ok npos.toNat

/-- In the same block, at an offset that is in the cache. -/
def seekHit (s : State) (npos : Nat) : Bool :=
  (lfsCtzIndex c s.file.pos).1 = (lfsCtzIndex c npos).1 ∧ env.cached s (lfsCtzIndex c npos).2

def lfsFileRawseek (off : Int) (whence : Whence) : M Nat := do
  let s ← get
  let npos ← ofExcept (s.file.npos off whence)
  if s.file.pos = npos then return npos
  else if s.file.writing = false ∧ seekHit c env s npos then
    setFile fun f => { f with pos := npos, off := (lfsCtzIndex c npos).2 }
    return npos
  else
    lfsFileFlush c env
    setFile fun f => { f with pos := npos }
    return npos

/-- Back to an inline file. -/
def truncateInline (size : Nat) : M Unit := do
  let _ ← lfsFileRawseek c env 0 .set
  let data ← onFile env fun d fault => lfsFileFlushedread c d fault size
  setFile fun f =>
    { f with
      head := blockInline, size, dirty := true, reading := true, inl := true,
      buffer := Memory.write f.buffer 0 data }

def truncateList (size : Nat) : M Unit := do
  lfsFileFlush c env
  let s ← get
  set (s.asked .find)
  let place ← ofExcept
    (faulty (env.find s) (lfsCtzFind c s.d s.file.head s.file.size (size - 1)))
  setFile fun f =>
    { f with
      block := place.1, pos := size, head := place.1, size, dirty := true, reading := true }

def growLoop (size : Nat) : Nat → M Unit
  | 0 => pure ()
  | fuel + 1 => do
    let f ← getFile
    if f.pos < size then
      let _ ← lfsFileRawwrite c env [0]
      growLoop size fuel

def truncateGrow (size : Nat) : M Unit := do
  let pos ← lfsFileRawseek c env 0 .end
  growLoop c env size (size - pos)

def truncateSize (size oldsize : Nat) : M Unit :=
  if size < oldsize then
    if size ≤ inlineMax c then truncateInline c env size else truncateList c env size
  else if size > oldsize then truncateGrow c env size
  else pure ()

def lfsFileRawtruncate (size : Nat) : M Unit := do
  if size > fileMax then throw .inval
  else
    let f ← getFile
    truncateSize c env size f.rawsize
    let _ ← lfsFileRawseek c env f.pos .set
    return ()

/-! ## Opening -/

/-- `lfs_file_rawopencfg`, from what the directory says. -/
def Saved.opened (saved : Saved) (trunc append : Bool) : File :=
  let data := match saved with
    | .inl data => if trunc then [] else data
    | .ctz _ _ => []
  let f : File :=
    { reading := false, writing := false, inl := true, dirty := trunc, errored := false, append,
      removed := false, head := blockInline, size := data.length, pos := 0, block := 0, off := 0,
      buffer := Memory.write (fun _ => 0xff) 0 data }
  match saved with
  | .inl _ => f
  | .ctz head size => if trunc then f else { f with inl := false, head, size }

end Bl616cl.Lfs
