import Bl616cl.Lfs.Util
import Bl616cl.Lib.Wp

/-!
# littlefs: the block allocator

`lfs_alloc` goes round the blocks by a window of bits, which it fills from what
`lfs_fs_rawtraverse` reports. Blocks that are handed out are not reported before they are
committed; that they are not handed out again is left to a count of the blocks looked at.
-/

namespace Bl616cl.Lfs

open Bl616cl.Lib

/-- What has happened. Dropping the window acknowledges what was handed out, too. -/
inductive AllocEvent where
  | scan (reported : List Nat)
  | gave (block : Nat)
  | ack
  | nospc

/-- `lfs_free`, and a log of what has happened, the last first. -/
structure Free where
  off : Nat
  size : Nat
  i : Nat
  ack : Nat
  buffer : Nat → Bool
  log : List AllocEvent

abbrev AllocM := EStateM Err Free

/-- What `lfs_fs_rawtraverse` reports. -/
abbrev Traverse := Free → Except Err (List Nat)

variable (c : Config) (traverse : Traverse)

def Free.mark (s : Free) (buffer : Nat → Bool) (block : Nat) : Nat → Bool :=
  let off := add32 (sub32 block s.off) c.blockCount % c.blockCount
  if off < s.size then Function.update buffer off true else buffer

def lfsAllocAck : AllocM Unit :=
  modify fun s => { s with ack := c.blockCount, log := .ack :: s.log }

def lfsAllocDrop : AllocM Unit := do
  modify fun s => { s with size := 0, i := 0 }
  lfsAllocAck c

def lfsFsRawgc : AllocM Unit := do
  modify fun s => { s with
    off := add32 s.off s.i % c.blockCount
    size := min (8 * c.lookaheadSize) s.ack
    i := 0 }
  let s ← get
  match traverse s with
  | .error e => do
    lfsAllocDrop c
    throw e
  | .ok reported =>
    set { s with
      buffer := reported.foldl (s.mark c) fun _ => false
      log := .scan reported :: s.log }

/-- One more block is looked at. -/
def Free.look (s : Free) : Free := { s with i := s.i + 1, ack := s.ack - 1 }

/-- Eagerly finds the next free block. -/
def skipLoop : Nat → Free → Free
  | 0, s => s
  | fuel + 1, s => if s.i ≠ s.size ∧ s.buffer s.i then skipLoop fuel s.look else s

/-- The next free block of the window. -/
def windowLoop : Nat → AllocM (Option Nat)
  | 0 => pure none
  | fuel + 1 => do
    let s ← get
    if s.i = s.size then return none
    else
      set s.look
      if s.buffer s.i then windowLoop fuel
      else
        let block := add32 s.off s.i % c.blockCount
        modify fun t => skipLoop (t.size - t.i) { t with log := .gave block :: t.log }
        return some block

def allocLoop : Nat → AllocM Nat
  | 0 => throw .nospc
  | fuel + 1 => do
    let s ← get
    let found ← windowLoop c (s.size - s.i)
    match found with
    | some block => return block
    | none => do
      let s ← get
      if s.ack = 0 then
        set { s with log := .nospc :: s.log }
        throw .nospc
      else
        lfsFsRawgc c traverse
        allocLoop fuel

/-- `lfs_alloc`. Every window but the first looks at a block at least. -/
def lfsAlloc : AllocM Nat := do
  let s ← get
  allocLoop c traverse (s.ack + 2)

end Bl616cl.Lfs
