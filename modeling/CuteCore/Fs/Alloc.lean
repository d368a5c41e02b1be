import CuteCore.Fs.Vfs

/-!
# Allocation of blocks and inodes

`ext2_alloc_block` and `ext2_alloc_inode` take the first clear bit of the first
group that has one, and both kinds of free clear a bit. The two pairs differ in
the fields they use and in the numbers that belong to a group.
-/

namespace CuteCore.Fs

open Hoare Bytes

/-- The fields of one of the two allocators: the bitmap pointer and the free
counter in `struct ext2_bg_desc`, and the counter in the superblock. -/
structure Resource where
  bitmap : Nat
  groupFree : Nat
  superFree : Nat

def blocks : Resource where
  bitmap := 0
  groupFree := 12
  superFree := 12

def inodesOf : Resource where
  bitmap := 4
  groupFree := 14
  superFree := 16

/-- The `n`-byte field at `off` of `gb_table[g]`. -/
def Vfs.groupField (s : Vfs) (g off n : Nat) : Nat := load s.gbTable (g * 32 + off) n

/-- The first clear bit of one byte of a bitmap, if it is below `limit`. -/
def clearBitOf (byte index limit : Nat) : Option Nat :=
  match (List.range 8).find? fun k => !byte.testBit k with
  | some k => if index * 8 + k < limit then some (index * 8 + k) else none
  | none => none

/-- The scan of a bitmap, over `remaining` bytes from `index` on. -/
def findClear (bmap : Fin nBlkNum) (limit : Nat) : Nat → Nat → FsProg (Option Nat)
  | 0, _ => return none
  | remaining + 1, index => do
    let byte ← loadBuf bmap index 1
    match clearBitOf byte index limit with
    | some bit => return some bit
    | none => findClear bmap limit remaining (index + 1)

/-- Write `gb_table[g]` back to the descriptor table. -/
def writeGdesc (g : Nat) : FsProg Unit := do
  let s ← get
  let first ← loadSuper 20 4
  let perBlk := s.blockSize / 32
  let gdt ← bread (u32 (first + 1 + g / perBlk))
  copyBuf gdt (g % perBlk * 32) 32 fun x => s.gbTable (g * 32 + x)
  bwrite gdt
  brelse gdt

/-- Change the two free counters of a group by `delta` on their unsigned types. -/
def countFree (r : Resource) (g delta16 delta32 : Nat) : FsProg Unit := do
  modify fun s => { s with
    gbTable := store s.gbTable (g * 32 + r.groupFree) 2 (s.groupField g r.groupFree 2 + delta16) }
  writeGdesc g
  let free ← loadSuper r.superFree 4
  let s ← get
  storeBuf s.sbBuf (1024 + r.superFree) 4 (free + delta32)
  bwrite s.sbBuf

/-- Set the first clear bit below `limit` in the bitmap of a group. -/
def claimBit (bitmap limit : Nat) : FsProg (Option Nat) := do
  let bmap ← bread bitmap
  let found ← findClear bmap limit (u32 (limit + 7) / 8) 0
  match found with
  | none => do
    brelse bmap
    return none
  | some bit => do
    let byte ← loadBuf bmap (bit / 8) 1
    storeBuf bmap (bit / 8) 1 (byte ||| 2 ^ (bit % 8))
    bwrite bmap
    brelse bmap
    return some bit

/-- The group loop of both allocators. `range g` gives the first number of a
group and how many numbers it has. -/
def allocFrom (r : Resource) (range : Nat → FsProg (Nat × Nat)) :
    Nat → Nat → FsProg (Option Nat)
  | 0, _ => return none
  | remaining + 1, g => do
    let s ← get
    if s.groupField g r.groupFree 2 = 0 then allocFrom r range remaining (g + 1)
    else do
      let numbers ← range g
      let claimed ← claimBit (s.groupField g r.bitmap 4) numbers.2
      match claimed with
      | none => allocFrom r range remaining (g + 1)
      | some bit => do
        countFree r g (2 ^ 16 - 1) (2 ^ 32 - 1)
        return some (numbers.1 + bit)

/-- Cut the numbers of a group off at the total. -/
def cutRange (base size total : Nat) : Nat × Nat :=
  (base, if total < u32 (base + size) then sub32 total base else size)

def blockRange (g : Nat) : FsProg (Nat × Nat) := do
  let first ← loadSuper 20 4
  let perGroup ← loadSuper 32 4
  let total ← loadSuper 4 4
  return cutRange (u32 (first + g * perGroup)) perGroup total

def inodeRange (g : Nat) : FsProg (Nat × Nat) := do
  let s ← get
  let total ← loadSuper 0 4
  return cutRange (u32 (g * s.inodePerGroup)) s.inodePerGroup total

/-- The block number, or 0. -/
def ext2AllocBlock : FsProg Nat := do
  let s ← get
  let found ← allocFrom blocks blockRange s.groupCount 0
  return match found with
  | some n => u32 n
  | none => 0

/-- The inode number, or 0. -/
def ext2AllocInode : FsProg Nat := do
  let s ← get
  let found ← allocFrom inodesOf inodeRange s.groupCount 0
  return match found with
  | some n => u32 (n + 1)
  | none => 0

/-- The common part of both kinds of free. -/
def freeBit (r : Resource) (g bit : Nat) : FsProg Unit := do
  let s ← get
  onlyIf (g < s.groupCount) do
    let bmap ← bread (s.groupField g r.bitmap 4)
    let byte ← loadBuf bmap (bit / 8) 1
    storeBuf bmap (bit / 8) 1 (byte &&& (255 - 2 ^ (bit % 8)))
    bwrite bmap
    brelse bmap
    countFree r g 1 1

def ext2FreeBlock (blkNo : Nat) : FsProg Unit := do
  let first ← loadSuper 20 4
  let perGroup ← loadSuper 32 4
  onlyIf (blkNo ≠ 0 ∧ first ≤ blkNo)
    (freeBit blocks ((blkNo - first) / perGroup) ((blkNo - first) % perGroup))

def ext2FreeInode (ino : Nat) : FsProg Unit := do
  let s ← get
  onlyIf (ino ≠ 0)
    (freeBit inodesOf ((ino - 1) / s.inodePerGroup) ((ino - 1) % s.inodePerGroup))

end CuteCore.Fs
