import CuteCore.Block.BlkCache
import CuteCore.Library.Bytes
import CuteCore.Library.Frames

/-!
# The mounted file system

`struct vfs` with the runtime data of ext2, over the block cache. Inodes are
objects behind pointers; a pointer is never handed out again, so a use after
`destroy_inode` is a fault. `kmalloc` serves or refuses each request as an
arbitrary sequence says. Buffers that the code leaves uninitialized hold
arbitrary bytes.
-/

namespace CuteCore.Fs

open Hoare Bytes

inductive InodeType where
  | file
  | dir
  | symlink
  deriving DecidableEq

/-- `EXT2_N_BLOCKS` -/
abbrev nBlocks : Nat := 15

/-- `struct inode` with its `struct ext2_inode_info`. -/
structure Inode where
  ino : Nat
  type : InodeType
  mode : Nat
  uid : Nat
  gid : Nat
  size : Nat
  nlinks : Nat
  ref : Int
  dirty : Bool
  valid : Bool
  iBlock : Fin nBlocks → Nat
  iFlags : Nat

/-- `struct vfs` and `struct ext2_sb_info`, with the objects they lead to. -/
structure Vfs where
  caches : BlkCache.Caches ByteMap
  blockSize : Nat
  root : Nat
  inodes : Nat → Option Inode
  inodeCache : List Nat
  icacheSize : Nat
  gbTable : ByteMap
  groupCount : Nat
  inodeSize : Nat
  inodePerGroup : Nat
  sbBuf : Fin nBlkNum
  /-- The next inode pointer. -/
  nextInode : Nat
  /-- Whether `kmalloc` serves each of its requests, and their number so far. -/
  served : Nat → Bool
  requests : Nat
  uninitialized : ByteMap

abbrev FsProg (α : Type) := Prog Vfs Fault α

/-- Results on `u32`. -/
def u32 (n : Nat) : Nat := n % 2 ^ 32

/-- Subtraction on `u32`. -/
def sub32 (a b : Nat) : Nat := u32 (a + 2 ^ 32 - b)

/-- The block sizes of a mount. -/
def MountedSize (blockSize : Nat) : Prop := ∃ k ≤ 2, blockSize = 1024 * 2 ^ k

theorem MountedSize.cases {blockSize : Nat} (size : MountedSize blockSize) :
    blockSize = 1024 ∨ blockSize = 2048 ∨ blockSize = 4096 := by
  obtain ⟨k, small, isSize⟩ := size
  interval_cases k
  · exact Or.inl isSize
  · exact Or.inr (Or.inl isSize)
  · exact Or.inr (Or.inr isSize)

theorem MountedSize.small {blockSize : Nat} (size : MountedSize blockSize) :
    0 < blockSize ∧ blockSize ≤ blkSz := by
  rcases size.cases with same | same | same <;>
  · subst same
    exact ⟨by decide, by decide⟩

/-- The number of pointers of an index block, and of descriptors in a block of their table. -/
theorem MountedSize.whole {blockSize : Nat} (size : MountedSize blockSize) :
    4 * (blockSize / 4) = blockSize ∧ 32 * (blockSize / 32) = blockSize := by
  rcases size.cases with same | same | same <;>
  · subst same
    exact ⟨rfl, rfl⟩

def onCaches {α : Type} (program : BlkCache.CacheProg ByteMap α) : FsProg α :=
  onPart Vfs.caches (fun caches s => { s with caches := caches }) program

def bread (no : Nat) : FsProg (Fin nBlkNum) := onCaches (BlkCache.bread no)
def bwrite (cache : Fin nBlkNum) : FsProg Unit := onCaches (BlkCache.bwrite cache)
def brelse (cache : Fin nBlkNum) : FsProg Unit := onCaches (BlkCache.brelse cache)

/-- The bytes of a buffer. -/
def bufData (cache : Fin nBlkNum) : FsProg ByteMap := do
  let s ← get
  return (s.caches.slot cache).data

/-- Read the `n`-byte field at `off` of a buffer. -/
def loadBuf (cache : Fin nBlkNum) (off n : Nat) : FsProg Nat := do
  if off + n ≤ blkSz then do
    let data ← bufData cache
    return load data off n
  else throw .badAccess

/-- Overwrite `n` bytes at `off` of a buffer. -/
def copyBuf (cache : Fin nBlkNum) (off n : Nat) (source : Nat → Byte) : FsProg Unit :=
  if off + n ≤ blkSz then onCaches (BlkCache.modifyData cache fun data => copy data off n source)
  else throw .badAccess

/-- Write the `n`-byte field at `off` of a buffer. -/
def storeBuf (cache : Fin nBlkNum) (off n value : Nat) : FsProg Unit :=
  copyBuf cache off n (byteOf value)

/-- `memset` to zero. -/
def clearBuf (cache : Fin nBlkNum) (off n : Nat) : FsProg Unit := copyBuf cache off n fun _ => 0

/-- The `n`-byte field at `off` of `raw_sb`. -/
def loadSuper (off n : Nat) : FsProg Nat := do
  let s ← get
  loadBuf s.sbBuf (1024 + off) n

/-- The object behind an inode pointer. -/
def derefInode (p : Nat) : FsProg Inode := do
  let s ← get
  match s.inodes p with
  | some inode => return inode
  | none => throw .badAccess

def Vfs.setInode (s : Vfs) (p : Nat) (inode : Inode) : Vfs :=
  { s with inodes := Function.update s.inodes p (some inode) }

theorem inodes_setInode_self (s : Vfs) (p : Nat) (inode : Inode) :
    (s.setInode p inode).inodes p = some inode := Function.update_self ..

theorem inodes_setInode_other (s : Vfs) {p : Nat} (inode : Inode) {q : Nat} (other : q ≠ p) :
    (s.setInode p inode).inodes q = s.inodes q := Function.update_of_ne other _ _

/-- Change fields of the object behind an inode pointer. -/
def updateInode (p : Nat) (f : Inode → Inode) : FsProg Unit := do
  let inode ← derefInode p
  modify fun s => s.setInode p (f inode)

/-- Add to a reference count. Signed overflow has no meaning. -/
def addRef (p : Nat) : FsProg Unit := do
  let inode ← derefInode p
  if inode.ref + 1 < 2 ^ 31 then modify fun s => s.setInode p { inode with ref := inode.ref + 1 }
  else throw .badAccess

/-- Whether the next `kmalloc` is served. -/
def kmallocServed : FsProg Bool := do
  let s ← get
  set { s with requests := s.requests + 1 }
  return s.served s.requests

end CuteCore.Fs
