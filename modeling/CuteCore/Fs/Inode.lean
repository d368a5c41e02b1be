import CuteCore.Fs.Alloc

/-!
# Inodes

Where an inode lies on disk, the inode cache, and the release of an inode with
all its blocks. `iput` belongs to the layer above but unlinking needs it here.
-/

namespace CuteCore.Fs

open Hoare Bytes

/-- The block of an inode's slot and the offset in it. -/
def ext2InodeLoc (ino : Nat) : FsProg (Nat × Nat) := do
  let s ← get
  let index := sub32 ino 1
  let group := index / s.inodePerGroup
  if s.groupCount ≤ group then throw (.panic "ext2: inode out of range")
  else do
    let offset := u32 (index % s.inodePerGroup * s.inodeSize)
    return (u32 (s.groupField group 8 4 + offset / s.blockSize), offset % s.blockSize)

/-- The type for the bits of `i_mode` under `S_IFMT`. -/
def typeOfMode (mode : Nat) : InodeType :=
  if mode &&& 0xF000 = 0x4000 then .dir
  else if mode &&& 0xF000 = 0x8000 then .file
  else if mode &&& 0xF000 = 0xA000 then .symlink
  else .file

/-- The fields that `ext2_read_inode` takes from a slot at `off`. -/
def Inode.fromSlot (inode : Inode) (data : ByteMap) (off : Nat) : Inode :=
  { inode with
    mode := load data off 2
    uid := load data (off + 2) 2
    gid := load data (off + 24) 2
    size := load data (off + 4) 4
    nlinks := load data (off + 26) 2
    type := typeOfMode (load data off 2)
    iBlock := fun i => load data (off + 40 + 4 * i) 4
    iFlags := load data (off + 32) 4
    valid := true }

def ext2ReadInode (p : Nat) : FsProg Unit := do
  let inode ← derefInode p
  onlyIf (inode.valid = false) do
    let loc ← ext2InodeLoc inode.ino
    let cache ← bread loc.1
    let _ ← loadBuf cache loc.2 100
    let data ← bufData cache
    updateInode p fun inode => inode.fromSlot data loc.2
    brelse cache

/-- The fields of `struct ext2_inode` that `ext2_write_inode` stores, in order:
offset, width and value. -/
def Inode.rawFields (inode : Inode) (blockSize : Nat) : List (Nat × Nat × Nat) :=
  [(0, 2, inode.mode), (2, 2, inode.uid), (24, 2, inode.gid), (4, 4, inode.size),
    (26, 2, inode.nlinks),
    (28, 4, (List.finRange nBlocks).countP (fun i => inode.iBlock i ≠ 0) * (blockSize / 512))] ++
  (List.finRange nBlocks).map (fun i => (40 + 4 * i.val, 4, inode.iBlock i)) ++
  [(32, 4, inode.iFlags)]

/-- Store fields of a slot one after the other. -/
def storeFields (cache : Fin nBlkNum) (off : Nat) : List (Nat × Nat × Nat) → FsProg Unit
  | [] => return ()
  | (field, width, value) :: rest => do
    storeBuf cache (off + field) width value
    storeFields cache off rest

/-- True when the inode was written. -/
def ext2WriteInode (p : Nat) : FsProg Bool := do
  let inode ← derefInode p
  if inode.valid = false then return false
  else do
    let loc ← ext2InodeLoc inode.ino
    let cache ← bread loc.1
    let s ← get
    storeFields cache loc.2 (inode.rawFields s.blockSize)
    bwrite cache
    brelse cache
    updateInode p fun inode => { inode with dirty := false }
    return true

/-- The object that `ext2_iget` sets up before the slot is read. The fields that
`ext2_read_inode` fills in hold no value yet. -/
def newInode (ino : Nat) : Inode where
  ino := ino
  type := .file
  mode := 0
  uid := 0
  gid := 0
  size := 0
  nlinks := 0
  ref := 1
  dirty := false
  valid := false
  iBlock := fun _ => 0
  iFlags := 0

/-- The first cached inode with this number. -/
def Vfs.findCached (s : Vfs) (ino : Nat) : Option Nat :=
  s.inodeCache.find? fun p => (s.inodes p).any fun inode => inode.ino = ino

/-- Read an inode that is not cached and put it at the head of the cache. -/
def loadInode (ino : Nat) : FsProg (Option Nat) := do
  let inodeServed ← kmallocServed
  if inodeServed = false then return none
  else do
    let infoServed ← kmallocServed
    if infoServed = false then return none
    else do
      let s ← get
      let p := s.nextInode
      set { s.setInode p (newInode ino) with nextInode := p + 1 }
      ext2ReadInode p
      modify fun s => { s with
        inodeCache := p :: s.inodeCache
        icacheSize := u32 (s.icacheSize + 1) }
      return some p

def ext2Iget (ino : Nat) : FsProg (Option Nat) := do
  if ino = 0 then return none
  else do
    let s ← get
    match s.findCached ino with
    | some p => do
      addRef p
      return some p
    | none => loadInode ino

def ext2DestroyInode (p : Nat) : FsProg Unit :=
  modify fun s => { s with inodes := Function.update s.inodes p none }

/-- Free a block with what hangs off it, `level` index blocks deep. -/
def ext2FreeBranch : Nat → Nat → FsProg Unit
  | 0, blockNr => onlyIf (blockNr ≠ 0) (ext2FreeBlock blockNr)
  | level + 1, blockNr =>
    onlyIf (blockNr ≠ 0) do
      let cache ← bread blockNr
      let s ← get
      forRange (fun i => do
        let ptr ← loadBuf cache (4 * i) 4
        onlyIf (ptr ≠ 0) (ext2FreeBranch level ptr)) (s.blockSize / 4) 0
      brelse cache
      ext2FreeBlock blockNr

/-- How deep the index blocks behind `i_block[i]` go. -/
def levelOf (i : Fin nBlocks) : Nat := i.val - 11

/-- The passes of `ext2_truncate_inode` over the listed pointers. -/
def freeBranches (p : Nat) : List (Fin nBlocks) → FsProg Unit
  | [] => return ()
  | i :: rest => do
    let inode ← derefInode p
    ext2FreeBranch (levelOf i) (inode.iBlock i)
    updateInode p fun inode => { inode with iBlock := Function.update inode.iBlock i 0 }
    freeBranches p rest

def ext2TruncateInode (p : Nat) : FsProg Unit := do
  freeBranches p (List.finRange nBlocks)
  updateInode p fun inode => { inode with size := 0, dirty := true }
  let _ ← ext2WriteInode p
  return ()

/-- Free an inode without links, write a changed one back. -/
def settleInode (p : Nat) : FsProg Unit := do
  let inode ← derefInode p
  if inode.nlinks = 0 then do
    ext2TruncateInode p
    ext2FreeInode inode.ino
  else onlyIf (inode.dirty = true) do
    let _ ← ext2WriteInode p
    return ()

/-- The last reference to an inode other than the root is gone. -/
def releaseInode (p : Nat) : FsProg Unit := do
  settleInode p
  modify fun s => { s with
    inodeCache := s.inodeCache.erase p
    icacheSize := sub32 s.icacheSize 1 }
  ext2DestroyInode p

def iput (p : Nat) : FsProg Unit := do
  updateInode p fun inode => { inode with ref := inode.ref - 1 }
  let inode ← derefInode p
  let s ← get
  if 0 < inode.ref then return ()
  else if p = s.root then updateInode p fun inode => { inode with ref := 1 }
  else releaseInode p

end CuteCore.Fs
