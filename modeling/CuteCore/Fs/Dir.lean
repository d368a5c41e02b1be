import CuteCore.Fs.Inode

/-!
# Blocks of a file and directories

The block map of an inode, with allocation of what is missing, and the records
of a directory block. A name is the list of its bytes. The scans advance by at
least one byte a pass, so the block size bounds the number of passes.
-/

namespace CuteCore.Fs

open Hoare Bytes

/-- The pointer in `i_block` and the indices below it that lead to a logical
block. Triple indirection is not supported. -/
def blockPath (blockSize lbk : Nat) : Option (Fin nBlocks × List Nat) :=
  let perBlk := blockSize / 4
  if lbk < 12 then some (Fin.ofNat nBlocks lbk, [])
  else if lbk - 12 < perBlk then some (Fin.ofNat nBlocks 12, [lbk - 12])
  else if lbk - 12 - perBlk < perBlk * perBlk then
    some (Fin.ofNat nBlocks 13, [(lbk - 12 - perBlk) / perBlk, (lbk - 12 - perBlk) % perBlk])
  else none

/-- Follow pointers through index blocks. A missing block ends the walk with 0. -/
def followPtrs (blkNo : Nat) : List Nat → FsProg Nat
  | [] => return blkNo
  | i :: rest =>
    if blkNo = 0 then return 0
    else do
      let cache ← bread blkNo
      let ptr ← loadBuf cache (4 * i) 4
      brelse cache
      followPtrs ptr rest

/-- The new contents of the buffer, or none when the block cannot be addressed. -/
def ext2ReadBlock (p lbk : Nat) (buf : ByteMap) : FsProg (Option ByteMap) := do
  let inode ← derefInode p
  let s ← get
  match blockPath s.blockSize lbk with
  | none => return none
  | some (slot, path) => do
    let blkNo ← followPtrs (inode.iBlock slot) path
    if blkNo = 0 then return some (fill buf 0 s.blockSize 0)
    else do
      let cache ← bread blkNo
      let data ← bufData cache
      brelse cache
      return some (copy buf 0 s.blockSize data)

/-- Zero a new index block. -/
def clearBlock (blkNo : Nat) : FsProg Unit := do
  let cache ← bread blkNo
  let s ← get
  clearBuf cache 0 s.blockSize
  bwrite cache
  brelse cache

/-- Pointer `slot` of the inode, allocated if it is missing. -/
def ensureSlot (p : Nat) (slot : Fin nBlocks) (isIndex : Bool) : FsProg (Option Nat) := do
  let inode ← derefInode p
  if inode.iBlock slot = 0 then do
    let nb ← ext2AllocBlock
    if nb = 0 then return none
    else do
      updateInode p fun inode => { inode with
        iBlock := Function.update inode.iBlock slot nb
        dirty := true }
      onlyIf (isIndex = true) (clearBlock nb)
      return some nb
  else return some (inode.iBlock slot)

/-- Pointer `i` of an index block, allocated if it is missing. -/
def ensurePtr (blkNo i : Nat) (isIndex : Bool) : FsProg (Option Nat) := do
  let cache ← bread blkNo
  let ptr ← loadBuf cache (4 * i) 4
  if ptr = 0 then do
    let nb ← ext2AllocBlock
    if nb = 0 then do
      brelse cache
      return none
    else do
      storeBuf cache (4 * i) 4 nb
      bwrite cache
      onlyIf (isIndex = true) (clearBlock nb)
      let ptr ← loadBuf cache (4 * i) 4
      brelse cache
      return some ptr
  else do
    brelse cache
    return some ptr

def ensurePath (blkNo : Nat) : List Nat → FsProg (Option Nat)
  | [] => return some blkNo
  | i :: rest => do
    let ptr ← ensurePtr blkNo i (!rest.isEmpty)
    match ptr with
    | none => return none
    | some ptr => ensurePath ptr rest

/-- True when the block was written. -/
def ext2WriteBlock (p lbk : Nat) (buf : ByteMap) : FsProg Bool := do
  let s ← get
  match blockPath s.blockSize lbk with
  | none => return false
  | some (slot, path) => do
    let top ← ensureSlot p slot (!path.isEmpty)
    match top with
    | none => return false
    | some top => do
      let blkNo ← ensurePath top path
      match blkNo with
      | none => return false
      | some blkNo => do
        let cache ← bread blkNo
        copyBuf cache 0 s.blockSize buf
        bwrite cache
        brelse cache
        return true

/-- The fields of `struct ext2_dir_entry` at `pos`. -/
def deInode (buf : ByteMap) (pos : Nat) : Nat := load buf pos 4
def deRecLen (buf : ByteMap) (pos : Nat) : Nat := load buf (pos + 4) 2
def deNameLen (buf : ByteMap) (pos : Nat) : Nat := load buf (pos + 6) 1

/-- The outcome of a scan: where the record is, with the one before it. -/
inductive Scan where
  | found (prev : Option Nat) (pos : Nat)
  | absent
  | outOfBounds

/-- `memcmp` of a name with the bytes of a block buffer from `pos` on. It stops at the first
difference, so it has no result only where it gets behind the buffer before it finds one. -/
def sameBytes (buf : ByteMap) (pos : Nat) : List Byte → Option Bool
  | [] => some true
  | c :: rest =>
    if blkSz ≤ pos then none
    else if buf pos = c then sameBytes buf (pos + 1) rest
    else some false

/-- The scan of `ext2_lookup` and `ext2_unlink` for a live record with this name. -/
def scanFrom (buf : ByteMap) (blockSize : Nat) (name : List Byte) : Nat → Option Nat → Nat → Scan
  | 0, _, _ => .absent
  | budget + 1, prev, pos =>
    if blockSize < pos + 8 then .absent
    else if deRecLen buf pos = 0 then .absent
    else if deInode buf pos ≠ 0 ∧ deNameLen buf pos = name.length % 256 then
      match sameBytes buf (pos + 8) name with
      | none => .outOfBounds
      | some true => .found prev pos
      | some false => scanFrom buf blockSize name budget (some pos) (pos + deRecLen buf pos)
    else scanFrom buf blockSize name budget (some pos) (pos + deRecLen buf pos)

/-- Inside the buffer `memcmp` says whether the bytes are those of the name. -/
theorem sameBytes_inside (buf : ByteMap) (name : List Byte) (pos : Nat)
    (inside : pos + name.length ≤ blkSz) : sameBytes buf pos name =
      some (decide ((List.range name.length).map (fun i => buf (pos + i)) = name)) := by
  induction name generalizing pos with
  | nil => rfl
  | cons c rest inductionHypothesis =>
    rw [List.length_cons] at inside
    have tail : (List.range rest.length).map (fun i => buf (pos + (i + 1))) =
        (List.range rest.length).map (fun i => buf (pos + 1 + i)) := by
      refine List.map_congr_left fun i _ => ?_
      rw [Nat.add_assoc, Nat.add_comm 1 i]
    rw [sameBytes, if_neg (by omega), inductionHypothesis (pos + 1) (by omega), List.length_cons,
      List.range_succ_eq_map, List.map_cons, List.map_map, Nat.add_zero, Function.comp_def, tail]
    by_cases same : buf pos = c
    · simp [same]
    · simp [same]

/-- The number of blocks of a directory. -/
def dirBlocks (blockSize size : Nat) : Nat := u32 (size + blockSize - 1) / blockSize

/-- The block loop of `ext2_lookup`: the inode number of the first match. -/
def lookupFrom (p : Nat) (name : List Byte) : Nat → Nat → FsProg (Option Nat)
  | 0, _ => return none
  | remaining + 1, lbk => do
    let s ← get
    let block ← ext2ReadBlock p lbk s.uninitialized
    match block with
    | none => lookupFrom p name remaining (lbk + 1)
    | some buf =>
      match scanFrom buf s.blockSize name s.blockSize none 0 with
      | .found _ pos => return some (deInode buf pos)
      | .absent => lookupFrom p name remaining (lbk + 1)
      | .outOfBounds => throw .badAccess

def ext2Lookup (p : Nat) (name : List Byte) : FsProg (Option Nat) := do
  let dir ← derefInode p
  if dir.type ≠ .dir ∨ name = [] then return none
  else do
    let s ← get
    let found ← lookupFrom p name (dirBlocks s.blockSize dir.size) 0
    match found with
    | none => return none
    | some ino => ext2Iget ino

/-- The smallest record for a name of this length. -/
def actualLen (nameLen : Nat) : Nat := u32 (8 + nameLen + 3) / 4 * 4

/-- The room behind a record's own header and name. -/
def slackOf (buf : ByteMap) (pos : Nat) : Nat :=
  sub32 (deRecLen buf pos) (actualLen (deNameLen buf pos))

/-- The scan of `ext2_dir_add_entry` for a record with enough room. -/
def findSlack (buf : ByteMap) (blockSize needed : Nat) : Nat → Nat → Option Nat
  | 0, _ => none
  | budget + 1, pos =>
    if blockSize < pos + 8 then none
    else if deRecLen buf pos = 0 then none
    else if needed ≤ slackOf buf pos then some pos
    else findSlack buf blockSize needed budget (pos + deRecLen buf pos)

/-- A record with its name. -/
def putEntry (buf : ByteMap) (pos ino recLen fileType : Nat) (name : List Byte) : ByteMap :=
  copy (store (store (store (store buf pos 4 ino) (pos + 4) 2 recLen) (pos + 6) 1 name.length)
    (pos + 7) 1 fileType) (pos + 8) name.length fun i => name.getD i 0

/-- Split the room off the record at `pos` and put a new one there. -/
def splitEntry (buf : ByteMap) (pos ino fileType : Nat) (name : List Byte) : ByteMap :=
  putEntry (store buf (pos + 4) 2 (actualLen (deNameLen buf pos)))
    (pos + actualLen (deNameLen buf pos)) ino (slackOf buf pos) fileType name

/-- The block loop of `ext2_dir_add_entry`: the outcome if a block had room. -/
def addFrom (p : Nat) (name : List Byte) (ino fileType : Nat) :
    Nat → Nat → FsProg (Option Bool)
  | 0, _ => return none
  | remaining + 1, lbk => do
    let s ← get
    let block ← ext2ReadBlock p lbk s.uninitialized
    match block with
    | none => addFrom p name ino fileType remaining (lbk + 1)
    | some buf =>
      match findSlack buf s.blockSize (actualLen name.length) s.blockSize 0 with
      | none => addFrom p name ino fileType remaining (lbk + 1)
      | some pos =>
        if blkSz < pos + actualLen (deNameLen buf pos) + 8 + name.length then throw .badAccess
        else do
          let written ← ext2WriteBlock p lbk (splitEntry buf pos ino fileType name)
          return some written

/-- True when the record was added. -/
def ext2DirAddEntry (p : Nat) (name : List Byte) (ino fileType : Nat) : FsProg Bool := do
  let dir ← derefInode p
  let s ← get
  let nblocks := dirBlocks s.blockSize dir.size
  let added ← addFrom p name ino fileType nblocks 0
  match added with
  | some written => return written
  | none =>
    if blkSz < 8 + name.length then throw .badAccess
    else do
      let fresh := putEntry (fill s.uninitialized 0 s.blockSize 0) 0 ino s.blockSize fileType name
      let written ← ext2WriteBlock p nblocks fresh
      if written = false then return false
      else do
        updateInode p fun dir => { dir with size := u32 (dir.size + s.blockSize), dirty := true }
        let _ ← ext2WriteInode p
        return true

/-- The new inode, or none. -/
def ext2Create (dir : Nat) (name : List Byte) (mode : Nat) : FsProg (Option Nat) := do
  if name = [] then return none
  else do
    let ino ← ext2AllocInode
    if ino = 0 then return none
    else do
      let loc ← ext2InodeLoc ino
      let cache ← bread loc.1
      let s ← get
      clearBuf cache loc.2 s.inodeSize
      storeBuf cache loc.2 2 (0x8000 ||| (mode &&& 0xFFF))
      storeBuf cache (loc.2 + 26) 2 1
      bwrite cache
      brelse cache
      let added ← ext2DirAddEntry dir name ino 1
      if added = false then do
        ext2FreeInode ino
        return none
      else ext2Iget ino

/-- The bytes `"."` and `".."`. -/
def dotName : List Byte := [0x2E]
def dotdotName : List Byte := [0x2E, 0x2E]

/-- The first block of a new directory. -/
def fillDirBlock (blkNo ino parent : Nat) : FsProg Unit := do
  let dcache ← bread blkNo
  let s ← get
  onCaches (BlkCache.modifyData dcache fun data =>
    putEntry (putEntry (fill data 0 s.blockSize 0) 0 ino 12 2 dotName) 12 parent
      (s.blockSize - 12) 2 dotdotName)
  bwrite dcache
  brelse dcache

/-- The counter of directories in the group of a new directory. -/
def countDir (ino : Nat) : FsProg Unit := do
  let s ← get
  let group := (ino - 1) / s.inodePerGroup
  let count := s.groupField group 16 2 + 1
  modify fun s => { s with gbTable := store s.gbTable (group * 32 + 16) 2 count }
  let sbBlk ← bread 0
  storeBuf sbBlk (2048 + group * 32 + 16) 2 count
  bwrite sbBlk
  brelse sbBlk

/-- The new directory, or none. -/
def ext2Mkdir (dir : Nat) (name : List Byte) (mode : Nat) : FsProg (Option Nat) := do
  if name = [] then return none
  else do
    let ino ← ext2AllocInode
    if ino = 0 then return none
    else do
      let loc ← ext2InodeLoc ino
      let icache ← bread loc.1
      let s ← get
      clearBuf icache loc.2 s.inodeSize
      storeBuf icache loc.2 2 (0x4000 ||| (mode &&& 0xFFF))
      storeBuf icache (loc.2 + 26) 2 2
      storeBuf icache (loc.2 + 4) 4 s.blockSize
      storeBuf icache (loc.2 + 28) 4 (s.blockSize / 512)
      let dataBlk ← ext2AllocBlock
      if dataBlk = 0 then do
        brelse icache
        ext2FreeInode ino
        return none
      else do
        storeBuf icache (loc.2 + 40) 4 dataBlk
        bwrite icache
        brelse icache
        let parent ← derefInode dir
        fillDirBlock dataBlk ino parent.ino
        let added ← ext2DirAddEntry dir name ino 2
        if added = false then do
          ext2FreeBlock dataBlk
          ext2FreeInode ino
          return none
        else do
          updateInode dir fun parent => { parent with
            nlinks := u32 (parent.nlinks + 1)
            dirty := true }
          let _ ← ext2WriteInode dir
          countDir ino
          ext2Iget ino

/-- The block with the record at `pos` removed. -/
def removeEntry (buf : ByteMap) (prev : Option Nat) (pos : Nat) : ByteMap :=
  match prev with
  | some before => store buf (before + 4) 2 (deRecLen buf before + deRecLen buf pos)
  | none => store buf pos 4 0

/-- One link of the target less. -/
def dropLink (target : Nat) : FsProg Unit := do
  let victim ← ext2Iget target
  match victim with
  | none => return ()
  | some v => do
    updateInode v fun inode => { inode with
      nlinks := if 0 < inode.nlinks then inode.nlinks - 1 else inode.nlinks
      dirty := true }
    let _ ← ext2WriteInode v
    iput v

/-- The block loop of `ext2_unlink`. -/
def unlinkFrom (p : Nat) (name : List Byte) : Nat → Nat → FsProg Bool
  | 0, _ => return false
  | remaining + 1, lbk => do
    let s ← get
    let block ← ext2ReadBlock p lbk s.uninitialized
    match block with
    | none => unlinkFrom p name remaining (lbk + 1)
    | some buf =>
      match scanFrom buf s.blockSize name s.blockSize none 0 with
      | .absent => unlinkFrom p name remaining (lbk + 1)
      | .outOfBounds => throw .badAccess
      | .found prev pos => do
        let written ← ext2WriteBlock p lbk (removeEntry buf prev pos)
        if written = false then return false
        else do
          dropLink (deInode buf pos)
          return true

/-- True when a record with the name was removed. -/
def ext2Unlink (dir : Nat) (name : List Byte) : FsProg Bool := do
  if name = [] then return false
  else do
    let inode ← derefInode dir
    let s ← get
    unlinkFrom dir name (dirBlocks s.blockSize inode.size) 0

end CuteCore.Fs
