import CuteCore.Fs.Inode

/-!
# Mounting

`ext2_fs_init` checks the superblock, loads the group descriptor table and takes
the root inode. The buffer of the superblock stays held.
-/

namespace CuteCore.Fs

open Hoare Bytes

/-- What `kmalloc` has room for at most: a page behind its magic word, whatever the request. -/
def tableRoom : Nat := 4088

/-- The loop that loads the descriptor table, from byte `copied` and block `gdtBlk`
on. Each pass copies a byte at least. The copy has no meaning where it leaves the room that
`kmalloc` gave for the table. -/
def loadTable (blockSize size : Nat) : Nat → Nat → Nat → FsProg Unit
  | 0, _, _ => return ()
  | budget + 1, copied, gdtBlk =>
    onlyIf (copied < size) do
      let cache ← bread gdtBlk
      let data ← bufData cache
      let chunk := min (size - copied) blockSize
      if tableRoom < copied + chunk then throw .badAccess
      else do
        modify fun s => { s with gbTable := copy s.gbTable copied chunk data }
        brelse cache
        loadTable blockSize size budget (copied + chunk) (gdtBlk + 1)

/-- The last steps of a mount that found a valid superblock. -/
def mountRoot (cache : Fin nBlkNum) : FsProg Int := do
  modify fun s => { s with inodeCache := [], icacheSize := 0 }
  let root ← ext2Iget 2
  match root with
  | none => do
    brelse cache
    return -1
  | some p => do
    modify fun s => { s with root := p }
    return 0

def ext2FsInit : FsProg Int := do
  let cache ← bread 0
  let magic ← loadBuf cache (1024 + 56) 2
  if magic ≠ 0xEF53 then do
    brelse cache
    return -2
  else do
    let infoServed ← kmallocServed
    let logBlockSize ← loadBuf cache (1024 + 24) 4
    let blocksPerGroup ← loadBuf cache (1024 + 32) 4
    let inodesPerGroup ← loadBuf cache (1024 + 40) 4
    let blocksCount ← loadBuf cache (1024 + 4) 4
    let firstDataBlock ← loadBuf cache (1024 + 20) 4
    let revLevel ← loadBuf cache (1024 + 76) 4
    let superInodeSize ← loadBuf cache (1024 + 88) 2
    let groupCount :=
      u32 (sub32 blocksCount firstDataBlock + blocksPerGroup + (2 ^ 32 - 1)) / blocksPerGroup
    if infoServed = false ∨ 2 < logBlockSize ∨ blocksPerGroup = 0 ∨ inodesPerGroup = 0 ∨
        groupCount = 0 then do
      brelse cache
      return -1
    else do
      let tableServed ← kmallocServed
      if tableServed = false then do
        brelse cache
        return -1
      else do
        let blockSize := 1024 * 2 ^ logBlockSize
        loadTable blockSize (groupCount * 32) (groupCount * 32) 0 (u32 (firstDataBlock + 1))
        modify fun s => { s with
          blockSize := blockSize
          groupCount := groupCount
          inodeSize := if 1 ≤ revLevel then superInodeSize else 128
          inodePerGroup := inodesPerGroup
          sbBuf := cache }
        mountRoot cache

end CuteCore.Fs
