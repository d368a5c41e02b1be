import CuteCore.Fs.Dir

/-!
# Reading and writing files

`ext2_file_read` and `ext2_file_write` go through a file block by block. A pass
moves one byte at least, so the length bounds the number of passes.

Both loops take the offset by value and hand the new one back. The read loop gives what it
has moved when it comes to a block that cannot be addressed; the write loop stops where no
block can be had, and grows the size of the file to where it came. The sum that clamps a
read has 64 bits, the offset 32.
-/

namespace CuteCore.Fs

open Hoare Bytes

/-- Conversion to `i32`. -/
def i32 (n : Nat) : Int :=
  if n % 2 ^ 32 < 2 ^ 31 then (n % 2 ^ 32 : Nat) else (n % 2 ^ 32 : Nat) - 2 ^ 32

/-- The loop of `ext2_file_read`: the result, the offset and the caller's buffer. -/
def readBlocks (p len : Nat) : Nat → Nat → Nat → ByteMap → ByteMap → FsProg (Int × Nat × ByteMap)
  | 0, total, offset, _, out => return (i32 total, offset, out)
  | budget + 1, total, offset, blockBuf, out =>
    if total < len then do
      let s ← get
      let block ← ext2ReadBlock p (offset / s.blockSize) blockBuf
      match block with
      | none => return (if 0 < total then i32 total else -1, offset, out)
      | some blockBuf =>
        let chunk := min (s.blockSize - offset % s.blockSize) (len - total)
        readBlocks p len budget (total + chunk) (u32 (offset + chunk)) blockBuf
          (copy out total chunk fun i => blockBuf (offset % s.blockSize + i))
    else return (i32 total, offset, out)

def ext2FileRead (p len offset : Nat) (out : ByteMap) : FsProg (Int × Nat × ByteMap) := do
  let s ← get
  if blkSz < s.blockSize then return (-1, offset, out)
  else do
    let inode ← derefInode p
    if inode.size ≤ offset then return (0, offset, out)
    else do
      let len := if inode.size < (offset + len) % 2 ^ 64 then inode.size - offset else len
      readBlocks p len len 0 offset s.uninitialized out

/-- The loop of `ext2_file_write`: whether it came to its end, the bytes written and the
offset. -/
def writeBlocks (p len : Nat) (data : ByteMap) :
    Nat → Nat → Nat → ByteMap → FsProg (Bool × Nat × Nat)
  | 0, total, offset, _ => return (true, total, offset)
  | budget + 1, total, offset, blockBuf =>
    if total < len then do
      let s ← get
      let block ← ext2ReadBlock p (offset / s.blockSize) blockBuf
      match block with
      | none => return (false, total, offset)
      | some old => do
        let chunk := min (s.blockSize - offset % s.blockSize) (len - total)
        let changed := copy old (offset % s.blockSize) chunk fun i => data (total + i)
        let written ← ext2WriteBlock p (offset / s.blockSize) changed
        if written = false then return (false, total, offset)
        else writeBlocks p len data budget (total + chunk) (u32 (offset + chunk)) changed
    else return (true, total, offset)

/-- The steps of `ext2_file_write` behind its loop. -/
def growFile (p offset : Nat) : FsProg Unit := do
  let inode ← derefInode p
  onlyIf (inode.size < offset)
    (updateInode p fun inode => { inode with size := offset, dirty := true })
  let inode ← derefInode p
  onlyIf (inode.dirty = true) do
    let _ ← ext2WriteInode p
    return ()

def ext2FileWrite (p len offset : Nat) (data : ByteMap) : FsProg (Int × Nat) := do
  let s ← get
  if blkSz < s.blockSize then return (-1, offset)
  else if len = 0 then return (0, offset)
  else do
    let ends ← writeBlocks p len data len 0 offset s.uninitialized
    if ends.1 = false then return (if 0 < ends.2.1 then i32 ends.2.1 else -1, ends.2.2)
    else do
      growFile p ends.2.2
      return (i32 ends.2.1, ends.2.2)

end CuteCore.Fs
