import CuteCore.Fs.Blocks
import CuteCore.Fs.File

/-!
# Contents of a file

The block map of an inode, read over the blocks that the cache stands for, gives
every position of a file its byte. `ext2_read_block` returns such a block, and the
loop of `ext2_file_read` moves a stretch of positions to the caller.

A position has a byte also where the file has no block: a hole reads as zeros. The map is
a function of the pointers of the inode and of the index blocks that they lead to. The
loop is followed with the number of bytes it has moved so far, and ends behind the last
block that can be addressed or at the length asked for.
-/

namespace CuteCore.Fs

open Hoare Bytes BlkCache

/-- All bytes of the block count, and it has no unrecorded change. -/
def Firm (loose : Nat → Nat → Prop) (pending : Nat → Prop) (no : Nat) : Prop :=
  (∀ x, ¬ loose no x) ∧ ¬ pending no

/-- Where a chain of pointers ends. A hole on the way makes it 0. -/
def treePtr (view : Nat → ByteMap) : Nat → List Nat → Nat
  | no, [] => no
  | no, i :: rest => if no = 0 then 0 else treePtr view (load (view no) (4 * i) 4) rest

/-- The blocks on a chain of pointers, the last one included. -/
def chainBlocks (view : Nat → ByteMap) : Nat → List Nat → List Nat
  | no, [] => if no = 0 then [] else [no]
  | no, i :: rest =>
    if no = 0 then [] else no :: chainBlocks view (load (view no) (4 * i) 4) rest

/-- The data of a logical block, none when it cannot be addressed. -/
def fileBlock (view : Nat → ByteMap) (blockSize : Nat) (inode : Inode) (lbk : Nat) :
    Option ByteMap :=
  (blockPath blockSize lbk).map fun place =>
    let no := treePtr view (inode.iBlock place.1) place.2
    if no = 0 then fun _ => 0 else view no

/-- The index and data blocks of a file are firm. -/
def FirmFile (loose : Nat → Nat → Prop) (pending : Nat → Prop) (view : Nat → ByteMap)
    (blockSize : Nat) (inode : Inode) : Prop :=
  ∀ lbk slot path, blockPath blockSize lbk = some (slot, path) →
    ∀ no ∈ chainBlocks view (inode.iBlock slot) path, Firm loose pending no

/-- The byte at a position of the file. -/
def fileByte (view : Nat → ByteMap) (blockSize : Nat) (inode : Inode) (pos : Nat) : Byte :=
  (fileBlock view blockSize inode (pos / blockSize)).elim 0 fun data => data (pos % blockSize)

/-- The number of bytes that direct, single and double indirect blocks address. -/
def addressable (blockSize : Nat) : Nat :=
  (12 + blockSize / 4 + blockSize / 4 * (blockSize / 4)) * blockSize

/-- The indices of a path stay inside their blocks. -/
theorem blockPath_index {blockSize lbk : Nat} {slot : Fin nBlocks} {path : List Nat}
    (found : blockPath blockSize lbk = some (slot, path)) (i : Nat) (member : i ∈ path) :
    4 * i + 4 ≤ blockSize := by
  have fits : i < blockSize / 4 → 4 * i + 4 ≤ blockSize := by omega
  simp only [blockPath] at found
  split at found
  · cases found
    cases member
  · split at found
    · rename_i single
      cases found
      rw [List.mem_singleton] at member
      subst member
      exact fits single
    · split at found
      · rename_i double
        cases found
        have positive : 0 < blockSize / 4 := Nat.pos_of_mul_pos_right (Nat.zero_lt_of_lt double)
        rcases List.mem_pair.mp member with first | second
        · subst first
          exact fits (Nat.div_lt_of_lt_mul double)
        · subst second
          exact fits (Nat.mod_lt _ positive)
      · cases found

/-- A logical block has a place as far as direct, single and double indirect pointers reach. -/
theorem blockPath_isSome {blockSize lbk : Nat} : (blockPath blockSize lbk).isSome ↔
    lbk < 12 + blockSize / 4 + blockSize / 4 * (blockSize / 4) := by
  simp only [blockPath]
  generalize blockSize / 4 * (blockSize / 4) = square
  split
  · simp only [Option.isSome_some, true_iff]
    omega
  · split
    · simp only [Option.isSome_some, true_iff]
      omega
    · split
      · simp only [Option.isSome_some, true_iff]
        omega
      · simp only [Option.isSome_none, Bool.false_eq_true, false_iff]
        omega

/-- A position has a block exactly below the addressable limit. -/
theorem fileBlock_isSome {view : Nat → ByteMap} {blockSize : Nat} {inode : Inode} {pos : Nat}
    (positive : 0 < blockSize) :
    (fileBlock view blockSize inode (pos / blockSize)).isSome ↔ pos < addressable blockSize := by
  rw [fileBlock, Option.isSome_map, blockPath_isSome, addressable, Nat.div_lt_iff_lt_mul positive]

/-- The end of a chain of pointers is a block of the chain, unless there is a hole on the way. -/
theorem treePtr_mem {view : Nat → ByteMap} (path : List Nat) (no : Nat)
    (reached : treePtr view no path ≠ 0) : treePtr view no path ∈ chainBlocks view no path := by
  induction path generalizing no with
  | nil =>
    rw [treePtr] at reached
    rw [treePtr, chainBlocks, if_neg reached]
    exact List.mem_singleton_self no
  | cons i rest inductionHypothesis =>
    rw [treePtr] at reached ⊢
    rw [chainBlocks]
    split at reached
    · exact absurd rfl reached
    · rename_i some
      rw [if_neg some, if_neg some]
      exact List.mem_cons_of_mem _ (inductionHypothesis _ reached)

section

variable {loose : Nat → Nat → Prop} {s : Vfs} {view : Nat → ByteMap} {pending : Nat → Prop}
  {held : Multiset Nat}

/-- The pointers are read from the blocks that the cache stands for. -/
theorem followPtrs_spec (io : Io loose s view pending held)
    (room : Multiset.card held < nBlkNum) (no : Nat) (path : List Nat)
    (indices : ∀ i ∈ path, 4 * i + 4 ≤ blkSz)
    (firm : ∀ b ∈ chainBlocks view no path, Firm loose pending b) :
    wp (followPtrs no path) (fun got after => got = treePtr view no path ∧
      Io loose after view pending held ∧ SameFs s after) s := by
  induction path generalizing no s with
  | nil => exact wp_pure.mpr ⟨rfl, io, SameFs.refl s⟩
  | cons i rest inductionHypothesis =>
    rw [followPtrs, treePtr]
    split
    · exact wp_pure.mpr ⟨rfl, io, SameFs.refl s⟩
    · rename_i some
      rw [chainBlocks, if_neg some] at firm
      obtain ⟨tight, settled⟩ := firm no (List.mem_cons_self ..)
      apply wp_seq (io.bread_spec no room)
      rintro cache mid ⟨ioMid, same, buffers, -⟩
      apply wp_seq (ioMid.loadBuf_spec buffers (indices i (List.mem_cons_self ..))
        fun x _ _ => tight x)
      intro value mid' loaded
      rw [loaded.1, loaded.2]
      apply wp_seq (ioMid.brelse_spec buffers settled io.superHeld)
      rintro - after ⟨ioAfter, same', -⟩
      apply wp_mono (inductionHypothesis ioAfter _
        (fun j member => indices j (List.mem_cons_of_mem _ member))
        fun b member => firm b (List.mem_cons_of_mem _ member))
      rintro got last ⟨isGot, ioLast, same''⟩
      exact ⟨isGot, ioLast, (same.trans same').trans same''⟩

/-- `ext2_read_block` gives the block of the file at a position, zeros for a hole, and fails behind
what the pointers address. It changes nothing but the cache. -/
theorem ext2ReadBlock_spec (io : Io loose s view pending held)
    (room : Multiset.card held < nBlkNum) {p : Nat} {inode : Inode}
    (isInode : s.inodes p = some inode)
    (firm : FirmFile loose pending view s.blockSize inode) (small : s.blockSize ≤ blkSz)
    (lbk : Nat) (buf : ByteMap) :
    wp (ext2ReadBlock p lbk buf) (fun got after =>
      got = (fileBlock view s.blockSize inode lbk).map (copy buf 0 s.blockSize) ∧
      Io loose after view pending held ∧ SameFs s after) s := by
  rw [ext2ReadBlock, derefInode, wp_bind, wp_bind, wp_get]
  simp only [isInode]
  rw [wp_pure, wp_bind, wp_get, fileBlock]
  cases found : blockPath s.blockSize lbk with
  | none => exact wp_pure.mpr ⟨rfl, io, SameFs.refl s⟩
  | some place =>
    obtain ⟨slot, path⟩ := place
    apply wp_seq (followPtrs_spec io room _ path (fun i member =>
      Nat.le_trans (blockPath_index found i member) small) (firm lbk slot path found))
    rintro no mid ⟨isNo, ioMid, same⟩
    simp only [Option.map_some, ← isNo]
    split
    · exact wp_pure.mpr ⟨rfl, ioMid, same⟩
    · rename_i some
      obtain ⟨tight, settled⟩ := firm lbk slot path found no
        (isNo ▸ treePtr_mem path _ (isNo ▸ some))
      apply wp_seq (ioMid.bread_spec no room)
      rintro cache inner ⟨ioInner, same', buffers, -⟩
      apply wp_seq (ioInner.bufData_spec buffers)
      intro data inner' loaded
      have isData : data = view no := funext fun x => loaded.1 x (tight x)
      rw [loaded.2, isData]
      apply wp_seq (ioInner.brelse_spec buffers settled io.superHeld)
      rintro - after ⟨ioAfter, same'', -⟩
      exact wp_pure.mpr ⟨rfl, ioAfter, (same.trans same').trans same''⟩

theorem SameFs.inodes {s after : Vfs} (same : SameFs s after) : after.inodes = s.inodes := by
  rw [← same]

theorem SameFs.blockSize {s after : Vfs} (same : SameFs s after) :
    after.blockSize = s.blockSize := by
  rw [← same]

end

/-- What the read loop has moved when it stops after `n` more bytes: it is complete, or
the next position has no block. -/
structure Moved (view : Nat → ByteMap) (blockSize : Nat) (inode : Inode) (len total offset : Nat)
    (out : ByteMap) (result : Int × Nat × ByteMap) (n : Nat) : Prop where
  bound : total + n ≤ len
  position : result.2.1 = u32 (offset + n)
  bytes : result.2.2 = copy out total n fun i => fileByte view blockSize inode (u32 (offset + i))
  addressed : ∀ i < n, u32 (offset + i) < addressable blockSize
  ends : total + n = len ∧ result.1 = i32 len ∨
    total + n < len ∧ addressable blockSize ≤ u32 (offset + n) ∧
      result.1 = if 0 < total + n then i32 (total + n) else -1

/-- Positions of one block do not wrap. -/
theorem MountedSize.same_block {blockSize offset i : Nat} (size : MountedSize blockSize)
    (low : offset < 2 ^ 32) (inside : offset % blockSize + i < blockSize) :
    u32 (offset + i) / blockSize = offset / blockSize ∧
      u32 (offset + i) % blockSize = offset % blockSize + i := by
  unfold u32
  rcases size.cases with same | same | same <;>
  · subst same
    omega

/-- The bytes of one pass are the bytes of the file. -/
theorem fileByte_of_block {view : Nat → ByteMap} {blockSize : Nat} {inode : Inode} {data : ByteMap}
    {offset i : Nat} (size : MountedSize blockSize)
    (found : fileBlock view blockSize inode (offset / blockSize) = some data)
    (low : offset < 2 ^ 32) (inside : offset % blockSize + i < blockSize) :
    fileByte view blockSize inode (u32 (offset + i)) = data (offset % blockSize + i) := by
  obtain ⟨isBlock, isOffset⟩ := size.same_block low inside
  rw [fileByte, isBlock, isOffset, found]
  rfl

namespace Moved

variable {view : Nat → ByteMap} {blockSize : Nat} {inode : Inode} {len total offset : Nat}
  {out : ByteMap}

theorem complete (low : offset < 2 ^ 32) :
    Moved view blockSize inode len len offset out (i32 len, offset, out) 0 :=
  ⟨Nat.le_refl _, (Nat.mod_eq_of_lt low).symm, (copy_empty ..).symm,
    fun i none => absurd none (Nat.not_lt_zero i), Or.inl ⟨rfl, rfl⟩⟩

theorem blocked (low : offset < 2 ^ 32) (more : total < len)
    (beyond : addressable blockSize ≤ offset) :
    Moved view blockSize inode len total offset out
      (if 0 < total then i32 total else -1, offset, out) 0 := by
  have isOffset : u32 (offset + 0) = offset := Nat.mod_eq_of_lt low
  exact ⟨Nat.le_of_lt more, isOffset.symm, (copy_empty ..).symm,
    fun i none => absurd none (Nat.not_lt_zero i), Or.inr ⟨more, by rwa [isOffset], rfl⟩⟩

/-- A pass and the passes behind it. -/
theorem pass {source : Nat → Byte} {result : Int × Nat × ByteMap} {chunk n : Nat}
    (bytes : ∀ i < chunk, source i = fileByte view blockSize inode (u32 (offset + i)))
    (addressed : ∀ i < chunk, u32 (offset + i) < addressable blockSize)
    (rest : Moved view blockSize inode len (total + chunk) (u32 (offset + chunk))
      (copy out total chunk source) result n) :
    Moved view blockSize inode len total offset out result (chunk + n) := by
  have shifted : ∀ i, u32 (u32 (offset + chunk) + i) = u32 (offset + (chunk + i)) := by
    intro i
    unfold u32
    omega
  constructor
  · have bound := rest.bound
    omega
  · rw [rest.position, shifted]
  · rw [rest.bytes, copy_congr out total chunk bytes, ← copy_append]
    simp only [shifted]
  · intro i less
    by_cases first : i < chunk
    · exact addressed i first
    · have later := rest.addressed (i - chunk) (by omega)
      rwa [shifted, Nat.add_sub_cancel' (Nat.le_of_not_lt first)] at later
  · have ends := rest.ends
    rwa [shifted, Nat.add_assoc] at ends

end Moved

/-- The loop of `ext2_file_read`: what was copied so far is the file's contents, and each pass adds
the rest of one block or of the request. -/
theorem readBlocks_spec {loose : Nat → Nat → Prop} {s : Vfs} {view : Nat → ByteMap}
    {pending : Nat → Prop} {held : Multiset Nat}
    (io : Io loose s view pending held) (room : Multiset.card held < nBlkNum) {p : Nat}
    {inode : Inode} (isInode : s.inodes p = some inode)
    (firm : FirmFile loose pending view s.blockSize inode) (size : MountedSize s.blockSize)
    {len budget total offset : Nat} (enough : len ≤ total + budget) (part : total ≤ len)
    (low : offset < 2 ^ 32) (blockBuf out : ByteMap) :
    wp (readBlocks p len budget total offset blockBuf out) (fun result after =>
      (∃ n, Moved view s.blockSize inode len total offset out result n) ∧
      Io loose after view pending held ∧ SameFs s after) s := by
  induction budget generalizing s total offset blockBuf out with
  | zero =>
    obtain rfl : total = len := by omega
    exact wp_pure.mpr ⟨⟨0, Moved.complete low⟩, io, SameFs.refl s⟩
  | succ budget inductionHypothesis =>
    obtain ⟨positive, small⟩ := size.small
    rw [readBlocks, wp_ite]
    split
    · rename_i more
      rw [wp_bind, wp_get]
      apply wp_seq (ext2ReadBlock_spec io room isInode firm small _ blockBuf)
      rintro block mid ⟨isBlock, ioMid, same⟩
      have hasBlock := @fileBlock_isSome view s.blockSize inode offset positive
      cases found : fileBlock view s.blockSize inode (offset / s.blockSize) with
      | none =>
        rw [found] at isBlock hasBlock
        subst isBlock
        have beyond : addressable s.blockSize ≤ offset := by
          simpa using hasBlock
        exact wp_pure.mpr ⟨⟨0, Moved.blocked low more beyond⟩, ioMid, same⟩
      | some data =>
        rw [found, Option.map_some] at isBlock
        rw [found] at hasBlock
        subst isBlock
        have inBlock : offset % s.blockSize < s.blockSize := Nat.mod_lt _ positive
        obtain ⟨chunk, isChunk⟩ : ∃ chunk,
          chunk = min (s.blockSize - offset % s.blockSize) (len - total) := ⟨_, rfl⟩
        simp only [← isChunk]
        have inside : ∀ i < chunk, offset % s.blockSize + i < s.blockSize := by omega
        have sameSize : mid.blockSize = s.blockSize := same.blockSize
        have wrapped : u32 (offset + chunk) < 2 ^ 32 := Nat.mod_lt _ (by decide)
        apply wp_mono (inductionHypothesis ioMid (same.inodes ▸ isInode) (sameSize ▸ firm)
          (sameSize ▸ size) (by omega) (by omega) wrapped _ _)
        rintro result after ⟨⟨n, moved⟩, ioAfter, same'⟩
        rw [sameSize] at moved
        refine ⟨⟨chunk + n, Moved.pass ?_ ?_ moved⟩, ioAfter, same.trans same'⟩
        · intro i less
          rw [copy_inside _ _ _ _ _ (Nat.zero_le _) (by have := inside i less; omega), Nat.sub_zero]
          exact (fileByte_of_block size found low (inside i less)).symm
        · intro i less
          obtain ⟨isBlock, -⟩ := size.same_block low (inside i less)
          rw [← @fileBlock_isSome view s.blockSize inode _ positive, isBlock, found]
          rfl
    · rename_i done
      obtain rfl : total = len := by omega
      exact wp_pure.mpr ⟨⟨0, Moved.complete low⟩, io, SameFs.refl s⟩

/-- The length the loop is given, clamped to the end of the file on 64 bits. -/
def readLength (size len offset : Nat) : Nat :=
  if size < (offset + len) % 2 ^ 64 then size - offset else len

/-- `ext2_file_read` does nothing at the end of the file; before it, it moves the contents, up to
the length that its clamping sum leaves. -/
theorem ext2FileRead_spec {loose : Nat → Nat → Prop} {s : Vfs} {view : Nat → ByteMap}
    {pending : Nat → Prop} {held : Multiset Nat}
    (io : Io loose s view pending held) (room : Multiset.card held < nBlkNum) {p : Nat}
    {inode : Inode} (isInode : s.inodes p = some inode)
    (firm : FirmFile loose pending view s.blockSize inode) (size : MountedSize s.blockSize)
    {offset : Nat} (low : offset < 2 ^ 32) (len : Nat) (out : ByteMap) :
    wp (ext2FileRead p len offset out) (fun result after =>
      (inode.size ≤ offset → result = (0, offset, out)) ∧
      (offset < inode.size → ∃ n, Moved view s.blockSize inode (readLength inode.size len offset) 0
        offset out result n) ∧
      Io loose after view pending held ∧ SameFs s after) s := by
  obtain ⟨-, small⟩ := size.small
  rw [ext2FileRead, wp_bind, wp_get, if_neg (Nat.not_lt.mpr small), derefInode, wp_bind, wp_bind,
    wp_get]
  simp only [isInode]
  rw [wp_pure, wp_ite]
  split
  · rename_i atEnd
    exact wp_pure.mpr ⟨fun _ => rfl, fun below => absurd atEnd (Nat.not_le.mpr below), io,
      SameFs.refl s⟩
  · rename_i below
    apply wp_mono (readBlocks_spec io room isInode firm size (Nat.zero_add _).ge (Nat.zero_le _) low _ _)
    rintro result after ⟨moved, ioAfter, same⟩
    exact ⟨fun atEnd => absurd atEnd below, fun _ => moved, ioAfter, same⟩

end CuteCore.Fs
