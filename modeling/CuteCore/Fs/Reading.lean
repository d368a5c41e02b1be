import CuteCore.Fs.Contents

/-!
# Reads and the end of the file

`ext2_file_read` clamps its length by a sum on 64 bits. Where that sum wraps nothing
is clamped, and the loop runs on as far as positions have blocks.

Where the sum does not wrap the bytes of a read lie inside the file, and the stores stay
inside the buffer of the caller. Both are stated as equivalences over every offset, every
length and every mounted block size, with the exact lengths at which the sum wraps.
-/

namespace CuteCore.Fs

open Hoare Bytes BlkCache

/-- At most the bytes up to the end of the file are stored, and the offset ends there at
most. -/
def StaysInside (s : Vfs) (p : Nat) (inode : Inode) (len offset : Nat) : Prop :=
  ∀ out, wp (ext2FileRead p len offset out) (fun result _ =>
    (∀ x, inode.size - offset ≤ x → result.2.2 x = out x) ∧
      result.2.1 ≤ max inode.size offset) s

theorem readLength_le {size len offset : Nat} (fits : offset + len < 2 ^ 64) :
    readLength size len offset ≤ size - offset := by
  rw [readLength, Nat.mod_eq_of_lt fits]
  split <;> omega

/-- The sum wraps to a small number. -/
theorem readLength_wrapped {size len offset : Nat} (wraps : 2 ^ 64 ≤ offset + len)
    (below : offset < size) (short : len < 2 ^ 64) : readLength size len offset = len := by
  have wrapped : (offset + len) % 2 ^ 64 < offset := by omega
  rw [readLength, if_neg (by omega)]

section

variable {view : Nat → ByteMap} {blockSize : Nat} {inode : Inode} {len offset : Nat}
  {out : ByteMap} {result : Int × Nat × ByteMap} {n : Nat}

/-- No position beyond the addressable ones is reached. -/
theorem Moved.within (moved : Moved view blockSize inode len 0 offset out result n)
    (low : offset < 2 ^ 32) (limit : addressable blockSize < 2 ^ 32) :
    n ≤ addressable blockSize - offset := by
  by_contra long
  have beyond := moved.addressed (addressable blockSize - offset) (by omega)
  unfold u32 at beyond
  omega

/-- A loop that is not clamped runs past the end of a file that ends earlier than the
addressable positions. -/
theorem Moved.past_end (moved : Moved view blockSize inode len 0 offset out result n)
    (small : inode.size < 2 ^ 32) (below : offset < inode.size)
    (limit : inode.size < addressable blockSize) (long : 2 ^ 64 ≤ offset + len) :
    inode.size - offset < n := by
  rcases moved.ends with ⟨isLen, -⟩ | ⟨-, beyond, -⟩
  · omega
  · unfold u32 at beyond
    omega

theorem Moved.inside (moved : Moved view blockSize inode len 0 offset out result n)
    (small : inode.size < 2 ^ 32) (below : offset < inode.size) (short : n ≤ inode.size - offset) :
    (∀ x, inode.size - offset ≤ x → result.2.2 x = out x) ∧
      result.2.1 ≤ max inode.size offset := by
  constructor
  · intro x beyond
    rw [moved.bytes]
    exact copy_outside _ _ _ _ _ (by omega)
  · rw [moved.position, u32, Nat.mod_eq_of_lt (by omega)]
    omega

end

section

variable {loose : Nat → Nat → Prop} {s : Vfs} {view : Nat → ByteMap} {pending : Nat → Prop}
  {held : Multiset Nat} {p : Nat} {inode : Inode} {len offset : Nat}

/-- A wrapped sum lets the loop store beyond the end of the file. -/
theorem stores_past_end (io : Io loose s view pending held)
    (room : Multiset.card held < nBlkNum) (isInode : s.inodes p = some inode)
    (firm : FirmFile loose pending view s.blockSize inode) (size : MountedSize s.blockSize)
    (small : inode.size < 2 ^ 32) (short : len < 2 ^ 64)
    (below : offset < inode.size) (wraps : 2 ^ 64 ≤ offset + len)
    (limit : inode.size < addressable s.blockSize) : ¬ StaysInside s p inode len offset := by
  intro stays
  have low : offset < 2 ^ 32 := Nat.lt_trans below small
  -- The byte in front of the call differs from the one that is stored.
  obtain ⟨stored, isStored⟩ : ∃ stored, stored =
    fileByte view s.blockSize inode (u32 (offset + (inode.size - offset))) := ⟨_, rfl⟩
  obtain ⟨result, after, returned, -, moves, -⟩ :=
    ext2FileRead_spec io room isInode firm size low len fun _ => stored + 1
  obtain ⟨n, moved⟩ := moves below
  rw [readLength_wrapped wraps below short] at moved
  have long := moved.past_end small below limit wraps
  have kept := ((stays fun _ => stored + 1).of_returns returned).1 (inode.size - offset)
    (Nat.le_refl _)
  rw [moved.bytes, copy_inside _ _ _ _ _ (Nat.zero_le _) (by omega), Nat.sub_zero, ← isStored]
    at kept
  exact absurd kept (by bv_omega)

/-- `ext2_file_read` stays inside the file exactly when its sum does not wrap, or there is
nothing to read, or the file reaches the end of what its blocks can address. -/
theorem ext2FileRead_stays_inside_iff (io : Io loose s view pending held)
    (room : Multiset.card held < nBlkNum) (isInode : s.inodes p = some inode)
    (firm : FirmFile loose pending view s.blockSize inode) (size : MountedSize s.blockSize)
    (small : inode.size < 2 ^ 32) (low : offset < 2 ^ 32)
    (short : len < 2 ^ 64) : StaysInside s p inode len offset ↔
      inode.size ≤ offset ∨ offset + len < 2 ^ 64 ∨ addressable s.blockSize ≤ inode.size := by
  constructor
  · intro stays
    by_contra none
    rw [not_or, not_or, Nat.not_le, Nat.not_lt, Nat.not_le] at none
    exact stores_past_end io room isInode firm size small short none.1 none.2.1 none.2.2 stays
  · intro condition out
    apply wp_mono (ext2FileRead_spec io room isInode firm size low len out)
    rintro result after ⟨atEnd, moves, -, -⟩
    by_cases below : offset < inode.size
    · obtain ⟨n, moved⟩ := moves below
      apply moved.inside small below
      rcases condition with none | fits | whole
      · exact absurd below (Nat.not_lt.mpr none)
      · have bound := moved.bound
        have clamped := @readLength_le inode.size _ _ fits
        omega
      · have within := moved.within low (Nat.lt_of_le_of_lt whole small)
        omega
    · rw [atEnd (Nat.le_of_not_lt below)]
      exact ⟨fun x _ => rfl, Nat.le_max_right ..⟩

end

/-! ## A file of ten zeros -/

theorem nBlkNum_positive : 0 < nBlkNum := by decide

def firstSlot : Fin nBlkNum := ⟨0, nBlkNum_positive⟩

/-- A mounted file system with one inode in memory. The cache holds the first block only. -/
def oneInode (disk : Nat → ByteMap) (inode : Inode) : Vfs where
  caches :=
    (boot (fun _ => 0) disk).setSlot firstSlot
      { blkNo := 0, valid := true, dirty := false, refcnt := 1, data := disk 0 }
  blockSize := 4096
  root := 0
  inodes p := if p = 0 then some inode else none
  inodeCache := [0]
  icacheSize := 1
  gbTable := fun _ => 0
  groupCount := 1
  inodeSize := 128
  inodePerGroup := 32
  sbBuf := firstSlot
  nextInode := 1
  served := fun _ => true
  requests := 0
  uninitialized := fun _ => 0

section

variable (disk : Nat → ByteMap) (inode : Inode)

/-- One slot of the cache is in use, and it holds the first block. -/
theorem oneInode_slot (i : Fin nBlkNum) :
    ((oneInode disk inode).caches.slot i).valid = decide (i = firstSlot) ∧
    ((oneInode disk inode).caches.slot i).blkNo = 0 ∧
    ((oneInode disk inode).caches.slot i).refcnt = (if i = firstSlot then 1 else 0) ∧
    (i = firstSlot → ((oneInode disk inode).caches.slot i).data = disk 0) := by
  by_cases isZero : i = firstSlot
  · subst isZero
    exact ⟨rfl, rfl, rfl, fun _ => rfl⟩
  · have slot : (oneInode disk inode).caches.slot i = (boot (fun _ => 0) disk).slot i :=
      setSlot_ne _ _ _ _ isZero
    rw [slot, if_neg isZero]
    exact ⟨(decide_eq_false isZero).symm, rfl, rfl, fun isFirst => absurd isFirst isZero⟩

/-- The cache shows what the disk holds. -/
theorem oneInode_io : Io (fun _ _ => False) (oneInode disk inode) disk (fun _ => False) {0} := by
  have valid : ∀ i, ((oneInode disk inode).caches.slot i).valid = true → i = firstSlot := by
    intro i isValid
    rw [(oneInode_slot disk inode i).1] at isValid
    exact of_decide_eq_true isValid
  constructor
  · constructor
    · intro i j first second _
      exact (valid i first).trans (valid j second).symm
    · intro i
      obtain ⟨isValid, isBlock, count, -⟩ := oneInode_slot disk inode i
      rw [isValid, isBlock, count]
      by_cases isZero : i = firstSlot
      · simp [isZero]
      · simp [isZero]
    · intro no member
      exact ⟨firstSlot, rfl, (Multiset.mem_singleton.mp member).symm⟩
    · intro i isValid x _
      obtain ⟨-, isBlock, -, data⟩ := oneInode_slot disk inode i
      rw [data (valid i isValid), isBlock]
    · intro i _ _ _ x _
      rfl
    · intro no _ x _
      rfl
    · intro no mark
      exact mark.elim
  · exact ⟨rfl, rfl⟩
  · exact Multiset.mem_singleton_self 0

end

/-- The inode of the file. -/
def sparseInode : Inode where
  ino := 12
  type := .file
  mode := 0x81a4
  uid := 0
  gid := 0
  size := 10
  nlinks := 1
  ref := 1
  dirty := false
  valid := true
  iBlock _ := 0
  iFlags := 0

/-- A mounted file system whose blocks are all zero. The file is one hole. -/
def sparseFile : Vfs := oneInode (fun _ _ => 0) sparseInode

theorem sparseFile_inode : sparseFile.inodes 0 = some sparseInode := rfl

theorem sparseFile_io : Io (fun _ _ => False) sparseFile (fun _ _ => 0) (fun _ => False) {0} :=
  oneInode_io _ _

theorem firmFile_of_tight {view : Nat → ByteMap} {blockSize : Nat} {inode : Inode} :
    FirmFile (fun _ _ => False) (fun _ => False) view blockSize inode :=
  fun _ _ _ _ _ _ => ⟨fun _ => id, id⟩

/-- The theorem for a read of five bytes. -/
theorem sparseFile_stays_inside : StaysInside sparseFile 0 sparseInode 5 2 :=
  (ext2FileRead_stays_inside_iff sparseFile_io (by decide) sparseFile_inode firmFile_of_tight
    ⟨2, Nat.le_refl _, rfl⟩ (by decide) (by decide) (by decide)).mpr (Or.inr (Or.inl (by decide)))

/-- A count of -1, converted to 64 bits, reads past the end of the file from offset 1 on. -/
theorem reads_pass_end_of_file : ¬ ∀ (s : Vfs) (held : Multiset Nat) (p : Nat) (inode : Inode)
    (len offset : Nat), Io (fun _ _ => False) s s.block (fun _ => False) held →
    Multiset.card held < nBlkNum → s.inodes p = some inode → MountedSize s.blockSize →
    inode.size < 2 ^ 32 → offset < 2 ^ 32 → len < 2 ^ 64 →
    StaysInside s p inode len offset := by
  intro always
  have bad : ¬ StaysInside sparseFile 0 sparseInode (2 ^ 64 - 1) 1 :=
    stores_past_end sparseFile_io (by decide) sparseFile_inode firmFile_of_tight
      ⟨2, Nat.le_refl _, rfl⟩ (by decide) (by decide) (by decide) (by decide) (by decide)
  apply bad
  exact always sparseFile {0} 0 sparseInode (2 ^ 64 - 1) 1 sparseFile_io.of_blocks (by decide)
    sparseFile_inode ⟨2, Nat.le_refl _, rfl⟩ (by decide) (by decide) (by decide)

end CuteCore.Fs
