import Mathlib.Data.Set.Card
import CuteCore.Fs.Creation

/-!
# The count of blocks in a slot

`ext2_write_inode` counts the pointers of the inode that are set. An index block is one of
them, what hangs off it is not. So the count is that of all blocks of the file as long as
no index block has a pointer.

Both sides of this are proved: the stored number is that of the pointers in `i_block`, and
the blocks that can be reached are these and those behind index blocks. So the two agree
exactly when nothing hangs off an index block. Writes within the twelve direct blocks
never make one.
-/

namespace CuteCore.Fs

open Hoare Bytes BlkCache

/-- A place below one of the pointers of an inode. -/
structure InTree (size : Nat) (slot : Fin nBlocks) (path : List Nat) : Prop where
  depth : path.length ≤ levelOf slot
  indices : ∀ i ∈ path, i < size / 4

/-- The blocks that can be reached from the pointers of an inode. -/
def reachable (size : Nat) (view : Nat → ByteMap) (inode : Inode) : Set Nat :=
  {no | no ≠ 0 ∧ ∃ slot path, InTree size slot path ∧ ptrAt view inode slot path = no}

/-- Those of them that hang off index blocks. -/
def indexed (size : Nat) (view : Nat → ByteMap) (inode : Inode) : Set Nat :=
  {no | no ≠ 0 ∧ ∃ slot path, InTree size slot path ∧ path ≠ [] ∧ ptrAt view inode slot path = no}

/-- No index block has a pointer. -/
def NothingIndexed (size : Nat) (view : Nat → ByteMap) (inode : Inode) : Prop :=
  ∀ slot path, InTree size slot path → path ≠ [] → ptrAt view inode slot path = 0

/-- After the inode was written, its slot holds the count of all blocks of the file, in
units of 512 bytes. -/
def CountsBlocks (s : Vfs) (p : Nat) (inode : Inode) : Prop :=
  wp (ext2WriteInode p) (fun done after => done = true ∧
    load (after.block (s.slotOf inode.ino).1) ((s.slotOf inode.ino).2 + 28) 4 =
      s.blockSize / 512 * (reachable s.blockSize s.block inode).ncard) s

/-- The pointers of an inode that are set. -/
def Inode.pointers (inode : Inode) : List Nat :=
  ((List.finRange nBlocks).filter fun i => inode.iBlock i ≠ 0).map inode.iBlock

theorem Inode.length_pointers (inode : Inode) :
    inode.pointers.length = (List.finRange nBlocks).countP fun i => inode.iBlock i ≠ 0 := by
  rw [Inode.pointers, List.length_map, List.countP_eq_length_filter]

theorem Inode.mem_pointers {inode : Inode} {no : Nat} :
    no ∈ inode.pointers ↔ no ≠ 0 ∧ ∃ slot, inode.iBlock slot = no := by
  simp only [Inode.pointers, List.mem_map, List.mem_filter, List.mem_finRange, true_and,
    decide_eq_true_eq]
  constructor
  · rintro ⟨slot, some, rfl⟩
    exact ⟨some, slot, rfl⟩
  · rintro ⟨some, slot, rfl⟩
    exact ⟨slot, some, rfl⟩

section

variable {size : Nat} {view : Nat → ByteMap} {inode : Inode}

/-- Nothing hangs off a triple indirect block that is missing. -/
theorem triple_hole (view : Nat → ByteMap) (noTriple : inode.iBlock 14 = 0) {slot : Fin nBlocks}
    (deep : ¬ slot.val < 14) (path : List Nat) : ptrAt view inode slot path = 0 := by
  have below : slot.val < 15 := slot.isLt
  obtain rfl : slot = 14 := Fin.ext (by omega : slot.val = 14)
  exact ptrAt_below view inode 14 [] path noTriple

/-- Without a triple indirect block, a place with a block is a node. -/
theorem InTree.isNode {slot : Fin nBlocks} {path : List Nat} (inTree : InTree size slot path)
    (noTriple : inode.iBlock 14 = 0)
    (some : ptrAt view inode slot path ≠ 0) : IsNode size slot path := by
  refine ⟨?_, inTree.depth, inTree.indices⟩
  by_contra deep
  exact some (triple_hole view noTriple deep path)

theorem nodup_pointers (distinct : DistinctNodes size view inode) (noTriple : inode.iBlock 14 = 0) :
    inode.pointers.Nodup := by
  refine ((List.nodup_finRange nBlocks).filter _).map_on ?_
  intro slot member slot' member' same
  simp only [List.mem_filter, List.mem_finRange, true_and, decide_eq_true_eq] at member member'
  have isNode : ∀ i, inode.iBlock i ≠ 0 → IsNode size i [] := fun i some =>
    @InTree.isNode size view inode i [] ⟨Nat.zero_le _, fun _ no => by cases no⟩ noTriple some
  exact (distinct slot [] slot' [] (isNode _ member) (isNode _ member') member same).1

theorem indexed_finite (size : Nat) (view : Nat → ByteMap)
    (inode : Inode) : (indexed size view inode).Finite := by
  apply (Set.finite_Iio (2 ^ 32)).subset
  rintro no ⟨some, slot, path, -, below, rfl⟩
  obtain ⟨front, i, rfl⟩ := List.eq_nil_or_concat' path |>.resolve_left below
  rw [ptrAt_append, childAt] at some ⊢
  split
  · exact Nat.two_pow_pos 32
  · exact load_lt _ _ 4

theorem indexed_empty_iff : indexed size view inode = ∅ ↔ NothingIndexed size view inode := by
  rw [Set.eq_empty_iff_forall_notMem]
  constructor
  · intro none slot path inTree below
    by_contra some
    exact none _ ⟨some, slot, path, inTree, below, rfl⟩
  · rintro holes no ⟨some, slot, path, inTree, below, rfl⟩
    exact some (holes slot path inTree below)

/-- Index blocks and direct data blocks are counted, and what hangs off the index blocks. -/
theorem reachable_ncard (distinct : DistinctNodes size view inode)
    (noTriple : inode.iBlock 14 = 0) :
    (reachable size view inode).ncard = inode.pointers.length + (indexed size view inode).ncard := by
  have split : reachable size view inode = ↑inode.pointers.toFinset ∪ indexed size view inode := by
    ext no
    simp only [Set.mem_union, Finset.mem_coe, List.mem_toFinset, Inode.mem_pointers]
    constructor
    · rintro ⟨some, slot, path, inTree, isNo⟩
      by_cases top : path = []
      · subst top
        exact .inl ⟨some, slot, isNo⟩
      · exact .inr ⟨some, slot, path, inTree, top, isNo⟩
    · rintro (⟨some, slot, isNo⟩ | ⟨some, slot, path, inTree, -, isNo⟩)
      · exact ⟨some, slot, [], ⟨Nat.zero_le _, fun _ no => by cases no⟩, isNo⟩
      · exact ⟨some, slot, path, inTree, isNo⟩
  have apart : Disjoint (↑inode.pointers.toFinset : Set Nat) (indexed size view inode) := by
    rw [Set.disjoint_left]
    rintro no member ⟨some, slot, path, inTree, below, rfl⟩
    rw [Finset.mem_coe, List.mem_toFinset, Inode.mem_pointers] at member
    obtain ⟨-, slot', same⟩ := member
    have isNode := inTree.isNode noTriple some
    have isNode' : IsNode size slot' [] := by
      apply @InTree.isNode size view inode slot' [] ⟨Nat.zero_le _, fun _ no => by cases no⟩ noTriple
      change inode.iBlock slot' ≠ 0
      rwa [same]
    exact below (distinct slot path slot' [] isNode isNode' some same.symm).2
  rw [split, Set.ncard_union_eq apart (Finset.finite_toSet _) (indexed_finite size view inode),
    Set.ncard_coe_finset, List.toFinset_card_of_nodup (nodup_pointers distinct noTriple)]

end

section

variable {groups : Groups} {loose : Nat → Nat → Prop} {s : Vfs} {view : Nat → ByteMap}
  {held : Multiset Nat} {p : Nat} {inode : Inode}

/-- The bytes of the slot of an inode count. -/
def FirmSlot (loose : Nat → Nat → Prop) (s : Vfs) (ino : Nat) : Prop :=
  ∀ x, (s.slotOf ino).2 ≤ x → x < (s.slotOf ino).2 + 100 → ¬ loose (s.slotOf ino).1 x

/-- The pointers of a file, as the cache shows them. -/
theorem FileState.ptrAt_eq (file : FileState groups loose s view held p inode)
    (noTriple : inode.iBlock 14 = 0) {slot : Fin nBlocks} {path : List Nat}
    (inTree : InTree groups.blockSize slot path) : ptrAt s.block inode slot path = ptrAt view inode slot path := by
  by_cases shallow : slot.val < 14
  · exact ptrAt_congr rfl (fun slot front i isNode isBlock =>
      file.fs.io.block_eq _ (file.firm isNode.parent isBlock)) slot path
      ⟨shallow, inTree.depth, inTree.indices⟩
  · rw [triple_hole s.block noTriple shallow path, triple_hole view noTriple shallow path]

/-- What the slot holds after the inode was written. -/
theorem FileState.stores_count (file : FileState groups loose s view held p inode)
    (room : Multiset.card held < nBlkNum) (firm : FirmSlot loose s inode.ino) :
    wp (ext2WriteInode p) (fun done after => done = true ∧
      load (after.block (s.slotOf inode.ino).1) ((s.slotOf inode.ino).2 + 28) 4 =
        s.blockSize / 512 * inode.pointers.length) s := by
  have size := file.fs.fits.blockSize
  apply wp_mono (file.written room)
  rintro done after ⟨isDone, grew⟩
  refine ⟨isDone, ?_⟩
  have few : inode.pointers.length ≤ 15 := by
    rw [inode.length_pointers]
    exact (List.countP_le_length).trans (List.length_finRange).le
  have member : (28, 4, inode.pointers.length * (s.blockSize / 512)) ∈
      inode.rawFields s.blockSize := by
    rw [inode.length_pointers, Inode.rawFields]
    simp
  have read : load (after.block (s.slotOf inode.ino).1) ((s.slotOf inode.ino).2 + 28) 4 =
      load (writtenSlot view s inode (s.slotOf inode.ino).1) ((s.slotOf inode.ino).2 + 28) 4 := by
    apply load_congr
    intro x low high
    exact grew.file.fs.io.block_agrees _ x (firm x (by omega) (by omega))
  have small := groups.sized.small.2
  have few' : groups.blockSize / 512 * inode.pointers.length ≤ 8 * 15 :=
    Nat.mul_le_mul (Nat.div_le_of_le_mul small) few
  rw [read, writtenSlot_field member, size, Nat.mul_comm]
  exact Nat.mod_eq_of_lt (by omega)

/-- The count is right when no index block has a pointer, and only then. -/
theorem FileState.counts_iff (file : FileState groups loose s view held p inode)
    (room : Multiset.card held < nBlkNum) (firm : FirmSlot loose s inode.ino)
    (noTriple : inode.iBlock 14 = 0) :
    CountsBlocks s p inode ↔ NothingIndexed s.blockSize s.block inode := by
  have size := file.fs.fits.blockSize
  have distinct : DistinctNodes groups.blockSize s.block inode := by
    intro slot path slot' path' isNode isNode' some same
    rw [file.ptrAt_eq noTriple ⟨isNode.depth, isNode.indices⟩] at some same
    rw [file.ptrAt_eq noTriple ⟨isNode'.depth, isNode'.indices⟩] at same
    exact file.distinct slot path slot' path' isNode isNode' some same
  have count := reachable_ncard distinct noTriple
  have stored := file.stores_count room firm
  rw [← indexed_empty_iff, ← Set.ncard_eq_zero (indexed_finite _ _ _)]
  constructor
  · rintro ⟨done, after, returned, -, isCount⟩
    obtain ⟨-, isStored⟩ := stored.of_returns returned
    have unit : 0 < groups.blockSize / 512 := by
      rcases groups.sized.cases with isSize | isSize | isSize <;>
      · rw [isSize]
        decide
    rw [isStored, size, count] at isCount
    have same := Nat.eq_of_mul_eq_mul_left unit isCount
    rw [size]
    omega
  · intro none
    rw [size] at none
    rw [CountsBlocks, size, count, none, Nat.add_zero, ← size]
    exact stored

/-- What `ext2_file_write` leaves of an inode and its file. -/
theorem ext2FileWrite_file (file : FileState groups loose s view held p inode)
    (room : Multiset.card held + 1 < nBlkNum) {len offset : Nat} (low : offset < 2 ^ 32)
    (data : ByteMap) :
    wp (ext2FileWrite p len offset data) (fun _ after => ∃ view' inode',
      FileState groups loose after view' held p inode' ∧ SameSetup s after ∧
      inode'.ino = inode.ino ∧ ∀ slot, (∀ i < len, ∀ path,
        blockPath groups.blockSize (u32 (offset + i) / groups.blockSize) ≠ some (slot, path)) →
        inode'.iBlock slot = inode.iBlock slot) s := by
  have size := file.fs.fits.blockSize
  have mounted : ¬ blkSz < groups.blockSize := Nat.not_lt.mpr groups.sized.small.2
  rw [ext2FileWrite, wp_bind, wp_get, size, if_neg mounted, wp_ite]
  split
  · exact wp_pure.mpr ⟨view, inode, file, SameSetup.of_sameFs (SameFs.refl s), rfl, fun _ _ => rfl⟩
  · apply wp_seq (writeBlocks_spec file room data (Nat.zero_add len).ge (Nat.zero_le len) low _)
    rintro ends mid ⟨view', inode', wrote⟩
    have number : inode'.ino = inode.ino := by rw [wrote.grew.fields]
    have beside := wrote.beside
    rw [Nat.sub_zero] at beside
    rw [wp_ite]
    split
    · exact wp_pure.mpr ⟨view', inode', wrote.grew.file, wrote.grew.setup, number, beside⟩
    · apply wp_seq (growFile_spec wrote.grew.file (by omega) ends.2.2)
      rintro - after ⟨view'', last, fileLast, setup, sameNumber, top, -⟩
      refine wp_pure.mpr ⟨view'', last, fileLast, wrote.grew.setup.trans setup,
        sameNumber.trans number, fun slot others => ?_⟩
      rw [top]
      exact beside slot others

/-- Slots stay where they are. -/
theorem FileState.slotOf_eq (file : FileState groups loose s view held p inode) {after : Vfs}
    {view' : Nat → ByteMap} {inode' : Inode}
    (later : FileState groups loose after view' held p inode') (setup : SameSetup s after)
    (ino : Nat) : after.slotOf ino = s.slotOf ino := by
  simp only [Vfs.slotOf, setup.tables, setup.inodeSize, later.fs.fits.inodePerGroup,
    file.fs.fits.inodePerGroup, later.fs.fits.blockSize, file.fs.fits.blockSize]

end

/-- The states of a file or directory that was created with its direct blocks only, and then
written by `ext2_file_write`. -/
inductive Written (groups : Groups) (loose : Nat → Nat → Prop) (held : Multiset Nat) (p : Nat)
    (allowed : Nat → Nat → Prop) : Vfs → Prop
  | created {s : Vfs} {view : Nat → ByteMap} {inode : Inode}
      (file : FileState groups loose s view held p inode) (firm : FirmSlot loose s inode.ino)
      (direct : ∀ slot : Fin nBlocks, 12 ≤ slot.val → inode.iBlock slot = 0) :
      Written groups loose held p allowed s
  | write {s after : Vfs} {len offset : Nat} {data : ByteMap} {result : Int × Nat}
      (before : Written groups loose held p allowed s) (isAllowed : allowed len offset)
      (low : offset < 2 ^ 32) (wrote : Returns (ext2FileWrite p len offset data) s result after) :
      Written groups loose held p allowed after

/-- A write into the first twelve blocks of a file. -/
def InDirect (size len offset : Nat) : Prop := offset + len ≤ 12 * size

/-- In such a run the file owns its blocks. Without writes behind the direct blocks it has
no index block. -/
theorem Written.file {groups : Groups} {loose : Nat → Nat → Prop} {held : Multiset Nat} {p : Nat}
    {allowed : Nat → Nat → Prop} {s : Vfs} (run : Written groups loose held p allowed s)
    (room : Multiset.card held + 1 < nBlkNum) : ∃ view inode,
      FileState groups loose s view held p inode ∧ FirmSlot loose s inode.ino ∧
      inode.iBlock 14 = 0 ∧ ((∀ len offset, allowed len offset → InDirect groups.blockSize len offset) →
        ∀ slot : Fin nBlocks, 12 ≤ slot.val → inode.iBlock slot = 0) := by
  induction run with
  | @created s view inode file firm direct =>
    exact ⟨view, inode, file, firm, direct 14 (by decide), fun _ => direct⟩
  | @write s after len offset data result before isAllowed low wrote inductionHypothesis =>
    obtain ⟨view, inode, file, firm, noTriple, direct⟩ := inductionHypothesis
    obtain ⟨view', inode', later, setup, number, beside⟩ :=
      (ext2FileWrite_file file room low data).of_returns wrote
    refine ⟨view', inode', later, ?_, ?_, ?_⟩
    · rw [FirmSlot, number, file.slotOf_eq later setup]
      exact firm
    · rw [beside 14 fun i _ path found => ?_]
      · exact noTriple
      · have shallow := (blockPath_isNode found).1.shallow
        exact absurd shallow (by decide)
    · intro fits slot deep
      rw [beside slot fun i less path found => ?_]
      · exact direct fits slot deep
      · have inside := fits len offset isAllowed
        rw [InDirect] at inside
        have small := groups.sized.small
        have blkSize : blkSz = 4096 := rfl
        have isDirect : u32 (offset + i) / groups.blockSize < 12 := by
          rw [u32, Nat.mod_eq_of_lt (by omega), Nat.div_lt_iff_lt_mul small.1]
          omega
        rw [blockPath, if_pos isDirect] at found
        obtain ⟨isSlot, -⟩ := Prod.mk.inj (Option.some.inj found)
        have number : (Fin.ofNat nBlocks (u32 (offset + i) / groups.blockSize)).val =
            u32 (offset + i) / groups.blockSize := Nat.mod_eq_of_lt (by omega : _ < 15)
        rw [← isSlot, number] at deep
        omega

/-- A file with direct blocks only has no index block. -/
theorem nothingIndexed_of_direct {size : Nat} {view : Nat → ByteMap} {inode : Inode}
    (direct : ∀ slot : Fin nBlocks, 12 ≤ slot.val → inode.iBlock slot = 0) :
    NothingIndexed size view inode := by
  intro slot path inTree below
  by_cases deep : 12 ≤ slot.val
  · exact ptrAt_below view inode slot [] path (direct slot deep)
  · have depth := inTree.depth
    rw [levelOf] at depth
    exact absurd (List.eq_nil_of_length_eq_zero (by omega)) below

/-- A file is created in the root directory, and one byte is written behind its direct blocks.
The index block hangs off the given slot. -/
def sparseRun (index : Fin nBlocks) : FsProg (Option Nat × Nat × Nat × Nat × Nat) := do
  let created ← ext2Create 0 [0x61] 0x1a4
  let _ ← ext2FileWrite 1 1 (12 * 4096) fun _ => 7
  let s ← get
  let inode ← derefInode 1
  let _ ← ext2WriteInode 1
  let after ← get
  return (created, s.blockSize, inode.iBlock index, load (s.block (inode.iBlock index)) 0 4,
    load (after.block (s.slotOf inode.ino).1) ((s.slotOf inode.ino).2 + 28) 4)

end CuteCore.Fs
