import CuteCore.Fs.AllocRuns
import CuteCore.Fs.Contents
import CuteCore.Fs.Mount

/-!
# The slot of an inode

`ext2_write_inode` stores the fields of an inode in its slot of an inode table. Slots of
different inodes do not overlap, so a write changes one inode only.

The slot of a number is a place in the table of its group. It is found by two divisions on
32 bits. In the states considered the inode size divides the block size, so no slot
crosses the end of a block. The fields that are written stand at fixed offsets, apart from
each other.
-/

namespace CuteCore.Fs

open Hoare Bytes BlkCache

/-- The superblock, the descriptor table and the bitmaps. -/
def Groups.Metadata (groups : Groups) (no : Nat) : Prop :=
  no = 0 ∨ (∃ g < groups.count, no = groups.first + 1 + g / (groups.blockSize / 32)) ∨
    ∃ w, ∃ g < groups.count, no = groups.bitmap w g

section

variable {groups : Groups} {loose : Nat → Nat → Prop}

theorem Io.setInode {s : Vfs} {view : Nat → ByteMap} {pending : Nat → Prop} {held : Multiset Nat}
    (io : Io loose s view pending held) (p : Nat) (inode : Inode) :
    Io loose (s.setInode p inode) view pending held := ⟨io.rep, io.super, io.superHeld⟩

theorem wp_derefInode {p : Nat} {inode : Inode} {post : Inode → Vfs → Prop} {s : Vfs}
    (isInode : s.inodes p = some inode) : wp (derefInode p) post s ↔ post inode s := by
  rw [derefInode, wp_bind, wp_get]
  simp only [isInode]
  exact wp_pure

theorem wp_updateInode {p : Nat} {inode : Inode} {f : Inode → Inode} {post : Unit → Vfs → Prop}
    {s : Vfs} (isInode : s.inodes p = some inode) :
    wp (updateInode p f) post s ↔ post () (s.setInode p (f inode)) := by
  rw [updateInode, wp_bind, wp_derefInode isInode, wp_modify]

/-- Fields stored one after the other. -/
def putFields (data : ByteMap) (off : Nat) (fields : List (Nat × Nat × Nat)) : ByteMap :=
  fields.foldl (fun data field => store data (off + field.1) field.2.1 field.2.2) data

theorem putFields_outside {off n x : Nat} (fields : List (Nat × Nat × Nat))
    (fit : ∀ field ∈ fields, field.1 + field.2.1 ≤ n) (outside : x < off ∨ off + n ≤ x)
    (data : ByteMap) : putFields data off fields x = data x := by
  induction fields generalizing data with
  | nil => rfl
  | cons field rest inductionHypothesis =>
    have inside := fit field (List.mem_cons_self ..)
    rw [putFields, List.foldl_cons]
    refine (inductionHypothesis (fun f member => fit f (List.mem_cons_of_mem _ member)) _).trans ?_
    exact copy_outside _ _ _ _ _ (by omega)

/-- Fields that do not overlap. -/
def FieldsApart (f k : Nat × Nat × Nat) : Prop := f.1 + f.2.1 ≤ k.1 ∨ k.1 + k.2.1 ≤ f.1

theorem load_putFields_apart {off a n : Nat} (fields : List (Nat × Nat × Nat))
    (apart : ∀ field ∈ fields, a + n ≤ field.1 ∨ field.1 + field.2.1 ≤ a) (data : ByteMap) :
    load (putFields data off fields) (off + a) n = load data (off + a) n := by
  induction fields generalizing data with
  | nil => rfl
  | cons field rest inductionHypothesis =>
    have here := apart field (List.mem_cons_self ..)
    rw [putFields, List.foldl_cons]
    refine (inductionHypothesis (fun f member => apart f (List.mem_cons_of_mem _ member)) _).trans ?_
    exact load_store_apart _ _ _ _ _ _ (by omega)

/-- A field that was stored is read back. -/
theorem load_putFields {off a n value : Nat} (fields : List (Nat × Nat × Nat))
    (apart : fields.Pairwise FieldsApart) (member : (a, n, value) ∈ fields) (data : ByteMap) :
    load (putFields data off fields) (off + a) n = value % 256 ^ n := by
  induction fields generalizing data with
  | nil => cases member
  | cons field rest inductionHypothesis =>
    obtain ⟨here, later⟩ := List.pairwise_cons.mp apart
    rw [putFields, List.foldl_cons]
    rcases List.mem_cons.mp member with isField | inRest
    · subst isField
      refine (load_putFields_apart rest here _).trans ?_
      exact load_store_same _ _ _ _
    · exact inductionHypothesis later inRest _

/-- A change may be waiting for its record. -/
theorem Io.mark {s : Vfs} {view : Nat → ByteMap} {held : Multiset Nat} {no : Nat}
    (io : Io loose s view (fun _ => False) held) (member : no ∈ held) :
    Io loose s view (fun m => m = no ∨ False) held := by
  have rep := io.rep
  refine ⟨⟨rep.distinct, rep.counted, rep.cached, rep.data,
    fun i valid clean _ => rep.clean i valid clean id, rep.absent, ?_⟩, io.super, io.superHeld⟩
  rintro m (rfl | never)
  · exact member
  · exact never.elim

/-- The stores of the fields, one after the other, make up the written slot. -/
theorem storeFields_spec {s : Vfs} {view : Nat → ByteMap} {held : Multiset Nat} {no : Nat}
    (io : Io loose s view (fun m => m = no ∨ False) held) {cache : Fin nBlkNum}
    (buffers : s.caches.Buffers cache no) (member : no ∈ held) {off : Nat}
    (fields : List (Nat × Nat × Nat))
    (fit : ∀ field ∈ fields, off + field.1 + field.2.1 ≤ blkSz) :
    wp (storeFields cache off fields) (fun _ after =>
      Io loose after (Function.update view no (putFields (view no) off fields))
        (fun m => m = no ∨ False) held ∧
      SameFs s after ∧ after.caches.Buffers cache no) s := by
  induction fields generalizing s view with
  | nil =>
    refine wp_pure.mpr ⟨?_, SameFs.refl s, buffers⟩
    rw [putFields, List.foldl_nil, Function.update_eq_self]
    exact io
  | cons field rest inductionHypothesis =>
    obtain ⟨f, width, value⟩ := field
    rw [storeFields]
    apply wp_seq (io.storeBuf_spec buffers member (fit _ (List.mem_cons_self ..)))
    rintro - mid ⟨ioMid, same, kept⟩
    have once : Io _ mid _ (fun m => m = no ∨ False) held := ioMid.pending_congr fun m => by
      simp only [or_self_left]
    apply wp_mono (inductionHypothesis once (kept _ _ buffers)
      fun field member => fit field (List.mem_cons_of_mem _ member))
    rintro - after ⟨ioAfter, same', buffers'⟩
    rw [Function.update_self, Function.update_idem] at ioAfter
    exact ⟨ioAfter, same.trans same', buffers'⟩

/-- The fields of a slot do not overlap and end before byte 100. -/
theorem rawFields_places (inode : Inode) (blockSize : Nat) :
    (inode.rawFields blockSize).map (fun field => (field.1, field.2.1)) =
      [(0, 2), (2, 2), (24, 2), (4, 4), (26, 2), (28, 4)] ++
        (List.finRange nBlocks).map (fun i => (40 + 4 * i.val, 4)) ++ [(32, 4)] := by
  simp only [Inode.rawFields, List.map_append, List.map_map, List.map_cons, List.map_nil]
  rfl

theorem rawFields_apart (inode : Inode) (blockSize : Nat) :
    (inode.rawFields blockSize).Pairwise FieldsApart := by
  have places : ((inode.rawFields blockSize).map fun field => (field.1, field.2.1)).Pairwise
      fun f k => f.1 + f.2 ≤ k.1 ∨ k.1 + k.2 ≤ f.1 := by
    rw [rawFields_places]
    decide
  rw [List.pairwise_map] at places
  exact places

theorem rawFields_fit (inode : Inode) (blockSize : Nat) :
    ∀ field ∈ inode.rawFields blockSize, field.1 + field.2.1 ≤ 100 := by
  intro field member
  have places : ∀ place ∈ (inode.rawFields blockSize).map fun field => (field.1, field.2.1),
      place.1 + place.2 ≤ 100 := by
    rw [rawFields_places]
    decide
  exact places _ (List.mem_map_of_mem member)

/-- The block that `ext2_write_inode` leaves. -/
def writtenSlot (view : Nat → ByteMap) (s : Vfs) (inode : Inode) : Nat → ByteMap :=
  Function.update view (s.slotOf inode.ino).1
    (putFields (view (s.slotOf inode.ino).1) (s.slotOf inode.ino).2
      (inode.rawFields s.blockSize))

theorem writtenSlot_beside {s : Vfs} {view : Nat → ByteMap} {inode : Inode} {no : Nat}
    (differs : no ≠ (s.slotOf inode.ino).1) : writtenSlot view s inode no = view no :=
  Function.update_of_ne differs ..

/-- A field of the slot that was written. -/
theorem writtenSlot_field {s : Vfs} {view : Nat → ByteMap} {inode : Inode} {a n value : Nat}
    (member : (a, n, value) ∈ inode.rawFields s.blockSize) :
    load (writtenSlot view s inode (s.slotOf inode.ino).1) ((s.slotOf inode.ino).2 + a) n =
      value % 256 ^ n := by
  rw [writtenSlot, Function.update_self, load_putFields _ (rawFields_apart _ _) member]

/-- `ext2_write_inode` stores the fields of the inode in its slot. -/
theorem ext2WriteInode_spec {s : Vfs} {view : Nat → ByteMap} {held : Multiset Nat} {p : Nat}
    {inode : Inode} (io : Io loose s view (fun _ => False) held)
    (room : Multiset.card held < nBlkNum) (isInode : s.inodes p = some inode)
    (valid : inode.valid = true) (inRange : sub32 inode.ino 1 / s.inodePerGroup < s.groupCount)
    (fits : (s.slotOf inode.ino).2 + 100 ≤ blkSz) :
    wp (ext2WriteInode p) (fun done after => done = true ∧
      Io loose after (writtenSlot view s inode) (fun _ => False) held ∧
      SameFs (s.setInode p { inode with dirty := false }) after) s := by
  rw [ext2WriteInode, wp_bind, wp_derefInode isInode,
    if_neg (by rw [valid]; exact Bool.true_eq_false_eq_False), ext2InodeLoc, wp_bind, wp_bind,
    wp_get, if_neg (Nat.not_le.mpr inRange), wp_pure]
  change wp (do
    let cache ← bread (s.slotOf inode.ino).1
    let s' ← get
    storeFields cache (s.slotOf inode.ino).2 (inode.rawFields s'.blockSize)
    bwrite cache
    brelse cache
    updateInode p fun inode => { inode with dirty := false }
    return true) _ s
  apply wp_seq (io.bread_spec _ room)
  rintro cache mid ⟨ioMid, same, buffers, -⟩
  rw [wp_bind, wp_get, same.blockSize]
  apply wp_seq (storeFields_spec (ioMid.mark (Multiset.mem_cons_self ..)) buffers
    (Multiset.mem_cons_self ..) _ fun field member => by
      have fit := rawFields_fit inode s.blockSize field member
      omega)
  rintro - stored ⟨ioStored, same', buffers'⟩
  apply wp_seq (ioStored.bwrite_spec buffers' not_false)
  rintro - written ⟨ioWritten, same'', kept⟩
  apply wp_seq (ioWritten.brelse_spec (kept _ _ buffers') not_false io.superHeld)
  rintro - released ⟨ioReleased, same''', -⟩
  have all := ((same.trans same').trans same'').trans same'''
  rw [wp_bind, wp_updateInode (all.inodes ▸ isInode), wp_pure]
  refine ⟨rfl, ioReleased.setInode p _, ?_⟩
  unfold SameFs at all ⊢
  rw [← all]
  rfl

/-- The inode tables: slots of a size that divides a block, in blocks that belong to one
group each and are none of the metadata. -/
structure InodeTables (groups : Groups) (s : Vfs) : Prop where
  least : 128 ≤ s.inodeSize
  divides : s.inodeSize ∣ groups.blockSize
  small : ∀ g < groups.count, ∀ k, k * groups.blockSize < groups.inodesPerGroup * s.inodeSize →
    s.groupField g 8 4 + k < 2 ^ 32
  plain : ∀ g < groups.count, ∀ k, k * groups.blockSize < groups.inodesPerGroup * s.inodeSize →
    ¬ groups.Metadata (s.groupField g 8 4 + k)
  apart : ∀ g < groups.count, ∀ g' < groups.count, ∀ k k',
    k * groups.blockSize < groups.inodesPerGroup * s.inodeSize →
    k' * groups.blockSize < groups.inodesPerGroup * s.inodeSize →
    s.groupField g 8 4 + k = s.groupField g' 8 4 + k' → g = g'

/-- The number of an inode of the file system. -/
def Groups.IsInode (groups : Groups) (ino : Nat) : Prop :=
  1 ≤ ino ∧ ino ≤ groups.count * groups.inodesPerGroup

/-- Where a slot lies: in its group's table, `place` bytes behind its start. -/
structure SlotAt (groups : Groups) (s : Vfs) (ino g place : Nat) : Prop where
  group : g < groups.count
  isGroup : g = (ino - 1) / groups.inodesPerGroup
  isPlace : place = (ino - 1) % groups.inodesPerGroup * s.inodeSize
  inside : place + s.inodeSize ≤ groups.inodesPerGroup * s.inodeSize
  block : (s.slotOf ino).1 = s.groupField g 8 4 + place / groups.blockSize
  offset : (s.slotOf ino).2 = place % groups.blockSize
  fits : place % groups.blockSize + s.inodeSize ≤ groups.blockSize
  index : sub32 ino 1 / s.inodePerGroup = g

/-- An inode number of the file system has a slot, at a place in the table of its group. -/
theorem slotAt {s : Vfs} {view : Nat → ByteMap} (tables : InodeTables groups s)
    (fits : Fits groups s view) {ino : Nat} (isInode : groups.IsInode ino) :
    ∃ g place, SlotAt groups s ino g place := by
  obtain ⟨low, high⟩ := isInode
  have positive := groups.inodesPositive
  have few := groups.inodesFit
  have numbers := groups.inodesSmall
  have blkSize : blkSz = 4096 := rfl
  have mounted := groups.sized.small
  have number : sub32 ino 1 = ino - 1 := by
    unfold sub32 u32
    omega
  have isGroup : (ino - 1) / groups.inodesPerGroup < groups.count := by
    rw [Nat.div_lt_iff_lt_mul positive]
    omega
  have inGroup : (ino - 1) % groups.inodesPerGroup < groups.inodesPerGroup := Nat.mod_lt _ positive
  obtain ⟨r, isR⟩ : ∃ r, r = (ino - 1) % groups.inodesPerGroup := ⟨_, rfl⟩
  have inside : r * s.inodeSize + s.inodeSize ≤ groups.inodesPerGroup * s.inodeSize := by
    rw [← Nat.succ_mul]
    exact Nat.mul_le_mul_right _ (by omega)
  have sizeSmall : s.inodeSize ≤ blkSz :=
    Nat.le_trans (Nat.le_of_dvd mounted.1 tables.divides) mounted.2
  have tableSmall : groups.inodesPerGroup * s.inodeSize ≤ 8 * 4096 * 4096 :=
    Nat.mul_le_mul few sizeSmall
  have least := tables.least
  have noWrap : u32 (r * s.inodeSize) = r * s.inodeSize := Nat.mod_eq_of_lt (by omega)
  have inTable : r * s.inodeSize / groups.blockSize * groups.blockSize <
      groups.inodesPerGroup * s.inodeSize :=
    Nat.lt_of_le_of_lt (Nat.div_mul_le_self ..) (by omega)
  have blockNo := tables.small _ isGroup (r * s.inodeSize / groups.blockSize) inTable
  refine ⟨(ino - 1) / groups.inodesPerGroup, r * s.inodeSize, isGroup, rfl, by rw [isR], inside,
    ?_, ?_, ?_, ?_⟩
  · rw [Vfs.slotOf, number, fits.inodePerGroup, fits.blockSize, ← isR, noWrap]
    exact Nat.mod_eq_of_lt blockNo
  · rw [Vfs.slotOf, number, fits.inodePerGroup, fits.blockSize, ← isR, noWrap]
  · obtain ⟨k, isBlock⟩ := tables.divides
    have positiveK : 0 < k := by
      apply Nat.pos_of_ne_zero
      rintro rfl
      omega
    have less : r % k < k := Nat.mod_lt _ positiveK
    rw [isBlock, Nat.mul_comm r, Nat.mul_mod_mul_left, ← Nat.mul_succ]
    exact Nat.mul_le_mul_left _ less
  · rw [number, fits.inodePerGroup]

/-- The block of a slot is one of its group's table. -/
theorem SlotAt.inTable {s : Vfs} {ino g place : Nat} (isSlot : SlotAt groups s ino g place)
    (least : 128 ≤ s.inodeSize) :
    place / groups.blockSize * groups.blockSize < groups.inodesPerGroup * s.inodeSize := by
  have inside := isSlot.inside
  exact Nat.lt_of_le_of_lt (Nat.div_mul_le_self ..) (by omega)

/-- The fields of an inode lie in the buffer of its slot. -/
theorem SlotAt.inBuffer {s : Vfs} {ino g place : Nat} (isSlot : SlotAt groups s ino g place)
    (least : 128 ≤ s.inodeSize) : (s.slotOf ino).2 + 100 ≤ blkSz := by
  have fits := isSlot.fits
  have small := groups.sized.small.2
  rw [isSlot.offset]
  omega

/-- Distinct inodes have slots that do not overlap. -/
theorem SlotAt.apart {s : Vfs} {ino ino' g g' place place' : Nat} (tables : InodeTables groups s)
    (isInode : groups.IsInode ino) (isInode' : groups.IsInode ino')
    (first : SlotAt groups s ino g place) (second : SlotAt groups s ino' g' place')
    (differs : ino ≠ ino') (sameBlock : (s.slotOf ino).1 = (s.slotOf ino').1) :
    (s.slotOf ino).2 + s.inodeSize ≤ (s.slotOf ino').2 ∨
      (s.slotOf ino').2 + s.inodeSize ≤ (s.slotOf ino).2 := by
  have least := tables.least
  have inside := first.inside
  have inside' := second.inside
  rw [first.block, second.block] at sameBlock
  have upTo := Nat.div_mul_le_self place groups.blockSize
  have upTo' := Nat.div_mul_le_self place' groups.blockSize
  obtain rfl := tables.apart g first.group g' second.group _ _ (by omega) (by omega) sameBlock
  -- In one group the places differ by a slot at least.
  have places : place + s.inodeSize ≤ place' ∨ place' + s.inodeSize ≤ place := by
    have indices : (ino - 1) % groups.inodesPerGroup ≠ (ino' - 1) % groups.inodesPerGroup := by
      intro same
      have quotient : (ino - 1) / groups.inodesPerGroup = (ino' - 1) / groups.inodesPerGroup :=
        first.isGroup.symm.trans second.isGroup
      have number := Nat.div_add_mod (ino - 1) groups.inodesPerGroup
      rw [quotient, same, Nat.div_add_mod] at number
      have low := isInode.1
      have low' := isInode'.1
      omega
    rw [first.isPlace, second.isPlace, ← Nat.succ_mul, ← Nat.succ_mul]
    rcases Nat.lt_or_gt_of_ne indices with less | more
    · exact Or.inl (Nat.mul_le_mul_right _ less)
    · exact Or.inr (Nat.mul_le_mul_right _ more)
  have fits := first.fits
  have fits' := second.fits
  rw [first.offset, second.offset]
  have parts := Nat.div_add_mod place groups.blockSize
  have parts' := Nat.div_add_mod place' groups.blockSize
  rw [Nat.add_left_cancel sameBlock] at parts
  omega

end

end CuteCore.Fs
