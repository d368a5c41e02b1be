import CuteCore.Fs.InodeSlots
import CuteCore.Fs.Geometry

/-!
# Inodes that share blocks

Inode slots under any block size that a mount accepts. As long as the tables are
apart and the offset in a table fits 32 bits, two inodes have disjoint slots, a
write of one is not seen by the other, and a slot that is read gives back what
was written. An offset that wraps makes two inodes share a slot.
-/

namespace CuteCore.Fs

open Hoare Bytes

/-- The numbers that `ext2_inode_loc` accepts. -/
def Vfs.HasInode (s : Vfs) (ino : Nat) : Prop :=
  1 ≤ ino ∧ ino < 2 ^ 32 ∧ (ino - 1) / s.inodePerGroup < s.groupCount

/-- Block `k` of a group's inode table is part of it. -/
def Vfs.InTable (s : Vfs) (k : Nat) : Prop := k * s.blockSize < s.inodePerGroup * s.inodeSize

/-- What a mount leaves, with slots of a size that divides the block size. -/
structure Slotted (s : Vfs) : Prop where
  log : ∃ log ≤ 2, s.blockSize = 1024 * 2 ^ log
  groups : s.groupCount ≠ 0
  perGroup : s.inodePerGroup ≠ 0
  small : s.inodePerGroup < 2 ^ 32
  least : 128 ≤ s.inodeSize
  divides : s.inodeSize ∣ s.blockSize

/-- The inode tables are pairwise disjoint, and no byte of theirs may differ from the disk. -/
structure TablesApart (loose : Nat → Nat → Prop) (s : Vfs) : Prop where
  numbered : ∀ g < s.groupCount, ∀ k, s.InTable k → s.groupField g 8 4 + k < 2 ^ 32
  apart : ∀ g < s.groupCount, ∀ g' < s.groupCount, ∀ k k', s.InTable k → s.InTable k' →
    s.groupField g 8 4 + k = s.groupField g' 8 4 + k' → g = g'
  plain : ∀ g < s.groupCount, ∀ k, s.InTable k → ∀ x, ¬ loose (s.groupField g 8 4 + k) x

/-- Every field fits its width on disk. -/
structure Inode.FitsSlot (inode : Inode) : Prop where
  mode : inode.mode < 2 ^ 16
  uid : inode.uid < 2 ^ 16
  gid : inode.gid < 2 ^ 16
  size : inode.size < 2 ^ 32
  nlinks : inode.nlinks < 2 ^ 16
  iBlock : ∀ i, inode.iBlock i < 2 ^ 32
  iFlags : inode.iFlags < 2 ^ 32

/-- Two objects hold the same record. -/
structure Inode.SameRecord (inode result : Inode) : Prop where
  mode : result.mode = inode.mode
  uid : result.uid = inode.uid
  gid : result.gid = inode.gid
  size : result.size = inode.size
  nlinks : result.nlinks = inode.nlinks
  iBlock : result.iBlock = inode.iBlock
  iFlags : result.iFlags = inode.iFlags

/-- `ext2_write_inode` of the object at `p`, and then `ext2_read_inode` of the one at `q`. -/
def writeThenRead (p q : Nat) : FsProg Unit := do
  let _ ← ext2WriteInode p
  ext2ReadInode q

/-- The slots of two numbers are disjoint, an inode that is read does not depend on whether
another one was written before, and a written inode is read back. -/
structure SlotsIsolated (loose : Nat → Nat → Prop) (s : Vfs) : Prop where
  disjoint : ∀ i j loc loc', s.HasInode i → s.HasInode j → i ≠ j →
    Returns (ext2InodeLoc i) s loc s → Returns (ext2InodeLoc j) s loc' s →
    loc.1 ≠ loc'.1 ∨ loc.2 + s.inodeSize ≤ loc'.2 ∨ loc'.2 + s.inodeSize ≤ loc.2
  others : ∀ view held, Io loose s view (fun _ => False) held → Multiset.card held < nBlkNum →
    ∀ p q inode blank, s.inodes p = some inode → inode.valid = true → s.HasInode inode.ino →
      s.inodes q = some blank → blank.valid = false → s.HasInode blank.ino →
      inode.ino ≠ blank.ino → ∃ result,
        wp (ext2ReadInode q) (fun _ after => after.inodes q = some result) s ∧
        wp (writeThenRead p q) (fun _ after => after.inodes q = some result) s
  same : ∀ view held, Io loose s view (fun _ => False) held → Multiset.card held < nBlkNum →
    ∀ p q inode blank, s.inodes p = some inode → inode.valid = true → s.HasInode inode.ino →
      s.inodes q = some blank → blank.valid = false → blank.ino = inode.ino →
      inode.FitsSlot →
      wp (writeThenRead p q) (fun _ after => ∃ result, after.inodes q = some result ∧
        inode.SameRecord result) s

/-! ## Locations -/

section

variable {loose : Nat → Nat → Prop} {s : Vfs}

theorem Vfs.HasInode.index {ino : Nat} (has : s.HasInode ino) : sub32 ino 1 = ino - 1 := by
  obtain ⟨low, high, -⟩ := has
  simp only [sub32, u32]
  omega

theorem Vfs.HasInode.returns {ino : Nat} (has : s.HasInode ino) :
    Returns (ext2InodeLoc ino) s (s.slotOf ino) s := by
  refine Mounted.inodeLoc_returns ino ?_
  rw [has.index]
  exact has.2.2

/-- An object's place in its table of at most 2³² bytes. -/
structure Placed (s : Vfs) (ino : Nat) : Prop where
  inTable : s.InTable ((ino - 1) % s.inodePerGroup * s.inodeSize / s.blockSize)
  block : (s.slotOf ino).1 = s.groupField ((ino - 1) / s.inodePerGroup) 8 4 +
    (ino - 1) % s.inodePerGroup * s.inodeSize / s.blockSize
  offset : (s.slotOf ino).2 = (ino - 1) % s.inodePerGroup * s.inodeSize % s.blockSize
  fits : (s.slotOf ino).2 + s.inodeSize ≤ s.blockSize

namespace Slotted

variable (slotted : Slotted s)
include slotted

theorem blockSize_pos : 0 < s.blockSize := by
  obtain ⟨log, -, isSize⟩ := slotted.log
  rw [isSize]
  positivity

theorem blockSize_le : s.blockSize ≤ blkSz := by
  obtain ⟨log, few, isSize⟩ := slotted.log
  rw [isSize]
  have power : 2 ^ log ≤ 2 ^ 2 := Nat.pow_le_pow_right (by decide) few
  simp only [blkSz, pgSize]
  omega

/-- The size of a slot divides 2³². -/
theorem size_dvd : s.inodeSize ∣ 2 ^ 32 := by
  obtain ⟨log, few, isSize⟩ := slotted.log
  refine slotted.divides.trans ?_
  rw [isSize, show 1024 = 2 ^ 10 from rfl, ← Nat.pow_add]
  exact Nat.pow_dvd_pow 2 (by omega)

/-- Where the bytes of a table fit 32 bits, the slot of a number lies at its place in the table,
without a wrap. -/
theorem placed (tables : TablesApart loose s) (narrow : s.inodePerGroup * s.inodeSize ≤ 2 ^ 32)
    {ino : Nat} (has : s.HasInode ino) : Placed s ino := by
  have positive := Nat.pos_of_ne_zero slotted.perGroup
  have local' : (ino - 1) % s.inodePerGroup < s.inodePerGroup := Nat.mod_lt _ positive
  have whole : ((ino - 1) % s.inodePerGroup + 1) * s.inodeSize ≤ s.inodePerGroup * s.inodeSize :=
    Nat.mul_le_mul_right _ local'
  rw [Nat.succ_mul] at whole
  have least := slotted.least
  have inTable : s.InTable ((ino - 1) % s.inodePerGroup * s.inodeSize / s.blockSize) := by
    have part := Nat.div_mul_le_self ((ino - 1) % s.inodePerGroup * s.inodeSize) s.blockSize
    unfold Vfs.InTable
    omega
  have numbered := tables.numbered _ has.2.2 _ inTable
  have noWrap : u32 ((ino - 1) % s.inodePerGroup * s.inodeSize) =
      (ino - 1) % s.inodePerGroup * s.inodeSize := Nat.mod_eq_of_lt (by omega)
  have offset : (s.slotOf ino).2 = (ino - 1) % s.inodePerGroup * s.inodeSize % s.blockSize := by
    rw [Vfs.slotOf, has.index, noWrap]
  refine ⟨inTable, ?_, offset, ?_⟩
  · rw [Vfs.slotOf, has.index, noWrap]
    exact Nat.mod_eq_of_lt numbered
  · -- The offset is a multiple of the slot size below one of its multiples.
    rw [offset]
    obtain ⟨many, isMany⟩ := slotted.divides
    have isMultiple : s.inodeSize ∣ (ino - 1) % s.inodePerGroup * s.inodeSize % s.blockSize :=
      (Nat.dvd_mod_iff slotted.divides).mpr (Nat.dvd_mul_left ..)
    obtain ⟨n, isN⟩ := isMultiple
    have below := Nat.mod_lt ((ino - 1) % s.inodePerGroup * s.inodeSize) slotted.blockSize_pos
    rw [isN, isMany] at below ⊢
    have fewer := Nat.lt_of_mul_lt_mul_left below
    have upTo := Nat.mul_le_mul_left s.inodeSize fewer
    rwa [Nat.mul_succ] at upTo

/-- The slots of two inode numbers lie in different blocks or apart in one block. -/
theorem disjoint (tables : TablesApart loose s)
    (narrow : s.inodePerGroup * s.inodeSize ≤ 2 ^ 32) {i j : Nat} (has : s.HasInode i)
    (has' : s.HasInode j) (differs : i ≠ j) : (s.slotOf i).1 ≠ (s.slotOf j).1 ∨
      (s.slotOf i).2 + s.inodeSize ≤ (s.slotOf j).2 ∨
      (s.slotOf j).2 + s.inodeSize ≤ (s.slotOf i).2 := by
  have first := slotted.placed tables narrow has
  have second := slotted.placed tables narrow has'
  by_cases sameBlock : (s.slotOf i).1 = (s.slotOf j).1
  · refine .inr ?_
    rw [first.block, second.block] at sameBlock
    have sameGroup := tables.apart _ has.2.2 _ has'.2.2 _ _ first.inTable second.inTable sameBlock
    rw [sameGroup, Nat.add_left_cancel_iff] at sameBlock
    have indices : (i - 1) % s.inodePerGroup ≠ (j - 1) % s.inodePerGroup := by
      intro same
      have number := Nat.div_add_mod (i - 1) s.inodePerGroup
      rw [sameGroup, same, Nat.div_add_mod] at number
      have low := has.1
      have low' := has'.1
      omega
    have places : (i - 1) % s.inodePerGroup * s.inodeSize + s.inodeSize ≤
        (j - 1) % s.inodePerGroup * s.inodeSize ∨
        (j - 1) % s.inodePerGroup * s.inodeSize + s.inodeSize ≤
        (i - 1) % s.inodePerGroup * s.inodeSize := by
      rw [← Nat.succ_mul, ← Nat.succ_mul]
      rcases Nat.lt_or_gt_of_ne indices with less | more
      · exact .inl (Nat.mul_le_mul_right _ less)
      · exact .inr (Nat.mul_le_mul_right _ more)
    have partI := Nat.div_add_mod ((i - 1) % s.inodePerGroup * s.inodeSize) s.blockSize
    have partJ := Nat.div_add_mod ((j - 1) % s.inodePerGroup * s.inodeSize) s.blockSize
    rw [sameBlock] at partI
    rw [first.offset, second.offset]
    omega
  · exact .inl sameBlock

end Slotted

/-- Beyond 2³² bytes the offset wraps, and two numbers have one slot. -/
theorem Slotted.shared (slotted : Slotted s) (wide : 2 ^ 32 < s.inodePerGroup * s.inodeSize) :
    s.HasInode 1 ∧ s.HasInode (2 ^ 32 / s.inodeSize + 1) ∧
      s.slotOf 1 = s.slotOf (2 ^ 32 / s.inodeSize + 1) := by
  have least := slotted.least
  have whole : 2 ^ 32 / s.inodeSize * s.inodeSize = 2 ^ 32 := Nat.div_mul_cancel slotted.size_dvd
  have inside : 2 ^ 32 / s.inodeSize < s.inodePerGroup := by
    by_contra beyond
    have upTo := Nat.mul_le_mul_right s.inodeSize (Nat.not_lt.mp beyond)
    omega
  have groups := Nat.pos_of_ne_zero slotted.groups
  have small := slotted.small
  have one : s.HasInode 1 := ⟨Nat.le_refl _, by decide, by rwa [Nat.sub_self, Nat.zero_div]⟩
  have other : s.HasInode (2 ^ 32 / s.inodeSize + 1) := by
    refine ⟨Nat.succ_pos _, Nat.lt_of_le_of_lt inside small, ?_⟩
    rwa [Nat.add_sub_cancel, Nat.div_eq_of_lt inside]
  refine ⟨one, other, ?_⟩
  rw [Vfs.slotOf, Vfs.slotOf, one.index, other.index, Nat.sub_self, Nat.add_sub_cancel,
    Nat.zero_div, Nat.zero_mod, Nat.div_eq_of_lt inside, Nat.mod_eq_of_lt inside, whole,
    Nat.zero_mul]
  rfl

/-! ## Contents -/

variable {view : Nat → ByteMap} {held : Multiset Nat}

/-- What is read from a slot depends on its first 100 bytes. -/
theorem fromSlot_congr (inode : Inode) {data data' : ByteMap} {off : Nat}
    (same : SameOn data data' off 100) : inode.fromSlot data off = inode.fromSlot data' off := by
  have field : ∀ a n, a + n ≤ 100 → load data (off + a) n = load data' (off + a) n :=
    fun a n inside => load_congr fun x low high => same x (by omega) (by omega)
  have pointers : ∀ i : Fin nBlocks,
      load data (off + 40 + 4 * i) 4 = load data' (off + 40 + 4 * i) 4 := by
    intro i
    have few : i.val < 15 := i.isLt
    rw [Nat.add_assoc]
    exact field _ 4 (by omega)
  have first := field 0 2 (by decide)
  rw [Nat.add_zero] at first
  simp only [Inode.fromSlot, first, field 2 2 (by decide), field 24 2 (by decide),
    field 4 4 (by decide), field 26 2 (by decide), field 32 4 (by decide), pointers]

/-- `ext2_read_inode` fills an object in from its slot. -/
theorem readInode_fills (io : Io loose s view (fun _ => False) held)
    (room : Multiset.card held < nBlkNum) {q : Nat} {blank : Inode}
    (isBlank : s.inodes q = some blank) (invalid : blank.valid = false)
    (inRange : sub32 blank.ino 1 / s.inodePerGroup < s.groupCount)
    (fits : (s.slotOf blank.ino).2 + 100 ≤ blkSz)
    (firm : ∀ x, (s.slotOf blank.ino).2 ≤ x → x < (s.slotOf blank.ino).2 + 100 →
      ¬ loose (s.slotOf blank.ino).1 x) :
    wp (ext2ReadInode q) (fun _ after => Io loose after view (fun _ => False) held ∧
      SameFs (s.setInode q (blank.fromSlot (view (s.slotOf blank.ino).1) (s.slotOf blank.ino).2))
        after) s := by
  rw [ext2ReadInode, wp_bind, wp_derefInode isBlank, wp_onlyIf, if_pos invalid, ext2InodeLoc,
    wp_bind, wp_bind, wp_get, if_neg (Nat.not_le.mpr inRange), wp_pure]
  change wp (do
    let cache ← bread (s.slotOf blank.ino).1
    let _ ← loadBuf cache (s.slotOf blank.ino).2 100
    let data ← bufData cache
    updateInode q fun inode => inode.fromSlot data (s.slotOf blank.ino).2
    brelse cache) _ s
  apply wp_seq (io.bread_spec _ room)
  rintro cache mid ⟨ioMid, same, buffers, -⟩
  apply wp_seq (ioMid.loadBuf_spec buffers fits firm)
  rintro - _ ⟨-, rfl⟩
  apply wp_seq (ioMid.bufData_spec buffers)
  rintro data _ ⟨agrees, rfl⟩
  rw [wp_bind, wp_updateInode (same.inodes ▸ isBlank),
    fromSlot_congr blank fun x low high => agrees x (firm x low high)]
  apply wp_mono ((ioMid.setInode q _).brelse_spec buffers not_false io.superHeld)
  rintro - after ⟨ioAfter, same', -⟩
  refine ⟨ioAfter, ?_⟩
  unfold SameFs at same same' ⊢
  rw [← same', ← same]
  rfl

/-- The object afterwards. -/
theorem readInode_object (io : Io loose s view (fun _ => False) held)
    (room : Multiset.card held < nBlkNum) {q : Nat} {blank : Inode}
    (isBlank : s.inodes q = some blank) (invalid : blank.valid = false)
    (inRange : sub32 blank.ino 1 / s.inodePerGroup < s.groupCount)
    (fits : (s.slotOf blank.ino).2 + 100 ≤ blkSz)
    (firm : ∀ x, ¬ loose (s.slotOf blank.ino).1 x) :
    wp (ext2ReadInode q) (fun _ after => after.inodes q =
      some (blank.fromSlot (view (s.slotOf blank.ino).1) (s.slotOf blank.ino).2)) s := by
  apply wp_mono (readInode_fills io room isBlank invalid inRange fits fun x _ _ => firm x)
  rintro - after ⟨-, same⟩
  rw [same.inodes]
  exact Function.update_self ..

/-- The slot of an accepted number in the buffer of its block. -/
theorem Slotted.slot_fits (slotted : Slotted s) (tables : TablesApart loose s)
    (narrow : s.inodePerGroup * s.inodeSize ≤ 2 ^ 32) {ino : Nat} (has : s.HasInode ino) :
    (s.slotOf ino).2 + 100 ≤ blkSz ∧ ∀ x, ¬ loose (s.slotOf ino).1 x := by
  have placed := slotted.placed tables narrow has
  have fits := placed.fits
  have least := slotted.least
  have small := slotted.blockSize_le
  refine ⟨by omega, ?_⟩
  rw [placed.block]
  exact tables.plain _ has.2.2 _ placed.inTable

/-- Both calls, whatever slot the second one reads. -/
theorem writeThenRead_spec (slotted : Slotted s) (tables : TablesApart loose s)
    (narrow : s.inodePerGroup * s.inodeSize ≤ 2 ^ 32) (io : Io loose s view (fun _ => False) held)
    (room : Multiset.card held < nBlkNum) {p q : Nat} {inode blank : Inode}
    (isInode : s.inodes p = some inode) (valid : inode.valid = true) (has : s.HasInode inode.ino)
    (isBlank : s.inodes q = some blank) (invalid : blank.valid = false)
    (hasBlank : s.HasInode blank.ino) :
    wp (writeThenRead p q) (fun _ after => after.inodes q = some (blank.fromSlot
      (writtenSlot view s inode (s.slotOf blank.ino).1) (s.slotOf blank.ino).2)) s := by
  have differs : q ≠ p := by
    rintro rfl
    rw [isInode] at isBlank
    cases isBlank
    rw [valid] at invalid
    cases invalid
  have inRange : sub32 inode.ino 1 / s.inodePerGroup < s.groupCount := by
    rw [has.index]
    exact has.2.2
  have inRange' : sub32 blank.ino 1 / s.inodePerGroup < s.groupCount := by
    rw [hasBlank.index]
    exact hasBlank.2.2
  obtain ⟨fits, firm⟩ := slotted.slot_fits tables narrow hasBlank
  rw [writeThenRead]
  apply wp_seq (ext2WriteInode_spec io room isInode valid inRange
    (slotted.slot_fits tables narrow has).1)
  rintro - mid ⟨-, ioMid, same⟩
  have slots : mid.slotOf blank.ino = s.slotOf blank.ino := by
    unfold SameFs at same
    rw [← same]
    rfl
  have isBlank' : mid.inodes q = some blank := by
    rw [same.inodes, ← isBlank]
    exact Function.update_of_ne differs _ _
  have inRangeMid : sub32 blank.ino 1 / mid.inodePerGroup < mid.groupCount := by
    unfold SameFs at same
    rw [← same]
    exact inRange'
  have read := readInode_object ioMid room isBlank' invalid inRangeMid (by rwa [slots])
    (by rwa [slots])
  rwa [slots] at read

/-- The bytes of another inode are not written. -/
theorem writtenSlot_other (view : Nat → ByteMap) {inode : Inode} {no off : Nat}
    (least : 128 ≤ s.inodeSize) (apart : (s.slotOf inode.ino).1 ≠ no ∨
      (s.slotOf inode.ino).2 + s.inodeSize ≤ off ∨ off + s.inodeSize ≤ (s.slotOf inode.ino).2) :
    SameOn (writtenSlot view s inode no) (view no) off 100 := by
  intro x low high
  rw [writtenSlot]
  by_cases sameBlock : no = (s.slotOf inode.ino).1
  · subst sameBlock
    rw [Function.update_self]
    have beside := apart.resolve_left fun differs => differs rfl
    exact putFields_outside _ (rawFields_fit inode s.blockSize) (by omega) _
  · rw [Function.update_of_ne sameBlock]

/-- The record of the slot that was written. -/
theorem writtenSlot_own (view : Nat → ByteMap) {inode : Inode} (fits : inode.FitsSlot)
    (blank : Inode) : inode.SameRecord (blank.fromSlot
      (writtenSlot view s inode (s.slotOf inode.ino).1) (s.slotOf inode.ino).2) := by
  have field : ∀ a n value, (a, n, value) ∈ inode.rawFields s.blockSize → value < 256 ^ n →
      load (writtenSlot view s inode (s.slotOf inode.ino).1) ((s.slotOf inode.ino).2 + a) n =
        value := by
    intro a n value member small
    rw [writtenSlot_field member, Nat.mod_eq_of_lt small]
  have first := field 0 2 inode.mode (by simp [Inode.rawFields]) fits.mode
  rw [Nat.add_zero] at first
  refine ⟨first, field 2 2 _ (by simp [Inode.rawFields]) fits.uid,
    field 24 2 _ (by simp [Inode.rawFields]) fits.gid,
    field 4 4 _ (by simp [Inode.rawFields]) fits.size,
    field 26 2 _ (by simp [Inode.rawFields]) fits.nlinks, ?_,
    field 32 4 _ (by simp [Inode.rawFields]) fits.iFlags⟩
  funext i
  have listed : (40 + 4 * i.val, 4, inode.iBlock i) ∈ inode.rawFields s.blockSize :=
    List.mem_append_left _ (List.mem_append_right _
      (List.mem_map.mpr ⟨i, List.mem_finRange i, rfl⟩))
  have pointer := field (40 + 4 * i.val) 4 (inode.iBlock i) listed (fits.iBlock i)
  rw [← Nat.add_assoc] at pointer
  exact pointer

end

/-- Inodes are isolated exactly when the bytes of a group's table can be counted in 32 bits. -/
theorem slotsIsolated_iff {loose : Nat → Nat → Prop} {s : Vfs} (slotted : Slotted s)
    (tables : TablesApart loose s) :
    SlotsIsolated loose s ↔ s.inodePerGroup * s.inodeSize ≤ 2 ^ 32 := by
  constructor
  · intro isolated
    by_contra wide
    obtain ⟨one, other, same⟩ := slotted.shared (Nat.not_le.mp wide)
    have positive : 0 < 2 ^ 32 / s.inodeSize :=
      Nat.div_pos (Nat.le_of_dvd (by decide) slotted.size_dvd) (by have := slotted.least; omega)
    have apart := isolated.disjoint _ _ _ _ one other (by omega) one.returns other.returns
    rw [same] at apart
    have least := slotted.least
    omega
  · intro narrow
    refine ⟨?_, ?_, ?_⟩
    · intro i j loc loc' has has' differs located located'
      obtain ⟨rfl, -⟩ := has.returns.unique located
      obtain ⟨rfl, -⟩ := has'.returns.unique located'
      exact slotted.disjoint tables narrow has has' differs
    · intro view held io room p q inode blank isInode valid has isBlank invalid hasBlank differs
      have inRange : sub32 blank.ino 1 / s.inodePerGroup < s.groupCount := by
        rw [hasBlank.index]
        exact hasBlank.2.2
      obtain ⟨fits, firm⟩ := slotted.slot_fits tables narrow hasBlank
      refine ⟨_, readInode_object io room isBlank invalid inRange fits firm, ?_⟩
      rw [← fromSlot_congr blank (writtenSlot_other view slotted.least
        (slotted.disjoint tables narrow has hasBlank differs))]
      exact writeThenRead_spec slotted tables narrow io room isInode valid has isBlank invalid hasBlank
    · intro view held io room p q inode blank isInode valid has isBlank invalid sameNumber fits
      apply wp_mono (writeThenRead_spec slotted tables narrow io room isInode valid has isBlank
        invalid (by rwa [sameNumber]))
      intro _ after filled
      rw [sameNumber] at filled
      exact ⟨_, filled, writtenSlot_own view fits blank⟩

/-! ## Mounted disks -/

/-- A mount computes sizes of this kind from the superblock. -/
theorem Mounted.slotted {disk : Nat → ByteMap} {s : Vfs} (mounted : Mounted disk s)
    (least : 128 ≤ slotSize disk) (divides : slotSize disk ∣ fsBlockSize disk) : Slotted s where
  log := ⟨superField disk 24 4, mounted.log, mounted.blockSize⟩
  groups := mounted.someGroup
  perGroup := by
    rw [mounted.inodePerGroup]
    exact mounted.inodesPerGroup
  small := by
    rw [mounted.inodePerGroup]
    exact superField_lt disk 40
  least := by
    rw [mounted.inodeSize]
    exact least
  divides := by
    rw [mounted.inodeSize, mounted.blockSize]
    exact divides

/-- The tables of one group are apart. -/
theorem Mounted.oneTable {disk : Nat → ByteMap} {s : Vfs} (mounted : Mounted disk s)
    (slotted : Slotted s) (one : s.groupCount = 1)
    (fits : load (disk (u32 (superField disk 20 4 + 1))) 8 4 * s.blockSize +
      s.inodePerGroup * s.inodeSize ≤ 2 ^ 32 * s.blockSize) :
    TablesApart (fun _ _ => False) s where
  numbered g inside k inTable := by
    obtain rfl : g = 0 := by omega
    have start : s.groupField 0 8 4 = load (disk (u32 (superField disk 20 4 + 1))) 8 4 := by
      refine load_congr fun x low high => ?_
      have positive := slotted.blockSize_pos
      obtain ⟨log, -, isSize⟩ := slotted.log
      have power : 1 ≤ 2 ^ log := Nat.one_le_two_pow
      rw [mounted.table x (by omega), Nat.div_eq_of_lt (by omega), Nat.mod_eq_of_lt (by omega),
        Nat.add_zero]
    unfold Vfs.InTable at inTable
    rw [start]
    have scaled : (load (disk (u32 (superField disk 20 4 + 1))) 8 4 + k) * s.blockSize <
        2 ^ 32 * s.blockSize := by
      rw [Nat.add_mul]
      omega
    exact Nat.lt_of_mul_lt_mul_right scaled
  apart g inside g' inside' _ _ _ _ _ := by omega
  plain _ _ _ _ _ := not_false

/-- What the mounted small disk has in memory: the root directory. -/
theorem smallDisk_root : ∃ s inode, Returns ext2FsInit (unmounted smallDisk) 0 s ∧
    s.inodes 1 = some inode ∧ inode.ino = 2 ∧ inode.valid = true := by
  have computed : (ext2FsInit (unmounted smallDisk)).toOption.map (fun result =>
      (result.1, (result.2.inodes 1).map fun inode => (inode.ino, inode.valid))) =
      some (0, some (2, true)) := by decide +kernel
  obtain ⟨⟨code, s⟩, ran, values⟩ := Option.map_eq_some_iff.mp computed
  obtain ⟨rfl, isRoot⟩ := Prod.mk.inj values
  obtain ⟨inode, isInode, fields⟩ := Option.map_eq_some_iff.mp isRoot
  obtain ⟨isNumber, valid⟩ := Prod.mk.inj fields
  exact ⟨s, inode, returns_of_toOption ran, isInode, isNumber, valid⟩

/-- An inode that is about to be read. -/
def blankInode (ino : Nat) : Inode where
  ino := ino
  type := .file
  mode := 0
  uid := 0
  gid := 0
  size := 0
  nlinks := 0
  ref := 1
  dirty := false
  valid := false
  iBlock _ := 0
  iFlags := 0

/-- The theorem for the small disk with the root directory and a blank inode 11 in memory: to
write the directory before the read of the other inode does not change what is read. -/
theorem smallDisk_isolated : ∃ s inode result, s.inodes 1 = some inode ∧ inode.ino = 2 ∧
    s.inodes 2 = some (blankInode 11) ∧ SlotsIsolated (fun _ _ => False) s ∧
    wp (ext2ReadInode 2) (fun _ after => after.inodes 2 = some result) s ∧
    wp (writeThenRead 1 2) (fun _ after => after.inodes 2 = some result) s := by
  obtain ⟨m, inode, returned, isInode, isNumber, valid⟩ := smallDisk_root
  have mounted := mount_reads (BlkCache.boot_represents _ _) 0 m returned rfl
  have perGroup : m.inodePerGroup = 16 := mounted.inodePerGroup.trans (by decide +kernel)
  have size : m.inodeSize = 128 := mounted.inodeSize.trans (by decide +kernel)
  have blockSize : m.blockSize = 4096 := mounted.blockSize.trans (by decide +kernel)
  have one : m.groupCount = 1 := mounted.groupCount.trans (by decide +kernel)
  have start : load (smallDisk (u32 (superField smallDisk 20 4 + 1))) 8 4 = 4 := by decide +kernel
  have inOrder := mounted.slotted (by decide +kernel) (by decide +kernel)
  have apart := mounted.oneTable inOrder one (by
    rw [start, blockSize, perGroup, size]
    decide)
  -- the blank object changes neither the tables nor the cache
  have slotted : Slotted (m.setInode 2 (blankInode 11)) :=
    ⟨inOrder.log, inOrder.groups, inOrder.perGroup, inOrder.small, inOrder.least, inOrder.divides⟩
  have tables : TablesApart (fun _ _ => False) (m.setInode 2 (blankInode 11)) :=
    ⟨apart.numbered, apart.apart, apart.plain⟩
  have idle : Io (fun _ _ => False) m smallDisk (fun _ => False) {0} := mounted.io
  have io : Io (fun _ _ => False) (m.setInode 2 (blankInode 11)) smallDisk (fun _ => False) {0} :=
    ⟨idle.rep, idle.super, idle.superHeld⟩
  have isolated := (slotsIsolated_iff slotted tables).mpr (by
    change m.inodePerGroup * m.inodeSize ≤ 2 ^ 32
    rw [perGroup, size]
    decide)
  have has : ∀ ino, 1 ≤ ino → ino ≤ 16 → (m.setInode 2 (blankInode 11)).HasInode ino := by
    intro ino low high
    refine ⟨low, by omega, ?_⟩
    change (ino - 1) / m.inodePerGroup < m.groupCount
    rw [perGroup, one]
    omega
  have isRoot : (m.setInode 2 (blankInode 11)).inodes 1 = some inode := by
    rw [inodes_setInode_other m _ (by decide), isInode]
  have isBlank : (m.setInode 2 (blankInode 11)).inodes 2 = some (blankInode 11) :=
    inodes_setInode_self ..
  obtain ⟨result, alone, behind⟩ := isolated.others smallDisk {0} io (by decide) 1 2 inode
    (blankInode 11) isRoot valid (isNumber ▸ has 2 (by decide) (by decide)) isBlank rfl
    (has 11 (by decide) (by decide)) (by rw [isNumber]; decide)
  exact ⟨_, inode, result, isRoot, isNumber, isBlank, isolated, alone, behind⟩

/-- A disk of 2²² blocks in one group with 2²⁶ inodes. Its table takes 2²¹ blocks, and the
root directory lies behind it. -/
def longTable : Nat → ByteMap :=
  Function.update (Function.update smallDisk 0 (blockOf [(1024, 4, 2 ^ 26), (1028, 4, 2 ^ 22),
    (1048, 4, 2), (1056, 4, 2 ^ 22), (1064, 4, 2 ^ 26), (1080, 2, 0xEF53)]))
    4 (blockOf [(128, 2, 0x41ED), (132, 4, 4096), (154, 2, 2), (156, 4, 8), (168, 4, 2 ^ 21 + 4)])

/-- The offset of inode 2²⁵ + 1 wraps to the slot of inode 1. -/
theorem longTable_shares : ∃ s, Returns ext2FsInit (unmounted longTable) 0 s ∧ Slotted s ∧
    TablesApart (fun _ _ => False) s ∧ ¬ SlotsIsolated (fun _ _ => False) s := by
  obtain ⟨s, returned⟩ := @mounts_of_eval (unmounted longTable) (by decide +kernel)
  have mounted := mount_reads (BlkCache.boot_represents _ _) 0 s returned rfl
  have slotted := mounted.slotted (by decide +kernel) (by decide +kernel)
  have perGroup : s.inodePerGroup = 2 ^ 26 := mounted.inodePerGroup.trans (by decide +kernel)
  have size : s.inodeSize = 128 := mounted.inodeSize.trans (by decide +kernel)
  have blockSize : s.blockSize = 4096 := mounted.blockSize.trans (by decide +kernel)
  have start : load (longTable (u32 (superField longTable 20 4 + 1))) 8 4 = 4 := by decide +kernel
  refine ⟨s, returned, slotted, mounted.oneTable slotted ?_ ?_, fun isolated => ?_⟩
  · exact mounted.groupCount.trans (by decide +kernel)
  · rw [start, blockSize, perGroup, size]
    decide
  · obtain ⟨one, other, same⟩ := slotted.shared (by rw [perGroup, size]; decide)
    have apart := isolated.disjoint _ _ _ _ one other (by rw [size]; decide) one.returns
      other.returns
    rw [same, size] at apart
    omega

end CuteCore.Fs
