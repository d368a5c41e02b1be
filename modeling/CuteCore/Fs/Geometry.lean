import CuteCore.Fs.Mount

/-!
# Geometry that a mount accepts

`ext2_fs_init` bounds the block size and refuses empty groups, but not the number and the
sizes of groups nor the size of inodes. A descriptor table of more than a page is copied
over what lies behind it. `Indexable` says what later index computations need, and
`SoundSuper` which superblocks give it.
-/

namespace CuteCore.Fs

open Hoare Bytes

/-- `s_inode_count`, `s_blocks_count`, `s_first_data_block`, `s_blocks_per_group` and
`s_inodes_per_group` -/
def inodeTotal (disk : Nat → ByteMap) : Nat := superField disk 0 4
def blockTotal (disk : Nat → ByteMap) : Nat := superField disk 4 4
def firstData (disk : Nat → ByteMap) : Nat := superField disk 20 4
def perGroupBlocks (disk : Nat → ByteMap) : Nat := superField disk 32 4
def perGroupInodes (disk : Nat → ByteMap) : Nat := superField disk 40 4

/-- The inode size that a mount takes from the superblock. -/
def slotSize (disk : Nat → ByteMap) : Nat :=
  if 1 ≤ superField disk 76 4 then superField disk 88 2 else 128

/-- The block size of the file system. -/
def fsBlockSize (disk : Nat → ByteMap) : Nat := 1024 * 2 ^ superField disk 24 4

/-- The group count that a mount computes from the superblock. -/
def groupTotal (disk : Nat → ByteMap) : Nat :=
  u32 (sub32 (blockTotal disk) (firstData disk) + perGroupBlocks disk + (2 ^ 32 - 1)) /
    perGroupBlocks disk

/-- What the code can index: the group count is exact, all bytes of bitmaps that are
scanned or cleared lie in the buffer, and inode slots lie in one block. -/
structure Indexable (disk : Nat → ByteMap) (s : Vfs) : Prop where
  order : firstData disk ≤ blockTotal disk
  groups : s.groupCount =
    (blockTotal disk - firstData disk + perGroupBlocks disk - 1) / perGroupBlocks disk
  blockScan : ∀ g < s.groupCount, ∀ numbers after, Returns (blockRange g) s numbers after →
    ∀ byte < u32 (numbers.2 + 7) / 8, byte < blkSz
  inodeScan : ∀ g < s.groupCount, ∀ numbers after, Returns (inodeRange g) s numbers after →
    ∀ byte < u32 (numbers.2 + 7) / 8, byte < blkSz
  blockFree : ∀ no < 2 ^ 32, no ≠ 0 → firstData disk ≤ no →
    (no - firstData disk) / perGroupBlocks disk < s.groupCount →
    (no - firstData disk) % perGroupBlocks disk / 8 < blkSz
  inodeFree : ∀ ino < 2 ^ 32, ino ≠ 0 → (ino - 1) / s.inodePerGroup < s.groupCount →
    (ino - 1) % s.inodePerGroup / 8 < blkSz
  slots : ∀ ino < 2 ^ 32, ∀ loc after, Returns (ext2InodeLoc ino) s loc after →
    loc.2 + s.inodeSize ≤ s.blockSize ∧ loc.2 + 128 ≤ s.blockSize

/-- The superblocks for which this holds. The descriptor table fits the room that `kmalloc`
has for it. Two of the conditions have a second part for sums that wrap to a scan of no byte. -/
structure SoundSuper (disk : Nat → ByteMap) : Prop where
  table : groupTotal disk * 32 ≤ tableRoom
  order : firstData disk ≤ blockTotal disk
  noWrap : blockTotal disk - firstData disk + perGroupBlocks disk ≤ 2 ^ 32
  blocks : perGroupBlocks disk ≤ 32768 ∨
    2 ^ 32 - 7 ≤ perGroupBlocks disk ∧ 2 ^ 32 - 32768 ≤ firstData disk
  inodes : perGroupInodes disk ≤ 32768
  groupStart : ∀ g, g * perGroupBlocks disk < blockTotal disk - firstData disk →
    inodeTotal disk < u32 (g * perGroupInodes disk) →
    inodeTotal disk < u32 (u32 (g * perGroupInodes disk) + perGroupInodes disk) →
    u32 (g * perGroupInodes disk) - inodeTotal disk ≤ 7 ∨
      2 ^ 32 - 32768 ≤ u32 (g * perGroupInodes disk) - inodeTotal disk
  slots : 128 ≤ slotSize disk ∧ fsBlockSize disk % slotSize disk = 0 ∨
    (perGroupInodes disk - 1) * slotSize disk + max (slotSize disk) 128 ≤ fsBlockSize disk

theorem superField_lt (disk : Nat → ByteMap) (off : Nat) : superField disk off 4 < 2 ^ 32 :=
  load_lt _ _ 4

theorem slotSize_lt (disk : Nat → ByteMap) : slotSize disk < 2 ^ 16 := by
  rw [slotSize]
  split
  · exact load_lt _ _ 2
  · decide

/-! ## Arithmetic of groups -/

section Arithmetic

variable {f c b i n g : Nat}

theorem cutRange_cases (base size total : Nat) :
    total < u32 (base + size) ∧ (cutRange base size total).2 = sub32 total base ∨
      ¬ total < u32 (base + size) ∧ (cutRange base size total).2 = size := by
  by_cases beyond : total < u32 (base + size)
  · exact Or.inl ⟨beyond, if_pos beyond⟩
  · exact Or.inr ⟨beyond, if_neg beyond⟩

/-- The group count is exact unless the sum wraps. -/
theorem groups_exact_iff (positive : b ≠ 0) (small : c < 2 ^ 32) (smallB : b < 2 ^ 32)
    (order : f ≤ c) :
    u32 (sub32 c f + b + (2 ^ 32 - 1)) / b = (c - f + b - 1) / b ↔ c - f + b ≤ 2 ^ 32 := by
  have isDifference : sub32 c f = c - f := by
    simp only [sub32, u32]
    omega
  rw [isDifference]
  constructor
  · intro exact
    by_contra wraps
    have isRest : u32 (c - f + b + (2 ^ 32 - 1)) = c - f + b - 1 - 2 ^ 32 := by
      simp only [u32]
      omega
    have isSum : c - f + b - 1 = c - f + b - 1 - 2 ^ 32 + (2 ^ 32 - b) + b := by omega
    rw [isRest, isSum, Nat.add_div_right _ (by omega)] at exact
    have most : (c - f + b - 1 - 2 ^ 32) / b ≤ (c - f + b - 1 - 2 ^ 32 + (2 ^ 32 - b)) / b :=
      Nat.div_le_div_right (by omega)
    rw [← isSum] at exact
    omega
  · intro noWrap
    have isSum : u32 (c - f + b + (2 ^ 32 - 1)) = c - f + b - 1 := by
      simp only [u32]
      omega
    rw [isSum]

/-- The groups start before the end. -/
theorem lt_groups_iff (positive : b ≠ 0) :
    g < (c - f + b - 1) / b ↔ g * b < c - f := by
  rw [Nat.lt_iff_add_one_le, Nat.le_div_iff_mul_le (by omega), Nat.succ_mul]
  omega

/-- A block bitmap that fits its group is scanned inside the buffer. -/
theorem blockScan_le (small : c < 2 ^ 32) (order : f ≤ c) (noWrap : c - f + b ≤ 2 ^ 32)
    (sized : b ≤ 32768 ∨ 2 ^ 32 - 7 ≤ b ∧ 2 ^ 32 - 32768 ≤ f) (inside : g * b < c - f) :
    u32 ((cutRange (u32 (f + g * b)) b c).2 + 7) / 8 ≤ blkSz := by
  have first : g * b = 0 ∨ b ≤ g * b := by
    rcases Nat.eq_zero_or_pos g with rfl | positive
    · exact Or.inl (Nat.zero_mul b)
    · exact Or.inr (Nat.le_mul_of_pos_left b positive)
  generalize g * b = start at *
  have noCarry : u32 (f + start) = f + start := Nat.mod_eq_of_lt (by omega)
  rw [noCarry]
  obtain ⟨cut, isLimit⟩ | ⟨whole, isLimit⟩ := cutRange_cases (f + start) b c
  · rw [isLimit]
    simp only [sub32, u32, blkSz, pgSize] at *
    omega
  · rw [isLimit]
    simp only [u32, blkSz, pgSize] at *
    omega

/-- The first group of blocks shows whether they are too large. -/
theorem blocks_of_scan (small : c < 2 ^ 32) (order : f ≤ c) (smallB : b < 2 ^ 32)
    (scan : u32 ((cutRange (u32 (f + 0 * b)) b c).2 + 7) / 8 ≤ blkSz)
    (free : f + 32768 < 2 ^ 32 → 32768 < b → 32768 % b / 8 < blkSz) :
    b ≤ 32768 ∨ 2 ^ 32 - 7 ≤ b ∧ 2 ^ 32 - 32768 ≤ f := by
  by_contra oversized
  have large : 32768 < b := by omega
  have isBit : 32768 % b = 32768 := Nat.mod_eq_of_lt large
  have high : ¬ f + 32768 < 2 ^ 32 := by
    intro low
    have cleared := free low large
    rw [isBit] at cleared
    exact absurd cleared (by decide)
  have noCarry : u32 (f + 0 * b) = f := by
    rw [Nat.zero_mul, Nat.add_zero]
    exact Nat.mod_eq_of_lt (by omega)
  rw [noCarry] at scan
  obtain ⟨cut, isLimit⟩ | ⟨whole, isLimit⟩ := cutRange_cases f b c
  · simp only [u32] at cut
    omega
  · rw [isLimit] at scan
    simp only [u32, blkSz, pgSize] at scan
    omega

/-- A group of inodes is scanned inside the buffer unless it starts behind the last one. -/
theorem inodeScan_le_iff (small : n < 2 ^ 32) (sized : i ≤ 32768) (base : Nat)
    (low : base < 2 ^ 32) :
    u32 ((cutRange base i n).2 + 7) / 8 ≤ blkSz ↔
      (n < base → n < u32 (base + i) → base - n ≤ 7 ∨ 2 ^ 32 - 32768 ≤ base - n) := by
  obtain ⟨cut, isLimit⟩ | ⟨whole, isLimit⟩ := cutRange_cases base i n
  · rw [isLimit]
    simp only [sub32, u32, blkSz, pgSize] at *
    omega
  · rw [isLimit]
    simp only [u32, blkSz, pgSize] at *
    omega

/-- Slots lie in blocks when they tile the block or all fit into the first one. -/
theorem slots_iff {size block : Nat} (positive : 0 < i) (few : i ≤ 32768) (small : size < 2 ^ 16)
    (room : 128 ≤ block) :
    (∀ k < i, u32 (k * size) % block + size ≤ block ∧ u32 (k * size) % block + 128 ≤ block) ↔
      128 ≤ size ∧ block % size = 0 ∨ (i - 1) * size + max size 128 ≤ block := by
  have noCarry : ∀ k < i, u32 (k * size) = k * size := by
    intro k inside
    have bounded : k * size ≤ 32768 * 2 ^ 16 := Nat.mul_le_mul (by omega) (Nat.le_of_lt small)
    exact Nat.mod_eq_of_lt (by omega)
  constructor
  · intro all
    by_contra neither
    rw [not_or, not_and, Nat.not_le] at neither
    obtain ⟨notTiled, tooLong⟩ := neither
    by_cases wide : 128 ≤ size
    · -- The slot behind the last whole one crosses the end.
      have span : (i - 1) * size + size = i * size := by
        rw [← Nat.succ_mul, Nat.succ_eq_add_one, Nat.sub_add_cancel positive]
      rw [Nat.max_eq_left wide, span] at tooLong
      have inside : block / size < i := (Nat.div_lt_iff_lt_mul (by omega)).mpr tooLong
      have rest := Nat.div_add_mod block size
      have notWhole := notTiled wide
      rw [Nat.mul_comm] at rest
      have below : block / size * size < block := by omega
      have crossing := (all _ inside).1
      rw [noCarry _ inside, Nat.mod_eq_of_lt below] at crossing
      have less := Nat.mod_lt block (show 0 < size by omega)
      omega
    · -- Slots of fewer bytes reach so far that 128 bytes cross the end.
      rw [Nat.max_eq_right (by omega)] at tooLong
      have sizePositive : 0 < size := by
        rcases Nat.eq_zero_or_pos size with rfl | positive'
        · omega
        · exact positive'
      have quotient : (block - 128) / size < i - 1 := by
        rw [Nat.div_lt_iff_lt_mul sizePositive]
        omega
      have inside : (block - 128) / size + 1 < i := by omega
      have rest := Nat.div_add_mod (block - 128) size
      rw [Nat.mul_comm] at rest
      have less := Nat.mod_lt (block - 128) sizePositive
      have place : ((block - 128) / size + 1) * size = (block - 128) / size * size + size :=
        Nat.succ_mul ..
      have crossing := (all _ inside).2
      rw [noCarry _ inside, place, Nat.mod_eq_of_lt (by omega)] at crossing
      omega
  · rintro (⟨wide, tiled⟩ | short) k inside
    · rw [noCarry k inside]
      obtain ⟨count, rfl⟩ := Nat.dvd_of_mod_eq_zero tiled
      have before : k * size % (size * count) = k % count * size := by
        rw [Nat.mul_comm size count, Nat.mul_mod_mul_right]
      have countPositive : 0 < count := by
        rcases Nat.eq_zero_or_pos count with rfl | positive'
        · omega
        · exact positive'
      have next : (k % count + 1) * size ≤ count * size :=
        Nat.mul_le_mul_right size (Nat.mod_lt k countPositive)
      rw [Nat.succ_mul, Nat.mul_comm count] at next
      rw [before]
      omega
    · have most : k * size ≤ (i - 1) * size := Nat.mul_le_mul_right size (by omega)
      rw [noCarry k inside, Nat.mod_eq_of_lt (by omega)]
      omega

end Arithmetic

namespace Mounted

variable {disk : Nat → ByteMap} {s : Vfs}

theorem loadSuper_spec (mounted : Mounted disk s) {off n : Nat} (fits : 1024 + off + n ≤ blkSz) :
    wp (loadSuper off n) (fun value after => value = superField disk off n ∧ after = s) s := by
  have data := mounted.shown.data s.sbBuf mounted.buffers.1
  rw [mounted.buffers.2] at data
  rw [loadSuper, wp_bind, wp_get, loadBuf, if_pos fits, bufData, wp_bind, wp_bind, wp_get, wp_pure,
    wp_pure, data]
  exact ⟨rfl, rfl⟩

/-- The range of a group's blocks, as the code cuts it off with sums on 32 bits. -/
theorem blockRange_spec (mounted : Mounted disk s) (g : Nat) :
    wp (blockRange g) (fun numbers after => after = s ∧ numbers = cutRange
      (u32 (firstData disk + g * perGroupBlocks disk)) (perGroupBlocks disk) (blockTotal disk)) s := by
  rw [blockRange]
  apply wp_seq (mounted.loadSuper_spec (by decide))
  rintro _ s ⟨rfl, rfl⟩
  apply wp_seq (mounted.loadSuper_spec (by decide))
  rintro _ s ⟨rfl, rfl⟩
  apply wp_seq (mounted.loadSuper_spec (by decide))
  rintro _ s ⟨rfl, rfl⟩
  exact wp_pure.mpr ⟨rfl, rfl⟩

theorem inodeRange_spec (mounted : Mounted disk s) (g : Nat) :
    wp (inodeRange g) (fun numbers after => after = s ∧ numbers = cutRange
      (u32 (g * perGroupInodes disk)) (perGroupInodes disk) (inodeTotal disk)) s := by
  rw [inodeRange, wp_bind, wp_get]
  apply wp_seq (mounted.loadSuper_spec (by decide))
  rintro _ s ⟨rfl, rfl⟩
  rw [mounted.inodePerGroup]
  exact wp_pure.mpr ⟨rfl, rfl⟩

/-- `ext2_inode_loc` accepts the numbers of the groups. -/
theorem inodeLoc_returns (ino : Nat) (inside : sub32 ino 1 / s.inodePerGroup < s.groupCount) :
    Returns (ext2InodeLoc ino) s (s.slotOf ino) s := by
  have located : wp (ext2InodeLoc ino) (fun loc after => loc = s.slotOf ino ∧ after = s) s := by
    rw [ext2InodeLoc, wp_bind, wp_get, if_neg (Nat.not_le.mpr inside), wp_pure]
    exact ⟨rfl, rfl⟩
  obtain ⟨loc, after, returned, rfl, rfl⟩ := located
  exact returned

/-- The condition on the superblock is enough: all bits that the scans reach lie in a bitmap's
buffer and all slots in a block. -/
theorem indexable_of_sound (mounted : Mounted disk s) (sound : SoundSuper disk) :
    Indexable disk s := by
  have smallTotal : blockTotal disk < 2 ^ 32 := superField_lt disk 4
  have smallGroup : perGroupBlocks disk < 2 ^ 32 := superField_lt disk 32
  have smallInodes : inodeTotal disk < 2 ^ 32 := superField_lt disk 0
  have groups : s.groupCount =
      (blockTotal disk - firstData disk + perGroupBlocks disk - 1) / perGroupBlocks disk :=
    mounted.groupCount.trans ((groups_exact_iff mounted.perGroup smallTotal smallGroup
      sound.order).mpr sound.noWrap)
  have started : ∀ g < s.groupCount,
      g * perGroupBlocks disk < blockTotal disk - firstData disk := by
    intro g inside
    rw [groups] at inside
    exact (lt_groups_iff mounted.perGroup).mp inside
  have fewInodes := sound.inodes
  refine ⟨sound.order, groups, ?_, ?_, ?_, ?_, ?_⟩
  · intro g inside numbers after returned byte scanned
    obtain ⟨-, isNumbers⟩ := (mounted.blockRange_spec g).of_returns returned
    rw [isNumbers] at scanned
    have bound := blockScan_le smallTotal sound.order sound.noWrap sound.blocks (started g inside)
    omega
  · intro g inside numbers after returned byte scanned
    obtain ⟨-, isNumbers⟩ := (mounted.inodeRange_spec g).of_returns returned
    rw [isNumbers] at scanned
    have bound := (inodeScan_le_iff smallInodes fewInodes (u32 (g * perGroupInodes disk))
      (Nat.mod_lt _ (by decide))).mpr (sound.groupStart g (started g inside))
    omega
  · intro no bounded nonzero above inside
    rcases sound.blocks with few | ⟨-, high⟩
    · have isBit : (no - firstData disk) % perGroupBlocks disk < perGroupBlocks disk :=
        Nat.mod_lt _ (Nat.pos_of_ne_zero mounted.perGroup)
      simp only [blkSz, pgSize]
      omega
    · have isBit := Nat.mod_le (no - firstData disk) (perGroupBlocks disk)
      simp only [blkSz, pgSize]
      omega
  · intro ino bounded nonzero inside
    have isBit : (ino - 1) % s.inodePerGroup < s.inodePerGroup := by
      rw [mounted.inodePerGroup]
      exact Nat.mod_lt _ (Nat.pos_of_ne_zero mounted.inodesPerGroup)
    have isCount : s.inodePerGroup = perGroupInodes disk := mounted.inodePerGroup
    simp only [blkSz, pgSize]
    omega
  · intro ino bounded loc after returned
    obtain ⟨rfl, -, -⟩ := wlp_inodeLoc ino _ _ returned
    have isCount : s.inodePerGroup = perGroupInodes disk := mounted.inodePerGroup
    have isSize : s.inodeSize = slotSize disk := mounted.inodeSize
    have isBlock : s.blockSize = fsBlockSize disk := mounted.blockSize
    have room : 128 ≤ fsBlockSize disk := by
      have positive := Nat.two_pow_pos (superField disk 24 4)
      rw [fsBlockSize]
      omega
    rw [Vfs.slotOf, isCount, isSize, isBlock]
    exact (slots_iff (Nat.pos_of_ne_zero mounted.inodesPerGroup) fewInodes (slotSize_lt disk)
      room).mpr sound.slots _ (Nat.mod_lt _ (Nat.pos_of_ne_zero mounted.inodesPerGroup))

/-- Geometry that can be indexed satisfies the condition on the superblock: each clause fails at a
number that names the first bit or slot outside. -/
theorem sound_of_indexable (mounted : Mounted disk s) (indexable : Indexable disk s) :
    SoundSuper disk := by
  have smallTotal : blockTotal disk < 2 ^ 32 := superField_lt disk 4
  have smallGroup : perGroupBlocks disk < 2 ^ 32 := superField_lt disk 32
  have smallInodes : inodeTotal disk < 2 ^ 32 := superField_lt disk 0
  have smallPer : perGroupInodes disk < 2 ^ 32 := superField_lt disk 40
  have isCount : s.inodePerGroup = perGroupInodes disk := mounted.inodePerGroup
  have isSize : s.inodeSize = slotSize disk := mounted.inodeSize
  have isBlock : s.blockSize = fsBlockSize disk := mounted.blockSize
  have first : 0 < s.groupCount := Nat.pos_of_ne_zero mounted.someGroup
  have noWrap := (groups_exact_iff mounted.perGroup smallTotal smallGroup indexable.order).mp
    (mounted.groupCount.symm.trans indexable.groups)
  have inside : ∀ g, g * perGroupBlocks disk < blockTotal disk - firstData disk →
      g < s.groupCount := by
    intro g started
    rw [indexable.groups]
    exact (lt_groups_iff mounted.perGroup).mpr started
  have scanned : ∀ {n : Nat}, (∀ byte < n, byte < blkSz) → n ≤ blkSz := by
    intro n all
    by_contra beyond
    exact Nat.lt_irrefl _ (all blkSz (Nat.not_le.mp beyond))
  have inodes : perGroupInodes disk ≤ 32768 := by
    by_contra large
    have cleared := indexable.inodeFree 32769 (by decide) (by decide) (by
      rw [isCount, Nat.div_eq_of_lt (by omega)]
      exact first)
    rw [isCount, Nat.mod_eq_of_lt (by omega)] at cleared
    exact absurd cleared (by decide)
  have table : groupTotal disk * 32 ≤ tableRoom := by
    have isTotal : s.groupCount = groupTotal disk := mounted.groupCount
    rw [← isTotal]
    exact mounted.room
  refine ⟨table, indexable.order, noWrap, ?_, inodes, ?_, ?_⟩
  · refine blocks_of_scan smallTotal indexable.order smallGroup (scanned ?_) ?_
    · obtain ⟨numbers, after, returned, -, isNumbers⟩ := mounted.blockRange_spec 0
      have all := indexable.blockScan 0 first numbers after returned
      rwa [isNumbers] at all
    · intro low large
      have cleared := indexable.blockFree (firstData disk + 32768) low (by omega)
        (Nat.le_add_right ..)
      rw [Nat.add_sub_cancel_left, Nat.div_eq_of_lt large] at cleared
      exact cleared first
  · intro g started
    obtain ⟨numbers, after, returned, -, isNumbers⟩ := mounted.inodeRange_spec g
    have all := indexable.inodeScan g (inside g started) numbers after returned
    rw [isNumbers] at all
    exact (inodeScan_le_iff smallInodes inodes _ (Nat.mod_lt _ (by decide))).mp (scanned all)
  · have room : 128 ≤ fsBlockSize disk := by
      have positive := Nat.two_pow_pos (superField disk 24 4)
      rw [fsBlockSize]
      omega
    refine (slots_iff (Nat.pos_of_ne_zero mounted.inodesPerGroup) inodes (slotSize_lt disk)
      room).mp fun k inGroup => ?_
    have below : k < perGroupInodes disk := inGroup
    have isIndex : sub32 (k + 1) 1 = k := by
      simp only [sub32, u32]
      omega
    have quotient : k / perGroupInodes disk = 0 := Nat.div_eq_of_lt below
    have accepted : sub32 (k + 1) 1 / s.inodePerGroup < s.groupCount := by
      rw [isIndex, isCount, quotient]
      exact first
    have fits := indexable.slots (k + 1) (by omega) _ _ (inodeLoc_returns (k + 1) accepted)
    rw [Vfs.slotOf, isIndex, isCount, isSize, isBlock, Nat.mod_eq_of_lt below] at fits
    exact fits

end Mounted

/-- The disks that `ext2_fs_init` goes through with: it returns 0, or it copies the descriptor
table out of the room that `kmalloc` gave for it. -/
def Accepted (before : Vfs) (disk : Nat → ByteMap) : Prop :=
  (∃ s, Returns ext2FsInit before 0 s) ∨ tableRoom < groupTotal disk * 32

/-- What a mount accepts can be indexed exactly when the superblock is sound. -/
theorem accepted_indexable_iff {before : Vfs} {disk : Nat → ByteMap} (shown : Shown before disk 0)
    (accepted : Accepted before disk) :
    (∃ s, Returns ext2FsInit before 0 s ∧ Indexable disk s) ↔ SoundSuper disk := by
  constructor
  · rintro ⟨s, mounted, indexable⟩
    exact (mount_reads shown 0 s mounted rfl).sound_of_indexable indexable
  · intro sound
    rcases accepted with ⟨s, mounted⟩ | overrun
    · exact ⟨s, mounted, (mount_reads shown 0 s mounted rfl).indexable_of_sound sound⟩
    · exact absurd sound.table (Nat.not_le.mpr overrun)

theorem smallDisk_sound : SoundSuper smallDisk := by
  refine ⟨by decide +kernel, by decide +kernel, by decide +kernel, Or.inl (by decide +kernel),
    by decide +kernel, fun g started low => ?_, Or.inl (by decide +kernel)⟩
  have perGroup : perGroupBlocks smallDisk = 32768 := by decide +kernel
  have blocks : blockTotal smallDisk - firstData smallDisk = 100 := by decide +kernel
  rw [perGroup, blocks] at started
  obtain rfl : g = 0 := by omega
  rw [Nat.zero_mul] at low
  exact absurd low (Nat.not_lt_zero _)

/-- The small disk is mounted and can be indexed. -/
theorem smallDisk_indexable :
    ∃ s, Returns ext2FsInit (unmounted smallDisk) 0 s ∧ Indexable smallDisk s :=
  (accepted_indexable_iff (BlkCache.boot_represents _ _) (Or.inl mounts_smallDisk)).mpr
    smallDisk_sound

/-- The small disk with groups of 65536 blocks. -/
def wideGroups : Nat → ByteMap :=
  Function.update smallDisk 0 (store (smallDisk 0) 1056 4 65536)

/-- A mount accepts it, but its bitmap does not fit the buffer. -/
theorem wideGroups_not_indexable : ∃ s, Returns ext2FsInit (unmounted wideGroups) 0 s ∧
    ¬ Indexable wideGroups s := by
  obtain ⟨s, mounted⟩ := @mounts_of_eval (unmounted wideGroups) (by decide +kernel)
  refine ⟨s, mounted, fun indexable => ?_⟩
  have isMounted := mount_reads (BlkCache.boot_represents _ _) 0 s mounted rfl
  have first : firstData wideGroups = 0 := by decide +kernel
  have wide : perGroupBlocks wideGroups = 65536 := by decide +kernel
  have cleared := indexable.blockFree 32768 (by decide) (by decide) (by omega)
  rw [first, wide] at cleared
  exact absurd (cleared (Nat.pos_of_ne_zero isMounted.someGroup)) (by decide)

end CuteCore.Fs
