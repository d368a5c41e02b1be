import CuteCore.Fs.Geometry

/-!
# Block numbers and disk bytes

The cache and the driver transfer blocks of `BLKSZ` bytes, the file system counts
blocks of its own size. The two agree for images with blocks of 4096 bytes only.

A number is addressed right when the bytes that the driver moves for it are those that the
format gives to it. This is said of the block numbers that a mounted file system passes
on, for its table and for the slots of its inodes, as an equivalence for each image that a
mount accepts.
-/

namespace CuteCore.Fs

open Hoare Bytes BlkCache

/-- The address of byte `x` behind the start of block `no` of the cache, by the sectors of 512
bytes that `blkread` asks for. -/
def diskByte (no x : Nat) : Nat := (no * (blkSz / 512) + x / 512) * 512 + x % 512

def blkread (image : Nat → Byte) (no : Nat) : ByteMap := fun x => image (diskByte no x)

theorem diskByte_eq (no x : Nat) : diskByte no x = no * blkSz + x := by
  simp only [diskByte, blkSz, pgSize]
  omega

/-- The address on the disk that inode `ino` has by its descriptor in the loaded table. -/
def Vfs.inodeAddress (s : Vfs) (ino : Nat) : Nat :=
  s.groupField ((ino - 1) / s.inodePerGroup) 8 4 * s.blockSize +
    (ino - 1) % s.inodePerGroup * s.inodeSize

/-- Where the bytes come from that a mounted file system works with, for every size of blocks:
the driver counts the blocks of a buffer, of the descriptor table and of an inode's slot in
blocks of the cache. -/
structure ReadFrom (image : Nat → Byte) (s : Vfs) : Prop where
  buffers : ∀ b, wp (Fs.bread b) (fun i after => ∀ x,
    (after.caches.slot i).data x = image (diskByte b x)) s
  table : ∀ x < s.groupCount * 32, s.gbTable x = image (diskByte
    (u32 (firstData (blkread image) + 1) + x / s.blockSize) (x % s.blockSize))
  inodes : ∀ ino < 2 ^ 32, ∀ p after, Returns (ext2Iget ino) s (some p) after →
    ∃ inode blank : Inode, after.inodes p = some inode ∧ inode.ino = ino ∧
      sub32 ino 1 / s.inodePerGroup < s.groupCount ∧
      inode = blank.fromSlot image (diskByte (s.slotOf ino).1 (s.slotOf ino).2)

/-- These are the bytes of the file system's own blocks: block `b` starts at byte
`b * block_size`, the descriptor table behind the block of the superblock, and an inode is at
its place in the table of its group. -/
structure Addressed (image : Nat → Byte) (s : Vfs) : Prop where
  reads : ReadFrom image s
  blocks : ∀ b < 2 ^ 32, ∀ x < s.blockSize, diskByte b x = b * s.blockSize + x
  table : ∀ x < s.groupCount * 32,
    diskByte (u32 (firstData (blkread image) + 1) + x / s.blockSize) (x % s.blockSize) =
      (firstData (blkread image) + 1) * s.blockSize + x
  inodes : ∀ ino < 2 ^ 32, ino ≠ 0 → (ino - 1) / s.inodePerGroup < s.groupCount →
    diskByte (s.slotOf ino).1 (s.slotOf ino).2 = s.inodeAddress ino

/-- The field `bg_inode_table` of a group in the image. -/
def inodeTable (image : Nat → Byte) (g : Nat) : Nat :=
  load image ((firstData (blkread image) + 1) * fsBlockSize (blkread image) + (g * 32 + 8)) 4

/-- Images with blocks of the cache's size whose descriptor table fits the room that `kmalloc`
has for it, and in which block numbers and the offsets in inode tables do not wrap. -/
structure ReadRight (image : Nat → Byte) : Prop where
  log : superField (blkread image) 24 4 = 2
  room : groupTotal (blkread image) * 32 ≤ tableRoom
  table : firstData (blkread image) + 1 < 2 ^ 32
  inodes : ∀ ino < 2 ^ 32, ino ≠ 0 →
    (ino - 1) / perGroupInodes (blkread image) < groupTotal (blkread image) →
    (ino - 1) % perGroupInodes (blkread image) * slotSize (blkread image) < 2 ^ 32 ∧
      inodeTable image ((ino - 1) / perGroupInodes (blkread image)) +
        (ino - 1) % perGroupInodes (blkread image) * slotSize (blkread image) / blkSz < 2 ^ 32

/-- Fields of a part of a map. -/
theorem load_shift (m : ByteMap) (start off n : Nat) :
    load (fun x => m (start + x)) off n = load m (start + off) n := by
  induction n generalizing off with
  | zero => rw [load, load]
  | succ n inductionHypothesis =>
    rw [load, load, inductionHypothesis, Nat.add_assoc]

theorem fromSlot_shift (inode : Inode) (m : ByteMap) (start off : Nat) :
    inode.fromSlot (fun x => m (start + x)) off = inode.fromSlot m (start + off) := by
  simp only [Inode.fromSlot, load_shift, Nat.add_assoc]

theorem wlp_addRef {p : Nat} {s : Vfs} : wlp (addRef p) (fun _ after => ∃ inode,
    s.inodes p = some inode ∧ after = s.setInode p { inode with ref := inode.ref + 1 }) s := by
  rw [addRef, wlp_bind, wlp_derefInode]
  intro inode found
  rw [wlp_ite]
  split
  · exact wlp_modify.mpr ⟨inode, found, rfl⟩
  · exact wlp_throw.mpr trivial

/-- Only the part of an offset that is not lost leads on from the start of a table. -/
theorem slot_address_iff {start offset : Nat} :
    u32 (start + u32 offset / blkSz) * blkSz + u32 offset % blkSz = start * blkSz + offset ↔
      offset < 2 ^ 32 ∧ start + offset / blkSz < 2 ^ 32 := by
  simp only [u32, blkSz, pgSize]
  omega

section Mounts

variable {image : Nat → Byte} {s : Vfs}

/-- What a mount leaves is read from these places. -/
theorem Mounted.readFrom (mounted : Mounted (blkread image) s) : ReadFrom image s := by
  have table : ∀ x < s.groupCount * 32, s.gbTable x = image (diskByte
      (u32 (firstData (blkread image) + 1) + x / s.blockSize) (x % s.blockSize)) := mounted.table
  refine ⟨fun b => ?_, table, ?_⟩
  · refine Io.onCaches_spec (wp_mono (BlkCache.bread_spec mounted.shown b (Or.inr (by decide))
      (BlkCache.count_fits {0} (by decide) b)) ?_)
    rintro i caches ⟨buffers, rep, -⟩ x
    have data := rep.data i buffers.1
    rw [buffers.2] at data
    exact congrFun data x
  · intro ino bound p after returned
    -- What a slot says is what the image says at its address.
    have atAddress : ∀ inode, inode.ino = ino → HasSlot (blkread image) s inode →
        sub32 ino 1 / s.inodePerGroup < s.groupCount ∧ ∃ blank : Inode, inode =
          blank.fromSlot image (diskByte (s.slotOf ino).1 (s.slotOf ino).2) := by
      rintro inode rfl ⟨inside, blank, -, isInode⟩
      refine ⟨inside, blank, isInode.trans ?_⟩
      have isMap : ∀ no, blkread image no = fun x => image (no * blkSz + x) :=
        fun no => funext fun x => congrArg image (diskByte_eq no x)
      rw [isMap, fromSlot_shift, diskByte_eq]
    obtain ⟨cached, root, isRoot, isIno, hasSlot⟩ := mounted.root
    have loads := wlp_loadInode mounted.shown (by rw [Multiset.card_singleton]; decide) ino
    rw [ext2Iget] at returned
    split at returned
    · obtain ⟨no, -⟩ := returns_pure.mp returned
      cases no
    · obtain ⟨_, _, got, returned⟩ := returns_bind.mp returned
      obtain ⟨rfl, rfl⟩ := returns_get.mp got
      cases found : s.findCached ino with
      | none =>
        rw [found] at returned
        obtain ⟨-, -, -, -, inode, isInode, isNumber, slot⟩ := loads (some p) after returned p rfl
        obtain ⟨inside, blank, isBlank⟩ := atAddress inode isNumber slot
        exact ⟨inode, blank, isInode, isNumber, inside, isBlank⟩
      | some q =>
        rw [found] at returned
        have member := List.mem_of_find?_eq_some found
        rw [cached, List.mem_singleton] at member
        subst member
        have isNumber : root.ino = ino := by
          have test := List.find?_some found
          rw [isRoot] at test
          simpa using test
        obtain ⟨⟨⟩, mid, added, returned⟩ := returns_bind.mp returned
        obtain ⟨isP, rfl⟩ := returns_pure.mp returned
        obtain rfl := Option.some.inj isP
        obtain ⟨object, isObject, rfl⟩ := wlp_addRef _ _ added
        obtain rfl : object = root := Option.some.inj (isObject.symm.trans isRoot)
        obtain ⟨inside, blank, isBlank⟩ := atAddress object isNumber hasSlot
        refine ⟨{ object with ref := object.ref + 1 }, { blank with ref := blank.ref + 1 },
          Function.update_self .., isNumber, inside, ?_⟩
        conv_lhs => rw [isBlank]
        rfl

theorem Mounted.fits (mounted : Mounted (blkread image) s) :
    groupTotal (blkread image) * 32 ≤ tableRoom := by
  have isTotal : s.groupCount = groupTotal (blkread image) := mounted.groupCount
  rw [← isTotal]
  exact mounted.room

/-- Blocks have the size of the cache's exactly when the superblock says so. -/
theorem Mounted.blocks_iff (mounted : Mounted (blkread image) s) :
    (∀ b < 2 ^ 32, ∀ x < s.blockSize, diskByte b x = b * s.blockSize + x) ↔
      superField (blkread image) 24 4 = 2 := by
  have size := mounted.blockSize
  have low := mounted.log
  constructor
  · intro all
    have positive : 0 < s.blockSize := by
      rw [size]
      exact Nat.mul_pos (by decide) (Nat.two_pow_pos _)
    have second := all 1 (by decide) 0 positive
    rw [diskByte_eq, size] at second
    generalize superField (blkread image) 24 4 = log at second low ⊢
    interval_cases log
    · exact absurd second (by decide)
    · exact absurd second (by decide)
    · rfl
  · intro log b _ x _
    rw [diskByte_eq, size, log]
    rfl

/-- With blocks of 4096 bytes the table is read from its own bytes unless its block wraps. -/
theorem Mounted.table_iff (mounted : Mounted (blkread image) s) (isBlock : s.blockSize = blkSz) :
    (∀ x < s.groupCount * 32,
      diskByte (u32 (firstData (blkread image) + 1) + x / s.blockSize) (x % s.blockSize) =
        (firstData (blkread image) + 1) * s.blockSize + x) ↔
      firstData (blkread image) + 1 < 2 ^ 32 := by
  have small : firstData (blkread image) < 2 ^ 32 := superField_lt _ 20
  have some := Nat.pos_of_ne_zero mounted.someGroup
  have room := mounted.room
  simp only [diskByte_eq, isBlock]
  constructor
  · intro all
    have first := all 0 (by omega)
    simp only [u32, blkSz, pgSize] at first
    omega
  · intro below x inside
    have isFirst : u32 (firstData (blkread image) + 1) = firstData (blkread image) + 1 :=
      Nat.mod_eq_of_lt below
    rw [isFirst]
    simp only [blkSz, pgSize, tableRoom] at *
    omega

/-- So are the inodes unless an offset or the number of a block wraps. -/
theorem Mounted.inodes_iff (mounted : Mounted (blkread image) s) (isBlock : s.blockSize = blkSz)
    (below : firstData (blkread image) + 1 < 2 ^ 32) :
    (∀ ino < 2 ^ 32, ino ≠ 0 → (ino - 1) / s.inodePerGroup < s.groupCount →
      diskByte (s.slotOf ino).1 (s.slotOf ino).2 = s.inodeAddress ino) ↔
    ∀ ino < 2 ^ 32, ino ≠ 0 →
      (ino - 1) / perGroupInodes (blkread image) < groupTotal (blkread image) →
      (ino - 1) % perGroupInodes (blkread image) * slotSize (blkread image) < 2 ^ 32 ∧
        inodeTable image ((ino - 1) / perGroupInodes (blkread image)) +
          (ino - 1) % perGroupInodes (blkread image) * slotSize (blkread image) / blkSz < 2 ^ 32 := by
  have isFs : fsBlockSize (blkread image) = blkSz := mounted.blockSize.symm.trans isBlock
  have isCount : s.inodePerGroup = perGroupInodes (blkread image) := mounted.inodePerGroup
  have isSize : s.inodeSize = slotSize (blkread image) := mounted.inodeSize
  have isTotal : s.groupCount = groupTotal (blkread image) := mounted.groupCount
  have table := (mounted.table_iff isBlock).mpr below
  -- The field of the loaded descriptor as the image has it.
  have isField : ∀ g < s.groupCount, s.groupField g 8 4 = inodeTable image g := by
    intro g inside
    rw [Vfs.groupField, inodeTable, isFs, ← load_shift image _ (g * 32 + 8) 4]
    refine load_congr fun x low high => ?_
    rw [mounted.readFrom.table x (by omega), table x (by omega), isBlock]
  refine forall_congr' fun ino => forall_congr' fun bound => forall_congr' fun nonzero => ?_
  rw [← isCount, ← isTotal, ← isSize]
  refine forall_congr' fun inside => ?_
  have isIndex : sub32 ino 1 = ino - 1 := by
    simp only [sub32, u32]
    omega
  rw [Vfs.slotOf, Vfs.inodeAddress, isIndex, isBlock, diskByte_eq, isField _ inside]
  exact slot_address_iff

end Mounts

/-- An image with smaller blocks. Its descriptor table is at byte 2048 or 4096, but block 2
of the cache is read for it. -/
def narrowImage (log : Nat) : Nat → Byte :=
  blockOf [(1024, 4, 16), (1028, 4, 100), (1044, 4, 1), (1048, 4, log), (1056, 4, 8192),
    (1064, 4, 16), (1080, 2, 0xEF53), (2048, 4, 3), (4096, 4, 3)]

/-- A mount accepts it and takes the wrong descriptors. -/
theorem narrowImage_misread {log : Nat} (narrow : log = 0 ∨ log = 1) :
    superField (blkread (narrowImage log)) 24 4 = log ∧
      ∃ s, Returns ext2FsInit (unmounted (blkread (narrowImage log))) 0 s ∧
        ∃ x < s.groupCount * 32, s.gbTable x ≠ narrowImage log
          ((firstData (blkread (narrowImage log)) + 1) * s.blockSize + x) := by
  refine ⟨by rcases narrow with rfl | rfl <;> decide +kernel, ?_⟩
  obtain ⟨s, mounted⟩ := @mounts_of_eval (unmounted (blkread (narrowImage log))) (by
    rcases narrow with rfl | rfl <;> decide +kernel)
  have isMounted := mount_reads (BlkCache.boot_represents _ _) 0 s mounted rfl
  have first : 0 < s.groupCount * 32 := by
    have some := isMounted.someGroup
    omega
  refine ⟨s, mounted, 0, first, fun same => ?_⟩
  rw [isMounted.table 0 first, isMounted.blockSize] at same
  revert same
  rcases narrow with rfl | rfl <;> decide +kernel

/-- An image that a mount accepts is read at its own places exactly under these conditions. -/
theorem addressed_iff {image : Nat → Byte} {before : Vfs} (shown : Shown before (blkread image) 0)
    (accepted : Accepted before (blkread image)) :
    (∃ s, Returns ext2FsInit before 0 s ∧ Addressed image s) ↔ ReadRight image := by
  constructor
  · rintro ⟨s, returned, addressed⟩
    have mounted := mount_reads shown 0 s returned rfl
    have log := mounted.blocks_iff.mp addressed.blocks
    have isBlock : s.blockSize = blkSz := by
      rw [mounted.blockSize, log]
      rfl
    have table := (mounted.table_iff isBlock).mp addressed.table
    exact ⟨log, mounted.fits, table, (mounted.inodes_iff isBlock table).mp addressed.inodes⟩
  · intro right
    rcases accepted with ⟨s, returned⟩ | overrun
    · have mounted := mount_reads shown 0 s returned rfl
      have isBlock : s.blockSize = blkSz := by
        rw [mounted.blockSize, right.log]
        rfl
      exact ⟨s, returned, mounted.readFrom, mounted.blocks_iff.mpr right.log,
        (mounted.table_iff isBlock).mpr right.table,
        (mounted.inodes_iff isBlock right.table).mpr right.inodes⟩
    · exact absurd right.room (Nat.not_le.mpr overrun)

/-- The small disk as an image. -/
def wholeImage : Nat → Byte := fun a => smallDisk (a / blkSz) (a % blkSz)

/-- The image with blocks of 4096 bytes is read right. -/
theorem wholeImage_right : ReadRight wholeImage := by
  refine ⟨by decide +kernel, by decide +kernel, by decide +kernel, fun ino bound nonzero inside => ?_⟩
  have perGroup : perGroupInodes (blkread wholeImage) = 16 := by decide +kernel
  have one : groupTotal (blkread wholeImage) = 1 := by decide +kernel
  have size : slotSize (blkread wholeImage) = 128 := by decide +kernel
  have table : inodeTable wholeImage 0 = 4 := by decide +kernel
  rw [perGroup, one] at inside
  have isFirst : (ino - 1) / 16 = 0 := Nat.lt_one_iff.mp inside
  rw [perGroup, size, isFirst, table]
  simp only [blkSz, pgSize]
  omega

/-- It is mounted and read at its own places. -/
theorem wholeImage_addressed : ∃ s, Returns ext2FsInit (unmounted (blkread wholeImage)) 0 s ∧
    Addressed wholeImage s :=
  (addressed_iff (BlkCache.boot_represents _ _) (Or.inl (mounts_of_eval (by decide +kernel)))).mpr
    wholeImage_right

/-- Images with blocks of 1024 bytes are accepted, and not all are read right. -/
theorem small_blocks_misread : ∃ (image : Nat → Byte) (s : Vfs),
    Returns ext2FsInit (unmounted (blkread image)) 0 s ∧ superField (blkread image) 24 4 = 0 ∧
      ∃ x < s.groupCount * 32,
        s.gbTable x ≠ image ((firstData (blkread image) + 1) * s.blockSize + x) := by
  obtain ⟨isLog, s, mounted, misread⟩ := narrowImage_misread (Or.inl rfl)
  exact ⟨narrowImage 0, s, mounted, isLog, misread⟩

end CuteCore.Fs
