import CuteCore.Fs.Blocks
import CuteCore.Fs.InodeRuns

/-!
# What a mount reads

A mount changes no block. From an empty cache it takes the fields of the
superblock, the descriptor table and the root inode as they are on disk, read by
blocks of the cache.

The geometry that later functions compute with is stated by the fields on disk, and the
descriptor table in memory by the blocks it was loaded from. These are facts about each
run of `ext2_fs_init` that returns 0, whatever the image holds, and the basis of the
results on what a mount accepts.
-/

namespace CuteCore.Fs

open Hoare Bytes BlkCache

/-- The cache shows the disk, and no buffer is changed. -/
abbrev Shown (s : Vfs) (disk : Nat → ByteMap) (held : Multiset Nat) : Prop :=
  Represents (fun _ => Eq) s.caches disk (fun _ => False) held

/-- The superblock's field of `n` bytes at `off`. -/
def superField (disk : Nat → ByteMap) (off n : Nat) : Nat := load (disk 0) (1024 + off) n

/-- The block of an inode's slot and the offset in it, as `ext2_inode_loc` computes them. -/
def Vfs.slotOf (s : Vfs) (ino : Nat) : Nat × Nat :=
  (u32 (s.groupField (sub32 ino 1 / s.inodePerGroup) 8 4 +
      u32 (sub32 ino 1 % s.inodePerGroup * s.inodeSize) / s.blockSize),
    u32 (sub32 ino 1 % s.inodePerGroup * s.inodeSize) % s.blockSize)

/-- The inode as its slot on disk describes it. -/
def HasSlot (disk : Nat → ByteMap) (s : Vfs) (inode : Inode) : Prop :=
  sub32 inode.ino 1 / s.inodePerGroup < s.groupCount ∧ ∃ blank : Inode, blank.ino = inode.ino ∧
    inode = blank.fromSlot (disk (s.slotOf inode.ino).1) (s.slotOf inode.ino).2

/-- The state right after a mount of this disk. -/
structure Mounted (disk : Nat → ByteMap) (s : Vfs) : Prop where
  shown : Shown s disk {0}
  buffers : s.caches.Buffers s.sbBuf 0
  log : superField disk 24 4 ≤ 2
  blockSize : s.blockSize = 1024 * 2 ^ superField disk 24 4
  perGroup : superField disk 32 4 ≠ 0
  inodesPerGroup : superField disk 40 4 ≠ 0
  groupCount : s.groupCount = u32 (sub32 (superField disk 4 4) (superField disk 20 4) +
    superField disk 32 4 + (2 ^ 32 - 1)) / superField disk 32 4
  someGroup : s.groupCount ≠ 0
  inodePerGroup : s.inodePerGroup = superField disk 40 4
  inodeSize : s.inodeSize = if 1 ≤ superField disk 76 4 then superField disk 88 2 else 128
  room : s.groupCount * 32 ≤ tableRoom
  table : ∀ x < s.groupCount * 32, s.gbTable x =
    disk (u32 (superField disk 20 4 + 1) + x / s.blockSize) (x % s.blockSize)
  root : s.inodeCache = [s.root] ∧
    ∃ inode, s.inodes s.root = some inode ∧ inode.ino = 2 ∧ HasSlot disk s inode

section Reading

variable {s : Vfs} {disk : Nat → ByteMap} {held : Multiset Nat}

/-- To read a block adds a reference and keeps what the buffers held show of the disk. -/
theorem wlp_bread (shown : Shown s disk held) (no : Nat) (room : Multiset.card held < nBlkNum) :
    wlp (Fs.bread no) (fun i after => Shown after disk (no ::ₘ held) ∧ SameFs s after ∧
      after.caches.Buffers i no ∧
      ∀ j m, m ∈ held → s.caches.Buffers j m → after.caches.Buffers j m) s := by
  have few : held.toFinset.card < nBlkNum := Nat.lt_of_le_of_lt (Multiset.toFinset_card_le _) room
  refine wlp_of_wp (Io.onCaches_spec (wp_mono (BlkCache.bread_spec shown no (Or.inr few)
    (BlkCache.count_fits held room no)) ?_))
  rintro i caches ⟨buffers, rep, kept⟩
  refine ⟨rep, rfl, buffers, fun j m member before => ?_⟩
  have references := shown.refcnt_pos j m before member
  obtain ⟨valid, number, -⟩ := kept j (by omega)
  exact ⟨valid.trans before.1, number.trans before.2⟩

theorem wlp_bufData (shown : Shown s disk held) {i : Fin nBlkNum} {no : Nat}
    (buffers : s.caches.Buffers i no) :
    wlp (bufData i) (fun data after => data = disk no ∧ after = s) s := by
  rw [bufData, wlp_bind, wlp_get, wlp_pure]
  have data := shown.data i buffers.1
  rw [buffers.2] at data
  exact ⟨data, rfl⟩

theorem wlp_loadBuf (shown : Shown s disk held) {i : Fin nBlkNum} {no off n : Nat}
    (buffers : s.caches.Buffers i no) :
    wlp (loadBuf i off n) (fun value after => value = load (disk no) off n ∧ after = s) s := by
  rw [loadBuf, wlp_ite]
  split
  · refine wlp_seq (wlp_bufData shown buffers) ?_
    rintro data _ ⟨rfl, rfl⟩
    exact wlp_pure.mpr ⟨rfl, rfl⟩
  · exact wlp_throw.mpr trivial

theorem wlp_brelse {no : Nat} (shown : Shown s disk (no ::ₘ held)) {i : Fin nBlkNum}
    (buffers : s.caches.Buffers i no) :
    wlp (Fs.brelse i) (fun _ after => Shown after disk held ∧ SameFs s after ∧
      ∀ j m, s.caches.Buffers j m → after.caches.Buffers j m) s := by
  refine wlp_of_wp (Io.onCaches_spec (wp_mono (BlkCache.brelse_spec shown i no buffers
    (Multiset.mem_cons_self ..) fun no => no.elim) ?_))
  rintro - caches ⟨still, rep, -, others⟩
  rw [Multiset.erase_cons_head] at rep
  exact ⟨rep, rfl, buffers_kept buffers still others⟩

theorem wlp_kmallocServed : wlp kmallocServed (fun _ after =>
    after = { s with requests := s.requests + 1 }) s := by
  rw [kmallocServed, wlp_bind, wlp_get, wlp_bind, wlp_set, wlp_pure]

theorem wlp_inodeLoc (ino : Nat) :
    wlp (ext2InodeLoc ino) (fun loc after => loc = s.slotOf ino ∧ after = s ∧
      sub32 ino 1 / s.inodePerGroup < s.groupCount) s := by
  rw [ext2InodeLoc, wlp_bind, wlp_get, wlp_ite]
  split
  · exact wlp_throw.mpr trivial
  · rename_i inside
    exact wlp_pure.mpr ⟨rfl, rfl, Nat.not_le.mp inside⟩

/-- The loop over the descriptor table. Byte `x` comes from the block that many blocks
behind the first one, and a loop that ends has stayed in the room of the table. -/
theorem loadTable_spec (shown : Shown s disk held) (room : Multiset.card held < nBlkNum)
    {blockSize size budget copied gdtBlk : Nat} (positive : 0 < blockSize)
    (enough : size ≤ copied + budget) :
    wlp (loadTable blockSize size budget copied gdtBlk) (fun _ after => Shown after disk held ∧
      (∀ j m, m ∈ held → s.caches.Buffers j m → after.caches.Buffers j m) ∧
      after = { s with caches := after.caches, gbTable := after.gbTable } ∧
      (copied < size → size ≤ tableRoom) ∧
      ∀ x, after.gbTable x = if copied ≤ x ∧ x < size then
          disk (gdtBlk + (x - copied) / blockSize) ((x - copied) % blockSize)
        else s.gbTable x) s := by
  have unchanged : size ≤ copied → (Shown s disk held ∧
      (∀ j m, m ∈ held → s.caches.Buffers j m → s.caches.Buffers j m) ∧
      s = { s with caches := s.caches, gbTable := s.gbTable } ∧
      (copied < size → size ≤ tableRoom) ∧
      ∀ x, s.gbTable x = if copied ≤ x ∧ x < size then
          disk (gdtBlk + (x - copied) / blockSize) ((x - copied) % blockSize)
        else s.gbTable x) := by
    intro complete
    refine ⟨shown, fun _ _ _ before => before, rfl, fun more => by omega, fun x => ?_⟩
    rw [if_neg]
    omega
  induction budget generalizing s copied gdtBlk with
  | zero => exact wlp_pure.mpr (unchanged (by omega))
  | succ budget inductionHypothesis =>
    rw [loadTable, wlp_onlyIf]
    split
    · rename_i more
      refine wlp_seq (wlp_bread shown gdtBlk room) ?_
      rintro cache read ⟨readShown, sameRead, buffers, keptRead⟩
      refine wlp_seq (wlp_bufData readShown buffers) ?_
      intro data same isData
      obtain ⟨chunk, isChunk⟩ : ∃ chunk, chunk = min (size - copied) blockSize := ⟨_, rfl⟩
      rw [isData.1, isData.2, ← isChunk, wlp_ite]
      split
      · exact wlp_throw.mpr trivial
      rename_i fits
      rw [wlp_bind, wlp_modify]
      have copiedShown : Shown { read with gbTable := copy read.gbTable copied chunk (disk gdtBlk) }
        disk (gdtBlk ::ₘ held) := readShown
      refine wlp_seq (wlp_brelse copiedShown buffers) ?_
      rintro - mid ⟨midShown, sameMid, keptMid⟩
      have table : mid.gbTable = copy s.gbTable copied chunk (disk gdtBlk) := by
        unfold SameFs at sameMid sameRead
        rw [← sameMid, ← sameRead]
      have isMid : mid = { s with caches := mid.caches, gbTable := mid.gbTable } := by
        unfold SameFs at sameMid sameRead
        rw [← sameMid, ← sameRead]
      refine wlp_mono (@inductionHypothesis mid midShown (copied + chunk) (gdtBlk + 1)
        (by omega) ?_) ?_
      · intro complete
        refine ⟨midShown, fun _ _ _ before => before, rfl, fun more => by omega, fun x => ?_⟩
        rw [if_neg]
        omega
      · rintro - after ⟨afterShown, kept, isAfter, room', bytes⟩
        refine ⟨afterShown, fun j m member before => kept j m member (keptMid j m
          (keptRead j m member before)), ?_, fun _ => by omega, fun x => ?_⟩
        · rw [isAfter, isMid]
        · rw [bytes, table, copy]
          by_cases here : copied ≤ x ∧ x < copied + chunk
          · have quotient : (x - copied) / blockSize = 0 := Nat.div_eq_of_lt (by omega)
            have remainder : (x - copied) % blockSize = x - copied := Nat.mod_eq_of_lt (by omega)
            rw [if_neg (by omega), if_pos here, if_pos (by omega), quotient, remainder, Nat.add_zero]
          · by_cases later : copied + chunk ≤ x ∧ x < size
            · have full : chunk = blockSize := by omega
              have split : x - copied = x - (copied + chunk) + blockSize := by omega
              rw [if_pos later, if_pos (by omega), split, Nat.add_div_right _ positive,
                Nat.add_mod_right, Nat.add_assoc, Nat.add_comm 1]
            · rw [if_neg later, if_neg here, if_neg (by omega)]
    · rename_i complete
      exact unchanged (by omega)

end Reading

/-- Only buffers and inode objects differ. -/
def SameLayout (s after : Vfs) : Prop :=
  after = { s with
    caches := after.caches
    root := after.root
    inodes := after.inodes
    inodeCache := after.inodeCache
    icacheSize := after.icacheSize
    nextInode := after.nextInode
    requests := after.requests }

theorem SameLayout.trans {s mid after : Vfs} (first : SameLayout s mid)
    (second : SameLayout mid after) :
    SameLayout s after := by
  unfold SameLayout at *
  rw [second, first]

theorem SameLayout.of_sameFs {s after : Vfs} (same : SameFs s after) : SameLayout s after := by
  unfold SameLayout
  unfold SameFs at same
  rw [← same]

theorem SameLayout.slotOf {s after : Vfs} (same : SameLayout s after) (ino : Nat) :
    after.slotOf ino = s.slotOf ino := by
  unfold SameLayout at same
  rw [same]
  rfl

theorem SameLayout.hasSlot {s after : Vfs} {disk : Nat → ByteMap} {inode : Inode}
    (same : SameLayout s after) : HasSlot disk after inode ↔ HasSlot disk s inode := by
  rw [HasSlot, HasSlot, same.slotOf]
  unfold SameLayout at same
  rw [same]

section Inodes

variable {s : Vfs} {disk : Nat → ByteMap} {held : Multiset Nat}

/-- `ext2_read_inode` fills an object in from its slot. -/
theorem wlp_readInode (shown : Shown s disk held) (room : Multiset.card held < nBlkNum) {p : Nat}
    {blank : Inode} (found : s.inodes p = some blank) (empty : blank.valid = false) :
    wlp (ext2ReadInode p) (fun _ after => Shown after disk held ∧
      (∀ j m, m ∈ held → s.caches.Buffers j m → after.caches.Buffers j m) ∧ SameLayout s after ∧
      after.inodeCache = s.inodeCache ∧ sub32 blank.ino 1 / s.inodePerGroup < s.groupCount ∧
      after.inodes = Function.update s.inodes p
        (some (blank.fromSlot (disk (s.slotOf blank.ino).1) (s.slotOf blank.ino).2))) s := by
  rw [ext2ReadInode, wlp_bind, wlp_derefInode]
  intro inode isInode
  obtain rfl : inode = blank := Option.some.inj (isInode.symm.trans found)
  rw [wlp_onlyIf, if_pos empty]
  refine wlp_seq (wlp_inodeLoc _) ?_
  intro loc mid located
  rw [located.1, located.2.1]
  refine wlp_seq (wlp_bread shown _ room) ?_
  rintro cache read ⟨readShown, sameRead, buffers, keptRead⟩
  refine wlp_seq (wlp_loadBuf readShown buffers) ?_
  intro value mid loaded
  rw [loaded.2]
  refine wlp_seq (wlp_bufData readShown buffers) ?_
  intro data mid isData
  rw [isData.1, isData.2, wlp_bind, wlp_updateInode]
  have sameInodes : read.inodes = s.inodes := by
    unfold SameFs at sameRead
    rw [← sameRead]
  have sameCached : read.inodeCache = s.inodeCache := by
    unfold SameFs at sameRead
    rw [← sameRead]
  intro inode' isInode'
  obtain rfl : inode' = inode := by
    rw [sameInodes, found] at isInode'
    exact (Option.some.inj isInode').symm
  have filled : Shown (read.setInode p (inode'.fromSlot (disk (s.slotOf inode'.ino).1)
      (s.slotOf inode'.ino).2)) disk ((s.slotOf inode'.ino).1 ::ₘ held) := readShown
  refine wlp_mono (wlp_brelse filled buffers) ?_
  rintro - after ⟨afterShown, sameAfter, keptAfter⟩
  refine ⟨afterShown, fun j m member before => keptAfter j m (keptRead j m member before), ?_, ?_,
    located.2.2, ?_⟩
  · refine (SameLayout.of_sameFs sameRead).trans (SameLayout.trans ?_ (SameLayout.of_sameFs sameAfter))
    rfl
  · unfold SameFs at sameAfter
    rw [← sameAfter]
    exact sameCached
  · unfold SameFs at sameAfter
    rw [← sameAfter]
    change Function.update read.inodes p _ = _
    rw [sameInodes]

/-- An inode that is not cached is read from its slot. -/
theorem wlp_loadInode (shown : Shown s disk held) (room : Multiset.card held < nBlkNum)
    (ino : Nat) :
    wlp (loadInode ino) (fun r after => ∀ p, r = some p → Shown after disk held ∧
      (∀ j m, m ∈ held → s.caches.Buffers j m → after.caches.Buffers j m) ∧ SameLayout s after ∧
      after.inodeCache = p :: s.inodeCache ∧
      ∃ inode, after.inodes p = some inode ∧ inode.ino = ino ∧ HasSlot disk s inode) s := by
  rw [loadInode]
  refine wlp_seq wlp_kmallocServed ?_
  rintro inodeServed _ rfl
  rw [wlp_ite]
  split
  · exact wlp_pure.mpr fun p no => by cases no
  refine wlp_seq wlp_kmallocServed ?_
  rintro infoServed _ rfl
  rw [wlp_ite]
  split
  · exact wlp_pure.mpr fun p no => by cases no
  rw [wlp_bind, wlp_get, wlp_bind, wlp_set]
  -- The object before its slot is read.
  obtain ⟨made, isMade⟩ : ∃ made : Vfs, made = { s with
      inodes := Function.update s.inodes s.nextInode (some (newInode ino))
      nextInode := s.nextInode + 1
      requests := s.requests + 1 + 1 } := ⟨_, rfl⟩
  have madeShown : Shown made disk held := by
    rw [isMade]
    exact shown
  have layout : SameLayout s made := by
    rw [isMade]
    rfl
  change wlp _ _ { s with
      inodes := Function.update s.inodes s.nextInode (some (newInode ino))
      nextInode := s.nextInode + 1
      requests := s.requests + 1 + 1 }
  rw [← isMade]
  have found : made.inodes s.nextInode = some (newInode ino) := by
    rw [isMade]
    exact Function.update_self ..
  refine wlp_seq (wlp_readInode madeShown room found rfl) ?_
  rintro - after ⟨afterShown, kept, sameLayout, sameCached, accepted, isInodes⟩
  rw [wlp_bind, wlp_modify, wlp_pure]
  rintro p isP
  obtain rfl := Option.some.inj isP
  refine ⟨afterShown, ?_, ?_, ?_, ?_⟩
  · intro j m member before
    refine kept j m member ?_
    rw [isMade]
    exact before
  · exact (layout.trans sameLayout).trans rfl
  · change s.nextInode :: after.inodeCache = _
    rw [sameCached, isMade]
  · rw [isMade] at accepted
    refine ⟨(newInode ino).fromSlot (disk (s.slotOf ino).1) (s.slotOf ino).2, ?_, rfl,
      accepted, newInode ino, rfl, rfl⟩
    change after.inodes s.nextInode = _
    rw [isInodes, layout.slotOf, show (newInode ino).ino = ino from rfl]
    exact Function.update_self ..

end Inodes

/-- The last steps of a mount: the root is read, and everything else stays. -/
theorem mountRoot_reads {s : Vfs} {disk : Nat → ByteMap} (shown : Shown s disk {0})
    (cache : Fin nBlkNum) :
    wlp (mountRoot cache) (fun result after => result = 0 → Shown after disk {0} ∧
      (∀ j, s.caches.Buffers j 0 → after.caches.Buffers j 0) ∧ SameLayout s after ∧
      after.inodeCache = [after.root] ∧
      ∃ inode, after.inodes after.root = some inode ∧ inode.ino = 2 ∧ HasSlot disk s inode) s := by
  rw [mountRoot, wlp_bind, wlp_modify, wlp_bind, ext2Iget, if_neg (by decide), wlp_bind, wlp_get]
  rw [Vfs.findCached, List.find?_nil]
  obtain ⟨fresh, isFresh⟩ : ∃ fresh : Vfs, fresh = { s with inodeCache := [], icacheSize := 0 } :=
    ⟨_, rfl⟩
  rw [← isFresh]
  have freshShown : Shown fresh disk {0} := by
    rw [isFresh]
    exact shown
  have layout : SameLayout s fresh := by
    rw [isFresh]
    rfl
  refine wlp_mono (wlp_loadInode freshShown (by rw [Multiset.card_singleton]; decide) 2) ?_
  intro r mid loaded
  cases r with
  | none => exact wlp_bind.mpr fun _ _ _ => wlp_pure.mpr fun no => by cases no
  | some p =>
    obtain ⟨midShown, kept, same, cached, inode, found, isIno, hasSlot⟩ := loaded p rfl
    rw [wlp_bind, wlp_modify, wlp_pure]
    intro _
    refine ⟨midShown, fun j before => ?_, (layout.trans same).trans rfl, ?_, inode, found, isIno,
      layout.hasSlot.mp hasSlot⟩
    · refine kept j 0 (Multiset.mem_singleton_self 0) ?_
      rw [isFresh]
      exact before
    · change mid.inodeCache = [p]
      rw [cached, isFresh]

/-- A mount that succeeds leaves this state, over any disk. -/
theorem mount_reads {s : Vfs} {disk : Nat → ByteMap} (shown : Shown s disk 0) :
    wlp ext2FsInit (fun result after => result = 0 → Mounted disk after) s := by
  have failed : ∀ {mid : Vfs} (cache : Fin nBlkNum) (code : Int), code ≠ 0 →
      wlp (do
        Fs.brelse cache
        return code) (fun result after => result = 0 → Mounted disk after) mid :=
    fun cache code nonzero => wlp_bind.mpr fun _ _ _ => wlp_pure.mpr fun isZero =>
      absurd isZero nonzero
  rw [ext2FsInit]
  refine wlp_seq (wlp_bread shown 0 (by rw [Multiset.card_zero]; decide)) ?_
  rintro cache read ⟨readShown, -, buffers, -⟩
  refine wlp_seq (wlp_loadBuf readShown buffers) ?_
  intro magic mid loaded
  rw [loaded.2, wlp_ite]
  split
  · exact failed cache (-2) (by decide)
  refine wlp_seq wlp_kmallocServed ?_
  rintro infoServed started isStarted
  have startedShown : Shown started disk {0} := by
    rw [isStarted]
    exact readShown
  have superBuffer : started.caches.Buffers cache 0 := by
    rw [isStarted]
    exact buffers
  -- The fields of the superblock are read from its buffer.
  refine wlp_seq (wlp_loadBuf startedShown superBuffer) fun log mid isLog => ?_
  rw [isLog.1, isLog.2]
  refine wlp_seq (wlp_loadBuf startedShown superBuffer) fun perGroup mid isPerGroup => ?_
  rw [isPerGroup.1, isPerGroup.2]
  refine wlp_seq (wlp_loadBuf startedShown superBuffer) fun inodes mid isInodes => ?_
  rw [isInodes.1, isInodes.2]
  refine wlp_seq (wlp_loadBuf startedShown superBuffer) fun count mid isCount => ?_
  rw [isCount.1, isCount.2]
  refine wlp_seq (wlp_loadBuf startedShown superBuffer) fun first mid isFirst => ?_
  rw [isFirst.1, isFirst.2]
  refine wlp_seq (wlp_loadBuf startedShown superBuffer) fun revision mid isRevision => ?_
  rw [isRevision.1, isRevision.2]
  refine wlp_seq (wlp_loadBuf startedShown superBuffer) fun size mid isSize => ?_
  rw [isSize.1, isSize.2, wlp_ite]
  split
  · exact failed cache (-1) (by decide)
  rename_i legal
  simp only [not_or, Nat.not_lt] at legal
  obtain ⟨-, log, perGroup, inodesPerGroup, someGroup⟩ := legal
  refine wlp_seq wlp_kmallocServed ?_
  rintro tableServed served isServed
  rw [wlp_ite]
  split
  · exact failed cache (-1) (by decide)
  have servedShown : Shown served disk {0} := by
    rw [isServed]
    exact startedShown
  have servedBuffer : served.caches.Buffers cache 0 := by
    rw [isServed]
    exact superBuffer
  refine wlp_seq (loadTable_spec servedShown (by rw [Multiset.card_singleton]; decide)
    (Nat.mul_pos (by decide) (Nat.two_pow_pos _)) (Nat.le_of_eq (Nat.zero_add _).symm)) ?_
  rintro - filled ⟨filledShown, keptFilled, -, room, bytes⟩
  rw [wlp_bind, wlp_modify]
  refine wlp_mono (mountRoot_reads (s := { filled with
    blockSize := _, groupCount := _, inodeSize := _, inodePerGroup := _, sbBuf := cache })
    filledShown cache) ?_
  intro result after ends isZero
  obtain ⟨afterShown, kept, layout, cached, inode, found, isIno, hasSlot⟩ := ends isZero
  have hasSlot' := layout.hasSlot.mpr hasSlot
  have isBuffer := kept cache (keptFilled cache 0 (Multiset.mem_singleton_self 0) servedBuffer)
  unfold SameLayout at layout
  refine ⟨afterShown, ?_, log, ?_, perGroup, inodesPerGroup, ?_, ?_, ?_, ?_, ?_, ?_, cached, inode,
    found, isIno, hasSlot'⟩
  · rw [layout]
    exact isBuffer
  · rw [layout]
    rfl
  · rw [layout]
    rfl
  · rw [layout]
    exact someGroup
  · rw [layout]
    rfl
  · rw [layout]
    rfl
  · rw [layout]
    exact room (Nat.mul_pos (Nat.pos_of_ne_zero someGroup) (by decide))
  · rw [layout]
    intro x inside
    have isByte := bytes x
    rw [if_pos ⟨Nat.zero_le x, inside⟩, Nat.sub_zero] at isByte
    exact isByte

/-- After a mount the cache shows the disk, and the superblock is the only buffer held. -/
theorem Mounted.io {loose : Nat → Nat → Prop} {disk : Nat → ByteMap} {s : Vfs}
    (mounted : Mounted disk s) : Io loose s disk (fun _ => False) {0} := by
  have rep := mounted.shown
  exact ⟨⟨rep.distinct, rep.counted, rep.cached,
    fun i valid x _ => congrFun (rep.data i valid) x,
    fun i valid clean settled x _ => congrFun (rep.clean i valid clean settled) x,
    fun no absent x _ => congrFun (rep.absent no absent) x, rep.pendingHeld⟩,
    mounted.buffers, Multiset.mem_singleton_self 0⟩

end CuteCore.Fs
