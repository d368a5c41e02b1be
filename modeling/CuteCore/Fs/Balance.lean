import CuteCore.Fs.Brackets
import CuteCore.Fs.File

/-!
# Every function gives its buffers back

The number beside `loose` is the room a function needs: it holds at most that many
buffers at a time. Truncation needs most, an index block for each level and one more.

There is one lemma for each function, about every path through it: early returns, failed
allocations and the errors of what it calls. Each is put together from the brackets of its
reads. A function that loops over blocks holds no more buffers than one pass of its loop.
-/

namespace CuteCore.Fs

open Hoare Bytes BlkCache

namespace GivesBack

variable {loose : Nat → Nat → Prop} {room : Nat}

theorem findClear (bmap : Fin nBlkNum) (limit remaining index : Nat) :
    GivesBack loose room (Fs.findClear bmap limit remaining index) := by
  induction remaining generalizing index with
  | zero => exact pure _
  | succ remaining inductionHypothesis =>
    refine bind (loadBuf ..) fun byte => ?_
    split
    · exact pure _
    · exact inductionHypothesis _

theorem writeGdesc (g : Nat) : GivesBack loose (room + 1) (Fs.writeGdesc g) :=
  bind get fun _ => bind (loadSuper ..) fun _ => bread fun _ =>
    Bracket.copyBuf (Bracket.bwrite Bracket.brelse)

/-- The superblock is written in the buffer that stays held. -/
theorem storeSuper (off n value : Nat) : GivesBack loose room (do
    let s ← MonadState.get
    Fs.storeBuf s.sbBuf off n value
    Fs.bwrite s.sbBuf : FsProg Unit) := by
  constructor
  rintro s pending held ⟨view, io⟩ fits
  rw [avoids_bind]
  refine avoids_get.mpr ?_
  by_cases inside : off + n ≤ blkSz
  · refine avoids_seq (avoids_of_wp (io.storeBuf_spec io.super io.superHeld inside)) ?_
    rintro ⟨⟩ mid ⟨midIo, sameFs, kept⟩
    refine avoids_of_wp (wp_mono (Buffered.bwrite_spec ⟨_, midIo⟩ (kept _ _ io.super)) ?_)
    rintro ⟨⟩ after ⟨afterBuffered, kept'⟩
    refine ⟨afterBuffered.weaken ?_ io.rep.pendingHeld, KeepsBuffers.of_all held fun j m before =>
      kept' j m (kept j m before)⟩
    rintro m ⟨differs, isNo | mark⟩
    · exact absurd isNo differs
    · exact mark
  · rw [Fs.storeBuf, Fs.copyBuf, if_neg inside, avoids_bind]
    exact avoids_throw.mpr badAccess_allowed

theorem countFree (r : Resource) (g delta16 delta32 : Nat) :
    GivesBack loose (room + 1) (Fs.countFree r g delta16 delta32) :=
  bind (modify (fun _ => rfl) fun _ => rfl) fun _ => bind (writeGdesc g) fun _ =>
    bind (loadSuper ..) fun _ => storeSuper ..

theorem claimBit (bitmap limit : Nat) : GivesBack loose (room + 1) (Fs.claimBit bitmap limit) := by
  refine bread fun bmap => Bracket.step (findClear ..) fun found => ?_
  cases found with
  | none => exact Bracket.release (pure _)
  | some bit =>
    exact Bracket.step (loadBuf ..) fun _ => Bracket.storeBuf (Bracket.bwrite
      (Bracket.release (pure _)))

/-- The scan of the groups reads one bitmap at a time. -/
theorem allocFrom (r : Resource) (range : Nat → FsProg (Nat × Nat))
    (ranges : ∀ g, GivesBack loose (room + 1) (range g)) (remaining g : Nat) :
    GivesBack loose (room + 1) (Fs.allocFrom r range remaining g) := by
  induction remaining generalizing g with
  | zero => exact pure _
  | succ remaining inductionHypothesis =>
    refine bind get fun s => ite (fun _ => inductionHypothesis _) fun _ =>
      bind (ranges g) fun numbers => bind (claimBit ..) fun claimed => ?_
    cases claimed with
    | none => exact inductionHypothesis _
    | some bit => exact bind (countFree ..) fun _ => pure _

theorem blockRange (g : Nat) : GivesBack loose room (Fs.blockRange g) :=
  bind (loadSuper ..) fun _ => bind (loadSuper ..) fun _ => bind (loadSuper ..) fun _ => pure _

theorem inodeRange (g : Nat) : GivesBack loose room (Fs.inodeRange g) :=
  bind get fun _ => bind (loadSuper ..) fun _ => pure _

theorem ext2AllocBlock : GivesBack loose (room + 1) Fs.ext2AllocBlock :=
  bind get fun _ => bind (allocFrom _ _ blockRange _ _) fun _ => pure _

theorem ext2AllocInode : GivesBack loose (room + 1) Fs.ext2AllocInode :=
  bind get fun _ => bind (allocFrom _ _ inodeRange _ _) fun _ => pure _

theorem freeBit (r : Resource) (g bit : Nat) : GivesBack loose (room + 1) (Fs.freeBit r g bit) :=
  bind get fun _ => onlyIf (bread fun _ => Bracket.step (loadBuf ..) fun _ =>
    Bracket.storeBuf (Bracket.bwrite (Bracket.release (countFree ..))))

theorem ext2FreeBlock (blkNo : Nat) : GivesBack loose (room + 1) (Fs.ext2FreeBlock blkNo) :=
  bind (loadSuper ..) fun _ => bind (loadSuper ..) fun _ => onlyIf (freeBit ..)

theorem ext2FreeInode (ino : Nat) : GivesBack loose (room + 1) (Fs.ext2FreeInode ino) :=
  bind get fun _ => onlyIf (freeBit ..)

theorem ext2InodeLoc (ino : Nat) : GivesBack loose room (Fs.ext2InodeLoc ino) :=
  bind get fun _ => ite (fun _ => throw (by simp [CachePanic])) fun _ => pure _

theorem ext2ReadInode (p : Nat) : GivesBack loose (room + 1) (Fs.ext2ReadInode p) :=
  bind (derefInode p) fun _ => onlyIf (bind (ext2InodeLoc _) fun _ => bread fun _ =>
    Bracket.step (loadBuf ..) fun _ => Bracket.step (bufData _) fun _ =>
    Bracket.step (updateInode ..) fun _ => Bracket.brelse)

theorem ext2WriteInode (p : Nat) : GivesBack loose (room + 1) (Fs.ext2WriteInode p) :=
  bind (derefInode p) fun _ => ite (fun _ => pure _) fun _ => bind (ext2InodeLoc _) fun _ =>
    bread fun _ => Bracket.step get fun _ => Bracket.storeFields _ (Bracket.bwrite
      (Bracket.release (bind (updateInode ..) fun _ => pure _)))

theorem loadInode (ino : Nat) : GivesBack loose (room + 1) (Fs.loadInode ino) := by
  refine bind kmallocServed fun _ => ite (fun _ => pure _) fun _ => bind kmallocServed fun _ =>
    ite (fun _ => pure _) fun _ => ?_
  refine update
    (f := fun s => { s.setInode s.nextInode (newInode ino) with nextInode := s.nextInode + 1 })
    (fun _ => rfl) (fun _ => rfl) fun s => ?_
  exact bind (ext2ReadInode _) fun _ => bind (modify (fun _ => rfl) fun _ => rfl) fun _ => pure _

theorem ext2Iget (ino : Nat) : GivesBack loose (room + 1) (Fs.ext2Iget ino) := by
  refine ite (fun _ => pure _) fun _ => bind get fun s => ?_
  split
  · exact bind (addRef _) fun _ => pure _
  · exact loadInode ino

/-- A branch holds one index block for each of its levels. -/
theorem ext2FreeBranch (level blockNr : Nat) :
    GivesBack loose (room + level + 1) (Fs.ext2FreeBranch level blockNr) := by
  induction level generalizing blockNr with
  | zero => exact onlyIf (ext2FreeBlock _)
  | succ level inductionHypothesis =>
    exact onlyIf (bread fun _ => Bracket.step get fun _ => Bracket.step
      (forRange (fun _ => bind (loadBuf ..) fun _ => onlyIf (inductionHypothesis _)) _ _) fun _ =>
      Bracket.release (ext2FreeBlock _))

/-- Truncation needs room for four buffers: an index block for each of three levels, and a bitmap.
-/
theorem freeBranches (p : Nat) (slots : List (Fin nBlocks)) :
    GivesBack loose (room + 4) (Fs.freeBranches p slots) := by
  induction slots with
  | nil => exact pure _
  | cons slot slots inductionHypothesis =>
    have shallow : levelOf slot ≤ 3 := by
      have inside : slot.val < 15 := slot.isLt
      unfold levelOf
      omega
    have branch : ∀ blockNr, GivesBack loose (room + 4) (Fs.ext2FreeBranch (levelOf slot) blockNr) :=
      fun blockNr => (ext2FreeBranch (levelOf slot) blockNr).mono
        (Nat.add_le_add_left (Nat.succ_le_succ shallow) room)
    exact bind (derefInode p) fun _ => bind (branch _) fun _ => bind (updateInode ..) fun _ =>
      inductionHypothesis

theorem ext2TruncateInode (p : Nat) : GivesBack loose (room + 4) (Fs.ext2TruncateInode p) :=
  bind (freeBranches ..) fun _ => bind (updateInode ..) fun _ =>
    bind (ext2WriteInode p) fun _ => pure _

theorem iput (p : Nat) : GivesBack loose (room + 4) (Fs.iput p) := by
  have settle : GivesBack loose (room + 4) (settleInode p) :=
    bind (derefInode p) fun _ => ite (fun _ => bind (ext2TruncateInode p) fun _ => ext2FreeInode _)
      fun _ => onlyIf (bind (ext2WriteInode p) fun _ => pure _)
  refine bind (updateInode ..) fun _ => bind (derefInode p) fun _ => bind get fun _ =>
    ite (fun _ => pure _) fun _ => ite (fun _ => updateInode ..) fun _ => ?_
  exact bind settle fun _ => bind (modify (fun _ => rfl) fun _ => rfl) fun _ =>
    modify (fun _ => rfl) fun _ => rfl

theorem followPtrs (blkNo : Nat) (path : List Nat) :
    GivesBack loose (room + 1) (Fs.followPtrs blkNo path) := by
  induction path generalizing blkNo with
  | nil => exact pure _
  | cons i rest inductionHypothesis =>
    exact ite (fun _ => pure _) fun _ => bread fun _ => Bracket.step (loadBuf ..) fun _ =>
      Bracket.release (inductionHypothesis _)

theorem ext2ReadBlock (p lbk : Nat) (buf : ByteMap) :
    GivesBack loose (room + 1) (Fs.ext2ReadBlock p lbk buf) := by
  refine bind (derefInode p) fun inode => bind get fun s => ?_
  split
  · exact pure _
  · exact bind (followPtrs ..) fun _ => ite (fun _ => pure _) fun _ => bread fun _ =>
      Bracket.step (bufData _) fun _ => Bracket.release (pure _)

theorem clearBlock (blkNo : Nat) : GivesBack loose (room + 1) (Fs.clearBlock blkNo) :=
  bread fun _ => Bracket.step get fun _ => Bracket.clearBuf (Bracket.bwrite Bracket.brelse)

theorem ensureSlot (p : Nat) (slot : Fin nBlocks) (isIndex : Bool) :
    GivesBack loose (room + 1) (Fs.ensureSlot p slot isIndex) :=
  bind (derefInode p) fun _ => ite (fun _ => bind ext2AllocBlock fun _ => ite (fun _ => pure _)
    fun _ => bind (updateInode ..) fun _ => bind (onlyIf (clearBlock _)) fun _ => pure _)
    fun _ => pure _

/-- An index block is held while a block for it is allocated. -/
theorem ensurePtr (blkNo i : Nat) (isIndex : Bool) :
    GivesBack loose (room + 2) (Fs.ensurePtr blkNo i isIndex) :=
  bread fun _ => Bracket.step (loadBuf ..) fun _ => Bracket.ite
    (fun _ => Bracket.step ext2AllocBlock fun _ => Bracket.ite
      (fun _ => Bracket.release (pure _))
      fun _ => Bracket.storeBuf (Bracket.bwrite (Bracket.step (onlyIf (clearBlock _)) fun _ =>
        Bracket.step (loadBuf ..) fun _ => Bracket.release (pure _))))
    fun _ => Bracket.release (pure _)

theorem ensurePath (blkNo : Nat) (path : List Nat) :
    GivesBack loose (room + 2) (Fs.ensurePath blkNo path) := by
  induction path generalizing blkNo with
  | nil => exact pure _
  | cons i rest inductionHypothesis =>
    refine bind (ensurePtr ..) fun ptr => ?_
    cases ptr with
    | none => exact pure _
    | some ptr => exact inductionHypothesis ptr

/-- `ext2_write_block` needs room for two buffers: an index block, and what the allocation of a
block reads. -/
theorem ext2WriteBlock (p lbk : Nat) (buf : ByteMap) :
    GivesBack loose (room + 2) (Fs.ext2WriteBlock p lbk buf) := by
  refine bind get fun s => ?_
  split
  · exact pure _
  · refine bind (ensureSlot ..) fun top => ?_
    cases top with
    | none => exact pure _
    | some top =>
      refine bind (ensurePath ..) fun blkNo => ?_
      cases blkNo with
      | none => exact pure _
      | some blkNo =>
        exact bread fun _ => Bracket.copyBuf (Bracket.bwrite (Bracket.release (pure _)))

/-- The loop of `ext2_lookup` reads one block at a time. -/
theorem lookupFrom (p : Nat) (name : List Byte) (remaining lbk : Nat) :
    GivesBack loose (room + 1) (Fs.lookupFrom p name remaining lbk) := by
  induction remaining generalizing lbk with
  | zero => exact pure _
  | succ remaining inductionHypothesis =>
    refine bind get fun s => bind (ext2ReadBlock ..) fun block => ?_
    cases block with
    | none => exact inductionHypothesis _
    | some buf =>
      dsimp only
      split
      · exact pure _
      · exact inductionHypothesis _
      · exact throw badAccess_allowed

theorem ext2Lookup (p : Nat)
    (name : List Byte) : GivesBack loose (room + 1) (Fs.ext2Lookup p name) := by
  refine bind (derefInode p) fun dir => ite (fun _ => pure _) fun _ => bind get fun s =>
    bind (lookupFrom ..) fun found => ?_
  cases found with
  | none => exact pure _
  | some ino => exact ext2Iget ino

/-- The loop of `ext2_dir_add_entry` needs the room of the block write that stores a record. -/
theorem addFrom (p : Nat) (name : List Byte) (ino fileType remaining lbk : Nat) :
    GivesBack loose (room + 2) (Fs.addFrom p name ino fileType remaining lbk) := by
  induction remaining generalizing lbk with
  | zero => exact pure _
  | succ remaining inductionHypothesis =>
    refine bind get fun s => bind (ext2ReadBlock ..) fun block => ?_
    cases block with
    | none => exact inductionHypothesis _
    | some buf =>
      dsimp only
      split
      · exact inductionHypothesis _
      · exact ite (fun _ => throw badAccess_allowed) fun _ => bind (ext2WriteBlock ..) fun _ => pure _

theorem ext2DirAddEntry (p : Nat) (name : List Byte) (ino fileType : Nat) :
    GivesBack loose (room + 2) (Fs.ext2DirAddEntry p name ino fileType) := by
  refine bind (derefInode p) fun dir => bind get fun s => bind (addFrom ..) fun added => ?_
  cases added with
  | some written => exact pure _
  | none =>
    exact ite (fun _ => throw badAccess_allowed) fun _ => bind (ext2WriteBlock ..) fun _ =>
      ite (fun _ => pure _) fun _ => bind (updateInode ..) fun _ =>
      bind (ext2WriteInode p) fun _ => pure _

theorem ext2Create (dir : Nat) (name : List Byte) (mode : Nat) :
    GivesBack loose (room + 2) (Fs.ext2Create dir name mode) :=
  ite (fun _ => pure _) fun _ => bind ext2AllocInode fun _ =>
    ite (fun _ => pure _) fun _ => bind (ext2InodeLoc _) fun _ => bread fun _ =>
      Bracket.step get fun _ => Bracket.clearBuf (Bracket.storeBuf (Bracket.storeBuf
        (Bracket.bwrite (Bracket.release (bind (ext2DirAddEntry ..) fun _ =>
          ite (fun _ => bind (ext2FreeInode _) fun _ => pure _)
            fun _ => ext2Iget _)))))

theorem fillDirBlock (blkNo ino parent : Nat) :
    GivesBack loose (room + 1) (Fs.fillDirBlock blkNo ino parent) :=
  bread fun _ => Bracket.step get fun _ => Bracket.modifyData (Bracket.bwrite Bracket.brelse)

theorem countDir (ino : Nat) : GivesBack loose (room + 1) (Fs.countDir ino) :=
  bind get fun _ => bind (modify (fun _ => rfl) fun _ => rfl) fun _ => bread fun _ =>
    Bracket.storeBuf (Bracket.bwrite Bracket.brelse)

theorem dropLink (target : Nat) : GivesBack loose (room + 4) (Fs.dropLink target) := by
  refine bind (ext2Iget target) fun victim => ?_
  cases victim with
  | none => exact pure _
  | some v =>
    exact bind (updateInode ..) fun _ => bind (ext2WriteInode v) fun _ =>
      iput v

/-- The loop of `ext2_unlink` needs room for four buffers: those that the last `iput` of the target
holds. -/
theorem unlinkFrom (p : Nat) (name : List Byte) (remaining lbk : Nat) :
    GivesBack loose (room + 4) (Fs.unlinkFrom p name remaining lbk) := by
  induction remaining generalizing lbk with
  | zero => exact pure _
  | succ remaining inductionHypothesis =>
    refine bind get fun s => bind (ext2ReadBlock ..) fun block => ?_
    cases block with
    | none => exact inductionHypothesis _
    | some buf =>
      dsimp only
      split
      · exact inductionHypothesis _
      · exact throw badAccess_allowed
      · exact bind (ext2WriteBlock ..) fun _ => ite (fun _ => pure _) fun _ =>
          bind (dropLink _) fun _ => pure _

theorem ext2Unlink (dir : Nat) (name : List Byte) :
    GivesBack loose (room + 4) (Fs.ext2Unlink dir name) :=
  ite (fun _ => pure _) fun _ => bind (derefInode dir) fun _ => bind get fun _ => unlinkFrom ..

theorem readBlocks (p len budget total offset : Nat) (blockBuf out : ByteMap) :
    GivesBack loose (room + 1) (Fs.readBlocks p len budget total offset blockBuf out) := by
  induction budget generalizing total offset blockBuf out with
  | zero => exact pure _
  | succ budget inductionHypothesis =>
    refine ite (fun _ => bind get fun s => bind (ext2ReadBlock ..) fun block => ?_) fun _ => pure _
    cases block with
    | none => exact pure _
    | some blockBuf => exact inductionHypothesis ..

theorem ext2FileRead (p len offset : Nat) (out : ByteMap) :
    GivesBack loose (room + 1) (Fs.ext2FileRead p len offset out) :=
  bind get fun _ => ite (fun _ => pure _) fun _ => bind (derefInode p) fun _ =>
    ite (fun _ => pure _) fun _ => readBlocks ..

/-- The loop of `ext2_file_write` needs the room of one block write. -/
theorem writeBlocks (p len : Nat) (data : ByteMap) (budget total offset : Nat)
    (blockBuf : ByteMap) :
    GivesBack loose (room + 2) (Fs.writeBlocks p len data budget total offset blockBuf) := by
  induction budget generalizing total offset blockBuf with
  | zero => exact pure _
  | succ budget inductionHypothesis =>
    refine ite (fun _ => bind get fun s => bind (ext2ReadBlock ..)
      fun block => ?_) fun _ => pure _
    cases block with
    | none => exact pure _
    | some old =>
      exact bind (ext2WriteBlock ..) fun _ => ite (fun _ => pure _) fun _ => inductionHypothesis ..

theorem ext2FileWrite (p len offset : Nat) (data : ByteMap) :
    GivesBack loose (room + 2) (Fs.ext2FileWrite p len offset data) := by
  have grow : ∀ offset, GivesBack loose (room + 2) (growFile p offset) := fun offset =>
    bind (derefInode p) fun _ => bind (onlyIf (updateInode ..)) fun _ => bind (derefInode p) fun _ =>
      onlyIf (bind (ext2WriteInode p) fun _ => pure _)
  exact bind get fun _ => ite (fun _ => pure _) fun _ => ite (fun _ => pure _) fun _ =>
    bind (writeBlocks ..) fun _ => ite (fun _ => pure _) fun _ => bind (grow _) fun _ => pure _

/-- `bsync` -/
theorem bsync : GivesBack loose room (onCaches BlkCache.bsync) := by
  constructor
  rintro s pending held ⟨view, io⟩ fits
  refine avoids_of_wp (Io.onCaches_spec (wp_mono (BlkCache.bsync_spec io.rep) ?_))
  rintro - caches ⟨rep, same, -⟩
  have kept : ∀ j m, s.caches.Buffers j m → caches.Buffers j m :=
    fun j m before => ⟨(same j).1.trans before.1, (same j).2.1.trans before.2⟩
  exact ⟨⟨view, rep, kept _ _ io.super, io.superHeld⟩, KeepsBuffers.of_all held kept⟩

end GivesBack

end CuteCore.Fs
