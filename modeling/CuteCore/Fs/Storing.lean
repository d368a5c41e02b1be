import CuteCore.Fs.OpenFile
import CuteCore.Fs.Owners
import CuteCore.Library.ByteFiles

/-!
# What a write stores

Position by position, the files after `ext2_file_write`: the bytes the call stored are
in one file, every other byte of every file is the old one. A call that runs out of
blocks has stored a front part of its data, and the size stays.
-/

namespace CuteCore.Fs

open Hoare Bytes BlkCache ByteFiles

section

variable {groups : Groups} {loose : Nat → Nat → Prop} {s : Vfs} {view : Nat → ByteMap}
  {held : Multiset Nat} {p : Nat} {inode : Inode}

/-- The bytes of the file after a chunk was stored in one block. -/
theorem chunk_bytes {offset chunk : Nat} {after : Vfs} {view' : Nat → ByteMap} {inode' : Inode}
    {blockBuf old : ByteMap} {source : ByteMap} {written : Prop}
    (grew : Grew groups loose held p (fun slot path => written ∧
      blockPath groups.blockSize (offset / groups.blockSize) = some (slot, path)) s view inode after view' inode')
    (found : fileBlock view groups.blockSize inode (offset / groups.blockSize) = some old)
    (stored : ∃ before, fileBlock view' groups.blockSize inode' (offset / groups.blockSize) =
      some (copy before 0 groups.blockSize (copy (copy blockBuf 0 groups.blockSize old) (offset % groups.blockSize) chunk source)))
    (inside : offset % groups.blockSize + chunk ≤ groups.blockSize) :
    fileByte view' groups.blockSize inode' = overlay (fileByte view groups.blockSize inode) offset chunk source := by
  funext pos
  rw [fileByte]
  by_cases isBlock : pos / groups.blockSize = offset / groups.blockSize
  · obtain ⟨before, isData⟩ := stored
    have inBlock : pos % groups.blockSize < groups.blockSize := Nat.mod_lt _ groups.sized.small.1
    have was : fileByte view groups.blockSize inode pos = old (pos % groups.blockSize) := by
      rw [fileByte, isBlock, found]
      rfl
    rw [isBlock, isData]
    change copy before 0 groups.blockSize _ (pos % groups.blockSize) = _
    rw [copy_inside _ _ _ _ _ (Nat.zero_le _) (by omega), Nat.sub_zero]
    have divided := Nat.div_add_mod pos groups.blockSize
    have dividedOffset := Nat.div_add_mod offset groups.blockSize
    rw [isBlock] at divided
    by_cases isNew : offset ≤ pos ∧ pos < offset + chunk
    · rw [copy_inside _ _ _ _ _ (by omega) (by omega), overlay, if_pos isNew]
      congr 1
      omega
    · rw [copy_outside _ _ _ _ _ (by omega), copy_inside _ _ _ _ _ (Nat.zero_le _) (by omega),
        Nat.sub_zero, overlay, if_neg isNew, was]
  · have outside : ¬ (offset ≤ pos ∧ pos < offset + chunk) := by
      rintro ⟨low, high⟩
      have least : offset / groups.blockSize ≤ pos / groups.blockSize := Nat.div_le_div_right low
      have most : pos / groups.blockSize < offset / groups.blockSize + 1 := by
        apply Nat.div_lt_of_lt_mul
        rw [Nat.mul_add, Nat.mul_one]
        have divided := Nat.div_add_mod offset groups.blockSize
        omega
      omega
    rw [overlay, if_neg outside, fileByte, grew.fileBlock]
    rintro slot path isPos ⟨-, isOffset⟩
    exact isBlock (blockPath_injective isPos isOffset)

/-- One file has this size and these bytes. All others are as they were. -/
structure Stores (groups : Groups) (loose : Nat → Nat → Prop) (held : Multiset Nat) (p size : Nat)
    (byte : Nat → Byte) (s : Vfs) (view : Nat → ByteMap) (inode : Inode) (after : Vfs)
    (view' : Nat → ByteMap) (inode' : Inode) : Prop where
  owners : Owners groups loose after view' held
  isInode : after.inodes p = some inode'
  type : inode'.type = inode.type
  size : inode'.size = size
  bytes : fileByte view' groups.blockSize inode' = byte
  backed : ∀ lbk, HasBlock groups.blockSize view inode lbk → HasBlock groups.blockSize view' inode' lbk
  inodes : ∀ q, q ≠ p → after.inodes q = s.inodes q
  others : ∀ q other, q ≠ p → s.inodes q = some other →
    fileByte view' groups.blockSize other = fileByte view groups.blockSize other ∧
      ∀ lbk, HasBlock groups.blockSize view other lbk → HasBlock groups.blockSize view' other lbk

namespace Stores

theorem refl (owners : Owners groups loose s view held) (isInode : s.inodes p = some inode) :
    Stores groups loose held p inode.size (fileByte view groups.blockSize inode) s view inode s view inode :=
  ⟨owners, isInode, rfl, rfl, rfl, fun _ => id, fun _ _ => rfl, fun _ _ _ _ => ⟨rfl, fun _ => id⟩⟩

variable {size size' : Nat} {byte byte' : Nat → Byte} {mid after : Vfs}
  {view' view'' : Nat → ByteMap} {inode' inode'' : Inode}

/-- Two writes to a file one after the other store what both store, the later one on top. -/
theorem trans (first : Stores groups loose held p size byte s view inode mid view' inode')
    (second : Stores groups loose held p size' byte' mid view' inode' after view'' inode'') :
    Stores groups loose held p size' byte' s view inode after view'' inode'' := by
  constructor
  · exact second.owners
  · exact second.isInode
  · exact second.type.trans first.type
  · exact second.size
  · exact second.bytes
  · exact fun lbk hasBlock => second.backed lbk (first.backed lbk hasBlock)
  · intro q differs
    rw [second.inodes q differs, first.inodes q differs]
  · intro q other differs isOther
    obtain ⟨bytes, backed⟩ := first.others q other differs isOther
    obtain ⟨bytes', backed'⟩ := second.others q other differs (by
      rw [first.inodes q differs]
      exact isOther)
    exact ⟨bytes'.trans bytes, fun lbk hasBlock => backed' lbk (backed lbk hasBlock)⟩

/-- Blocks were added to the file, or stored in it. -/
theorem of_grew {hit : Fin nBlocks → List Nat → Prop} (owners : Owners groups loose s view held)
    (isInode : s.inodes p = some inode)
    (grew : Grew groups loose held p hit s view inode after view' inode')
    (framed : Framed groups hit s view inode view' inode') :
    Stores groups loose held p inode.size (fileByte view' groups.blockSize inode') s view inode after view'
      inode' := by
  have fields := grew.fields
  constructor
  · exact owners.grew isInode grew framed
  · exact grew.file.isInode
  · rw [fields]
  · rw [fields]
  · rfl
  · exact fun lbk hasBlock => grew.hasBlock hasBlock
  · exact grew.inodes
  · intro q other differs isOther
    constructor
    · funext pos
      rw [fileByte, fileByte, framed.fileBlock owners isInode isOther differs]
    · rintro lbk ⟨slot, path, found, isBlock⟩
      refine ⟨slot, path, found, ?_⟩
      rw [framed.foreignPtr owners isInode isOther differs slot path (blockPath_isNode found).1]
      exact isBlock

end Stores

/-- The buffers change only. -/
theorem Owners.same (owners : Owners groups loose s view held) {after : Vfs}
    (io : Io loose after view (fun _ => False) held) (unchanged : SameFs s after) :
    Owners groups loose after view held := by
  have inodes := unchanged.inodes
  constructor
  · intro q other isOther
    rw [inodes] at isOther
    exact ((owners.files q other isOther).same (fun _ _ => False) io unchanged).file
  · intro q other q' other' isOther isOther'
    rw [inodes] at isOther isOther'
    exact owners.apart q other q' other' isOther isOther'

/-- The object of an inode gets another size or mark. -/
theorem Owners.setInode (owners : Owners groups loose s view held)
    (isInode : s.inodes p = some inode)
    {inode' : Inode} (ino : inode'.ino = inode.ino) (valid : inode'.valid = inode.valid)
    (top : inode'.iBlock = inode.iBlock) : Owners groups loose (s.setInode p inode') view held := by
  have file := (owners.files p inode isInode).setInode ino valid top
  have pointers : ∀ slot path, ptrAt view inode' slot path = ptrAt view inode slot path := by
    intro slot path
    rw [ptrAt, ptrAt, top]
  -- An inode of the new state has the blocks of one of the old state.
  have was : ∀ q other, (s.setInode p inode').inodes q = some other → ∃ old,
      s.inodes q = some old ∧ ∀ slot path, ptrAt view other slot path = ptrAt view old slot path := by
    intro q other isOther
    by_cases isP : q = p
    · subst isP
      obtain rfl := Option.some.inj (file.isInode.symm.trans isOther)
      exact ⟨inode, isInode, pointers⟩
    · refine ⟨other, ?_, fun _ _ => rfl⟩
      rw [← isOther]
      exact (Function.update_of_ne isP _ _).symm
  constructor
  · intro q other isOther
    by_cases isP : q = p
    · subst isP
      obtain rfl := Option.some.inj (file.isInode.symm.trans isOther)
      exact file
    · have isOther' : s.inodes q = some other := by
        rw [← isOther]
        exact (Function.update_of_ne isP _ _).symm
      have before := owners.files q other isOther'
      constructor
      · exact before.fs.setInode p inode'
      · exact isOther
      · exact before.valid
      · exact before.number
      · intro slot path isNode isBlock
        obtain ⟨used, notMetadata, notTable⟩ := before.owned slot path isNode isBlock
        exact ⟨used, notMetadata, notTable⟩
      · exact before.distinct
  · intro q other q' other' isOther isOther' differs slot path slot' path' isNode isNode' isBlock
    obtain ⟨old, isOld, same⟩ := was q other isOther
    obtain ⟨old', isOld', same'⟩ := was q' other' isOther'
    rw [same] at isBlock ⊢
    rw [same']
    exact owners.apart q old q' old' isOld isOld' differs slot path slot' path' isNode isNode'
      isBlock

/-- The object of the inode gets this size. -/
theorem Owners.resized (owners : Owners groups loose s view held)
    (isInode : s.inodes p = some inode) {inode' : Inode} (ino : inode'.ino = inode.ino)
    (valid : inode'.valid = inode.valid) (type : inode'.type = inode.type)
    (top : inode'.iBlock = inode.iBlock) :
    Stores groups loose held p inode'.size (fileByte view groups.blockSize inode) s view inode
      (s.setInode p inode') view inode' := by
  have pointers : ∀ slot path, ptrAt view inode' slot path = ptrAt view inode slot path := by
    intro slot path
    rw [ptrAt, ptrAt, top]
  constructor
  · exact owners.setInode isInode ino valid top
  · exact Function.update_self ..
  · exact type
  · rfl
  · funext pos
    rw [fileByte, fileByte, fileBlock_congr top fun _ _ _ _ => rfl]
  · rintro lbk ⟨slot, path, found, isBlock⟩
    exact ⟨slot, path, found, by rwa [pointers]⟩
  · exact fun q differs => Function.update_of_ne differs _ _
  · exact fun q other _ _ => ⟨rfl, fun _ hasBlock => hasBlock⟩

/-- Writing the inode to its slot changes no file. -/
theorem Owners.written (owners : Owners groups loose s view held)
    (isInode : s.inodes p = some inode)
    (room : Multiset.card held < nBlkNum) : wp (ext2WriteInode p) (fun _ after => ∃ view' inode',
      Stores groups loose held p inode.size (fileByte view groups.blockSize inode) s view inode after view'
        inode') s := by
  have file := owners.files p inode isInode
  obtain ⟨-, -, inTable⟩ := file.fs.slot file.number
  apply wp_mono (file.written room)
  rintro - after ⟨-, grew⟩
  have beside : ∀ no, ¬ groups.InTable s no → writtenSlot view s inode no = view no := by
    intro no outside
    apply writtenSlot_beside
    rintro rfl
    exact outside inTable
  have pointers : ∀ slot path, IsNode groups.blockSize slot path →
      ptrAt (writtenSlot view s inode) { inode with dirty := false } slot path =
        ptrAt view inode slot path := by
    refine ptrAt_congr rfl fun slot front i isNode isBlock => beside _ ?_
    exact (file.owned slot front isNode.parent isBlock).notTable
  have metadata : ∀ no, groups.Metadata no → writtenSlot view s inode no = view no := by
    intro no isMetadata
    exact beside no fun isTable => file.fs.table_plain isTable isMetadata
  have framed : Framed groups (fun _ _ => False) s view inode (writtenSlot view s inode)
      { inode with dirty := false } := by
    constructor
    · intro slot path isData _ isHole
      rw [pointers slot path isData.1, isHole]
    · rintro no ⟨g, inside, c, below, isNo, isClear⟩
      refine ⟨g, inside, c, below, isNo, ?_⟩
      rwa [metadata _ (Or.inr (Or.inr ⟨.block, g, inside, rfl⟩))] at isClear
    · intro slot path isNode differs
      exact absurd (pointers slot path isNode) differs
    · exact fun no plain _ => beside no plain.notTable
  have stores := Stores.of_grew owners isInode grew framed
  have bytes : fileByte (writtenSlot view s inode) groups.blockSize { inode with dirty := false } =
      fileByte view groups.blockSize inode := by
    funext pos
    rw [fileByte, fileByte, grew.fileBlock fun _ _ _ => id]
  rw [bytes] at stores
  exact ⟨_, _, stores⟩

/-- The steps behind the loop move the size to the end of the write. -/
theorem Owners.growFile (owners : Owners groups loose s view held)
    (isInode : s.inodes p = some inode)
    (room : Multiset.card held < nBlkNum) (offset : Nat) :
    wp (Fs.growFile p offset) (fun _ after => ∃ view' inode',
      Stores groups loose held p (max inode.size offset) (fileByte view groups.blockSize inode) s view inode
        after view' inode') s := by
  have resized : wp (onlyIf (inode.size < offset)
      (updateInode p fun inode => { inode with size := offset, dirty := true })) (fun _ mid =>
      ∃ grown, Stores groups loose held p (max inode.size offset) (fileByte view groups.blockSize inode) s view
        inode mid view grown) s := by
    rw [wp_onlyIf]
    split
    · rename_i longer
      rw [wp_updateInode isInode, Nat.max_eq_right (Nat.le_of_lt longer)]
      exact ⟨_, @Owners.resized groups loose s view held p inode owners isInode
        { inode with size := offset, dirty := true } rfl rfl rfl rfl⟩
    · rename_i inside
      rw [Nat.max_eq_left (Nat.le_of_not_lt inside)]
      exact ⟨inode, Stores.refl owners isInode⟩
  rw [Fs.growFile, wp_bind, wp_derefInode isInode]
  apply wp_seq resized
  rintro - mid ⟨grown, stores⟩
  rw [wp_bind, wp_derefInode stores.isInode, wp_onlyIf]
  split
  · apply wp_seq (stores.owners.written stores.isInode room)
    rintro - after ⟨view', inode', written⟩
    rw [stores.size, stores.bytes] at written
    exact wp_pure.mpr ⟨view', inode', stores.trans written⟩
  · exact ⟨view, grown, stores⟩

/-- What the write loop has stored when it stops after `n` more bytes. -/
structure Filled (groups : Groups) (loose : Nat → Nat → Prop) (held : Multiset Nat)
    (p len total offset n : Nat) (data : ByteMap) (s : Vfs) (view : Nat → ByteMap) (inode : Inode)
    (result : Bool × Nat × Nat) (after : Vfs) (view' : Nat → ByteMap) (inode' : Inode) :
    Prop where
  ends : result = (decide (total + n = len), total + n, offset + n)
  bound : total + n ≤ len
  stores : Stores groups loose held p inode.size
    (overlay (fileByte view groups.blockSize inode) offset n fun i => data (total + i)) s view inode after
    view' inode'
  whole : (∀ i < len - total, HasBlock groups.blockSize view inode ((offset + i) / groups.blockSize)) → total + n = len

/-- The loop stops here, and no data was changed since. -/
theorem Filled.stopped {len total offset : Nat} {data : ByteMap} {complete : Bool} {after : Vfs}
    {view' : Nat → ByteMap} {inode' : Inode}
    (stores : Stores groups loose held p inode.size (fileByte view groups.blockSize inode) s view inode after
      view' inode') (part : total ≤ len) (isComplete : complete = decide (total = len))
    (whole : (∀ i < len - total, HasBlock groups.blockSize view inode ((offset + i) / groups.blockSize)) → total = len) :
    Filled groups loose held p len total offset 0 data s view inode (complete, total, offset) after
      view' inode' := by
  constructor
  · rw [isComplete]
    rfl
  · exact part
  · rw [overlay_zero]
    exact stores
  · exact whole

/-- The loop of `ext2_file_write` among files that own their blocks: it fills a prefix of the
request, and all other files read as before. -/
theorem Owners.writeBlocks (owners : Owners groups loose s view held)
    (isInode : s.inodes p = some inode) (room : Multiset.card held + 1 < nBlkNum)
    {len budget total offset : Nat} (data : ByteMap) (enough : len ≤ total + budget)
    (part : total ≤ len) (fits : offset + (len - total) < 2 ^ 32) (blockBuf : ByteMap) :
    wp (Fs.writeBlocks p len data budget total offset blockBuf) (fun result after =>
      ∃ n view' inode', Filled groups loose held p len total offset n data s view inode result
        after view' inode') s := by
  induction budget generalizing s view inode total offset blockBuf with
  | zero =>
    obtain rfl : total = len := by omega
    exact wp_pure.mpr ⟨0, view, inode, Filled.stopped (Stores.refl owners isInode) part
      (decide_eq_true rfl).symm fun _ => rfl⟩
  | succ budget inductionHypothesis =>
    have file := owners.files p inode isInode
    rw [Fs.writeBlocks, wp_ite]
    split
    · rename_i more
      have size := file.fs.fits.blockSize
      rw [wp_bind, wp_get]
      apply wp_seq (ext2ReadBlock_spec file.fs.io (by omega) isInode file.firmFile
        (size ▸ groups.sized.small.2) _ blockBuf)
      rintro block mid ⟨isBlock, ioMid, same⟩
      rw [size] at isBlock ⊢
      have isMid : mid.inodes p = some inode := by
        rw [same.inodes]
        exact isInode
      have ownersMid := owners.same ioMid same
      have reached := Stores.of_grew owners isInode (file.same (fun _ _ => False) ioMid same) .refl
      have first : (∀ i < len - total, HasBlock groups.blockSize view inode ((offset + i) / groups.blockSize)) →
          HasBlock groups.blockSize view inode (offset / groups.blockSize) := fun allocated => allocated 0 (by omega)
      have notAll : false = decide (total = len) := (decide_eq_false (Nat.ne_of_lt more)).symm
      cases found : fileBlock view groups.blockSize inode (offset / groups.blockSize) with
      | none =>
        rw [found] at isBlock
        subst isBlock
        refine wp_pure.mpr ⟨0, view, inode, Filled.stopped reached part notAll fun allocated => ?_⟩
        obtain ⟨slot, path, isPath, -⟩ := first allocated
        rw [fileBlock_eq isPath] at found
        cases found
      | some old =>
        rw [found, Option.map_some] at isBlock
        subst isBlock
        obtain ⟨chunk, isChunk⟩ : ∃ chunk,
          chunk = min (groups.blockSize - offset % groups.blockSize) (len - total) := ⟨_, rfl⟩
        simp only [← isChunk]
        have inBlock : offset % groups.blockSize < groups.blockSize :=
          Nat.mod_lt _ groups.sized.small.1
        apply wp_seq (ext2WriteBlock_spec (ownersMid.files p inode isMid) room (offset / groups.blockSize) _)
        rintro done written ⟨view', inode', grew, framed, stored, present, -⟩
        have chunkStores := Stores.of_grew ownersMid isMid grew framed
        rw [wp_ite]
        split
        · rename_i failed
          subst failed
          have stays : fileByte view' groups.blockSize inode' = fileByte view groups.blockSize inode := by
            funext pos
            rw [fileByte, fileByte, grew.fileBlock fun _ _ _ isHit => Bool.false_ne_true isHit.1]
          rw [stays] at chunkStores
          refine wp_pure.mpr ⟨0, view', inode', Filled.stopped (reached.trans chunkStores) part
            notAll fun allocated => ?_⟩
          exact absurd (present (first allocated)) Bool.false_ne_true
        · rename_i notFailed
          have isDone : done = true := by
            cases done
            · exact absurd rfl notFailed
            · rfl
          rw [chunk_bytes grew found (stored isDone) (by omega)] at chunkStores
          have noWrap : u32 (offset + chunk) = offset + chunk := Nat.mod_eq_of_lt (by omega)
          rw [noWrap]
          apply wp_mono (inductionHypothesis chunkStores.owners chunkStores.isInode (by omega)
            (by omega) (by omega) _)
          rintro result after ⟨n, view'', inode'', filled⟩
          refine ⟨chunk + n, view'', inode'', ?_⟩
          have stores := filled.stores
          have shifted : ∀ i, data (total + chunk + i) = data (total + (chunk + i)) := by
            intro i
            rw [Nat.add_assoc]
          rw [chunkStores.size, chunkStores.bytes] at stores
          simp only [shifted] at stores
          rw [overlay_append (fileByte view groups.blockSize inode) offset chunk n fun i => data (total + i)]
            at stores
          constructor
          · rw [filled.ends, Nat.add_assoc, Nat.add_assoc]
          · have bound := filled.bound
            omega
          · exact (reached.trans chunkStores).trans stores
          · intro allocated
            rw [← Nat.add_assoc]
            apply filled.whole
            intro i less
            rw [Nat.add_assoc]
            exact chunkStores.backed _ (allocated (chunk + i) (by omega))
    · rename_i done
      obtain rfl : total = len := by omega
      exact wp_pure.mpr ⟨0, view, inode, Filled.stopped (Stores.refl owners isInode) part
        (decide_eq_true rfl).symm fun _ => rfl⟩

/-- What a write of `len` bytes returns when `n` of them were stored. -/
def writeResult (len n : Nat) : Int := if n = 0 ∧ 0 < len then -1 else n

/-- The files after `ext2_file_write`. Where the blocks are there, it is not cut short. -/
theorem Owners.ext2FileWrite (owners : Owners groups loose s view held)
    (isInode : s.inodes p = some inode) (room : Multiset.card held + 1 < nBlkNum)
    {len offset : Nat} (data : ByteMap) (fits : offset + len < 2 ^ 32) (short : len < 2 ^ 31) :
    wp (Fs.ext2FileWrite p len offset data) (fun result after => ∃ n ≤ len,
      ((∀ i < len, HasBlock groups.blockSize view inode ((offset + i) / groups.blockSize)) → n = len) ∧
      result.1 = writeResult len n ∧ ∃ view' inode',
        Stores groups loose held p (writtenSize inode.size offset len n)
          (overlay (fileByte view groups.blockSize inode) offset n data) s view inode after view' inode') s := by
  have size := (owners.files p inode isInode).fs.fits.blockSize
  have mounted : ¬ blkSz < groups.blockSize := Nat.not_lt.mpr groups.sized.small.2
  rw [Fs.ext2FileWrite, wp_bind, wp_get, size, if_neg mounted, wp_ite]
  split
  · rename_i isEmpty
    subst isEmpty
    refine wp_pure.mpr ⟨0, Nat.le_refl 0, fun _ => rfl, rfl, view, inode, ?_⟩
    rw [overlay_zero]
    exact Stores.refl owners isInode
  · rename_i some
    apply wp_seq (owners.writeBlocks isInode room data (Nat.zero_add len).ge (Nat.zero_le len)
      (by omega) _)
    rintro ends mid ⟨n, view', inode', filled⟩
    have bound := filled.bound
    have whole := filled.whole
    have stores := filled.stores
    simp only [Nat.zero_add, Nat.sub_zero] at bound whole stores
    have isEnds := filled.ends
    rw [Nat.zero_add] at isEnds
    subst isEnds
    by_cases isWhole : n = len
    · subst isWhole
      rw [decide_eq_true rfl, if_neg (fun same => Bool.false_ne_true same.symm)]
      apply wp_seq (stores.owners.growFile stores.isInode (by omega) (offset + n))
      rintro - after ⟨view'', inode'', grown⟩
      refine wp_pure.mpr ⟨n, Nat.le_refl n, fun _ => rfl, ?_, view'', inode'', ?_⟩
      · rw [writeResult, if_neg (fun both => some both.1)]
        exact i32_of_small short
      · rw [stores.size, stores.bytes] at grown
        rw [writtenSize, if_pos ⟨rfl, Nat.pos_of_ne_zero some⟩]
        exact stores.trans grown
    · rw [decide_eq_false isWhole, if_pos rfl]
      refine wp_pure.mpr ⟨n, bound, whole, ?_, view', inode', ?_⟩
      · simp only [writeResult]
        by_cases isNone : n = 0
        · have positive : 0 < len := Nat.pos_of_ne_zero some
          rw [if_neg (by omega), if_pos ⟨isNone, positive⟩]
        · rw [if_pos (Nat.pos_of_ne_zero isNone), if_neg (fun both => isNone both.1)]
          exact i32_of_small (by omega)
      · rw [writtenSize, if_neg (fun both => isWhole both.1)]
        exact stores

end

end CuteCore.Fs
