import CuteCore.Fs.FileTree

/-!
# Writing the blocks of a file

`ext2_write_block` adds the index and data blocks that are missing and stores the data.
Whether it succeeds or not, the data of the other logical blocks stays.

The blocks that are missing are made from the inode down: the pointer of the slot, then
one index block after the other. Each step leaves a tree in which the file owns its nodes,
so the next one starts from the same invariant. A step that finds no block leaves what the
earlier ones have made.
-/

namespace CuteCore.Fs

open Hoare Bytes BlkCache

section

variable {loose : Nat → Nat → Prop} {s : Vfs} {view : Nat → ByteMap} {held : Multiset Nat} {n : Nat}

/-- A new block is cleared in its buffer, and the change is recorded. -/
theorem clearBlock_spec (io : Io loose s view (fun _ => False) held)
    (room : Multiset.card held < nBlkNum) (size : s.blockSize = n) (small : n ≤ blkSz) (no : Nat) :
    wp (clearBlock no) (fun _ after =>
      Io loose after (Function.update view no (fill (view no) 0 n 0)) (fun _ => False) held ∧
      SameFs s after ∧ KeepsBuffers s after held) s := by
  rw [clearBlock]
  apply wp_seq (io.bread_spec no room)
  rintro cache mid ⟨ioMid, same, buffers, keeps⟩
  rw [wp_bind, wp_get, same.blockSize, size, clearBuf]
  apply wp_seq (ioMid.copyBuf_spec buffers (Multiset.mem_cons_self ..) ((Nat.zero_add n).symm ▸ small))
  rintro - cleared ⟨ioCleared, same', keeps'⟩
  apply wp_seq (ioCleared.bwrite_spec (keeps' _ _ buffers) not_false)
  rintro - written ⟨ioWritten, same'', keeps''⟩
  apply wp_mono (ioWritten.brelse_spec (keeps'' _ _ (keeps' _ _ buffers)) not_false io.superHeld)
  rintro - after ⟨ioAfter, same''', keeps'''⟩
  refine ⟨ioAfter, ((same.trans same').trans same'').trans same''', ?_⟩
  intro j m member before
  exact keeps''' _ _ (keeps'' _ _ (keeps' _ _ (keeps _ _ member before)))

/-- The blocks after a new block was emptied, if it is to be an index block. -/
def emptied (n : Nat) (isIndex : Bool) (view : Nat → ByteMap) (nb : Nat) : Nat → ByteMap :=
  if isIndex = true then Function.update view nb (fill (view nb) 0 n 0) else view

theorem emptied_ne {isIndex : Bool} {nb no : Nat} (differs : no ≠ nb) :
    emptied n isIndex view nb no = view no := by
  rw [emptied]
  split
  · exact Function.update_of_ne differs _ _
  · rfl

theorem emptied_zero {isIndex : Bool} {nb x : Nat} (index : isIndex = true) (below : x < n) :
    emptied n isIndex view nb nb x = 0 := by
  rw [emptied, if_pos index, Function.update_self]
  exact copy_inside _ _ _ _ _ (Nat.zero_le x) (by omega)

theorem clearIf_spec (io : Io loose s view (fun _ => False) held)
    (room : Multiset.card held < nBlkNum) (size : s.blockSize = n) (small : n ≤ blkSz)
    (isIndex : Bool) (nb : Nat) :
    wp (onlyIf (isIndex = true) (clearBlock nb)) (fun _ after =>
      Io loose after (emptied n isIndex view nb) (fun _ => False) held ∧
      SameFs s after ∧ KeepsBuffers s after held) s := by
  rw [wp_onlyIf, emptied]
  split
  · exact clearBlock_spec io room size small nb
  · exact ⟨io, SameFs.refl s, fun _ _ _ before => before⟩

end

section

variable {groups : Groups} {loose : Nat → Nat → Prop} {s : Vfs} {view : Nat → ByteMap}
  {held : Multiset Nat} {p : Nat} {inode : Inode}

/-- A node was looked up and, if it was a hole, given a block. -/
def Ensured (groups : Groups) (loose : Nat → Nat → Prop) (held : Multiset Nat) (p : Nat)
    (slot : Fin nBlocks) (path : List Nat) (s : Vfs) (view : Nat → ByteMap) (inode : Inode)
    (got : Option Nat) (after : Vfs) : Prop :=
  ∃ view' inode', Grew groups loose held p
      (fun slot' path' => got.isSome ∧ slot' = slot ∧ path' = path) s view inode
      after view' inode' ∧
    Framed groups (fun slot' path' => got.isSome ∧ slot' = slot ∧ path' = path) s view inode
      view' inode' ∧
    (∀ slot', slot' ≠ slot → inode'.iBlock slot' = inode.iBlock slot') ∧
    (∀ no, got = some no → no ≠ 0 ∧ ptrAt view' inode' slot path = no) ∧
    (ptrAt view inode slot path ≠ 0 → got.isSome)

theorem Ensured.failed (file : FileState groups loose s view held p inode) {slot : Fin nBlocks}
    {path : List Nat} (isHole : ptrAt view inode slot path = 0) {after : Vfs}
    (io : Io loose after view (fun _ => False) held) (same : SameFs s after) :
    Ensured groups loose held p slot path s view inode none after := by
  refine ⟨view, inode, file.same _ io same, .refl, fun _ _ => rfl, ?_,
    fun isBlock => absurd isHole isBlock⟩
  intro no isNo
  cases isNo

theorem Ensured.present (file : FileState groups loose s view held p inode) {slot : Fin nBlocks}
    {path : List Nat} (isBlock : ptrAt view inode slot path ≠ 0) {after : Vfs}
    (io : Io loose after view (fun _ => False) held) (same : SameFs s after) :
    Ensured groups loose held p slot path s view inode (some (ptrAt view inode slot path)) after := by
  refine ⟨view, inode, file.same _ io same, .refl, fun _ _ => rfl, ?_, fun _ => rfl⟩
  intro no isNo
  obtain rfl := Option.some.inj isNo
  exact ⟨isBlock, rfl⟩

/-- A hole that was given a block was looked up with this block. -/
theorem Linked.ensured {slot : Fin nBlocks} {path : List Nat} {nb : Nat} {held' : Multiset Nat}
    {after : Vfs} {view' : Nat → ByteMap} {inode' : Inode}
    (linked : Linked groups loose held p slot path nb s view inode after view' inode')
    (file : FileState groups loose s view held' p inode) :
    Ensured groups loose held p slot path s view inode (some nb) after := by
  obtain ⟨grew, isNew⟩ := linked.grew file
  refine ⟨view', inode', grew.mono fun _ _ _ isHit => ⟨rfl, isHit⟩,
    (linked.framed file).mono fun _ _ _ isHit => ⟨rfl, isHit⟩, ?_, ?_, fun _ => rfl⟩
  · intro slot' differs
    rw [linked.top]
    split
    · exact Function.update_of_ne differs _ _
    · rfl
  · intro no isNo
    obtain rfl := Option.some.inj isNo
    exact ⟨linked.positive, isNew⟩

/-- The step of `ext2_write_block` at the inode: a pointer that is missing gets a new block, unless
there is none left. -/
theorem ensureSlot_spec (file : FileState groups loose s view held p inode)
    (room : Multiset.card held < nBlkNum) {slot : Fin nBlocks}
    (isNode : IsNode groups.blockSize slot [])
    {isIndex : Bool} (index : 0 < levelOf slot → isIndex = true) :
    wp (ensureSlot p slot isIndex) (Ensured groups loose held p slot [] s view inode) s := by
  rw [ensureSlot, wp_bind, wp_derefInode file.isInode, wp_ite]
  split
  · rename_i top
    have isHole : ptrAt view inode slot [] = 0 := top
    apply wp_seq (allocBlock_spec file.fs room)
    rintro nb mid ⟨outcome, -⟩
    rw [wp_ite]
    split
    · rename_i isZero
      rcases outcome with ⟨-, same⟩ | ⟨positive, -⟩
      · subst same
        exact wp_pure.mpr (Ensured.failed file isHole file.fs.io (SameFs.refl _))
      · exact absurd isZero positive
    · rename_i positive
      rcases outcome with ⟨isZero, -⟩ | ⟨-, view', fresh⟩
      · exact absurd isZero positive
      · have isInode : mid.inodes p = some inode := by
          rw [fresh.inodes]
          exact file.isInode
        obtain ⟨inode', isInode'⟩ : ∃ inode' : Inode, inode' =
          { inode with iBlock := Function.update inode.iBlock slot nb, dirty := true } := ⟨_, rfl⟩
        rw [wp_bind, wp_updateInode isInode, ← isInode']
        have changed := fresh.state.setInode p inode'
        apply wp_seq (clearIf_spec changed.io room changed.fits.blockSize groups.sized.small.2 isIndex nb)
        rintro - after ⟨io, same, -⟩
        have notMetadata : ¬ groups.Metadata nb :=
          fun metadata => file.fs.reserved nb (Or.inl metadata) fresh.wasFree
        obtain ⟨fsAfter, free⟩ := changed.plain io same fun no metadata =>
          emptied_ne fun isNew => notMetadata (isNew ▸ metadata)
        have inodes : after.inodes = Function.update mid.inodes p (some inode') := same.inodes
        have linked : Linked groups loose held p slot [] nb s view inode after
            (emptied groups.blockSize isIndex view' nb) inode' := by
          constructor
          · exact isNode
          · exact isHole
          · exact positive
          · exact fresh.small
          · exact fsAfter
          · have unchanged : SameSetup mid (mid.setInode p inode') := ⟨rfl, fun _ => rfl, rfl⟩
            exact (fresh.setup.trans unchanged).trans (SameSetup.of_sameFs same)
          · exact fresh.wasFree
          · exact fun no => (free no).trans (fresh.free no)
          · rw [inodes, Function.update_self]
          · intro q other
            rw [inodes, Function.update_of_ne other, fresh.inodes]
          · rw [isInode']
          · rw [isInode', if_pos rfl]
          · intro front i isPath
            exact absurd isPath (by simp)
          · intro no plain differs _
            rw [emptied_ne differs, fresh.others no plain]
          · intro below x inside
            exact emptied_zero (index below) inside
        exact wp_pure.mpr (linked.ensured file)
  · rename_i top
    have isBlock : ptrAt view inode slot [] ≠ 0 := top
    exact wp_pure.mpr (Ensured.present file isBlock file.fs.io (SameFs.refl s))

/-- The step of `ext2_write_block` inside an index block: a pointer that is missing gets a new
block, unless there is none left. -/
theorem ensurePtr_spec (file : FileState groups loose s view held p inode)
    (room : Multiset.card held + 1 < nBlkNum) {slot : Fin nBlocks} {front : List Nat} {i : Nat}
    (isNode : IsNode groups.blockSize slot (front ++ [i])) (above : ptrAt view inode slot front ≠ 0)
    {isIndex : Bool} (index : (front ++ [i]).length < levelOf slot → isIndex = true) :
    wp (ensurePtr (ptrAt view inode slot front) i isIndex)
      (Ensured groups loose held p slot (front ++ [i]) s view inode) s := by
  obtain ⟨blkNo, isBlock⟩ : ∃ blkNo, blkNo = ptrAt view inode slot front := ⟨_, rfl⟩
  have plain := file.owned slot front isNode.parent above
  have firm := file.firm isNode.parent above
  have small : i < groups.blockSize / 4 := isNode.indices i (List.mem_append_right _ (List.mem_singleton_self i))
  have fits : 4 * i + 4 ≤ blkSz := by
    have whole := groups.sized.small.2
    omega
  rw [← isBlock] at above plain firm ⊢
  have child : ptrAt view inode slot (front ++ [i]) = load (view blkNo) (4 * i) 4 := by
    rw [ptrAt_append, ← isBlock, childAt, if_neg above]
  rw [ensurePtr]
  apply wp_seq (file.fs.io.bread_spec blkNo (by omega))
  rintro cache mid ⟨ioMid, same, buffers, -⟩
  apply wp_seq (ioMid.loadBuf_spec buffers fits fun x _ _ => firm x)
  rintro ptr mid' ⟨isPtr, isMid⟩
  rw [isMid, isPtr, ← child, wp_ite]
  obtain ⟨fsMid, -⟩ := file.fs.plain ioMid same fun _ _ => rfl
  split
  · rename_i isHole
    have more : Multiset.card (blkNo ::ₘ held) < nBlkNum := by
      rw [Multiset.card_cons]
      exact room
    apply wp_seq (allocBlock_spec fsMid more)
    rintro nb alloc ⟨outcome, keeps⟩
    have buffers' := keeps _ _ (Multiset.mem_cons_self ..) buffers
    rw [wp_ite]
    split
    · rename_i isZero
      rcases outcome with ⟨-, sameMid⟩ | ⟨positive, -⟩
      · subst sameMid
        apply wp_seq (ioMid.brelse_spec buffers not_false file.fs.io.superHeld)
        rintro - after ⟨ioAfter, sameStored, -⟩
        exact wp_pure.mpr (Ensured.failed file isHole ioAfter (same.trans sameStored))
      · exact absurd isZero positive
    · rename_i positive
      rcases outcome with ⟨isZero, -⟩ | ⟨-, view', fresh⟩
      · exact absurd isZero positive
      · have differs : blkNo ≠ nb := fun isNew => plain.used (isNew ▸ fresh.wasFree)
        have notMetadata : ¬ groups.Metadata nb :=
          fun metadata => file.fs.reserved nb (Or.inl metadata) fresh.wasFree
        apply wp_seq (fresh.state.io.storeBuf_spec buffers' (Multiset.mem_cons_self ..) fits)
        rintro - stored ⟨ioStored, sameStored, keeps'⟩
        apply wp_seq (ioStored.bwrite_spec (keeps' _ _ buffers') not_false)
        rintro - written ⟨ioWritten, sameWritten, keepsWritten⟩
        have size : written.blockSize = groups.blockSize := by
          rw [sameWritten.blockSize, sameStored.blockSize]
          exact fresh.state.fits.blockSize
        apply wp_seq (clearIf_spec ioWritten more size groups.sized.small.2 isIndex nb)
        rintro - cleared ⟨ioCleared, sameCleared, keepsCleared⟩
        have buffersAfter := keepsCleared _ _ (Multiset.mem_cons_self ..)
          (keepsWritten _ _ (keeps' _ _ buffers'))
        apply wp_seq (ioCleared.loadBuf_spec buffersAfter fits fun x _ _ => firm x)
        rintro ptr' cleared' ⟨isPtr', isCleared⟩
        rw [isCleared]
        apply wp_seq (ioCleared.brelse_spec buffersAfter not_false file.fs.io.superHeld)
        rintro - after ⟨ioAfter, sameAfter, -⟩
        have changes := (sameStored.trans sameWritten).trans (sameCleared.trans sameAfter)
        obtain ⟨fsAfter, free⟩ := fresh.state.plain ioAfter changes fun no metadata => by
          have notNew : no ≠ nb := fun isNew => notMetadata (isNew ▸ metadata)
          have notParent : no ≠ blkNo := fun isParent => plain.notMetadata (isParent ▸ metadata)
          rw [emptied_ne notNew, Function.update_of_ne notParent]
        have atParent : emptied groups.blockSize isIndex (Function.update view' blkNo
            (store (view' blkNo) (4 * i) 4 nb)) nb blkNo = store (view blkNo) (4 * i) 4 nb := by
          rw [emptied_ne differs, Function.update_self, fresh.others _ plain.notMetadata]
        have isNew : ptr' = nb := by
          rw [isPtr', atParent, load_store_same]
          exact Nat.mod_eq_of_lt fresh.small
        have inodes : after.inodes = s.inodes := by
          rw [changes.inodes, fresh.inodes, same.inodes]
        have linked : Linked groups loose held p slot (front ++ [i]) nb s view inode after
            (emptied groups.blockSize isIndex (Function.update view' blkNo
              (store (view' blkNo) (4 * i) 4 nb)) nb) inode := by
          constructor
          · exact isNode
          · exact isHole
          · exact positive
          · exact fresh.small
          · exact fsAfter
          · exact ((SameSetup.of_sameFs same).trans fresh.setup).trans
              (SameSetup.of_sameFs changes)
          · exact fresh.wasFree
          · exact fun no => (free no).trans (fresh.free no)
          · rw [inodes]
            exact file.isInode
          · intro q _
            rw [inodes]
          · rfl
          · rw [if_neg (by simp)]
          · intro front' i' isPath
            obtain ⟨rfl, isLast⟩ := List.append_inj' isPath rfl
            obtain rfl := (List.cons.inj isLast).1
            rw [← isBlock]
            exact ⟨above, atParent⟩
          · intro no isPlain other noParent
            have notBlock : no ≠ blkNo := isBlock ▸ noParent front i rfl
            rw [emptied_ne other, Function.update_of_ne notBlock, fresh.others no isPlain]
          · intro below x inside
            exact emptied_zero (index below) inside
        rw [isNew]
        exact wp_pure.mpr (linked.ensured file)
  · rename_i some
    apply wp_seq (ioMid.brelse_spec buffers not_false file.fs.io.superHeld)
    rintro - after ⟨ioAfter, sameStored, -⟩
    exact wp_pure.mpr (Ensured.present file some ioAfter (same.trans sameStored))

/-- The blocks of a path, from the node at its front on. -/
theorem ensurePath_spec (file : FileState groups loose s view held p inode)
    (room : Multiset.card held + 1 < nBlkNum) {slot : Fin nBlocks} (front rest : List Nat)
    (isData : IsData groups.blockSize slot (front ++ rest))
    (above : ptrAt view inode slot front ≠ 0) :
    wp (ensurePath (ptrAt view inode slot front) rest)
      (Ensured groups loose held p slot (front ++ rest) s view inode) s := by
  induction rest generalizing s view inode front with
  | nil =>
    rw [List.append_nil]
    exact wp_pure.mpr (Ensured.present file above file.fs.io (SameFs.refl s))
  | cons i rest inductionHypothesis =>
    rw [List.append_cons] at isData ⊢
    have isNode : IsNode groups.blockSize slot (front ++ [i]) := isData.1.front
    have index : (front ++ [i]).length < levelOf slot → (!rest.isEmpty) = true := by
      intro below
      cases rest with
      | nil =>
        rw [← isData.2, List.append_nil] at below
        exact absurd below (Nat.lt_irrefl _)
      | cons j more => rfl
    rw [ensurePath]
    apply wp_seq (ensurePtr_spec file room isNode above index)
    rintro got mid ⟨view', inode', grew, framed, beside, isGot, present⟩
    cases got with
    | none =>
      refine wp_pure.mpr ⟨view', inode', grew.mono fun _ _ _ isHit => ?_,
        framed.mono fun _ _ _ isHit => ?_, beside, ?_, ?_⟩
      · cases isHit.1
      · cases isHit.1
      · intro no isNo
        cases isNo
      · intro isBlock
        exact present fun isHole => isBlock (ptrAt_below view inode slot _ rest isHole)
    | some ptr =>
      obtain ⟨positive, isPtr⟩ := isGot ptr rfl
      subst isPtr
      apply wp_mono (inductionHypothesis grew.file (front ++ [i]) isData positive)
      rintro got after ⟨view'', inode'', grew', framed', beside', isGot', present'⟩
      have onlyData : ∀ slot' path', IsData groups.blockSize slot' path' →
          ((some (ptrAt view' inode' slot (front ++ [i]))).isSome ∧ slot' = slot ∧
            path' = front ++ [i]) ∨ (got.isSome ∧ slot' = slot ∧ path' = front ++ [i] ++ rest) →
          got.isSome ∧ slot' = slot ∧ path' = front ++ [i] ++ rest := by
        rintro slot' path' isData' (⟨-, rfl, rfl⟩ | isHit)
        · -- The first step gave the data block only if nothing is left of the path.
          have length := isData.2
          rw [List.length_append, isData'.2] at length
          obtain rfl : rest = [] := List.eq_nil_of_length_eq_zero (by omega)
          rw [List.append_nil] at present' ⊢
          exact ⟨present' positive, rfl, rfl⟩
        · exact isHit
      refine ⟨view'', inode'', (grew.trans grew').mono onlyData,
        (framed.trans grew.setup framed').mono onlyData,
        fun slot' differs => (beside' slot' differs).trans (beside slot' differs), isGot', ?_⟩
      · intro isBlock
        apply present'
        rw [grew.grows _ _ isData.1 isBlock]
        exact isBlock

/-- The file has a block there. -/
def HasBlock (size : Nat) (view : Nat → ByteMap) (inode : Inode) (lbk : Nat) : Prop :=
  ∃ slot path, blockPath size lbk = some (slot, path) ∧ ptrAt view inode slot path ≠ 0

theorem fileBlock_eq {size lbk : Nat} {slot : Fin nBlocks} {path : List Nat}
    (found : blockPath size lbk = some (slot, path)) :
    fileBlock view size inode lbk = some (dataAt view inode slot path) := by
  rw [fileBlock, found]
  rfl

/-- A block path of data is empty where the slot itself holds data. -/
theorem IsData.path_nil {size : Nat} {slot : Fin nBlocks} {path : List Nat}
    (isData : IsData size slot path) (direct : IsData size slot []) : path = [] := by
  apply List.eq_nil_of_length_eq_zero
  rw [isData.2, ← direct.2]
  rfl

/-- The end of `ext2_write_block`: the data block is read, overwritten and recorded. -/
theorem storeData_spec (file : FileState groups loose s view held p inode)
    (room : Multiset.card held < nBlkNum) {slot : Fin nBlocks} {path : List Nat}
    (isData : IsData groups.blockSize slot path) (isBlock : ptrAt view inode slot path ≠ 0)
    (buf : ByteMap) :
    wp (do
      let cache ← Fs.bread (ptrAt view inode slot path)
      copyBuf cache 0 groups.blockSize buf
      Fs.bwrite cache
      Fs.brelse cache
      return true) (fun done after => done = true ∧ ∃ view',
        Grew groups loose held p (fun slot' path' => slot' = slot ∧ path' = path) s view inode
          after view' inode ∧
        Framed groups (fun _ _ => False) s view inode view' inode ∧
        ∃ old, dataAt view' inode slot path = copy old 0 groups.blockSize buf) s := by
  have inside : 0 + groups.blockSize ≤ blkSz :=
    (Nat.zero_add groups.blockSize).symm ▸ groups.sized.small.2
  apply wp_seq (file.fs.io.bread_spec _ room)
  rintro cache read ⟨ioRead, same, buffers, -⟩
  apply wp_seq (ioRead.copyBuf_spec buffers (Multiset.mem_cons_self ..) inside)
  rintro - copied ⟨ioCopied, same', keeps⟩
  apply wp_seq (ioCopied.bwrite_spec (keeps _ _ buffers) not_false)
  rintro - written ⟨ioWritten, same'', keeps'⟩
  apply wp_seq (ioWritten.brelse_spec (keeps' _ _ (keeps _ _ buffers)) not_false
    file.fs.io.superHeld)
  rintro - after ⟨ioAfter, same''', -⟩
  obtain ⟨grew, framed, stored⟩ := file.overwrite isData isBlock ioAfter
    (((same.trans same').trans same'').trans same''')
  exact wp_pure.mpr ⟨rfl, _, grew, framed, _, stored⟩

/-- A block is stored whole or not at all. -/
theorem ext2WriteBlock_spec (file : FileState groups loose s view held p inode)
    (room : Multiset.card held + 1 < nBlkNum) (lbk : Nat) (buf : ByteMap) :
    wp (ext2WriteBlock p lbk buf) (fun done after => ∃ view' inode',
      Grew groups loose held p (fun slot path => done = true ∧
        blockPath groups.blockSize lbk = some (slot, path)) s view inode after view' inode' ∧
      Framed groups (fun slot path => done = true ∧ blockPath groups.blockSize lbk = some (slot, path)) s view
        inode view' inode' ∧
      (done = true → ∃ old, fileBlock view' groups.blockSize inode' lbk = some (copy old 0 groups.blockSize buf)) ∧
      (HasBlock groups.blockSize view inode lbk → done = true) ∧
      ∀ slot, (∀ path, blockPath groups.blockSize lbk ≠ some (slot, path)) →
        inode'.iBlock slot = inode.iBlock slot) s := by
  rw [ext2WriteBlock, wp_bind, wp_get, file.fs.fits.blockSize]
  cases found : blockPath groups.blockSize lbk with
  | none =>
    refine wp_pure.mpr ⟨view, inode, file.same _ file.fs.io (SameFs.refl s), .refl, ?_, ?_,
      fun _ _ => rfl⟩
    · intro isDone
      cases isDone
    · rintro ⟨slot, path, isSome, -⟩
      rw [found] at isSome
      cases isSome
  | some place =>
    obtain ⟨slot, path⟩ := place
    have isData : IsData groups.blockSize slot path := blockPath_isNode found
    have apart : ∀ slot', (∀ path', some (slot, path) ≠ some (slot', path')) → slot' ≠ slot := by
      rintro _ others rfl
      exact others path rfl
    have isTop : IsNode groups.blockSize slot [] := @IsNode.front _ slot [] path isData.1
    have index : 0 < levelOf slot → (!path.isEmpty) = true := by
      intro deep
      cases path with
      | nil =>
        rw [← isData.2] at deep
        exact absurd deep (Nat.lt_irrefl 0)
      | cons j more => rfl
    -- Only a direct pointer leads to data itself.
    have direct : IsData groups.blockSize slot [] → path = [] := isData.path_nil
    have reached : HasBlock groups.blockSize view inode lbk → ptrAt view inode slot path ≠ 0 := by
      rintro ⟨slot', path', found', isBlock⟩
      obtain ⟨rfl, rfl⟩ := Prod.mk.inj (Option.some.inj (found.symm.trans found'))
      exact isBlock
    apply wp_seq (ensureSlot_spec file (by omega) isTop index)
    rintro top mid ⟨view', inode', grew, framed, beside, isPtr, present⟩
    cases top with
    | none =>
      refine wp_pure.mpr ⟨view', inode', grew.mono ?_, framed.mono ?_, ?_, ?_,
        fun slot' others => beside slot' (apart slot' others)⟩
      · rintro slot' path' - ⟨isSome, -⟩
        cases isSome
      · rintro slot' path' - ⟨isSome, -⟩
        cases isSome
      · intro isDone
        cases isDone
      · intro hasBlock
        have isSome := present fun isHole =>
          reached hasBlock (ptrAt_below view inode slot [] path isHole)
        cases isSome
    | some top =>
      obtain ⟨positive, isTop⟩ := isPtr top rfl
      subst isTop
      apply wp_seq (ensurePath_spec grew.file room [] path isData positive)
      rintro got below ⟨view₂, inode₂, grew₂, framed₂, beside₂, isPtr₂, present₂⟩
      have stays : ∀ slot', (∀ path', some (slot, path) ≠ some (slot', path')) →
          inode₂.iBlock slot' = inode.iBlock slot' := fun slot' others =>
        (beside₂ slot' (apart slot' others)).trans (beside slot' (apart slot' others))
      cases got with
      | none =>
        have nothing : ∀ slot' path', IsData groups.blockSize slot' path' →
            ((some (ptrAt view' inode' slot [])).isSome ∧ slot' = slot ∧ path' = []) ∨
              ((none : Option Nat).isSome ∧ slot' = slot ∧ path' = [] ++ path) → False := by
          rintro slot' path' isData' (⟨-, rfl, rfl⟩ | ⟨isSome, -⟩)
          · rw [direct isData'] at present₂
            have isSome := present₂ positive
            cases isSome
          · cases isSome
        refine wp_pure.mpr ⟨view₂, inode₂, (grew.trans grew₂).mono fun slot' path' isData' isHit =>
          (nothing slot' path' isData' isHit).elim,
          (framed.trans grew.setup framed₂).mono fun slot' path' isData' isHit =>
            (nothing slot' path' isData' isHit).elim, ?_, ?_, stays⟩
        · intro isDone
          cases isDone
        · intro hasBlock
          have same := grew.grows slot path isData.1 (reached hasBlock)
          have isSome := present₂ (by
            rw [List.nil_append, same]
            exact reached hasBlock)
          cases isSome
      | some no =>
        obtain ⟨positive₂, isNo⟩ := isPtr₂ no rfl
        rw [List.nil_append] at isNo
        subst isNo
        have file₂ := grew₂.file
        apply wp_mono (storeData_spec file₂ (by omega) isData positive₂ buf)
        rintro _ after ⟨rfl, view₃, grew₃, framed₃, old, stored⟩
        have onlyData : ∀ slot' path', IsData groups.blockSize slot' path' →
            ((some (ptrAt view' inode' slot [])).isSome ∧ slot' = slot ∧ path' = []) ∨
              ((some (ptrAt view₂ inode₂ slot path)).isSome ∧ slot' = slot ∧ path' = [] ++ path) →
            slot = slot' ∧ path = path' := by
          rintro slot' path' isData' (⟨-, rfl, rfl⟩ | ⟨-, rfl, rfl⟩)
          · rw [direct isData']
            exact ⟨rfl, rfl⟩
          · exact ⟨rfl, rfl⟩
        refine ⟨view₃, inode₂, ((grew.trans grew₂).trans grew₃).mono ?_,
          ((framed.trans grew.setup framed₂).trans (grew.setup.trans grew₂.setup) framed₃).mono ?_,
          ?_, fun _ => rfl, stays⟩
        · rintro slot' path' isData' (before | ⟨rfl, rfl⟩)
          · obtain ⟨rfl, rfl⟩ := onlyData slot' path' isData' before
            exact ⟨rfl, rfl⟩
          · exact ⟨rfl, rfl⟩
        · rintro slot' path' isData' (before | never)
          · obtain ⟨rfl, rfl⟩ := onlyData slot' path' isData' before
            exact ⟨rfl, rfl⟩
          · exact never.elim
        · intro _
          exact ⟨old, (fileBlock_eq found).trans (congrArg some stored)⟩

/-- Logical blocks that were not hit have their data. -/
theorem Grew.fileBlock {hit : Fin nBlocks → List Nat → Prop} {after : Vfs}
    {view' : Nat → ByteMap} {inode' : Inode}
    (grew : Grew groups loose held p hit s view inode after view' inode') {lbk : Nat}
    (missed : ∀ slot path, blockPath groups.blockSize lbk = some (slot, path) → ¬ hit slot path) :
    Fs.fileBlock view' groups.blockSize inode' lbk = Fs.fileBlock view groups.blockSize inode lbk := by
  cases found : blockPath groups.blockSize lbk with
  | none =>
    rw [Fs.fileBlock, Fs.fileBlock, found]
    rfl
  | some place =>
    obtain ⟨slot, path⟩ := place
    rw [fileBlock_eq found, fileBlock_eq found,
      grew.kept slot path (blockPath_isNode found) (missed slot path found)]

theorem Grew.hasBlock {hit : Fin nBlocks → List Nat → Prop} {after : Vfs}
    {view' : Nat → ByteMap} {inode' : Inode}
    (grew : Grew groups loose held p hit s view inode after view' inode') {lbk : Nat}
    (hasBlock : HasBlock groups.blockSize view inode lbk) : HasBlock groups.blockSize view' inode' lbk := by
  obtain ⟨slot, path, found, isBlock⟩ := hasBlock
  refine ⟨slot, path, found, ?_⟩
  rw [grew.grows slot path (blockPath_isNode found).1 isBlock]
  exact isBlock

/-- What the write loop has done when it stops. -/
structure Wrote (groups : Groups) (loose : Nat → Nat → Prop) (held : Multiset Nat)
    (p len total offset : Nat) (s : Vfs) (view : Nat → ByteMap) (inode : Inode)
    (result : Bool × Nat × Nat) (after : Vfs) (view' : Nat → ByteMap) (inode' : Inode) :
    Prop where
  grew : Grew groups loose held p (fun _ _ => True) s view inode after view' inode'
  low : total ≤ result.2.1
  high : result.2.1 ≤ len
  position : result.2.2 = u32 (offset + (result.2.1 - total))
  below : offset + (len - total) < 2 ^ 32 → ∀ pos < offset,
    fileByte view' groups.blockSize inode' pos = fileByte view groups.blockSize inode pos
  whole : (∀ i < len - total, HasBlock groups.blockSize view inode (u32 (offset + i) / groups.blockSize)) →
    result.1 = true ∧ result.2.1 = len
  beside : ∀ slot, (∀ i < len - total, ∀ path,
    blockPath groups.blockSize (u32 (offset + i) / groups.blockSize) ≠ some (slot, path)) →
    inode'.iBlock slot = inode.iBlock slot

/-- The loop stops here, and no data was changed since. -/
theorem Wrote.stopped {len total offset : Nat} {complete : Bool} {after : Vfs}
    {view' : Nat → ByteMap} {inode' : Inode}
    (grew : Grew groups loose held p (fun _ _ => False) s view inode after view' inode')
    (part : total ≤ len) (low : offset < 2 ^ 32)
    (whole : (∀ i < len - total, HasBlock groups.blockSize view inode (u32 (offset + i) / groups.blockSize)) →
      complete = true ∧ total = len)
    (beside : ∀ slot, (∀ i < len - total, ∀ path,
      blockPath groups.blockSize (u32 (offset + i) / groups.blockSize) ≠ some (slot, path)) →
      inode'.iBlock slot = inode.iBlock slot) :
    Wrote groups loose held p len total offset s view inode (complete, total, offset) after
      view' inode' := by
  constructor
  · exact grew.mono fun _ _ _ _ => trivial
  · exact Nat.le_refl total
  · exact part
  · rw [Nat.sub_self]
    exact (Nat.mod_eq_of_lt low).symm
  · intro _ pos _
    rw [fileByte, fileByte, grew.fileBlock fun _ _ _ => id]
  · exact whole
  · exact beside

/-- The bytes below the start of a chunk stay. -/
theorem chunk_below {offset chunk pos : Nat} {written : Prop} {after : Vfs}
    {view' : Nat → ByteMap} {inode' : Inode} {blockBuf old : ByteMap} {source : Nat → Byte}
    (grew : Grew groups loose held p (fun slot path => written ∧
      blockPath groups.blockSize (offset / groups.blockSize) = some (slot, path)) s view inode after view' inode')
    (found : fileBlock view groups.blockSize inode (offset / groups.blockSize) = some old)
    (stored : ∃ before, fileBlock view' groups.blockSize inode' (offset / groups.blockSize) =
      some (copy before 0 groups.blockSize (copy (copy blockBuf 0 groups.blockSize old) (offset % groups.blockSize) chunk source)))
    (below : pos < offset) :
    fileByte view' groups.blockSize inode' pos = fileByte view groups.blockSize inode pos := by
  rw [fileByte, fileByte]
  by_cases isBlock : pos / groups.blockSize = offset / groups.blockSize
  · obtain ⟨before, isData⟩ := stored
    have inBlock : pos % groups.blockSize < groups.blockSize :=
      Nat.mod_lt _ groups.sized.small.1
    have front : pos % groups.blockSize < offset % groups.blockSize := by
      have parts := Nat.div_add_mod pos groups.blockSize
      have parts' := Nat.div_add_mod offset groups.blockSize
      rw [isBlock] at parts
      omega
    rw [isBlock, isData, found]
    change copy before 0 groups.blockSize _ (pos % groups.blockSize) = old (pos % groups.blockSize)
    rw [copy_inside _ _ _ _ _ (Nat.zero_le _) (by omega), Nat.sub_zero,
      copy_outside _ _ _ _ _ (Or.inl front),
      copy_inside _ _ _ _ _ (Nat.zero_le _) (by omega), Nat.sub_zero]
  · rw [grew.fileBlock]
    rintro slot path isPos ⟨-, isOffset⟩
    exact isBlock (blockPath_injective isPos isOffset)

/-- The loop of `ext2_file_write`: each pass writes the part of the request in one block and leaves
all other blocks of the file alone. -/
theorem writeBlocks_spec (file : FileState groups loose s view held p inode)
    (room : Multiset.card held + 1 < nBlkNum) {len budget total offset : Nat} (data : ByteMap)
    (enough : len ≤ total + budget) (part : total ≤ len) (low : offset < 2 ^ 32)
    (blockBuf : ByteMap) :
    wp (writeBlocks p len data budget total offset blockBuf) (fun result after =>
      ∃ view' inode', Wrote groups loose held p len total offset s view inode result after
        view' inode') s := by
  induction budget generalizing s view inode total offset blockBuf with
  | zero =>
    obtain rfl : total = len := by omega
    exact wp_pure.mpr ⟨view, inode, Wrote.stopped (file.same _ file.fs.io (SameFs.refl s))
      part low (fun _ => ⟨rfl, rfl⟩) fun _ _ => rfl⟩
  | succ budget inductionHypothesis =>
    rw [writeBlocks, wp_ite]
    split
    · rename_i more
      have size := file.fs.fits.blockSize
      have small : s.blockSize ≤ blkSz := size ▸ groups.sized.small.2
      rw [wp_bind, wp_get]
      apply wp_seq (ext2ReadBlock_spec file.fs.io (by omega) file.isInode file.firmFile small _
        blockBuf)
      rintro block mid ⟨isBlock, ioMid, same⟩
      rw [size] at isBlock ⊢
      have unchanged := file.same (fun _ _ => False) ioMid same
      have first : (∀ i < len - total, HasBlock groups.blockSize view inode (u32 (offset + i) / groups.blockSize)) →
          HasBlock groups.blockSize view inode (offset / groups.blockSize) := by
        intro allocated
        have here := allocated 0 (by omega)
        rwa [Nat.add_zero, u32, Nat.mod_eq_of_lt low] at here
      cases found : fileBlock view groups.blockSize inode (offset / groups.blockSize) with
      | none =>
        rw [found] at isBlock
        subst isBlock
        refine wp_pure.mpr ⟨view, inode, Wrote.stopped unchanged part low (fun allocated => ?_)
          fun _ _ => rfl⟩
        obtain ⟨slot, path, isPath, -⟩ := first allocated
        rw [fileBlock_eq isPath] at found
        cases found
      | some old =>
        rw [found, Option.map_some] at isBlock
        subst isBlock
        obtain ⟨chunk, isChunk⟩ : ∃ chunk,
          chunk = min (groups.blockSize - offset % groups.blockSize) (len - total) := ⟨_, rfl⟩
        simp only [← isChunk]
        have inBlock : offset % groups.blockSize < groups.blockSize :=
      Nat.mod_lt _ groups.sized.small.1
        apply wp_seq (ext2WriteBlock_spec unchanged.file room (offset / groups.blockSize) _)
        rintro done written ⟨view', inode', grew, -, stored, present, beside⟩
        have here : ∀ slot, (∀ i < len - total, ∀ path,
            blockPath groups.blockSize (u32 (offset + i) / groups.blockSize) ≠ some (slot, path)) →
            inode'.iBlock slot = inode.iBlock slot := by
          intro slot others
          have first := others 0 (by omega)
          rw [Nat.add_zero, u32, Nat.mod_eq_of_lt low] at first
          exact beside slot first
        rw [wp_ite]
        split
        · rename_i failed
          subst failed
          have stays := (unchanged.trans grew).mono fun _ _ _ isHit =>
            isHit.elim id fun isHit => absurd isHit.1 Bool.false_ne_true
          refine wp_pure.mpr ⟨view', inode', Wrote.stopped stays part low (fun allocated => ?_) here⟩
          exact absurd (present (first allocated)) Bool.false_ne_true
        · rename_i notFailed
          have isDone : done = true := by
            cases done
            · exact absurd rfl notFailed
            · rfl
          have wrapped : u32 (offset + chunk) < 2 ^ 32 := Nat.mod_lt _ (by decide)
          apply wp_mono (inductionHypothesis grew.file (by omega) (by omega) wrapped _)
          rintro result after ⟨view'', inode'', wrote⟩
          have low' := wrote.low
          have shifted : ∀ i, u32 (u32 (offset + chunk) + i) = u32 (offset + (chunk + i)) := by
            intro i
            unfold u32
            omega
          refine ⟨view'', inode'', ?_⟩
          constructor
          · exact ((unchanged.trans grew).trans wrote.grew).mono fun _ _ _ _ => trivial
          · omega
          · exact wrote.high
          · rw [wrote.position]
            unfold u32
            omega
          · intro fits pos below
            have noWrap : u32 (offset + chunk) = offset + chunk := Nat.mod_eq_of_lt (by omega)
            have later := wrote.below
            rw [noWrap] at later
            rw [later (by omega) pos (by omega)]
            exact chunk_below grew found (stored isDone) below
          · intro allocated
            apply wrote.whole
            intro i less
            rw [shifted]
            exact grew.hasBlock (allocated (chunk + i) (by omega))
          · intro slot others
            rw [wrote.beside slot fun i less => ?_, here slot others]
            rw [shifted]
            exact others (chunk + i) (by omega)
    · rename_i done
      obtain rfl : total = len := by omega
      exact wp_pure.mpr ⟨view, inode, Wrote.stopped (file.same _ file.fs.io (SameFs.refl s))
        part low (fun _ => ⟨rfl, rfl⟩) fun _ _ => rfl⟩

/-- The data depends on the blocks of the nodes only. -/
theorem fileBlock_congr {view' : Nat → ByteMap} {inode' : Inode}
    (top : inode'.iBlock = inode.iBlock)
    (same : ∀ slot path, IsNode groups.blockSize slot path → ptrAt view inode slot path ≠ 0 →
      view' (ptrAt view inode slot path) = view (ptrAt view inode slot path)) (lbk : Nat) :
    fileBlock view' groups.blockSize inode' lbk = fileBlock view groups.blockSize inode lbk := by
  cases found : blockPath groups.blockSize lbk with
  | none =>
    rw [fileBlock, fileBlock, found]
    rfl
  | some place =>
    obtain ⟨slot, path⟩ := place
    have isNode := (blockPath_isNode found).1
    have pointer : ptrAt view' inode' slot path = ptrAt view inode slot path :=
      ptrAt_congr top (fun slot front i isNode => same slot front isNode.parent) slot path isNode
    rw [fileBlock_eq found, fileBlock_eq found, dataAt, dataAt, pointer]
    by_cases isHole : ptrAt view inode slot path = 0
    · rw [if_pos isHole, if_pos isHole]
    · rw [if_neg isHole, if_neg isHole, same slot path isNode isHole]

/-- The blocks of the file, as the cache shows them. -/
theorem FileState.block_eq (file : FileState groups loose s view held p inode) (lbk : Nat) :
    fileBlock s.block groups.blockSize inode lbk = fileBlock view groups.blockSize inode lbk :=
  fileBlock_congr rfl (fun _ _ isNode isBlock =>
    file.fs.io.block_eq _ (file.firm isNode isBlock)) lbk

/-- The object with other fields. -/
theorem FileState.setInode (file : FileState groups loose s view held p inode) {inode' : Inode}
    (ino : inode'.ino = inode.ino) (valid : inode'.valid = inode.valid)
    (top : inode'.iBlock = inode.iBlock) :
    FileState groups loose (s.setInode p inode') view held p inode' := by
  have pointers : ∀ slot path, ptrAt view inode' slot path = ptrAt view inode slot path := by
    intro slot path
    rw [ptrAt, ptrAt, top]
  constructor
  · exact file.fs.setInode p inode'
  · exact Function.update_self ..
  · rw [valid]
    exact file.valid
  · rw [ino]
    exact file.number
  · intro slot path isNode isBlock
    rw [pointers] at isBlock ⊢
    obtain ⟨used, notMetadata, notTable⟩ := file.owned slot path isNode isBlock
    exact ⟨used, notMetadata, notTable⟩
  · intro slot path slot' path' isNode isNode' isBlock same
    rw [pointers] at isBlock
    rw [pointers, pointers] at same
    exact file.distinct slot path slot' path' isNode isNode' isBlock same

/-- The slot of an inode lies in an inode table. -/
theorem FsState.slot (fs : FsState groups loose s view held) {ino : Nat}
    (isInode : groups.IsInode ino) : sub32 ino 1 / s.inodePerGroup < s.groupCount ∧
      (s.slotOf ino).2 + 100 ≤ blkSz ∧ groups.InTable s (s.slotOf ino).1 := by
  obtain ⟨g, place, isSlot⟩ := slotAt fs.tables fs.fits isInode
  refine ⟨?_, isSlot.inBuffer fs.tables.least, g, isSlot.group, place / groups.blockSize,
    isSlot.inTable fs.tables.least, isSlot.block⟩
  rw [isSlot.index, fs.fits.groupCount]
  exact isSlot.group

/-- The inode is written to its slot, which is no block of the file. -/
theorem FileState.written (file : FileState groups loose s view held p inode)
    (room : Multiset.card held < nBlkNum) : wp (ext2WriteInode p) (fun done after => done = true ∧
      Grew groups loose held p (fun _ _ => False) s view inode after (writtenSlot view s inode)
        { inode with dirty := false }) s := by
  obtain ⟨inRange, inBlock, inTable⟩ := file.fs.slot file.number
  apply wp_mono (ext2WriteInode_spec file.fs.io room file.isInode file.valid inRange inBlock)
  rintro done after ⟨isDone, io, same⟩
  refine ⟨isDone, ?_⟩
  have cleaned : FileState groups loose (s.setInode p { inode with dirty := false }) view held p
      { inode with dirty := false } := file.setInode rfl rfl rfl
  have metadata : ∀ no, groups.Metadata no → writtenSlot view s inode no = view no := by
    intro no isMetadata
    apply writtenSlot_beside
    rintro rfl
    exact file.fs.table_plain inTable isMetadata
  have nodes : ∀ slot path, IsNode groups.blockSize slot path → ptrAt view inode slot path ≠ 0 →
      writtenSlot view s inode (ptrAt view inode slot path) = view (ptrAt view inode slot path) := by
    intro slot path isNode isBlock
    apply writtenSlot_beside
    intro isSlot
    apply (file.owned slot path isNode isBlock).notTable
    rw [isSlot]
    exact inTable
  have settled := cleaned.elsewhere io same metadata nodes
  have setup : SameSetup s (s.setInode p { inode with dirty := false }) := ⟨rfl, fun _ => rfl, rfl⟩
  constructor
  · exact settled.file
  · exact setup.trans settled.setup
  · rfl
  · intro q other
    rw [settled.inodes q other]
    exact Function.update_of_ne other _ _
  · exact settled.grows
  · exact settled.kept

/-- The steps behind the loop leave the blocks and the data. -/
theorem growFile_spec (file : FileState groups loose s view held p inode)
    (room : Multiset.card held < nBlkNum) (offset : Nat) :
    wp (growFile p offset) (fun _ after => ∃ view' inode',
      FileState groups loose after view' held p inode' ∧ SameSetup s after ∧
      inode'.ino = inode.ino ∧ inode'.iBlock = inode.iBlock ∧
      ∀ lbk, fileBlock view' groups.blockSize inode' lbk = fileBlock view groups.blockSize inode lbk) s := by
  have resized : wp (onlyIf (inode.size < offset)
      (updateInode p fun inode => { inode with size := offset, dirty := true })) (fun _ mid =>
      ∃ grown, FileState groups loose mid view held p grown ∧ SameSetup s mid ∧
        grown.ino = inode.ino ∧ grown.iBlock = inode.iBlock) s := by
    rw [wp_onlyIf]
    split
    · rw [wp_updateInode file.isInode]
      exact ⟨_, file.setInode rfl rfl rfl, ⟨rfl, fun _ => rfl, rfl⟩, rfl, rfl⟩
    · exact ⟨inode, file, SameSetup.of_sameFs (SameFs.refl s), rfl, rfl⟩
  rw [growFile, wp_bind, wp_derefInode file.isInode]
  apply wp_seq resized
  rintro - mid ⟨grown, fileMid, setup, number, top⟩
  have data : ∀ lbk, fileBlock view groups.blockSize grown lbk = fileBlock view groups.blockSize inode lbk :=
    fileBlock_congr top fun _ _ _ _ => rfl
  rw [wp_bind, wp_derefInode fileMid.isInode, wp_onlyIf]
  split
  · apply wp_seq (fileMid.written room)
    rintro - after ⟨-, written⟩
    refine wp_pure.mpr ⟨_, _, written.file, setup.trans written.setup, number, top, fun lbk => ?_⟩
    rw [← data lbk]
    exact written.fileBlock fun _ _ _ => id
  · exact ⟨view, grown, fileMid, setup, number, top, data⟩

end

/-- A write leaves the bytes in front of its start, and moves the offset by the count that
it returns. -/
def KeepsStart (s : Vfs) (p : Nat) (inode : Inode) (len offset : Nat) : Prop :=
  ∀ data, wp (ext2FileWrite p len offset data) (fun result after =>
    ∃ inode', after.inodes p = some inode' ∧
    (∀ pos < offset, fileByte after.block s.blockSize inode' pos =
      fileByte s.block s.blockSize inode pos) ∧
    (0 ≤ result.1 → (result.2 : Int) = offset + result.1)) s

theorem i32_small {n : Nat} (small : n < 2 ^ 32) (positive : 0 ≤ i32 n) : i32 n = n := by
  unfold i32 at positive ⊢
  split at positive
  · rename_i low
    rw [if_pos low, Nat.mod_eq_of_lt small]
  · omega

section

variable {groups : Groups} {loose : Nat → Nat → Prop} {s : Vfs} {view : Nat → ByteMap}
  {held : Multiset Nat} {p : Nat} {inode : Inode} {len offset : Nat}

/-- Below the limit of the offset type the write is right. -/
theorem keeps_start_of_fits (file : FileState groups loose s view held p inode)
    (room : Multiset.card held + 1 < nBlkNum) (fits : offset + len < 2 ^ 32) :
    KeepsStart s p inode len offset := by
  intro data
  have size := file.fs.fits.blockSize
  have mounted : ¬ blkSz < groups.blockSize := Nat.not_lt.mpr groups.sized.small.2
  rw [ext2FileWrite, wp_bind, wp_get, size, if_neg mounted, wp_ite]
  split
  · refine wp_pure.mpr ⟨inode, file.isInode, fun _ _ => rfl, fun _ => ?_⟩
    exact (Int.add_zero _).symm
  · apply wp_seq (writeBlocks_spec file room data (Nat.zero_add len).ge (Nat.zero_le len)
      (by omega) _)
    rintro ends mid ⟨view', inode', wrote⟩
    have high := wrote.high
    have position : ends.2.2 = offset + ends.2.1 := by
      rw [wrote.position, Nat.sub_zero]
      exact Nat.mod_eq_of_lt (by omega)
    have below : ∀ pos < offset, fileByte view' groups.blockSize inode' pos = fileByte s.block groups.blockSize inode pos := by
      intro pos less
      rw [wrote.below (by omega) pos less, fileByte, fileByte, file.block_eq]
    have count : 0 ≤ i32 ends.2.1 → (ends.2.2 : Int) = offset + i32 ends.2.1 := by
      intro positive
      rw [i32_small (by omega) positive, position]
      exact Nat.cast_add _ _
    rw [wp_ite]
    split
    · refine wp_pure.mpr ⟨inode', wrote.grew.file.isInode, ?_, ?_⟩
      · intro pos less
        rw [← below pos less, fileByte, fileByte, wrote.grew.file.block_eq]
      · intro positive
        split at positive
        · rename_i some
          rw [if_pos some]
          exact count positive
        · omega
    · apply wp_seq (growFile_spec wrote.grew.file (by omega) ends.2.2)
      rintro - after ⟨view'', last, fileLast, -, -, -, same⟩
      refine wp_pure.mpr ⟨last, fileLast.isInode, ?_, count⟩
      intro pos less
      rw [← below pos less, fileByte, fileByte, fileLast.block_eq, same]

/-- A write that needs no new block comes to its end, and the offset wraps. -/
theorem wraps_past_limit (file : FileState groups loose s view held p inode)
    (room : Multiset.card held + 1 < nBlkNum) (low : offset < 2 ^ 32) (positive : 0 < len)
    (short : len < 2 ^ 31)
    (allocated : ∀ i < len, HasBlock groups.blockSize view inode (u32 (offset + i) / groups.blockSize))
    (wraps : 2 ^ 32 ≤ offset + len) : ¬ KeepsStart s p inode len offset := by
  intro keeps
  obtain ⟨result, after, returned, inode', -, -, count⟩ := keeps fun _ => 0
  have size := file.fs.fits.blockSize
  have mounted : ¬ blkSz < groups.blockSize := Nat.not_lt.mpr groups.sized.small.2
  have wrapped : wp (ext2FileWrite p len offset fun _ => 0) (fun result _ =>
      result = (i32 len, u32 (offset + len))) s := by
    rw [ext2FileWrite, wp_bind, wp_get, size, if_neg mounted,
      if_neg (Nat.ne_of_gt positive)]
    apply wp_seq (writeBlocks_spec file room _ (Nat.zero_add len).ge (Nat.zero_le len) low _)
    rintro ends mid ⟨view', inode', wrote⟩
    obtain ⟨isDone, isLen⟩ := wrote.whole allocated
    have position := wrote.position
    rw [isLen, Nat.sub_zero] at position
    rw [isDone, isLen, position, if_neg fun same => Bool.false_ne_true same.symm]
    apply wp_seq (growFile_spec wrote.grew.file (by omega) _)
    rintro - after -
    exact wp_pure.mpr rfl
  have isResult := wrapped.of_returns returned
  rw [isResult] at count
  have isCount : i32 len = len := by
    rw [i32, Nat.mod_eq_of_lt (by omega), if_pos short]
  simp only [isCount] at count
  have moved := count (Int.natCast_nonneg len)
  have mod : u32 (offset + len) < 2 ^ 32 := Nat.mod_lt _ (by decide)
  omega

end

/-! ## A file with a block at the end of the offset type -/

/-- The small disk with three more blocks in use: two index blocks and a data block. -/
def wideDisk : Nat → ByteMap
  | 0 => store (smallDisk 0) 1036 4 91
  | 1 => store (smallDisk 1) 12 2 91
  | 2 => store (smallDisk 2) 0 2 0x1FF
  | 6 => blockOf [(4088, 4, 7)]
  | 7 => blockOf [(4044, 4, 8)]
  | no => smallDisk no

/-- A sparse file. Its block is the one of the last position. -/
def wideInode : Inode where
  ino := 11
  type := .file
  mode := 0x81a4
  uid := 0
  gid := 0
  size := 4294967295
  nlinks := 1
  ref := 1
  dirty := false
  valid := true
  iBlock i := if i.val = 13 then 6 else 0
  iFlags := 0

/-- The nodes of the file that have a block. -/
theorem wide_nodes {slot : Fin nBlocks} {path : List Nat}
    (isNode : IsNode oneGroup.blockSize slot path)
    (isBlock : ptrAt wideDisk wideInode slot path ≠ 0) : slot.val = 13 ∧
      (path = [] ∧ ptrAt wideDisk wideInode slot path = 6 ∨
      path = [1022] ∧ ptrAt wideDisk wideInode slot path = 7 ∨
      path = [1022, 1011] ∧ ptrAt wideDisk wideInode slot path = 8) := by
  by_cases isDouble : slot.val = 13
  · have top : ptrAt wideDisk wideInode slot [] = 6 := if_pos isDouble
    have one : ∀ i, ptrAt wideDisk wideInode slot [i] = if i = 1022 then 7 else 0 := by
      intro i
      rw [← List.nil_append [i], ptrAt_append, top]
      exact load_single 1022 7 i
    have two : ∀ j, ptrAt wideDisk wideInode slot [1022, j] = if j = 1011 then 8 else 0 := by
      intro j
      change ptrAt wideDisk wideInode slot ([1022] ++ [j]) = _
      rw [ptrAt_append, one, if_pos rfl]
      exact load_single 1011 8 j
    have depth := isNode.depth
    rw [levelOf, isDouble] at depth
    refine ⟨isDouble, ?_⟩
    cases path with
    | nil => exact Or.inl ⟨rfl, top⟩
    | cons i rest =>
      have isIndex : i = 1022 := by
        by_contra other
        exact isBlock (ptrAt_below wideDisk wideInode slot [i] rest
          ((one i).trans (if_neg other)))
      subst isIndex
      cases rest with
      | nil => exact Or.inr (Or.inl ⟨rfl, (one 1022).trans (if_pos rfl)⟩)
      | cons j more =>
        have isLast : j = 1011 := by
          by_contra other
          exact isBlock (ptrAt_below wideDisk wideInode slot [1022, j] more
            ((two j).trans (if_neg other)))
        subst isLast
        cases more with
        | nil => exact Or.inr (Or.inr ⟨rfl, (two 1011).trans (if_pos rfl)⟩)
        | cons k more =>
          rw [List.length_cons, List.length_cons, List.length_cons] at depth
          omega
  · have top : ptrAt wideDisk wideInode slot [] = 0 := if_neg isDouble
    exact absurd (ptrAt_below wideDisk wideInode slot [] path top) isBlock

theorem root_nodes {disk : Nat → ByteMap} {slot : Fin nBlocks} {path : List Nat}
    (isNode : IsNode oneGroup.blockSize slot path) (isBlock : ptrAt disk rootInode slot path ≠ 0) :
    slot.val = 0 ∧ path = [] ∧ ptrAt disk rootInode slot path = 5 := by
  by_cases isFirst : slot.val = 0
  · have depth := isNode.depth
    rw [levelOf, isFirst] at depth
    obtain rfl : path = [] := List.eq_nil_of_length_eq_zero (Nat.le_zero.mp depth)
    exact ⟨isFirst, rfl, if_pos isFirst⟩
  · have top : ptrAt disk rootInode slot [] = 0 := if_neg isFirst
    exact absurd (ptrAt_below disk rootInode slot [] path top) isBlock

/-- The file is in order wherever its blocks are in use. -/
theorem FileState.of_wide {s : Vfs} {p : Nat}
    (fs : FsState oneGroup (fun _ _ => False) s wideDisk {0})
    (isInode : s.inodes p = some wideInode)
    (plain : ∀ no, 6 ≤ no → no < 9 → oneGroup.Plain s wideDisk no) :
    FileState oneGroup (fun _ _ => False) s wideDisk {0} p wideInode := by
  constructor
  · exact fs
  · exact isInode
  · rfl
  · exact ⟨by decide, by decide⟩
  · intro slot path isNode isBlock
    obtain ⟨-, ⟨-, is⟩ | ⟨-, is⟩ | ⟨-, is⟩⟩ := wide_nodes isNode isBlock
    all_goals
      rw [is]
      exact plain _ (by decide) (by decide)
  · intro slot path slot' path' isNode isNode' isBlock same
    obtain ⟨isSlot, here⟩ := wide_nodes isNode isBlock
    obtain ⟨isSlot', there⟩ := wide_nodes isNode' (same ▸ isBlock)
    refine ⟨Fin.ext (isSlot.trans isSlot'.symm), ?_⟩
    rcases here with ⟨rfl, is⟩ | ⟨rfl, is⟩ | ⟨rfl, is⟩ <;>
      rcases there with ⟨rfl, is'⟩ | ⟨rfl, is'⟩ | ⟨rfl, is'⟩ <;>
      first | rfl | exact absurd (is.symm.trans (same.trans is')) (by decide)

/-- The root directory is in order where its block is in use. -/
theorem FileState.of_root {s : Vfs} {disk : Nat → ByteMap} {p : Nat}
    (fs : FsState oneGroup (fun _ _ => False) s disk {0}) (isInode : s.inodes p = some rootInode)
    (plain : oneGroup.Plain s disk 5) :
    FileState oneGroup (fun _ _ => False) s disk {0} p rootInode := by
  constructor
  · exact fs
  · exact isInode
  · rfl
  · exact ⟨by decide, by decide⟩
  · intro slot path isNode isBlock
    obtain ⟨-, -, is⟩ := root_nodes isNode isBlock
    rwa [is]
  · intro slot path slot' path' isNode isNode' isBlock same
    obtain ⟨isSlot, isPath, -⟩ := root_nodes isNode isBlock
    obtain ⟨isSlot', isPath', -⟩ := root_nodes isNode' (same ▸ isBlock)
    exact ⟨Fin.ext (isSlot.trans isSlot'.symm), isPath.trans isPath'.symm⟩

theorem wide_counted : CountedDisk wideDisk :=
  ⟨by decide +kernel, by decide +kernel, by decide +kernel⟩

theorem wide_taken : ∀ c < 9, bitAt (wideDisk 2) c = true := by decide +kernel

theorem wide_file : ∃ s, FileState oneGroup (fun _ _ => False) s wideDisk {0} 0 wideInode ∧
    s.inodes = soleInode wideInode := by
  obtain ⟨i, caches, -, fs, plain⟩ := exists_fsState (soleInode wideInode) wide_counted
    (by decide +kernel) (by decide) wide_taken
  exact ⟨mountedOne wideDisk (soleInode wideInode) i caches,
    FileState.of_wide fs rfl fun no low => plain no (by omega), rfl⟩

theorem wide_hasBlock : HasBlock oneGroup.blockSize wideDisk wideInode 1048575 := by
  refine ⟨13, [1022, 1011], rfl, ?_⟩
  decide +kernel

end CuteCore.Fs
