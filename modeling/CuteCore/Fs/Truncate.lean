import CuteCore.Fs.Balance
import CuteCore.Fs.InodeSlots

/-!
# Freeing the blocks of an inode

`ext2_free_branch` walks a tree of blocks and frees it from the leaves up. No block of
the tree is one of the blocks that freeing changes, so the walk sees the tree as it was
at the start, and the blocks are freed that hang off the inode then.
-/

namespace CuteCore.Fs

open Hoare Bytes BlkCache

/-- The blocks of a branch with `level` levels of index blocks, in the order in which
they are freed. -/
def branchBlocks (view : Nat → ByteMap) (perBlk : Nat) : Nat → Nat → List Nat
  | 0, no => if no = 0 then [] else [no]
  | level + 1, no =>
    if no = 0 then []
    else
      (List.range perBlk).flatMap
        (fun i => branchBlocks view perBlk level (load (view no) (4 * i) 4)) ++ [no]

/-- All data and index blocks of an inode. -/
def treeBlocks (view : Nat → ByteMap) (perBlk : Nat) (inode : Inode) : List Nat :=
  (List.finRange nBlocks).flatMap fun i => branchBlocks view perBlk (levelOf i) (inode.iBlock i)

/-- A block that belongs to a group. -/
def Groups.InGroup (groups : Groups) (no : Nat) : Prop :=
  ∃ g < groups.count, ∃ c < groups.limit .block g, no = groups.number .block g c

/-- The group of a block. -/
def Groups.groupOf (groups : Groups) (no : Nat) : Nat := (no - groups.first) / groups.perGroup

/-- A branch depends on its own blocks only. -/
theorem branchBlocks_congr {view view' : Nat → ByteMap} {perBlk : Nat} (level no : Nat)
    (same : ∀ b ∈ branchBlocks view perBlk level no, view' b = view b) :
    branchBlocks view' perBlk level no = branchBlocks view perBlk level no := by
  induction level generalizing no with
  | zero => rfl
  | succ level inductionHypothesis =>
    by_cases isHole : no = 0
    · rw [branchBlocks, branchBlocks, if_pos isHole, if_pos isHole]
    · rw [branchBlocks, if_neg isHole] at same
      rw [branchBlocks, branchBlocks, if_neg isHole, if_neg isHole,
        same no (List.mem_append_right _ (List.mem_singleton_self no))]
      congr 1
      apply List.flatMap_congr
      intro i member
      apply inductionHypothesis
      intro b inBranch
      exact same b (List.mem_append_left _ (List.mem_flatMap.mpr ⟨i, member, inBranch⟩))

/-- What freeing the listed blocks does: their bits are cleared, the free counters go up
by their number, each on its own width, and other blocks are as before. -/
structure Freed (groups : Groups) (s : Vfs) (view : Nat → ByteMap) (after : Vfs)
    (view' : Nat → ByteMap) (freed : List Nat) : Prop where
  fits : Fits groups after view'
  inodeSize : after.inodeSize = s.inodeSize
  tables : ∀ g, after.groupField g 8 4 = s.groupField g 8 4
  bits : ∀ w, ∀ g < groups.count, ∀ c, bitAt (view' (groups.bitmap w g)) c =
    (bitAt (view (groups.bitmap w g)) c &&
      !decide (w = .block ∧ c < groups.limit w g ∧ groups.number w g c ∈ freed))
  super : load (view' 0) 1036 4 = (load (view 0) 1036 4 + freed.length) % 2 ^ 32
  group : ∀ g < groups.count, after.groupField g 12 2 =
    (s.groupField g 12 2 + freed.countP fun no => groups.groupOf no = g) % 2 ^ 16
  others : ∀ no, ¬ groups.Metadata no → view' no = view no

namespace Freed

variable {groups : Groups} {s mid after : Vfs} {view view' view'' : Nat → ByteMap}
  {freed more : List Nat}

theorem nil (fits : Fits groups s view) : Freed groups s view s view [] := by
  constructor
  · exact fits
  · rfl
  · exact fun _ => rfl
  · intro w g _ c
    simp
  · exact (Nat.mod_eq_of_lt (load_lt _ _ 4)).symm
  · intro g _
    exact (Nat.mod_eq_of_lt (load_lt _ _ 2)).symm
  · exact fun _ _ => rfl

/-- Blocks freed one after the other are freed together. -/
theorem append (first : Freed groups s view mid view' freed)
    (second : Freed groups mid view' after view'' more) :
    Freed groups s view after view'' (freed ++ more) := by
  constructor
  · exact second.fits
  · exact second.inodeSize.trans first.inodeSize
  · exact fun g => (second.tables g).trans (first.tables g)
  · intro w g inside c
    rw [second.bits w g inside c, first.bits w g inside c]
    simp only [List.mem_append, and_or_left, Bool.decide_or, Bool.not_or, Bool.and_assoc]
  · rw [second.super, first.super, List.length_append]
    omega
  · intro g inside
    rw [second.group g inside, first.group g inside, List.countP_append]
    omega
  · exact fun no plain => (second.others no plain).trans (first.others no plain)

/-- Buffers do not count. -/
theorem sameFs {s' after' : Vfs} (all : Freed groups mid view after view' freed)
    (first : SameFs s' mid) (last : SameFs after after') :
    Freed groups s' view after' view' freed := by
  have fits := all.fits
  unfold SameFs at first last
  rw [← first] at all
  rw [← last]
  exact ⟨{ fits with }, all.inodeSize, all.tables, all.bits, all.super, all.group, all.others⟩

end Freed

/-- A block number names its group and its bit. -/
theorem Groups.number_block (groups : Groups) {g c : Nat} (below : c < groups.limit .block g) :
    groups.groupOf (groups.number .block g c) = g ∧
      (groups.number .block g c - groups.first) % groups.perGroup = c := by
  have few : c < groups.perGroup := Nat.lt_of_lt_of_le below (Nat.min_le_left _ _)
  have number : groups.number .block g c = groups.first + (g * groups.perGroup + c) :=
    Nat.add_assoc _ _ _
  rw [Groups.groupOf, number, Nat.add_sub_cancel_left]
  exact div_mod_of_lt g groups.perGroup c few

section

variable {groups : Groups} {loose : Nat → Nat → Prop} {s : Vfs} {view : Nat → ByteMap}
  {held : Multiset Nat}

/-- A program that gives back its buffers leaves those of others in place. -/
theorem keeps_buffers {α : Type} {room : Nat} {program : FsProg α} {post : α → Vfs → Prop}
    {pending : Nat → Prop} (givesBack : GivesBack loose room program)
    (io : Io loose s view pending held) (enough : Multiset.card held + room ≤ nBlkNum)
    (holds : wp program post s) :
    wp program (fun a after => post a after ∧ KeepsBuffers s after held) s := by
  obtain ⟨a, after, returned, met⟩ := holds
  have kept := (givesBack.run s pending held ⟨view, io⟩ enough).of_returns returned
  exact ⟨a, after, returned, met, kept.2⟩

/-- The blocks after one was given back. -/
theorem Freed.single (fits : Fits groups s view) {after : Vfs} {g c : Nat}
    (inside : g < groups.count) (below : c < groups.limit .block g)
    (same : SameButTable s after (countedTable s.gbTable blocks g 1)) :
    Freed groups s view after (givenBlocks groups view s.gbTable .block g c)
      [groups.number .block g c] := by
  have isTable : after.gbTable = countedTable s.gbTable blocks g 1 := by
    unfold SameButTable at same
    rw [← same]
  obtain ⟨isG, isC⟩ := groups.number_block below
  constructor
  · exact fits.moved inside same
  · unfold SameButTable at same
    rw [← same]
  · intro g'
    rw [Vfs.groupField, isTable, countedTable]
    exact load_store_apart _ _ _ _ _ _ (by simp only [blocks]; omega)
  · intro w g' inside' c'
    rw [givenBlocks, moved_bitmap fits inside w g' inside']
    by_cases isSame : w = .block ∧ g' = g
    · obtain ⟨rfl, rfl⟩ := isSame
      rw [if_pos ⟨rfl, rfl⟩, bitAt_clearBit]
      by_cases isBit : c' = c
      · subst isBit
        simp [below]
      · have differs : ¬ (Which.block = .block ∧ c' < groups.limit .block g' ∧
            groups.number .block g' c' ∈ [groups.number .block g' c]) := by
          rintro ⟨-, below', member⟩
          have isNumber := List.mem_singleton.mp member
          have isC' := (groups.number_block below').2
          rw [isNumber, isC] at isC'
          exact isBit isC'.symm
        rw [decide_eq_false isBit, decide_eq_false differs, Bool.not_false, Bool.true_and,
          Bool.and_true]
    · have differs : ¬ (w = .block ∧ c' < groups.limit w g' ∧
          groups.number w g' c' ∈ [groups.number .block g c]) := by
        rintro ⟨rfl, below', member⟩
        have isG' := (groups.number_block below').1
        rw [List.mem_singleton.mp member, isG] at isG'
        exact isSame ⟨rfl, isG'.symm⟩
      rw [if_neg isSame, decide_eq_false differs, Bool.not_false, Bool.and_true]
  · have isSuper : givenBlocks groups view s.gbTable .block g c 0 =
        store (view 0) 1036 4 (load (view 0) 1036 4 + 1) := moved_super fits inside
    rw [isSuper, load_store_same]
    rfl
  · intro g' _
    rw [Vfs.groupField, isTable, countedTable]
    by_cases isSame : g' = g
    · subst isSame
      have read := load_store_same s.gbTable (g' * 32 + 12) 2 (load s.gbTable (g' * 32 + 12) 2 + 1)
      simp only [List.countP_cons, List.countP_nil, isG, decide_true, if_true]
      exact read
    · have apart : load (store s.gbTable (g * 32 + 12) 2 (load s.gbTable (g * 32 + 12) 2 + 1))
          (g' * 32 + 12) 2 = load s.gbTable (g' * 32 + 12) 2 :=
        load_store_apart _ _ _ _ _ _ (by omega)
      have small := load_lt s.gbTable (g' * 32 + 12) 2
      have none : List.countP (fun no => decide (groups.groupOf no = g'))
          [groups.number .block g c] = 0 := by
        simp [isG, Ne.symm isSame]
      rw [none]
      exact apart.trans (Nat.mod_eq_of_lt small).symm
  · intro no plain
    have notSuper : no ≠ 0 := fun zero => plain (Or.inl zero)
    have notTable : no ≠ groups.first + 1 + g / (groups.blockSize / 32) :=
      fun isTable => plain (Or.inr (Or.inl ⟨g, inside, isTable⟩))
    have notBitmap : no ≠ groups.bitmap .block g :=
      fun isBitmap => plain (Or.inr (Or.inr ⟨.block, g, inside, isBitmap⟩))
    rw [givenBlocks, moved_eq fits inside no notSuper notTable, if_neg notBitmap]

/-- `ext2_free_block` of a block in a group clears its bit and counts it, and touches no inode. -/
theorem ext2FreeBlock_spec (io : Io loose s view (fun _ => False) held) (tight : Tight groups loose)
    (fits : Fits groups s view) (room : Multiset.card held < nBlkNum) {no : Nat}
    (inGroup : groups.InGroup no) (positive : no ≠ 0) :
    wp (ext2FreeBlock no) (fun _ after => (∃ view', Io loose after view' (fun _ => False) held ∧
      Freed groups s view after view' [no] ∧ after.inodes = s.inodes) ∧
      KeepsBuffers s after held) s := by
  apply keeps_buffers (@GivesBack.ext2FreeBlock loose 0 no) io (by omega)
  obtain ⟨g, inside, c, below, rfl⟩ := inGroup
  obtain ⟨isG, isC⟩ := groups.number_block below
  rw [Groups.groupOf] at isG
  have most := groups.limit_le .block g
  have low : groups.first ≤ groups.number .block g c := by
    change groups.first ≤ groups.first + g * groups.perGroup + c
    omega
  rw [ext2FreeBlock]
  apply wp_seq (io.loadSuper_spec (by decide) tight.super)
  intro first mid loaded
  rw [loaded.1, loaded.2]
  apply wp_seq (io.loadSuper_spec (by decide) tight.super)
  intro perGroup mid' loaded'
  rw [loaded'.1, loaded'.2, wp_onlyIf, fits.first, fits.perGroup, isG, isC, if_pos ⟨positive, low⟩]
  apply wp_mono (freeBit_spec io tight fits room .block g c inside (by omega))
  rintro - after ⟨same, ioAfter⟩
  refine ⟨_, ioAfter, Freed.single fits inside below same, ?_⟩
  unfold SameButTable at same
  rw [← same]

/-- Blocks that belong to groups and are none of the metadata. -/
def Freeable (groups : Groups) (loose : Nat → Nat → Prop) (nos : List Nat) : Prop :=
  ∀ no ∈ nos, groups.InGroup no ∧ ¬ groups.Metadata no ∧ ∀ x, ¬ loose no x

/-- What is known after the listed blocks were freed. -/
def FreedIo (groups : Groups) (loose : Nat → Nat → Prop) (s : Vfs) (view : Nat → ByteMap)
    (held : Multiset Nat) (freed : List Nat) (after : Vfs) : Prop :=
  (∃ view', Io loose after view' (fun _ => False) held ∧ Freed groups s view after view' freed ∧
    after.inodes = s.inodes) ∧ KeepsBuffers s after held

/-- The passes over the pointers of an index block, from `start` on. The walk changes
metadata only, so it reads the pointers that were there at first. -/
theorem freePointers_spec {no level : Nat} (firm : ∀ x, ¬ loose no x)
    (plain : ¬ groups.Metadata no)
    (branch : ∀ (m : Vfs) (view' : Nat → ByteMap) (child : Nat),
      Io loose m view' (fun _ => False) (no ::ₘ held) → Fits groups m view' →
      Freeable groups loose (branchBlocks view' (groups.blockSize / 4) level child) →
      wp (ext2FreeBranch level child) (fun _ after => FreedIo groups loose m view' (no ::ₘ held)
        (branchBlocks view' (groups.blockSize / 4) level child) after) m)
    {cache : Fin nBlkNum} (count start : Nat) {m : Vfs} {view' : Nat → ByteMap}
    (isEnd : start + count = groups.blockSize / 4)
    (io : Io loose m view' (fun _ => False) (no ::ₘ held))
    (buffers : m.caches.Buffers cache no) (fits : Fits groups m view')
    (same : ∀ b, ¬ groups.Metadata b → view' b = view b)
    (freeable : ∀ i < groups.blockSize / 4,
      Freeable groups loose (branchBlocks view (groups.blockSize / 4) level (load (view no) (4 * i) 4))) :
    wp (forRange (fun i => do
      let ptr ← loadBuf cache (4 * i) 4
      onlyIf (ptr ≠ 0) (ext2FreeBranch level ptr)) count start) (fun _ after =>
      FreedIo groups loose m view' (no ::ₘ held) ((List.range' start count).flatMap
        fun i => branchBlocks view (groups.blockSize / 4) level (load (view no) (4 * i) 4)) after) m := by
  induction count generalizing start m view' with
  | zero =>
    exact wp_pure.mpr ⟨⟨view', io, Freed.nil fits, rfl⟩, KeepsBuffers.refl _ _⟩
  | succ count inductionHypothesis =>
    have small := groups.sized.small.2
    rw [forRange, wp_bind]
    apply wp_seq (io.loadBuf_spec buffers (by omega) fun x _ _ => firm x)
    intro ptr m' loaded
    rw [loaded.1, loaded.2, same no plain]
    have isFreeable := freeable start (by omega)
    obtain ⟨child, isChild⟩ : ∃ child, child = load (view no) (4 * start) 4 := ⟨_, rfl⟩
    rw [← isChild] at isFreeable ⊢
    have sameBranch : branchBlocks view' (groups.blockSize / 4) level child = branchBlocks view (groups.blockSize / 4) level child :=
      branchBlocks_congr level child fun b member => same b (isFreeable b member).2.1
    have one : wp (onlyIf (child ≠ 0) (ext2FreeBranch level child)) (fun _ after =>
        FreedIo groups loose m view' (no ::ₘ held) (branchBlocks view (groups.blockSize / 4) level child) after)
        m := by
      rw [wp_onlyIf]
      split
      · rw [← sameBranch]
        rw [← sameBranch] at isFreeable
        exact branch m view' child io fits isFreeable
      · rename_i isZero
        have none : branchBlocks view (groups.blockSize / 4) level child = [] := by
          rw [not_not.mp isZero]
          cases level with
          | zero => rfl
          | succ level => rw [branchBlocks, if_pos rfl]
        rw [none]
        exact ⟨⟨view', io, Freed.nil fits, rfl⟩, KeepsBuffers.refl _ _⟩
    apply wp_mono one
    rintro - next ⟨⟨viewNext, ioNext, freed, sameInodes⟩, kept⟩
    apply wp_mono (inductionHypothesis (start + 1) (by omega) ioNext
      (kept cache no (Multiset.mem_cons_self ..) buffers) freed.fits
      fun b isPlain => (freed.others b isPlain).trans (same b isPlain))
    rintro - last ⟨⟨viewLast, ioLast, more, sameInodes'⟩, kept'⟩
    constructor
    · refine ⟨viewLast, ioLast, ?_, sameInodes'.trans sameInodes⟩
      rw [List.range'_succ, List.flatMap_cons, ← isChild]
      exact freed.append more
    · exact kept.trans kept' (le_refl _)

/-- A branch frees its blocks from the leaves up. -/
theorem ext2FreeBranch_spec (tight : Tight groups loose) (level : Nat) {s : Vfs}
    {view : Nat → ByteMap} {held : Multiset Nat} (io : Io loose s view (fun _ => False) held)
    (fits : Fits groups s view) (room : Multiset.card held + level < nBlkNum) (no : Nat)
    (freeable : Freeable groups loose (branchBlocks view (groups.blockSize / 4) level no)) :
    wp (ext2FreeBranch level no) (fun _ after =>
      FreedIo groups loose s view held (branchBlocks view (groups.blockSize / 4) level no) after) s := by
  induction level generalizing s view held no with
  | zero =>
    rw [ext2FreeBranch, branchBlocks, wp_onlyIf]
    rw [branchBlocks] at freeable
    by_cases isHole : no = 0
    · rw [if_neg (not_not.mpr isHole), if_pos isHole]
      exact ⟨⟨view, io, Freed.nil fits, rfl⟩, KeepsBuffers.refl s held⟩
    · rw [if_neg isHole] at freeable
      rw [if_pos isHole, if_neg isHole]
      exact ext2FreeBlock_spec io tight fits room
        (freeable no (List.mem_singleton_self no)).1 isHole
  | succ level inductionHypothesis =>
    rw [ext2FreeBranch, branchBlocks, wp_onlyIf]
    rw [branchBlocks] at freeable
    by_cases isHole : no = 0
    · rw [if_neg (not_not.mpr isHole), if_pos isHole]
      exact ⟨⟨view, io, Freed.nil fits, rfl⟩, KeepsBuffers.refl s held⟩
    · rw [if_neg isHole] at freeable
      rw [if_pos isHole, if_neg isHole]
      obtain ⟨inGroup, plain, firm⟩ :=
        freeable no (List.mem_append_right _ (List.mem_singleton_self no))
      apply wp_seq (io.bread_spec no (by omega))
      rintro cache mid ⟨ioMid, same, buffers, kept⟩
      have fitsMid : Fits groups mid view := by
        unfold SameFs at same
        rw [← same]
        exact { fits with }
      have perBlk : mid.blockSize / 4 = groups.blockSize / 4 := by rw [fitsMid.blockSize]
      rw [wp_bind, wp_get, perBlk]
      have branch : ∀ (m : Vfs) (view' : Nat → ByteMap) (child : Nat),
          Io loose m view' (fun _ => False) (no ::ₘ held) → Fits groups m view' →
          Freeable groups loose (branchBlocks view' (groups.blockSize / 4) level child) →
          wp (ext2FreeBranch level child) (fun _ after => FreedIo groups loose m view'
            (no ::ₘ held) (branchBlocks view' (groups.blockSize / 4) level child) after) m := by
        intro m view' child ioM fitsM childFreeable
        apply inductionHypothesis ioM fitsM _ child childFreeable
        rw [Multiset.card_cons]
        omega
      apply wp_seq (freePointers_spec firm plain branch (groups.blockSize / 4) 0 (Nat.zero_add _) ioMid buffers fitsMid
        (fun b _ => rfl) fun i less b member => freeable b (List.mem_append_left _
          (List.mem_flatMap.mpr ⟨i, List.mem_range.mpr less, member⟩)))
      rintro - walked ⟨⟨view', ioWalked, freed, sameInodes⟩, keptWalked⟩
      rw [← List.range_eq_range'] at freed
      apply wp_seq (ioWalked.brelse_spec (keptWalked cache no (Multiset.mem_cons_self ..) buffers)
        id io.superHeld)
      rintro - released ⟨ioReleased, sameReleased, keptReleased⟩
      have children := freed.sameFs same sameReleased
      apply wp_mono (ext2FreeBlock_spec ioReleased tight children.fits (by omega) inGroup isHole)
      rintro - after ⟨⟨view'', ioAfter, last, sameInodes'⟩, keptAfter⟩
      constructor
      · refine ⟨view'', ioAfter, children.append last, ?_⟩
        rw [sameInodes', sameReleased.inodes, sameInodes, same.inodes]
      · intro j m member before
        apply keptAfter j m member
        apply keptReleased
        exact keptWalked j m (Multiset.mem_cons_of_mem member) (kept j m member before)

/-- A change of an inode object. -/
theorem Freed.setInode {s after : Vfs} {view view' : Nat → ByteMap} {freed : List Nat}
    (all : Freed groups s view after view' freed) (p : Nat) (inode : Inode) :
    Freed groups s view (after.setInode p inode) view' freed := by
  have fits := all.fits
  exact ⟨{ fits with }, all.inodeSize, all.tables, all.bits, all.super, all.group, all.others⟩

/-- The pointers of the listed slots set to 0. -/
def Inode.withoutBlocks (inode : Inode) (slots : List (Fin nBlocks)) : Inode :=
  { inode with iBlock := fun i => if i ∈ slots then 0 else inode.iBlock i }

/-- The branches of the listed slots are freed one after the other. -/
theorem freeBranches_spec (tight : Tight groups loose) {p : Nat} (slots : List (Fin nBlocks))
    (once : slots.Nodup) {s : Vfs} {view : Nat → ByteMap} {held : Multiset Nat} {inode : Inode}
    (io : Io loose s view (fun _ => False) held) (fits : Fits groups s view)
    (room : Multiset.card held + 3 < nBlkNum) (isInode : s.inodes p = some inode)
    (freeable : ∀ i ∈ slots,
      Freeable groups loose (branchBlocks view (groups.blockSize / 4) (levelOf i) (inode.iBlock i))) :
    wp (freeBranches p slots) (fun _ after => ∃ view', Io loose after view' (fun _ => False) held ∧
      Freed groups s view after view'
        (slots.flatMap fun i => branchBlocks view (groups.blockSize / 4) (levelOf i) (inode.iBlock i)) ∧
      after.inodes = Function.update s.inodes p (some (inode.withoutBlocks slots))) s := by
  induction slots generalizing s view inode with
  | nil =>
    have same : inode.withoutBlocks [] = inode := by simp [Inode.withoutBlocks]
    refine wp_pure.mpr ⟨view, io, Freed.nil fits, ?_⟩
    rw [same, ← isInode, Function.update_eq_self]
  | cons i rest inductionHypothesis =>
    have shallow : levelOf i ≤ 3 := by
      have inside : i.val < 15 := i.isLt
      unfold levelOf
      omega
    obtain ⟨fresh, restOnce⟩ := List.nodup_cons.mp once
    have isFreeable := freeable i (List.mem_cons_self ..)
    rw [freeBranches, wp_bind, wp_derefInode isInode]
    apply wp_seq (ext2FreeBranch_spec tight (levelOf i) io fits (by omega) _ isFreeable)
    rintro - mid ⟨⟨view', ioMid, freed, sameInodes⟩, -⟩
    rw [wp_bind, wp_updateInode (sameInodes ▸ isInode)]
    obtain ⟨next, isNext⟩ : ∃ next : Inode, next =
      { inode with iBlock := Function.update inode.iBlock i 0 } := ⟨_, rfl⟩
    rw [← isNext]
    have pointer : ∀ j ∈ rest, next.iBlock j = inode.iBlock j := by
      intro j member
      rw [isNext]
      apply Function.update_of_ne
      rintro rfl
      exact fresh member
    have sameBranch : ∀ j ∈ rest, branchBlocks view' (groups.blockSize / 4) (levelOf j) (next.iBlock j) =
        branchBlocks view (groups.blockSize / 4) (levelOf j) (inode.iBlock j) := by
      intro j member
      rw [pointer j member]
      exact branchBlocks_congr _ _ fun b inBranch =>
        freed.others b (freeable j (List.mem_cons_of_mem _ member) b inBranch).2.1
    apply wp_mono (inductionHypothesis restOnce (ioMid.setInode p next)
      (freed.setInode p next).fits (Function.update_self ..) fun j member => by
        rw [sameBranch j member]
        exact freeable j (List.mem_cons_of_mem _ member))
    rintro - after ⟨view'', ioAfter, more, isAfter⟩
    refine ⟨view'', ioAfter, ?_, ?_⟩
    · rw [List.flatMap_congr sameBranch] at more
      rw [List.flatMap_cons]
      exact (freed.setInode p next).append more
    · have same : next.withoutBlocks rest = inode.withoutBlocks (i :: rest) := by
        simp only [Inode.withoutBlocks, isNext, Inode.mk.injEq, true_and, and_true]
        funext j
        by_cases isI : j = i
        · subst isI
          rw [if_neg fresh, if_pos (List.mem_cons_self ..), Function.update_self]
        · rw [Function.update_of_ne isI]
          simp only [List.mem_cons, isI, false_or]
      rw [isAfter, same]
      change Function.update (Function.update mid.inodes p _) p _ = _
      rw [Function.update_idem, sameInodes]

end

section

variable {groups : Groups} {loose : Nat → Nat → Prop} {s : Vfs} {view : Nat → ByteMap}
  {held : Multiset Nat} {p : Nat} {inode : Inode}

theorem Freed.slotOf {after : Vfs} {view' : Nat → ByteMap} {freed : List Nat}
    (all : Freed groups s view after view' freed) (fits : Fits groups s view) (ino : Nat) :
    after.slotOf ino = s.slotOf ino := by
  simp only [Vfs.slotOf, all.tables, all.inodeSize, all.fits.inodePerGroup, fits.inodePerGroup,
    all.fits.blockSize, fits.blockSize]

/-- Distinct blocks of one group that are in use, and the free ones, fit the group. -/
theorem group_fits (freed : List Nat) (once : freed.Nodup) (taken : ∀ no ∈ freed,
    ∃ g < groups.count, ∃ c < groups.limit .block g, no = groups.number .block g c ∧
      bitAt (view (groups.bitmap .block g)) c = true) (g : Nat) :
    (freeOf groups view .block g).card + freed.countP (fun no => groups.groupOf no = g) ≤
      groups.limit .block g := by
  obtain ⟨mine, isMine⟩ : ∃ mine, mine =
    (freed.filter fun no => decide (groups.groupOf no = g)).toFinset := ⟨_, rfl⟩
  have count : freed.countP (fun no => groups.groupOf no = g) = mine.card := by
    rw [isMine, List.toFinset_card_of_nodup (once.filter _), List.countP_eq_length_filter]
  have place : ∀ no ∈ mine, ∃ c < groups.limit .block g, no = groups.number .block g c ∧
      bitAt (view (groups.bitmap .block g)) c = true := by
    intro no member
    rw [isMine, List.mem_toFinset, List.mem_filter] at member
    obtain ⟨g', -, c, below, isNumber, isSet⟩ := taken no member.1
    have isGroup := of_decide_eq_true member.2
    rw [isNumber, (groups.number_block below).1] at isGroup
    subst isGroup
    exact ⟨c, below, isNumber, isSet⟩
  obtain ⟨bits, isBits⟩ : ∃ bits, bits =
    mine.image fun no => (no - groups.first) % groups.perGroup := ⟨_, rfl⟩
  have sameCard : bits.card = mine.card := by
    rw [isBits]
    apply Finset.card_image_of_injOn
    intro no member no' member' same
    obtain ⟨c, below, isNumber, -⟩ := place no member
    obtain ⟨c', below', isNumber', -⟩ := place no' member'
    simp only [isNumber, isNumber', (groups.number_block below).2,
      (groups.number_block below').2] at same
    rw [isNumber, isNumber', same]
  have apart : Disjoint (freeOf groups view .block g) bits := by
    rw [Finset.disjoint_left]
    intro c isFree member
    rw [isBits, Finset.mem_image] at member
    obtain ⟨no, inMine, isC⟩ := member
    obtain ⟨c', below, isNumber, isSet⟩ := place no inMine
    rw [isNumber, (groups.number_block below).2] at isC
    rw [← isC] at isFree
    rw [(mem_clearBits.mp isFree).2] at isSet
    cases isSet
  have inGroup : freeOf groups view .block g ∪ bits ⊆ Finset.range (groups.limit .block g) := by
    intro c member
    rcases Finset.mem_union.mp member with isFree | inBits
    · exact Finset.mem_range.mpr (mem_clearBits.mp isFree).1
    · rw [isBits, Finset.mem_image] at inBits
      obtain ⟨no, inMine, isC⟩ := inBits
      obtain ⟨c', below, isNumber, -⟩ := place no inMine
      rw [isNumber, (groups.number_block below).2] at isC
      exact Finset.mem_range.mpr (isC ▸ below)
  have most := Finset.card_le_card inGroup
  rw [Finset.card_union_of_disjoint apart, Finset.card_range] at most
  omega

/-- Every block is counted in its group. -/
theorem length_eq_sum_groups (freed : List Nat)
    (inGroup : ∀ no ∈ freed, groups.groupOf no < groups.count) :
    freed.length = ∑ g ∈ Finset.range groups.count, freed.countP fun no => groups.groupOf no = g := by
  induction freed with
  | nil => simp
  | cons no rest inductionHypothesis =>
    have member := Finset.mem_range.mpr (inGroup no (List.mem_cons_self ..))
    simp only [List.length_cons, List.countP_cons, decide_eq_true_eq, Finset.sum_add_distrib,
      Finset.sum_ite_eq, if_pos member]
    rw [inductionHypothesis fun b later => inGroup b (List.mem_cons_of_mem _ later)]

/-- Where the counters count the clear bits, giving back blocks in use does not wrap them. -/
theorem no_wrap (balanced : Balanced groups s view) (freed : List Nat) (once : freed.Nodup)
    (taken : ∀ no ∈ freed, ∃ g < groups.count, ∃ c < groups.limit .block g,
      no = groups.number .block g c ∧ bitAt (view (groups.bitmap .block g)) c = true) :
    load (view 0) 1036 4 + freed.length < 2 ^ 32 ∧ ∀ g < groups.count,
      s.groupField g 12 2 + freed.countP (fun no => groups.groupOf no = g) < 2 ^ 16 := by
  constructor
  · have inGroup : ∀ no ∈ freed, groups.groupOf no < groups.count := by
      intro no member
      obtain ⟨g, inside, c, below, rfl, -⟩ := taken no member
      rw [(groups.number_block below).1]
      exact inside
    have isSuper : load (view 0) 1036 4 = ∑ g ∈ Finset.range groups.count,
        (freeOf groups view .block g).card := balanced.super .block
    rw [isSuper, length_eq_sum_groups freed inGroup, ← Finset.sum_add_distrib]
    exact Nat.lt_of_le_of_lt (Finset.sum_le_sum fun g _ => group_fits freed once taken g)
      (groups.sum_limit .block)
  · intro g inside
    have isGroup : s.groupField g 12 2 = (freeOf groups view .block g).card :=
      balanced.group .block g inside
    have fitsGroup := group_fits freed once taken g
    have most := groups.limit_le .block g
    have blkSize : blkSz = 4096 := rfl
    rw [isGroup]
    omega

/-- An inode before it is truncated: it was read, its blocks are distinct blocks in use
and none of the metadata, and its slot lies in an inode table. -/
structure Truncatable (groups : Groups) (loose : Nat → Nat → Prop) (s : Vfs)
    (held : Multiset Nat) (p : Nat) (inode : Inode) : Prop where
  io : Io loose s s.block (fun _ => False) held
  tight : Tight groups loose
  fits : Fits groups s s.block
  room : Multiset.card held + 3 < nBlkNum
  tables : InodeTables groups s
  isInode : s.inodes p = some inode
  valid : inode.valid = true
  number : groups.IsInode inode.ino
  slot : ∀ x, (s.slotOf inode.ino).2 ≤ x → x < (s.slotOf inode.ino).2 + 100 →
    ¬ loose (s.slotOf inode.ino).1 x
  taken : ∀ no ∈ treeBlocks s.block (groups.blockSize / 4) inode, Taken groups s .block no
  plain : ∀ no ∈ treeBlocks s.block (groups.blockSize / 4) inode, ¬ groups.Metadata no ∧ ∀ x, ¬ loose no x
  distinct : (treeBlocks s.block (groups.blockSize / 4) inode).Nodup

/-- The object after truncation. -/
def Inode.truncated (inode : Inode) : Inode :=
  { inode with iBlock := fun _ => 0, size := 0, dirty := false }

/-- What truncation leaves. -/
structure Truncated (groups : Groups) (loose : Nat → Nat → Prop) (s : Vfs) (p : Nat)
    (inode : Inode) (after : Vfs) : Prop where
  bits : ∀ w, ∀ g < groups.count, ∀ c, bitAt (after.block (groups.bitmap w g)) c =
    (bitAt (s.block (groups.bitmap w g)) c && !decide (w = .block ∧ c < groups.limit w g ∧
      groups.number w g c ∈ treeBlocks s.block (groups.blockSize / 4) inode))
  super : load (after.block 0) 1036 4 =
    (load (s.block 0) 1036 4 + (treeBlocks s.block (groups.blockSize / 4) inode).length) % 2 ^ 32
  group : ∀ g < groups.count, after.groupField g 12 2 = (s.groupField g 12 2 +
    (treeBlocks s.block (groups.blockSize / 4) inode).countP fun no => groups.groupOf no = g) % 2 ^ 16
  exactly : Balanced groups s s.block →
    load (s.block 0) 1036 4 + (treeBlocks s.block (groups.blockSize / 4) inode).length < 2 ^ 32 ∧
    ∀ g < groups.count, s.groupField g 12 2 +
      ((treeBlocks s.block (groups.blockSize / 4) inode).countP fun no => groups.groupOf no = g) < 2 ^ 16
  memory : after.inodes = Function.update s.inodes p (some inode.truncated)
  size : load (after.block (s.slotOf inode.ino).1) ((s.slotOf inode.ino).2 + 4) 4 = 0
  pointers : ∀ i : Fin nBlocks,
    load (after.block (s.slotOf inode.ino).1) ((s.slotOf inode.ino).2 + (40 + 4 * i.val)) 4 = 0
  others : ∀ ino, groups.IsInode ino → ino ≠ inode.ino → ∀ x < s.inodeSize,
    ¬ loose (s.slotOf ino).1 ((s.slotOf ino).2 + x) →
    after.block (s.slotOf ino).1 ((s.slotOf ino).2 + x) =
      s.block (s.slotOf ino).1 ((s.slotOf ino).2 + x)

/-- Truncation frees the blocks of the inode's tree and no others, counts them, clears the
pointers and the size in memory and in the slot, and leaves the slots of other inodes. -/
theorem truncate_frees_tree (ready : Truncatable groups loose s held p inode) :
    wp (ext2TruncateInode p) (fun _ after => Truncated groups loose s p inode after) s := by
  have tables := ready.tables
  have fits := ready.fits
  have freeable : ∀ i ∈ List.finRange nBlocks,
      Freeable groups loose (branchBlocks s.block (groups.blockSize / 4) (levelOf i) (inode.iBlock i)) := by
    intro i member no inBranch
    have inTree : no ∈ treeBlocks s.block (groups.blockSize / 4) inode :=
      List.mem_flatMap.mpr ⟨i, member, inBranch⟩
    obtain ⟨g, inside, c, below, isNumber, -⟩ := ready.taken no inTree
    exact ⟨⟨g, inside, c, below, isNumber⟩, ready.plain no inTree⟩
  obtain ⟨g, place, isSlot⟩ := slotAt tables fits ready.number
  have slotPlain : ¬ groups.Metadata (s.slotOf inode.ino).1 := by
    rw [isSlot.block]
    exact tables.plain g isSlot.group _ (isSlot.inTable tables.least)
  rw [ext2TruncateInode]
  apply wp_seq (freeBranches_spec ready.tight _ (List.nodup_finRange _) ready.io fits ready.room
    ready.isInode freeable)
  rintro - mid ⟨view', ioMid, freed, isMid⟩
  have cleared : mid.inodes p = some (inode.withoutBlocks (List.finRange nBlocks)) := by
    rw [isMid, Function.update_self]
  rw [wp_bind, wp_updateInode cleared]
  obtain ⟨last, isLast⟩ : ∃ last : Inode, last =
    { inode.withoutBlocks (List.finRange nBlocks) with size := 0, dirty := true } := ⟨_, rfl⟩
  rw [← isLast]
  have freed := freed.setInode p last
  have number : last.ino = inode.ino := by rw [isLast]; rfl
  have sameSlot : (mid.setInode p last).slotOf last.ino = s.slotOf inode.ino := by
    rw [freed.slotOf fits, number]
  have inRange : sub32 last.ino 1 / (mid.setInode p last).inodePerGroup <
      (mid.setInode p last).groupCount := by
    rw [freed.fits.inodePerGroup, freed.fits.groupCount, number, ← fits.inodePerGroup, isSlot.index]
    exact isSlot.group
  apply wp_seq (ext2WriteInode_spec (ioMid.setInode p last) (by have := ready.room; omega)
    (Function.update_self ..) (by rw [isLast]; exact ready.valid) inRange
    (by rw [sameSlot]; exact isSlot.inBuffer tables.least))
  rintro done after ⟨-, ioAfter, same⟩
  rw [wp_pure]
  have inodes := same.inodes
  have table : after.gbTable = mid.gbTable := by
    unfold SameFs at same
    rw [← same]
    rfl
  have agrees : ∀ no x, ¬ loose no x →
      after.block no x = writtenSlot view' (mid.setInode p last) last no x :=
    fun no x counts => ioAfter.block_agrees no x counts
  have elsewhere : ∀ no, no ≠ (s.slotOf inode.ino).1 →
      writtenSlot view' (mid.setInode p last) last no = view' no := by
    intro no differs
    rw [← sameSlot] at differs
    exact writtenSlot_beside differs
  have metadata : ∀ no, groups.Metadata no → (∀ x, ¬ loose no x) → after.block no = view' no := by
    intro no isMetadata firm
    rw [ioAfter.block_eq no firm]
    exact elsewhere no fun same => slotPlain (same ▸ isMetadata)
  -- A field of the slot, as it was stored.
  have field : ∀ off value, (off, 4, value) ∈ last.rawFields (mid.setInode p last).blockSize →
      load (after.block (s.slotOf inode.ino).1) ((s.slotOf inode.ino).2 + off) 4 =
        value % 256 ^ 4 := by
    intro off value member
    have fit := rawFields_fit _ _ _ member
    simp only at fit
    have read := @writtenSlot_field (mid.setInode p last) view' last _ _ _ member
    rw [sameSlot] at read
    rw [← read]
    apply load_congr
    intro x low high
    exact agrees _ x (ready.slot x (by omega) (by omega))
  constructor
  · intro w g' inside' c
    rw [metadata _ (Or.inr (Or.inr ⟨w, g', inside', rfl⟩)) (ready.tight.bitmap w g' inside')]
    exact freed.bits w g' inside' c
  · rw [metadata 0 (Or.inl rfl) ready.tight.super]
    exact freed.super
  · intro g' inside'
    rw [Vfs.groupField, table]
    exact freed.group g' inside'
  · intro balanced
    exact no_wrap balanced _ ready.distinct ready.taken
  · rw [inodes]
    change Function.update (Function.update mid.inodes p _) p _ = _
    rw [Function.update_idem, isMid, Function.update_idem, isLast]
    simp [Inode.withoutBlocks, Inode.truncated]
  · apply field 4 0
    rw [isLast]
    simp [Inode.rawFields]
  · intro i
    apply field (40 + 4 * i.val) 0
    have isHole : last.iBlock i = 0 := by
      rw [isLast]
      exact if_pos (List.mem_finRange i)
    have inPointers : (40 + 4 * i.val, 4, last.iBlock i) ∈
        (List.finRange nBlocks).map fun i => (40 + 4 * i.val, 4, last.iBlock i) :=
      List.mem_map_of_mem (List.mem_finRange i)
    rw [isHole] at inPointers
    exact List.mem_append_left _ (List.mem_append_right _ inPointers)
  · intro ino isNumber differs x below counts
    obtain ⟨g', place', isSlot'⟩ := slotAt tables fits isNumber
    have least := tables.least
    have plain' : ¬ groups.Metadata (s.slotOf ino).1 := by
      rw [isSlot'.block]
      exact tables.plain g' isSlot'.group _ (isSlot'.inTable least)
    rw [agrees _ _ counts, ← freed.others _ plain']
    by_cases sameBlock : (s.slotOf ino).1 = (s.slotOf inode.ino).1
    · have apart := isSlot'.apart tables isNumber ready.number isSlot differs sameBlock
      rw [writtenSlot, sameSlot, sameBlock, Function.update_self]
      exact putFields_outside _ (rawFields_fit _ _) (by omega) _
    · rw [elsewhere _ sameBlock]

end

/-! ## The root directory of a small disk -/

/-- The root directory in memory, with one data block. -/
def rootInode : Inode where
  ino := 2
  type := .dir
  mode := 0x41ed
  uid := 0
  gid := 0
  size := 4096
  nlinks := 2
  ref := 1
  dirty := false
  valid := true
  iBlock i := if i.val = 0 then 5 else 0
  iFlags := 0

/-- On the disks with one group the metadata are the first four blocks. -/
theorem oneGroup_plain {no : Nat} (later : 4 ≤ no) : ¬ oneGroup.Metadata no := by
  rintro (zero | ⟨g, inside, isTable⟩ | ⟨w, g, -, isBitmap⟩)
  · omega
  · obtain rfl : g = 0 := Nat.lt_one_iff.mp inside
    change no = 1 at isTable
    omega
  · cases w with
    | block =>
      change no = 2 at isBitmap
      omega
    | inode =>
      change no = 3 at isBitmap
      omega

/-- The state over `disk` with these inodes in memory and slots of 128 bytes. -/
def mountedOne (disk : Nat → ByteMap) (inodes : Nat → Option Inode) (i : Fin nBlkNum)
    (caches : BlkCache.Caches ByteMap) : Vfs :=
  { opened disk i caches with inodes := inodes, inodeSize := 128 }

/-- A disk with one group whose inode table is block 4. -/
theorem exists_mounted {disk : Nat → ByteMap} (inodes : Nat → Option Inode)
    (counted : CountedDisk disk) (table : load (disk 1) 8 4 = 4) :
    ∃ i caches, Returns (BlkCache.bread 0) (BlkCache.boot (fun _ => 0) disk) i caches ∧
      Ready oneGroup (fun _ _ => False) {0} (mountedOne disk inodes i caches) ∧
      InodeTables oneGroup (mountedOne disk inodes i caches) ∧
      (mountedOne disk inodes i caches).block = disk ∧
      ∀ g < oneGroup.count, ∀ k, k * oneGroup.blockSize < oneGroup.inodesPerGroup * 128 →
        (mountedOne disk inodes i caches).groupField g 8 4 + k = 4 := by
  obtain ⟨i, caches, returned, ready, isDisk⟩ := exists_opened counted
  have first : ∀ g < oneGroup.count, ∀ k, k * oneGroup.blockSize < oneGroup.inodesPerGroup * 128 →
      (mountedOne disk inodes i caches).groupField g 8 4 + k = 4 := by
    intro g inside k below
    obtain rfl : g = 0 := Nat.lt_one_iff.mp inside
    obtain rfl : k = 0 := by
      rw [show oneGroup.inodesPerGroup = 16 from rfl, show oneGroup.blockSize = 4096 from rfl]
        at below
      omega
    exact table
  refine ⟨i, caches, returned, ?_, ?_, funext isDisk, first⟩
  · have io := ready.io
    have fits := ready.fits
    have balanced := ready.balanced
    constructor
    · exact ⟨io.rep, io.super, io.superHeld⟩
    · exact ready.tight
    · exact { fits with }
    · exact { balanced with }
    · exact ready.room
  · constructor
    · exact Nat.le_refl 128
    · change 128 ∣ 4096
      decide
    · intro g inside k below
      rw [first g inside k below]
      decide
    · intro g inside k below
      rw [first g inside k below]
      exact oneGroup_plain (Nat.le_refl _)
    · intro g inside g' inside' _ _ _ _ _
      rw [Nat.lt_one_iff.mp inside, Nat.lt_one_iff.mp inside']

/-- One inode in memory. -/
def soleInode (inode : Inode) (p : Nat) : Option Inode := if p = 0 then some inode else none

/-! ## A file with an index block -/

theorem load_single (a value i : Nat) : load (blockOf [(4 * a, 4, value)]) (4 * i) 4 =
    if i = a then value % 256 ^ 4 else 0 := by
  change load (store (fun _ => 0) (4 * a) 4 value) (4 * i) 4 = _
  by_cases same : i = a
  · rw [if_pos same, same, load_store_same]
  · rw [if_neg same, load_store_apart _ _ _ _ _ _ (by omega), load_zeros]

/-- The small disk with an index block 6 in use, and data blocks 7 and 8. -/
def indexDisk : Nat → ByteMap
  | 0 => store (smallDisk 0) 1036 4 91
  | 1 => store (smallDisk 1) 12 2 91
  | 2 => store (smallDisk 2) 0 2 0x1FF
  | 6 => blockOf [(4092, 4, 7)]
  | no => smallDisk no

/-- A file whose first block is 8, and whose index block names 7 in its last word. -/
def indexInode : Inode where
  ino := 11
  type := .file
  mode := 0x81a4
  uid := 0
  gid := 0
  size := 4243456
  nlinks := 1
  ref := 1
  dirty := false
  valid := true
  iBlock i := if i.val = 0 then 8 else if i.val = 12 then 6 else 0
  iFlags := 0

/-- An index block with one pointer, in its last word. -/
theorem last_branch {view : Nat → ByteMap} {no perBlk value : Nat} (some : no ≠ 0)
    (isLast : ∀ i, load (view no) (4 * i) 4 = if i = perBlk then value else 0)
    (used : value ≠ 0) : branchBlocks view (perBlk + 1) 1 no = [value, no] := by
  have holes : (List.range perBlk).flatMap
      (fun i => branchBlocks view (perBlk + 1) 0 (load (view no) (4 * i) 4)) = [] := by
    apply List.flatMap_eq_nil_iff.mpr
    intro i member
    rw [isLast, if_neg (Nat.ne_of_lt (List.mem_range.mp member)), branchBlocks, if_pos rfl]
  rw [branchBlocks, if_neg some, List.range_succ, List.flatMap_append, holes, List.nil_append,
    List.flatMap_singleton, isLast, if_pos rfl, branchBlocks, if_neg used]
  rfl

/-- Its tree has two data blocks and an index block. -/
theorem indexInode_tree : treeBlocks indexDisk (oneGroup.blockSize / 4) indexInode = [8, 7, 6] := by
  have branch : branchBlocks indexDisk (1023 + 1) 1 6 = [7, 6] := by
    refine last_branch (by decide) (fun i => ?_) (by decide)
    exact (load_single 1023 7 i).trans (by rfl)
  have slots : List.finRange nBlocks =
      (⟨0, by decide⟩ :: (List.finRange nBlocks).tail.take 11) ++
        (⟨12, by decide⟩ :: (List.finRange nBlocks).drop 13) := by decide
  have others : ∀ i ∈ (List.finRange nBlocks).tail.take 11 ++ (List.finRange nBlocks).drop 13,
      branchBlocks indexDisk (1023 + 1) (levelOf i) (indexInode.iBlock i) = [] := by
    intro i member
    have isHole : indexInode.iBlock i = 0 := by
      have holes : ∀ i ∈ (List.finRange nBlocks).tail.take 11 ++ (List.finRange nBlocks).drop 13,
        indexInode.iBlock i = 0 := by decide
      exact holes i member
    rw [isHole]
    cases levelOf i with
    | zero => rfl
    | succ level => rw [branchBlocks, if_pos rfl]
  have first := List.flatMap_eq_nil_iff.mpr fun i member =>
    others i (List.mem_append_left _ member)
  have second := List.flatMap_eq_nil_iff.mpr fun i member =>
    others i (List.mem_append_right _ member)
  change treeBlocks indexDisk (1023 + 1) indexInode = _
  rw [treeBlocks, slots, List.flatMap_append, List.flatMap_cons, List.flatMap_cons, first, second,
    List.append_nil, List.append_nil]
  change [8] ++ branchBlocks indexDisk (1023 + 1) 1 6 = _
  rw [branch]
  rfl

/-- The file with an index block meets the conditions of the theorem. -/
theorem index_truncatable :
    ∃ s held, Truncatable oneGroup (fun _ _ => False) s held 0 indexInode ∧ s.block = indexDisk := by
  have counted : CountedDisk indexDisk :=
    ⟨by decide +kernel, by decide +kernel, by decide +kernel⟩
  obtain ⟨i, caches, -, ready, tables, isDisk, -⟩ := exists_mounted (soleInode indexInode) counted
    (by decide +kernel)
  have blocks : ∀ no ∈ treeBlocks indexDisk (oneGroup.blockSize / 4) indexInode,
      no = 8 ∨ no = 7 ∨ no = 6 := by
    rw [indexInode_tree]
    simp
  refine ⟨mountedOne indexDisk (soleInode indexInode) i caches, {0}, ?_, isDisk⟩
  constructor
  · exact ready.io
  · exact ready.tight
  · exact ready.fits
  · decide
  · exact tables
  · rfl
  · rfl
  · exact ⟨by decide, by decide⟩
  · exact fun _ _ _ => id
  · intro no member
    rw [isDisk] at member
    refine ⟨0, by decide, no, ?_, ?_, ?_⟩
    · rcases blocks no member with rfl | rfl | rfl <;> decide
    · exact (Nat.zero_add no).symm.trans (by rfl)
    · rw [isDisk]
      rcases blocks no member with rfl | rfl | rfl <;> decide +kernel
  · intro no member
    rw [isDisk] at member
    refine ⟨oneGroup_plain ?_, fun _ => id⟩
    rcases blocks no member with rfl | rfl | rfl <;> decide
  · rw [isDisk, indexInode_tree]
    decide

/-- The theorem for this file: the bits of its two data blocks and of its index block are clear in
the end, three blocks are free more, and the object has no pointers. -/
theorem index_truncated : ∃ s after, Returns (ext2TruncateInode 0) s () after ∧
    s.block = indexDisk ∧ bitAt (after.block 2) 8 = false ∧ bitAt (after.block 2) 7 = false ∧
    bitAt (after.block 2) 6 = false ∧ bitAt (after.block 2) 5 = true ∧
    load (after.block 0) 1036 4 = 94 ∧ after.inodes 0 = some indexInode.truncated := by
  obtain ⟨s, held, ready, isDisk⟩ := index_truncatable
  obtain ⟨⟨⟩, after, returned, truncated⟩ := truncate_frees_tree ready
  have bits := truncated.bits .block 0 (by decide)
  have tree : treeBlocks s.block (oneGroup.blockSize / 4) indexInode = [8, 7, 6] := by
    rw [isDisk, indexInode_tree]
  have super := truncated.super
  rw [tree, isDisk] at super
  rw [tree, isDisk] at bits
  refine ⟨s, after, returned, isDisk, ?_, ?_, ?_, ?_, super.trans (by decide +kernel), ?_⟩
  · exact (bits 8).trans (by decide +kernel)
  · exact (bits 7).trans (by decide +kernel)
  · exact (bits 6).trans (by decide +kernel)
  · exact (bits 5).trans (by decide +kernel)
  · rw [truncated.memory, Function.update_self]

end CuteCore.Fs
