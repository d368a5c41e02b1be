import CuteCore.Fs.Creation

/-!
# New directories

`ext2_mkdir` takes an inode, fills its slot and then asks for a block. Both allocators take
the smallest number that the counters and bitmaps show as free. So the state before the call
says whether the second one finds a block, where the superblock and the bitmaps of the blocks
lie apart from the few blocks that the first steps write.
-/

namespace CuteCore.Fs

open Hoare Bytes BlkCache

/-- The slot of a new directory that is filled and not recorded yet. -/
structure NewDir where
  ino : Nat
  offset : Nat
  icache : Fin nBlkNum
  dataBlk : Nat

/-- The first steps of `ext2_mkdir`, up to the allocation of a block. -/
def openDir (mode : Nat) : FsProg (Option NewDir) := do
  let ino ← ext2AllocInode
  if ino = 0 then return none
  else do
    let loc ← ext2InodeLoc ino
    let icache ← bread loc.1
    let s ← get
    clearBuf icache loc.2 s.inodeSize
    storeBuf icache loc.2 2 (0x4000 ||| (mode &&& 0xFFF))
    storeBuf icache (loc.2 + 26) 2 2
    storeBuf icache (loc.2 + 4) 4 s.blockSize
    storeBuf icache (loc.2 + 28) 4 (s.blockSize / 512)
    let dataBlk ← ext2AllocBlock
    return some { ino := ino, offset := loc.2, icache := icache, dataBlk := dataBlk }

/-- The other steps of `ext2_mkdir`. -/
def closeDir (dir : Nat) (name : List Byte) : Option NewDir → FsProg (Option Nat)
  | none => return none
  | some made =>
    if made.dataBlk = 0 then do
      brelse made.icache
      ext2FreeInode made.ino
      return none
    else do
      storeBuf made.icache (made.offset + 40) 4 made.dataBlk
      bwrite made.icache
      brelse made.icache
      let parent ← derefInode dir
      fillDirBlock made.dataBlk made.ino parent.ino
      let added ← ext2DirAddEntry dir name made.ino 2
      if added = false then do
        ext2FreeBlock made.dataBlk
        ext2FreeInode made.ino
        return none
      else do
        updateInode dir fun parent => { parent with
          nlinks := u32 (parent.nlinks + 1)
          dirty := true }
        let _ ← ext2WriteInode dir
        countDir made.ino
        ext2Iget made.ino

/-- `ext2_mkdir` in two parts: the inode and its slot up to the allocation of the block, and the
rest. -/
theorem ext2Mkdir_eq (dir : Nat) (name : List Byte) (mode : Nat) :
    ext2Mkdir dir name mode = if name = [] then pure none else openDir mode >>= closeDir dir name := by
  rw [ext2Mkdir]
  split
  · rfl
  · rw [openDir, bind_assoc]
    congr 1
    funext ino
    split
    · rfl
    · simp only [bind_assoc, pure_bind, closeDir]

/-! ## The choice of the allocators -/

/-- The first number of a group and how many it has, by the superblock and `struct vfs`. -/
def numbersOf (s : Vfs) (view : Nat → ByteMap) (w : Which) (g : Nat) : Nat × Nat :=
  match w with
  | .block => cutRange (u32 (load (view 0) 1044 4 + g * load (view 0) 1056 4))
      (load (view 0) 1056 4) (load (view 0) 1028 4)
  | .inode => cutRange (u32 (g * s.inodePerGroup)) s.inodePerGroup (load (view 0) 1024 4)

/-- The block of a bitmap, by the descriptor in memory. -/
def Vfs.bitmapOf (s : Vfs) (w : Which) (g : Nat) : Nat := s.groupField g w.resource.bitmap 4

/-- A group has nothing to give: its counter is 0, or all its bits are set. -/
def Exhausted (s : Vfs) (view : Nat → ByteMap) (w : Which) (g : Nat) : Prop :=
  s.groupField g w.resource.groupFree 2 = 0 ∨
    ∀ b < (numbersOf s view w g).2, bitAt (view (s.bitmapOf w g)) b = true

/-- The smallest free number by counters and bitmaps: bit `b` of group `g`. -/
structure Chosen (s : Vfs) (view : Nat → ByteMap) (w : Which) (g b : Nat) : Prop where
  group : g < s.groupCount
  counted : s.groupField g w.resource.groupFree 2 ≠ 0
  first : FirstClear (view (s.bitmapOf w g)) (numbersOf s view w g).2 0 b
  earlier : ∀ g' < g, Exhausted s view w g'

/-- The number of a bit on the 32 bits of the result, which is 0 for none. -/
def numberAt (s : Vfs) (view : Nat → ByteMap) (w : Which) (g b : Nat) : Nat :=
  match w with
  | .block => u32 ((numbersOf s view w g).1 + b)
  | .inode => u32 ((numbersOf s view w g).1 + b + 1)

def rangeOf : Which → Nat → FsProg (Nat × Nat)
  | .block => blockRange
  | .inode => inodeRange

/-- The blocks after bit `b` of a group was taken. -/
def chosenBlocks (s : Vfs) (view : Nat → ByteMap) (w : Which) (g b : Nat) : Nat → ByteMap :=
  countedSuper (putGdesc (Function.update view (s.bitmapOf w g) (setBit (view (s.bitmapOf w g)) b))
    s.blockSize (countedTable s.gbTable w.resource g (2 ^ 16 - 1)) g) w.resource (2 ^ 32 - 1)

instance (data : ByteMap) (limit start b : Nat) : Decidable (FirstClear data limit start b) :=
  inferInstanceAs (Decidable (_ ∧ _ ∧ _ ∧ _))

instance (s : Vfs) (view : Nat → ByteMap) (w : Which) (g : Nat) : Decidable (Exhausted s view w g) :=
  inferInstanceAs (Decidable (_ ∨ _))

instance (s : Vfs) (view : Nat → ByteMap) (w : Which) (g b : Nat) : Decidable (Chosen s view w g b) :=
  decidable_of_iff (g < s.groupCount ∧ s.groupField g w.resource.groupFree 2 ≠ 0 ∧
      FirstClear (view (s.bitmapOf w g)) (numbersOf s view w g).2 0 b ∧
      ∀ g' < g, Exhausted s view w g')
    ⟨fun all => ⟨all.1, all.2.1, all.2.2.1, all.2.2.2⟩,
      fun chosen => ⟨chosen.group, chosen.counted, chosen.first, chosen.earlier⟩⟩

section

variable {loose : Nat → Nat → Prop} {s : Vfs} {view : Nat → ByteMap} {held : Multiset Nat}
  {w : Which} {g b : Nat}

theorem Chosen.not_exhausted (chosen : Chosen s view w g b) : ¬ Exhausted s view w g := by
  obtain ⟨-, below, isClear, -⟩ := chosen.first
  rintro (none | allSet)
  · exact chosen.counted none
  · rw [allSet b below] at isClear
    cases isClear

/-- There is one smallest free number. -/
theorem Chosen.unique {g' b' : Nat} (chosen : Chosen s view w g b)
    (chosen' : Chosen s view w g' b') : g = g' ∧ b = b' := by
  have sameGroup : g = g' := by
    rcases Nat.lt_trichotomy g g' with less | same | more
    · exact absurd (chosen'.earlier g less) chosen.not_exhausted
    · exact same
    · exact absurd (chosen.earlier g' more) chosen'.not_exhausted
  subst sameGroup
  obtain ⟨-, -, isClear, before⟩ := chosen.first
  obtain ⟨-, -, isClear', before'⟩ := chosen'.first
  refine ⟨rfl, ?_⟩
  rcases Nat.lt_trichotomy b b' with less | same | more
  · rw [before' b (Nat.zero_le b) less] at isClear
    cases isClear
  · exact same
  · rw [before b' (Nat.zero_le b') more] at isClear'
    cases isClear'

/-- The range that a scan covers in a group is that of the state before. -/
theorem rangeOf_spec (io : Io loose s view (fun _ => False) held) (tight : ∀ x, ¬ loose 0 x)
    (w : Which) (g : Nat) :
    wp (rangeOf w g) (fun got after => got = numbersOf s view w g ∧ after = s) s := by
  cases w with
  | block =>
    rw [rangeOf, blockRange]
    apply wp_seq (io.loadSuper_spec (by decide) tight)
    rintro _ s ⟨rfl, rfl⟩
    apply wp_seq (io.loadSuper_spec (by decide) tight)
    rintro _ s ⟨rfl, rfl⟩
    apply wp_seq (io.loadSuper_spec (by decide) tight)
    rintro _ s ⟨rfl, rfl⟩
    exact wp_pure.mpr ⟨rfl, rfl⟩
  | inode =>
    rw [rangeOf, inodeRange, wp_bind, wp_get]
    apply wp_seq (io.loadSuper_spec (by decide) tight)
    rintro _ s ⟨rfl, rfl⟩
    exact wp_pure.mpr ⟨rfl, rfl⟩

/-- The group loop takes the smallest free number, whatever the counters say of the bitmaps. -/
theorem allocFrom_chooses (io : Io loose s view (fun _ => False) held)
    (size : MountedSize s.blockSize) (tight : ∀ x, ¬ loose 0 x)
    (room : Multiset.card held < nBlkNum) (w : Which)
    (bitmaps : ∀ g < s.groupCount, (numbersOf s view w g).2 ≤ 8 * blkSz ∧
      ∀ x, ¬ loose (s.bitmapOf w g) x) (remaining g : Nat) (upTo : g + remaining = s.groupCount)
    (before : ∀ g' < g, Exhausted s view w g') :
    wp (allocFrom w.resource (rangeOf w) remaining g) (fun found after =>
      match found with
      | none => ∀ g' < s.groupCount, Exhausted s view w g'
      | some n => ∃ g' b, Chosen s view w g' b ∧ n = (numbersOf s view w g').1 + b ∧
        SameButTable s after (countedTable s.gbTable w.resource g' (2 ^ 16 - 1)) ∧
        Io loose after (chosenBlocks s view w g' b) (fun _ => False) held) s := by
  induction remaining generalizing s g with
  | zero =>
    refine wp_pure.mpr ?_
    rwa [← upTo, Nat.add_zero]
  | succ remaining inductionHypothesis =>
    have inside : g < s.groupCount := by omega
    rw [allocFrom, wp_bind, wp_get]
    by_cases none : s.groupField g w.resource.groupFree 2 = 0
    · rw [if_pos none]
      refine inductionHypothesis io size bitmaps (g + 1) (by omega) fun g' less => ?_
      by_cases isG : g' = g
      · exact isG ▸ Or.inl none
      · exact before g' (by omega)
    · rw [if_neg none]
      apply wp_seq (rangeOf_spec io tight w g)
      rintro numbers s ⟨rfl, rfl⟩
      obtain ⟨small, counts⟩ := bitmaps g inside
      apply wp_seq (claimBit_spec io (s.bitmapOf w g) _ counts small room)
      rintro claimed mid ⟨toMid, outcome⟩
      cases claimed with
      | none =>
        obtain ⟨allSet, ioMid⟩ := outcome
        obtain ⟨caches, rfl⟩ : ∃ caches, mid = { s with caches := caches } := ⟨_, toMid.symm⟩
        have rest : g + 1 + remaining = s.groupCount := by omega
        have sofar : ∀ g' < g + 1, Exhausted s view w g' := by
          intro g' less
          by_cases isG : g' = g
          · exact isG ▸ Or.inr allSet
          · exact before g' (by omega)
        apply wp_mono (inductionHypothesis ioMid size bitmaps (g + 1) rest sofar)
        rintro found after outcome
        cases found with
        | none => exact outcome
        | some n =>
          obtain ⟨g', b, chosen, rest⟩ := outcome
          exact ⟨g', b, ⟨chosen.group, chosen.counted, chosen.first, chosen.earlier⟩, rest⟩
      | some b =>
        obtain ⟨first, claimed⟩ := outcome
        obtain ⟨caches, rfl⟩ : ∃ caches, mid = { s with caches := caches } := ⟨_, toMid.symm⟩
        refine wp_seq (countFree_spec claimed w.resource g _ _ size tight (inSuper w) room) ?_
        rintro - after ⟨toAfter, counted⟩
        exact wp_pure.mpr ⟨g, b, ⟨inside, none, first, before⟩, rfl, toAfter, counted⟩

/-- An allocation takes the smallest free number, or every group is exhausted. -/
theorem alloc_chooses (io : Io loose s view (fun _ => False) held) (size : MountedSize s.blockSize)
    (tight : ∀ x, ¬ loose 0 x) (room : Multiset.card held < nBlkNum) (w : Which)
    (bitmaps : ∀ g < s.groupCount, (numbersOf s view w g).2 ≤ 8 * blkSz ∧
      ∀ x, ¬ loose (s.bitmapOf w g) x) :
    wp (allocOf w) (fun n after =>
      (n = 0 ∧ ∀ g < s.groupCount, Exhausted s view w g) ∨
      ∃ g b, Chosen s view w g b ∧ n = numberAt s view w g b ∧
        SameButTable s after (countedTable s.gbTable w.resource g (2 ^ 16 - 1)) ∧
        Io loose after (chosenBlocks s view w g b) (fun _ => False) held) s := by
  have noneBefore : ∀ g' < 0, Exhausted s view w g' := fun g' less => absurd less (Nat.not_lt_zero g')
  have loop := allocFrom_chooses io size tight room w bitmaps s.groupCount 0 (Nat.zero_add _)
    noneBefore
  cases w with
  | block =>
    rw [allocOf, ext2AllocBlock, wp_bind, wp_get]
    refine wp_seq loop ?_
    rintro found after outcome
    rw [wp_pure]
    cases found with
    | none => exact Or.inl ⟨rfl, outcome⟩
    | some n =>
      obtain ⟨g, b, chosen, rfl, rest⟩ := outcome
      exact Or.inr ⟨g, b, chosen, rfl, rest⟩
  | inode =>
    rw [allocOf, ext2AllocInode, wp_bind, wp_get]
    refine wp_seq loop ?_
    rintro found after outcome
    rw [wp_pure]
    cases found with
    | none => exact Or.inl ⟨rfl, outcome⟩
    | some n =>
      obtain ⟨g, b, chosen, rfl, rest⟩ := outcome
      exact Or.inr ⟨g, b, chosen, rfl, rest⟩

end

/-! ## A block for a new directory -/

/-- The blocks that `ext2_mkdir` writes for an inode before it asks for a block, beside the
superblock: the bitmap, the descriptor and the slot. -/
def FirstWrites (s : Vfs) (view : Nat → ByteMap) (g b no : Nat) : Prop :=
  no = s.bitmapOf .inode g ∨ no = gdtBlock view s.blockSize g ∨
    no = (s.slotOf (numberAt s view .inode g b)).1

/-- No block of the first writes is the superblock or the bitmap of the blocks of a group. -/
def WritesApart (s : Vfs) (view : Nat → ByteMap) (g b : Nat) : Prop :=
  ∀ no, FirstWrites s view g b no → no ≠ 0 ∧ ∀ g' < s.groupCount, no ≠ s.bitmapOf .block g'

/-- A state in which `ext2_mkdir` finds no inode, or finds a block too: the smallest free block is
there and its number is not 0, and the first writes are apart from the superblock and the
bitmaps of the blocks. A bitmap is one block, and so are the numbers of a group. -/
structure FeedsMkdir (s : Vfs) : Prop where
  mounted : MountedSize s.blockSize
  small : ∀ w, ∀ g < s.groupCount, (numbersOf s s.block w g).2 ≤ 8 * blkSz
  feeds : (∀ g b, Chosen s s.block .inode g b → numberAt s s.block .inode g b = 0) ∨
    (∃ g b, Chosen s s.block .block g b ∧ numberAt s s.block .block g b ≠ 0) ∧
      (∀ g < s.groupCount, s.bitmapOf .block g ≠ 0) ∧
      ∀ g b, Chosen s s.block .inode g b → WritesApart s s.block g b

section

variable {s : Vfs} {view : Nat → ByteMap} {held : Multiset Nat} {g b : Nat}

/-- The first writes leave all other blocks. -/
theorem chosenBlocks_apart (apart : WritesApart s view g b) {no : Nat} (notSuper : no ≠ 0)
    (outside : ¬ FirstWrites s view g b no) : chosenBlocks s view .inode g b no = view no := by
  have bitmapNotSuper := (apart _ (Or.inl rfl)).1
  have sameTable : gdtBlock (Function.update view (s.bitmapOf .inode g)
      (setBit (view (s.bitmapOf .inode g)) b)) s.blockSize g = gdtBlock view s.blockSize g := by
    rw [gdtBlock, gdtBlock, Function.update_of_ne bitmapNotSuper.symm]
  rw [chosenBlocks, countedSuper, Function.update_of_ne notSuper, putGdesc, sameTable,
    Function.update_of_ne fun isTable => outside (Or.inr (Or.inl isTable)),
    Function.update_of_ne fun isBitmap => outside (Or.inl isBitmap)]

/-- The counter of the inodes is the only field of the superblock that the first writes change. -/
theorem chosenBlocks_super (apart : WritesApart s view g b) {off : Nat}
    (other : off + 4 ≤ 1040 ∨ 1044 ≤ off) :
    load (chosenBlocks s view .inode g b 0) off 4 = load (view 0) off 4 := by
  have bitmapNotSuper := (apart _ (Or.inl rfl)).1
  have tableNotSuper := (apart _ (Or.inr (Or.inl rfl))).1
  have sameTable : gdtBlock (Function.update view (s.bitmapOf .inode g)
      (setBit (view (s.bitmapOf .inode g)) b)) s.blockSize g = gdtBlock view s.blockSize g := by
    rw [gdtBlock, gdtBlock, Function.update_of_ne bitmapNotSuper.symm]
  have field : 1024 + Which.inode.resource.superFree = 1040 := rfl
  rw [chosenBlocks, countedSuper, Function.update_self, field, load_store_apart _ _ _ _ _ _ (by omega),
    putGdesc, sameTable, Function.update_of_ne tableNotSuper.symm,
    Function.update_of_ne bitmapNotSuper.symm]

/-- The counter of the inodes of a group is the only field of the table that changes. -/
theorem countedTable_other {table : ByteMap} {delta g' off n : Nat}
    (other : off + n ≤ 14 ∨ 16 ≤ off ∧ off + n ≤ 32) :
    load (countedTable table Which.inode.resource g delta) (g' * 32 + off) n =
      load table (g' * 32 + off) n := by
  have field : Which.inode.resource.groupFree = 14 := rfl
  rw [countedTable, field, load_store_apart _ _ _ _ _ _ (by omega)]

/-- What the allocator of blocks reads is the same in another state. -/
theorem Chosen.congr {t : Vfs} {view' : Nat → ByteMap} (chosen : Chosen s view .block g b)
    (count : t.groupCount = s.groupCount)
    (counters : ∀ g', t.groupField g' 12 2 = s.groupField g' 12 2)
    (bitmaps : ∀ g', t.bitmapOf .block g' = s.bitmapOf .block g')
    (numbers : ∀ g', numbersOf t view' .block g' = numbersOf s view .block g')
    (data : ∀ g' < s.groupCount, view' (s.bitmapOf .block g') = view (s.bitmapOf .block g')) :
    Chosen t view' .block g b := by
  obtain ⟨inside, counted, first, earlier⟩ := chosen
  refine ⟨count ▸ inside, fun none => counted ((counters g).symm.trans none), ?_, ?_⟩
  · rwa [bitmaps, numbers, data g inside]
  · intro g' less
    rcases earlier g' less with none | allSet
    · exact Or.inl ((counters g').trans none)
    · refine Or.inr fun c below => ?_
      rw [numbers] at below
      rw [bitmaps, data g' (Nat.lt_trans less inside)]
      exact allSet c below

/-- In a state that feeds it `ext2_mkdir` is not left without a block. -/
theorem openDir_fed (io : Io (fun _ _ => False) s s.block (fun _ => False) held)
    (room : Multiset.card held + 1 < nBlkNum) (fed : FeedsMkdir s) (mode : Nat) :
    wlp (openDir mode) (fun found _ => ∀ made, found = some made → made.dataBlk ≠ 0) s := by
  rw [openDir]
  refine wlp_seq (wlp_of_wp (alloc_chooses io fed.mounted (fun _ => id) (by omega) .inode
    fun g inside => ⟨fed.small .inode g inside, fun _ => id⟩)) ?_
  rintro ino mid (⟨isZero, -⟩ | ⟨g, b, chosen, isNumber, toMid, ioMid⟩)
  · rw [if_pos isZero]
    exact wlp_pure.mpr fun made none => by cases none
  rw [wlp_ite]
  split
  · exact wlp_pure.mpr fun made none => by cases none
  rename_i positive
  obtain ⟨⟨g', b', block, some⟩, bitmapPlain, apart⟩ := fed.feeds.resolve_left
    fun noInode => positive (isNumber.trans (noInode g b chosen))
  have apart := apart g b chosen
  obtain ⟨caches, rfl⟩ : ∃ caches, mid = { s with
      caches := caches
      gbTable := countedTable s.gbTable Which.inode.resource g (2 ^ 16 - 1) } := ⟨_, toMid.symm⟩
  -- The bytes of the slot's block are left open from here on.
  have stricter : ∀ no x : Nat, False → no = (s.slotOf ino).1 := fun _ _ => False.elim
  have ioOpen := ioMid.loosen stricter
  refine wlp_seq (wlp_inodeLoc ino) ?_
  rintro loc _ ⟨isLoc, rfl, -⟩
  have slot : loc = s.slotOf ino := by
    rw [isLoc, Vfs.slotOf, Vfs.groupField, countedTable_other (by decide)]
    rfl
  rw [slot]
  refine wlp_seq (wlp_of_wp (ioOpen.bread_spec _ (by omega))) ?_
  rintro cache read ⟨ioRead, same, buffers, -⟩
  rw [wlp_bind, wlp_get]
  refine wlp_seq (ioRead.copyLoose buffers (Multiset.mem_cons_self ..) fun _ => rfl) ?_
  rintro - cleared ⟨ioCleared, same₁, buffers₁⟩
  refine wlp_seq (ioCleared.copyLoose buffers₁ (Multiset.mem_cons_self ..) fun _ => rfl) ?_
  rintro - typed ⟨ioTyped, same₂, buffers₂⟩
  refine wlp_seq (ioTyped.copyLoose buffers₂ (Multiset.mem_cons_self ..) fun _ => rfl) ?_
  rintro - linked ⟨ioLinked, same₃, buffers₃⟩
  refine wlp_seq (ioLinked.copyLoose buffers₃ (Multiset.mem_cons_self ..) fun _ => rfl) ?_
  rintro - sized ⟨ioSized, same₄, buffers₄⟩
  refine wlp_seq (ioSized.copyLoose buffers₄ (Multiset.mem_cons_self ..) fun _ => rfl) ?_
  rintro - filled ⟨ioFilled, same₅, -⟩
  have toFilled := (same.trans same₁).trans ((same₂.trans same₃).trans (same₄.trans same₅))
  obtain ⟨caches', rfl⟩ : ∃ caches', filled = { s with
      caches := caches'
      gbTable := countedTable s.gbTable Which.inode.resource g (2 ^ 16 - 1) } := ⟨_, toFilled.symm⟩
  have isSlot : (s.slotOf ino).1 = (s.slotOf (numberAt s s.block .inode g b)).1 := by rw [isNumber]
  have slotApart := apart _ (Or.inr (Or.inr isSlot))
  have data : ∀ g' < s.groupCount,
      chosenBlocks s s.block .inode g b (s.bitmapOf .block g') = s.block (s.bitmapOf .block g') := by
    intro g' inside
    exact chosenBlocks_apart apart (bitmapPlain g' inside) fun isWrite =>
      (apart _ isWrite).2 g' inside rfl
  obtain ⟨t, isT⟩ : ∃ t : Vfs, t = { s with
      caches := caches'
      gbTable := countedTable s.gbTable Which.inode.resource g (2 ^ 16 - 1) } := ⟨_, rfl⟩
  rw [← isT] at ioFilled ⊢
  have bitmap : ∀ g', t.bitmapOf .block g' = s.bitmapOf .block g' := by
    intro g'
    rw [isT]
    exact countedTable_other (by decide)
  have numbers : ∀ g', numbersOf t (chosenBlocks s s.block .inode g b) .block g' =
      numbersOf s s.block .block g' := by
    intro g'
    rw [numbersOf, numbersOf, chosenBlocks_super apart (by decide),
      chosenBlocks_super apart (by decide), chosenBlocks_super apart (by decide)]
  have count : t.groupCount = s.groupCount := by rw [isT]
  have size : MountedSize t.blockSize := by
    rw [isT]
    exact fed.mounted
  have stays : Chosen t (chosenBlocks s s.block .inode g b) .block g' b' := by
    apply block.congr
    · exact count
    · intro g'
      rw [isT]
      exact countedTable_other (by decide)
    · exact bitmap
    · exact numbers
    · exact data
  refine wlp_seq (wlp_of_wp (alloc_chooses ioFilled size
    (fun _ isSlot => slotApart.1 isSlot.symm) (by rwa [Multiset.card_cons]) .block
    fun g' inside => ?_)) ?_
  · rw [count] at inside
    refine ⟨?_, fun _ => ?_⟩
    · rw [numbers]
      exact fed.small .block g' inside
    · rw [bitmap g']
      exact fun same => slotApart.2 g' inside same.symm
  · rintro dataBlk taken (⟨-, none⟩ | ⟨g'', b'', again, isBlock, -⟩)
    · exact absurd (none g' stays.group) stays.not_exhausted
    · obtain ⟨rfl, rfl⟩ := stays.unique again
      refine wlp_pure.mpr fun made isMade => ?_
      obtain rfl := Option.some.inj isMade
      change dataBlk ≠ 0
      rw [isBlock, numberAt, numbers]
      exact some

end

end CuteCore.Fs
