import CuteCore.Fs.Bitmaps
import CuteCore.Fs.InodeRuns

/-!
# Runs of the allocators

Blocks and inodes are taken and given back in any order. The counters of the
groups and of the superblock count the clear bits, and an allocation takes the
smallest free number. The number 0 means failure, so a file system whose block 0
were free would lose it.
-/

namespace CuteCore.Fs

open Hoare Bytes

inductive Which where
  | block
  | inode
  deriving DecidableEq

def Which.resource : Which → Resource
  | .block => blocks
  | .inode => inodesOf

/-- The groups of a file system. Bitmaps lie on blocks of their own, apart from
the superblock and the descriptor table, and have room for their group. The last
group may reach beyond the last block. -/
structure Groups where
  blockSize : Nat
  count : Nat
  first : Nat
  perGroup : Nat
  total : Nat
  inodesPerGroup : Nat
  bitmap : Which → Nat → Nat
  sized : MountedSize blockSize
  perGroupPositive : 0 < perGroup
  inodesPositive : 0 < inodesPerGroup
  perGroupFits : perGroup ≤ 8 * blkSz
  inodesFit : inodesPerGroup ≤ 8 * blkSz
  started : ∀ g < count, first + g * perGroup < total
  totalSmall : total < 2 ^ 32
  inodesSmall : count * inodesPerGroup < 2 ^ 32
  notSuper : ∀ w, ∀ g < count, bitmap w g ≠ 0
  notTable : ∀ w, ∀ g < count, ∀ g' < count, bitmap w g ≠ first + 1 + g' / (blockSize / 32)
  apart : ∀ w w', ∀ g < count, ∀ g' < count, bitmap w g = bitmap w' g' → w = w' ∧ g = g'

namespace Groups

/-- The first number of a group, as the bitmap counts. -/
def base (groups : Groups) (w : Which) (g : Nat) : Nat :=
  match w with
  | .block => groups.first + g * groups.perGroup
  | .inode => g * groups.inodesPerGroup

/-- How many numbers a group has. -/
def limit (groups : Groups) (w : Which) (g : Nat) : Nat :=
  match w with
  | .block => min groups.perGroup (groups.total - groups.base .block g)
  | .inode => groups.inodesPerGroup

variable (groups : Groups)

/-- The numbers of a group end below 2³². -/
theorem base_add_limit (w : Which) (g : Nat) (inside : g < groups.count) :
    groups.base w g + groups.limit w g < 2 ^ 32 := by
  cases w with
  | block =>
    have started := groups.started g inside
    have small := groups.totalSmall
    simp only [base, limit]
    omega
  | inode =>
    have upTo : (g + 1) * groups.inodesPerGroup ≤ groups.count * groups.inodesPerGroup :=
      Nat.mul_le_mul_right _ inside
    have small := groups.inodesSmall
    rw [Nat.add_mul, Nat.one_mul] at upTo
    simp only [base, limit]
    omega

theorem limit_le (w : Which) (g : Nat) : groups.limit w g ≤ 8 * blkSz := by
  cases w with
  | block => exact Nat.le_trans (Nat.min_le_left _ _) groups.perGroupFits
  | inode => exact groups.inodesFit

/-- The blocks of the first `n` groups end before the total. -/
theorem sum_blocks (n : Nat) (upTo : n ≤ groups.count) :
    ∑ g ∈ Finset.range n, groups.limit .block g ≤ groups.total := by
  cases n with
  | zero => exact Nat.zero_le _
  | succ n =>
    have each : ∑ g ∈ Finset.range n, groups.limit .block g ≤
        ∑ _g ∈ Finset.range n, groups.perGroup :=
      Finset.sum_le_sum fun g _ => Nat.min_le_left _ _
    rw [Finset.sum_const, Finset.card_range, smul_eq_mul] at each
    have started := groups.started n upTo
    have last : groups.limit .block n ≤ groups.total - groups.base .block n := Nat.min_le_right _ _
    simp only [base] at last
    rw [Finset.sum_range_succ]
    omega

/-- All numbers together are counted by the counter in the superblock. -/
theorem sum_limit (w : Which) : ∑ g ∈ Finset.range groups.count, groups.limit w g < 2 ^ 32 := by
  cases w with
  | block => exact Nat.lt_of_le_of_lt (groups.sum_blocks _ (Nat.le_refl _)) groups.totalSmall
  | inode =>
    simp only [limit, Finset.sum_const, Finset.card_range, smul_eq_mul]
    exact groups.inodesSmall

end Groups

/-- The mounted file system has these groups. -/
structure Fits (groups : Groups) (s : Vfs) (view : Nat → ByteMap) : Prop where
  blockSize : s.blockSize = groups.blockSize
  groupCount : s.groupCount = groups.count
  inodePerGroup : s.inodePerGroup = groups.inodesPerGroup
  first : load (view 0) 1044 4 = groups.first
  perGroup : load (view 0) 1056 4 = groups.perGroup
  total : load (view 0) 1028 4 = groups.total
  inodes : load (view 0) 1024 4 = groups.count * groups.inodesPerGroup
  bitmap : ∀ w, ∀ g < groups.count,
    s.groupField g w.resource.bitmap 4 = groups.bitmap w g

/-- The free numbers of a group. -/
def freeOf (groups : Groups) (view : Nat → ByteMap) (w : Which) (g : Nat) : Finset Nat :=
  clearBits (view (groups.bitmap w g)) (groups.limit w g)

/-- Both counters count the clear bits. -/
structure Balanced (groups : Groups) (s : Vfs) (view : Nat → ByteMap) : Prop where
  group : ∀ w, ∀ g < groups.count,
    s.groupField g w.resource.groupFree 2 = (freeOf groups view w g).card
  super : ∀ w, load (view 0) (1024 + w.resource.superFree) 4 =
    ∑ g ∈ Finset.range groups.count, (freeOf groups view w g).card

/-- The blocks after a bitmap and the counters of its group changed. -/
def moved (groups : Groups) (view : Nat → ByteMap) (table : ByteMap) (w : Which) (g : Nat)
    (data : ByteMap) (d16 d32 : Nat) : Nat → ByteMap :=
  countedSuper (putGdesc (Function.update view (groups.bitmap w g) data) groups.blockSize
    (countedTable table w.resource g d16) g) w.resource d32

section Moved

variable {groups : Groups} {s : Vfs} {view : Nat → ByteMap} {w : Which} {g : Nat} {data : ByteMap}
  {d16 d32 : Nat}

theorem freeOf_card_le (groups : Groups) (view : Nat → ByteMap) (w : Which) (g : Nat) :
    (freeOf groups view w g).card ≤ groups.limit w g := by
  have few := Finset.card_filter_le (Finset.range (groups.limit w g))
    fun b => bitAt (view (groups.bitmap w g)) b = false
  rwa [Finset.card_range] at few

theorem gdtBlock_eq (fits : Fits groups s view) (g : Nat) (inside : g < groups.count) :
    gdtBlock view groups.blockSize g = groups.first + 1 + g / (groups.blockSize / 32) := by
  have small := groups.totalSmall
  have started := groups.started g inside
  have most : g ≤ g * groups.perGroup := Nat.le_mul_of_pos_right _ groups.perGroupPositive
  have few : g / (groups.blockSize / 32) ≤ g := Nat.div_le_self ..
  rw [gdtBlock, fits.first, u32, Nat.mod_eq_of_lt (by omega)]

variable (fits : Fits groups s view) (inside : g < groups.count)

include fits inside

/-- Only the group's bitmap changes, apart from the superblock and the block with the group's
descriptor. -/
theorem moved_eq (no : Nat) (notSuper : no ≠ 0)
    (notTable : no ≠ groups.first + 1 + g / (groups.blockSize / 32)) :
    moved groups view s.gbTable w g data d16 d32 no =
      if no = groups.bitmap w g then data else view no := by
  have zero : Function.update view (groups.bitmap w g) data 0 = view 0 :=
    Function.update_of_ne (groups.notSuper w g inside).symm _ _
  have table : gdtBlock (Function.update view (groups.bitmap w g) data) groups.blockSize g =
      groups.first + 1 + g / (groups.blockSize / 32) := by
    rw [← gdtBlock_eq fits g inside, gdtBlock, gdtBlock, zero]
  rw [moved, countedSuper, Function.update_of_ne notSuper, putGdesc, table,
    Function.update_of_ne notTable, Function.update_apply]

theorem moved_bitmap (w' : Which) (g' : Nat) (inside' : g' < groups.count) :
    moved groups view s.gbTable w g data d16 d32 (groups.bitmap w' g') =
      if w' = w ∧ g' = g then data else view (groups.bitmap w' g') := by
  rw [moved_eq fits inside _ (groups.notSuper w' g' inside')
    (groups.notTable w' g' inside' g inside)]
  by_cases same : w' = w ∧ g' = g
  · rw [if_pos same, if_pos (by rw [same.1, same.2])]
  · rw [if_neg same, if_neg fun equal => same (groups.apart w' w g' inside' g inside equal)]

theorem moved_super : moved groups view s.gbTable w g data d16 d32 0 =
    store (view 0) (1024 + w.resource.superFree) 4
      (load (view 0) (1024 + w.resource.superFree) 4 + d32) := by
  have zero : Function.update view (groups.bitmap w g) data 0 = view 0 :=
    Function.update_of_ne (groups.notSuper w g inside).symm _ _
  have table : gdtBlock (Function.update view (groups.bitmap w g) data) groups.blockSize g =
      groups.first + 1 + g / (groups.blockSize / 32) := by
    rw [← gdtBlock_eq fits g inside, gdtBlock, gdtBlock, zero]
  rw [moved, countedSuper, Function.update_self, putGdesc, table,
    Function.update_of_ne (Nat.ne_of_lt (by rw [Nat.add_right_comm]; exact Nat.succ_pos _)), zero]

/-- The geometry in memory does not change when a counter of a descriptor does. -/
theorem Fits.moved {after : Vfs}
    (same : SameButTable s after (countedTable s.gbTable w.resource g d16)) :
    Fits groups after (moved groups view s.gbTable w g data d16 d32) := by
  have super : Fs.moved groups view s.gbTable w g data d16 d32 0 =
      store (view 0) (1024 + w.resource.superFree) 4
        (load (view 0) (1024 + w.resource.superFree) 4 + d32) := moved_super fits inside
  have field : ∀ off, off + 4 ≤ 12 ∨ 20 ≤ off →
      load (Fs.moved groups view s.gbTable w g data d16 d32 0) (1024 + off) 4 =
        load (view 0) (1024 + off) 4 := by
    intro off away
    rw [super]
    refine load_store_apart _ _ _ _ _ _ ?_
    cases w <;> simp only [Which.resource, blocks, inodesOf] <;> omega
  unfold SameButTable at same
  refine ⟨?_, ?_, ?_, (field 20 (by omega)).trans fits.first,
    (field 32 (by omega)).trans fits.perGroup, (field 4 (by omega)).trans fits.total,
    (field 0 (by omega)).trans fits.inodes, ?_⟩
  · rw [← same]
    exact fits.blockSize
  · rw [← same]
    exact fits.groupCount
  · rw [← same]
    exact fits.inodePerGroup
  · intro w' g' inside'
    rw [← fits.bitmap w' g' inside', ← same]
    refine load_store_apart _ _ _ _ _ _ ?_
    cases w <;> cases w' <;> simp only [Which.resource, blocks, inodesOf] <;> omega

/-- The numbers free after a bitmap changed. -/
theorem freeOf_moved (w' : Which) (g' : Nat) (inside' : g' < groups.count) :
    freeOf groups (moved groups view s.gbTable w g data d16 d32) w' g' =
      if w' = w ∧ g' = g then clearBits data (groups.limit w g) else freeOf groups view w' g' := by
  rw [freeOf, moved_bitmap fits inside w' g' inside']
  by_cases isSame : w' = w ∧ g' = g
  · rw [if_pos isSame, if_pos isSame, isSame.1, isSame.2]
  · rw [if_neg isSame, if_neg isSame, freeOf]

/-- The sum over the groups moves with the one that changed. -/
theorem sum_moved : (freeOf groups view w g).card + ∑ g' ∈ Finset.range groups.count,
      (freeOf groups (moved groups view s.gbTable w g data d16 d32) w g').card =
    (clearBits data (groups.limit w g)).card +
      ∑ g' ∈ Finset.range groups.count, (freeOf groups view w g').card := by
  have member := Finset.mem_range.mpr inside
  have others : ∑ g' ∈ (Finset.range groups.count).erase g,
      (freeOf groups (moved groups view s.gbTable w g data d16 d32) w g').card =
      ∑ g' ∈ (Finset.range groups.count).erase g, (freeOf groups view w g').card := by
    refine Finset.sum_congr rfl fun g' isOther => ?_
    obtain ⟨differs, below⟩ := Finset.mem_erase.mp isOther
    rw [freeOf_moved fits inside w g' (Finset.mem_range.mp below), if_neg fun both => differs both.2]
  rw [← Finset.add_sum_erase _ _ member, ← Finset.add_sum_erase _ _ member, others,
    freeOf_moved fits inside w g inside, if_pos ⟨rfl, rfl⟩]
  omega

/-- A bitmap whose clear bits have changed by what the counters were changed by leaves all groups
balanced. The sums are on 16 bits for the group and on 32 for the superblock. -/
theorem Balanced.moved (balanced : Balanced groups s view) {after : Vfs}
    (same : SameButTable s after (countedTable s.gbTable w.resource g d16))
    (counted : ((freeOf groups view w g).card + d16) % 2 ^ 16 =
      (clearBits data (groups.limit w g)).card)
    (summed : (∑ g' ∈ Finset.range groups.count, (freeOf groups view w g').card + d32) % 2 ^ 32 =
      ∑ g' ∈ Finset.range groups.count,
        (freeOf groups (Fs.moved groups view s.gbTable w g data d16 d32) w g').card) :
    Balanced groups after (Fs.moved groups view s.gbTable w g data d16 d32) := by
  have table : after.gbTable = countedTable s.gbTable w.resource g d16 := by
    unfold SameButTable at same
    rw [← same]
  refine ⟨fun w' g' inside' => ?_, fun w' => ?_⟩
  · rw [freeOf_moved fits inside w' g' inside', Vfs.groupField, table, countedTable]
    by_cases isSame : w' = w ∧ g' = g
    · rw [if_pos isSame, isSame.1, isSame.2, load_store_same]
      have before := balanced.group w g inside
      rw [Vfs.groupField] at before
      rw [before]
      exact counted
    · rw [if_neg isSame, ← balanced.group w' g' inside', Vfs.groupField]
      refine load_store_apart _ _ _ _ _ _ ?_
      cases w <;> cases w' <;> simp only [Which.resource, blocks, inodesOf, true_and, reduceCtorEq,
        false_and, not_false_eq_true] at isSame ⊢ <;> omega
  · rw [moved_super fits inside]
    by_cases isW : w' = w
    · subst isW
      rw [load_store_same, balanced.super w']
      exact summed
    · have others : ∑ g' ∈ Finset.range groups.count,
          (freeOf groups (Fs.moved groups view s.gbTable w g data d16 d32) w' g').card =
          ∑ g' ∈ Finset.range groups.count, (freeOf groups view w' g').card := by
        refine Finset.sum_congr rfl fun g' member => ?_
        rw [freeOf_moved fits inside w' g' (Finset.mem_range.mp member), if_neg fun both => isW both.1]
      rw [others, ← balanced.super w']
      refine load_store_apart _ _ _ _ _ _ ?_
      cases w <;> cases w' <;> simp only [Which.resource, blocks, inodesOf, reduceCtorEq,
        not_true_eq_false, not_false_eq_true] at isW ⊢ <;> omega

end Moved

/-- The smallest free number: bit `b` of group `g`. -/
def FirstFree (groups : Groups) (view : Nat → ByteMap) (w : Which) (g b : Nat) : Prop :=
  FirstClear (view (groups.bitmap w g)) (groups.limit w g) 0 b ∧
    ∀ g' < g, freeOf groups view w g' = ∅

section Allocation

variable {groups : Groups} {loose : Nat → Nat → Prop} {s : Vfs} {view : Nat → ByteMap}
  {held : Multiset Nat}

/-- The bytes of the superblock and of the bitmaps count. -/
structure Tight (groups : Groups) (loose : Nat → Nat → Prop) : Prop where
  super : ∀ x, ¬ loose 0 x
  bitmap : ∀ w, ∀ g < groups.count, ∀ x, ¬ loose (groups.bitmap w g) x

theorem inSuper (w : Which) : w.resource.superFree + 4 ≤ 1024 := by
  cases w <;> decide

/-- A group with a clear bit has a first one. -/
theorem FirstClear.mem {data : ByteMap} {limit b : Nat} (first : FirstClear data limit 0 b) :
    b ∈ clearBits data limit := mem_clearBits.mpr ⟨first.2.1, first.2.2.1⟩

/-- A number is taken: one bit is set, and the counters go down. -/
def takenBlocks (groups : Groups) (view : Nat → ByteMap) (table : ByteMap) (w : Which)
    (g b : Nat) : Nat → ByteMap :=
  moved groups view table w g (setBit (view (groups.bitmap w g)) b) (2 ^ 16 - 1) (2 ^ 32 - 1)

/-- The group loop takes the smallest free number. -/
theorem allocFrom_spec (io : Io loose s view (fun _ => False) held) (tight : Tight groups loose)
    (fits : Fits groups s view) (balanced : Balanced groups s view)
    (room : Multiset.card held < nBlkNum) (w : Which) (range : Nat → FsProg (Nat × Nat))
    (ranged : ∀ g < groups.count, wp (range g)
      (fun numbers after => (numbers.1 = groups.base w g ∧ groups.limit w g ≤ numbers.2 ∧
        numbers.2 ≤ 8 * blkSz) ∧ after = s) s)
    (remaining g : Nat) (upTo : g + remaining = groups.count)
    (before : ∀ g' < g, freeOf groups view w g' = ∅) :
    wp (allocFrom w.resource range remaining g) (fun found after =>
      match found with
      | some n => ∃ g' < groups.count, ∃ b, n = groups.base w g' + b ∧
        FirstFree groups view w g' b ∧
        SameButTable s after (countedTable s.gbTable w.resource g' (2 ^ 16 - 1)) ∧
        Io loose after (takenBlocks groups view s.gbTable w g' b) (fun _ => False) held
      | none => after = s ∧ ∀ g' < groups.count, freeOf groups view w g' = ∅) s := by
  induction remaining generalizing g with
  | zero =>
    refine wp_pure.mpr ⟨rfl, ?_⟩
    rwa [← upTo, Nat.add_zero]
  | succ remaining inductionHypothesis =>
    have inside : g < groups.count := by omega
    have count := balanced.group w g inside
    rw [allocFrom, wp_bind, wp_get]
    by_cases none : s.groupField g w.resource.groupFree 2 = 0
    · rw [if_pos none]
      refine inductionHypothesis (g + 1) (by omega) fun g' less => ?_
      by_cases isG : g' = g
      · rw [isG]
        exact Finset.card_eq_zero.mp (count.symm.trans none)
      · exact before g' (by omega)
    · rw [if_neg none]
      apply wp_seq (ranged g inside)
      rintro numbers s ⟨⟨isBase, enough, small⟩, rfl⟩
      rw [fits.bitmap w g inside]
      apply wp_seq (claimBit_spec io _ _ (tight.bitmap w g inside) small room)
      rintro claimed mid ⟨toMid, outcome⟩
      -- The counter promises a clear bit, so the scan stops inside the group.
      obtain ⟨promised, member⟩ : (freeOf groups view w g).Nonempty :=
        Finset.card_pos.mp (by omega)
      obtain ⟨below, isClear⟩ := mem_clearBits.mp member
      cases claimed with
      | none =>
        rw [outcome.1 promised (by omega)] at isClear
        cases isClear
      | some b =>
        obtain ⟨⟨-, -, clearB, earlier⟩, claimed⟩ := outcome
        have notLater : ¬ promised < b := by
          intro less
          rw [earlier promised (Nat.zero_le _) less] at isClear
          cases isClear
        have first : FirstClear (view (groups.bitmap w g)) (groups.limit w g) 0 b :=
          ⟨Nat.zero_le _, by omega, clearB, earlier⟩
        have sameTable : mid.gbTable = s.gbTable := by
          unfold SameFs at toMid
          rw [← toMid]
        have sameSize : mid.blockSize = groups.blockSize := by
          unfold SameFs at toMid
          rw [← toMid]
          exact fits.blockSize
        refine wp_seq
          (countFree_spec claimed w.resource g _ _ (sameSize ▸ groups.sized) tight.super
            (inSuper w) room) ?_
        rintro - after ⟨toAfter, counted⟩
        rw [sameTable] at toAfter
        rw [sameTable, sameSize] at counted
        refine wp_pure.mpr ⟨g, inside, b, by rw [isBase], ⟨first, before⟩, ?_, counted⟩
        unfold SameButTable SameFs at *
        rw [← toAfter, ← toMid]

/-- The scan of a group's block bitmap covers the blocks of the group, with a limit inside the
bitmap's block. -/
theorem blockRange_spec (io : Io loose s view (fun _ => False) held) (tight : Tight groups loose)
    (fits : Fits groups s view) (g : Nat) (inside : g < groups.count) :
    wp (blockRange g) (fun numbers after => (numbers.1 = groups.base .block g ∧
      groups.limit .block g ≤ numbers.2 ∧ numbers.2 ≤ 8 * blkSz) ∧ after = s) s := by
  rw [blockRange]
  apply wp_seq (io.loadSuper_spec (by decide) tight.super)
  rintro _ s ⟨rfl, rfl⟩
  apply wp_seq (io.loadSuper_spec (by decide) tight.super)
  rintro _ s ⟨rfl, rfl⟩
  apply wp_seq (io.loadSuper_spec (by decide) tight.super)
  rintro _ s ⟨rfl, rfl⟩
  have started := groups.started g inside
  have small := groups.totalSmall
  have fitsMap := groups.perGroupFits
  have blkSize : blkSz = 4096 := rfl
  have noWrap : u32 (groups.first + g * groups.perGroup) = groups.first + g * groups.perGroup :=
    Nat.mod_eq_of_lt (by omega)
  rw [wp_pure, fits.first, fits.perGroup, fits.total, cutRange, noWrap]
  simp only [Groups.base, Groups.limit, and_true, true_and]
  by_cases clipped : groups.total < u32 (groups.first + g * groups.perGroup + groups.perGroup)
  · rw [if_pos clipped]
    simp only [u32, sub32] at clipped ⊢
    omega
  · rw [if_neg clipped]
    simp only [u32] at clipped
    omega

/-- The scan of a group's inode bitmap covers the inodes of the group, with a limit inside the
bitmap's block. -/
theorem inodeRange_spec (io : Io loose s view (fun _ => False) held) (tight : Tight groups loose)
    (fits : Fits groups s view) (g : Nat) (inside : g < groups.count) :
    wp (inodeRange g) (fun numbers after => (numbers.1 = groups.base .inode g ∧
      groups.limit .inode g ≤ numbers.2 ∧ numbers.2 ≤ 8 * blkSz) ∧ after = s) s := by
  rw [inodeRange, wp_bind, wp_get]
  apply wp_seq (io.loadSuper_spec (by decide) tight.super)
  rintro _ s ⟨rfl, rfl⟩
  have upTo : (g + 1) * groups.inodesPerGroup ≤ groups.count * groups.inodesPerGroup :=
    Nat.mul_le_mul_right _ inside
  rw [Nat.add_mul, Nat.one_mul] at upTo
  have small := groups.inodesSmall
  rw [wp_pure, fits.inodes, fits.inodePerGroup, cutRange, u32,
    Nat.mod_eq_of_lt (by omega : g * groups.inodesPerGroup < 2 ^ 32), u32,
    Nat.mod_eq_of_lt (by omega), if_neg (by omega)]
  exact ⟨⟨rfl, Nat.le_refl _, groups.inodesFit⟩, rfl⟩

/-- The number an allocator returns for bit `b` of group `g`. -/
def Groups.number (groups : Groups) (w : Which) (g b : Nat) : Nat :=
  match w with
  | .block => groups.base w g + b
  | .inode => groups.base w g + b + 1

def allocOf : Which → FsProg Nat
  | .block => ext2AllocBlock
  | .inode => ext2AllocInode

/-- An allocation takes the smallest free number, or finds that there is none. -/
theorem alloc_spec (io : Io loose s view (fun _ => False) held) (tight : Tight groups loose)
    (fits : Fits groups s view) (balanced : Balanced groups s view)
    (room : Multiset.card held < nBlkNum) (w : Which) :
    wp (allocOf w) (fun n after =>
      (∃ g < groups.count, ∃ b, n = groups.number w g b ∧ FirstFree groups view w g b ∧
        SameButTable s after (countedTable s.gbTable w.resource g (2 ^ 16 - 1)) ∧
        Io loose after (takenBlocks groups view s.gbTable w g b) (fun _ => False) held) ∨
      n = 0 ∧ after = s ∧ ∀ g < groups.count, freeOf groups view w g = ∅) s := by
  have noneBefore : ∀ g' < 0, freeOf groups view w g' = ∅ := fun g' less => absurd less (by omega)
  have below : ∀ g < groups.count, ∀ b, FirstFree groups view w g b →
      groups.base w g + b + 1 ≤ 2 ^ 32 - 1 := by
    intro g inside b first
    have bound := groups.base_add_limit w g inside
    have less := first.1.2.1
    omega
  cases w with
  | block =>
    rw [allocOf, ext2AllocBlock, wp_bind, wp_get, fits.groupCount]
    refine wp_seq (allocFrom_spec io tight fits balanced room .block blockRange
      (blockRange_spec io tight fits) groups.count 0 (Nat.zero_add _) noneBefore) ?_
    rintro found after outcome
    rw [wp_pure]
    cases found with
    | none => exact Or.inr ⟨rfl, outcome⟩
    | some n =>
      obtain ⟨g, inside, b, rfl, first, rest⟩ := outcome
      have small := below g inside b first
      exact Or.inl ⟨g, inside, b, Nat.mod_eq_of_lt (by omega), first, rest⟩
  | inode =>
    rw [allocOf, ext2AllocInode, wp_bind, wp_get, fits.groupCount]
    refine wp_seq (allocFrom_spec io tight fits balanced room .inode inodeRange
      (inodeRange_spec io tight fits) groups.count 0 (Nat.zero_add _) noneBefore) ?_
    rintro found after outcome
    rw [wp_pure]
    cases found with
    | none => exact Or.inr ⟨rfl, outcome⟩
    | some n =>
      obtain ⟨g, inside, b, rfl, first, rest⟩ := outcome
      have small := below g inside b first
      exact Or.inl ⟨g, inside, b, Nat.mod_eq_of_lt (by omega), first, rest⟩

/-- A number is given back: its bit is cleared, and the counters go up. -/
def givenBlocks (groups : Groups) (view : Nat → ByteMap) (table : ByteMap) (w : Which)
    (g b : Nat) : Nat → ByteMap :=
  moved groups view table w g (clearBit (view (groups.bitmap w g)) b) 1 1

/-- `freeBit` clears one bit of the group's bitmap and counts it in the group's descriptor and in
the superblock. Nothing else changes. -/
theorem freeBit_spec (io : Io loose s view (fun _ => False) held) (tight : Tight groups loose)
    (fits : Fits groups s view) (room : Multiset.card held < nBlkNum) (w : Which) (g b : Nat)
    (inside : g < groups.count) (below : b < 8 * blkSz) :
    wp (freeBit w.resource g b) (fun _ after =>
      SameButTable s after (countedTable s.gbTable w.resource g 1) ∧
      Io loose after (givenBlocks groups view s.gbTable w g b) (fun _ => False) held) s := by
  have blkSize : blkSz = 4096 := rfl
  rw [freeBit, wp_bind, wp_get, wp_onlyIf, if_pos (fits.groupCount ▸ inside),
    fits.bitmap w g inside]
  apply wp_seq (io.bread_spec _ room)
  rintro bmap opened ⟨read, toOpened, buffers, -⟩
  refine wp_seq (read.loadBuf_spec buffers (by omega : b / 8 + 1 ≤ blkSz)
    fun x _ _ => tight.bitmap w g inside x) ?_
  rintro _ loaded ⟨rfl, rfl⟩
  refine wp_seq (read.storeBuf_spec buffers (Multiset.mem_cons_self ..)
    (by omega : b / 8 + 1 ≤ blkSz)) ?_
  rintro - stored ⟨changed, toStored, keeps⟩
  apply wp_seq (changed.bwrite_spec (keeps _ _ buffers) not_false)
  rintro - written ⟨recorded, toWritten, keeps'⟩
  apply wp_seq (recorded.brelse_spec (keeps' _ _ (keeps _ _ buffers)) not_false io.superHeld)
  rintro - released ⟨cleared, toReleased, -⟩
  have same := ((toOpened.trans toStored).trans toWritten).trans toReleased
  have sameTable : released.gbTable = s.gbTable := by
    unfold SameFs at same
    rw [← same]
  have sameSize : released.blockSize = groups.blockSize := by
    unfold SameFs at same
    rw [← same]
    exact fits.blockSize
  apply wp_mono (countFree_spec cleared w.resource g _ _ (sameSize ▸ groups.sized) tight.super
    (inSuper w) room)
  rintro - after ⟨toAfter, counted⟩
  rw [sameTable] at toAfter
  rw [sameTable, sameSize] at counted
  refine ⟨?_, counted⟩
  unfold SameButTable SameFs at *
  rw [← toAfter, ← same]

/-- Between two calls: the cache stands for the blocks it shows, and both counters
count the clear bits. -/
structure Ready (groups : Groups) (loose : Nat → Nat → Prop) (held : Multiset Nat) (s : Vfs) :
    Prop where
  io : Io loose s s.block (fun _ => False) held
  tight : Tight groups loose
  fits : Fits groups s s.block
  balanced : Balanced groups s s.block
  room : Multiset.card held < nBlkNum

/-- Blocks whose bytes all count are the blocks the cache shows. -/
theorem Io.block_eq {pending : Nat → Prop} (io : Io loose s view pending held) (no : Nat)
    (tight : ∀ x, ¬ loose no x) : s.block no = view no :=
  funext fun x => io.block_agrees no x (tight x)

/-- A state is ready when some view of its blocks fits and balances: the view that the cache shows
does so, too. -/
theorem Ready.of_view (io : Io loose s view (fun _ => False) held) (tight : Tight groups loose)
    (fits : Fits groups s view) (balanced : Balanced groups s view)
    (room : Multiset.card held < nBlkNum) : Ready groups loose held s := by
  have zero : s.block 0 = view 0 := io.block_eq 0 tight.super
  have free : ∀ w, ∀ g < groups.count, freeOf groups s.block w g = freeOf groups view w g := by
    intro w g inside
    rw [freeOf, freeOf, io.block_eq _ (tight.bitmap w g inside)]
  refine ⟨io.of_blocks, tight, ?_, ⟨fun w g inside => ?_, fun w => ?_⟩, room⟩
  · exact { fits with
      first := zero ▸ fits.first
      perGroup := zero ▸ fits.perGroup
      total := zero ▸ fits.total
      inodes := zero ▸ fits.inodes }
  · rw [free w g inside]
    exact balanced.group w g inside
  · rw [zero, balanced.super w]
    exact Finset.sum_congr rfl fun g member => by rw [free w g (Finset.mem_range.mp member)]

/-- What an allocation returns and changes: the smallest free number, whose bit
alone is set, or 0 when no number is free. -/
def Allocated (groups : Groups) (s : Vfs) (w : Which) (n : Nat) (after : Vfs) : Prop :=
  (∃ g < groups.count, ∃ b, n = groups.number w g b ∧ FirstFree groups s.block w g b ∧
    ∀ w', ∀ g' < groups.count, ∀ c, bitAt (after.block (groups.bitmap w' g')) c =
      (decide (w' = w ∧ g' = g ∧ c = b) || bitAt (s.block (groups.bitmap w' g')) c)) ∨
  n = 0 ∧ after = s ∧ ∀ g < groups.count, freeOf groups s.block w g = ∅

/-- The bits after the bitmap of one group changed. -/
theorem bits_moved {after : Vfs} {table data : ByteMap} {g d16 d32 : Nat} {w : Which}
    (fits : Fits groups s view) (inside : g < groups.count) (tight : Tight groups loose)
    (isTable : table = s.gbTable)
    (io : Io loose after (moved groups view table w g data d16 d32) (fun _ => False) held)
    (w' : Which) (g' : Nat) (inside' : g' < groups.count) (c : Nat) :
    bitAt (after.block (groups.bitmap w' g')) c =
      if w' = w ∧ g' = g then bitAt data c else bitAt (view (groups.bitmap w' g')) c := by
  subst isTable
  rw [io.block_eq _ (tight.bitmap w' g' inside'), moved_bitmap fits inside w' g' inside']
  split <;> rfl

/-- The counters stay right when a free number is taken. -/
theorem Balanced.take (balanced : Balanced groups s view) (fits : Fits groups s view) {after : Vfs}
    {w : Which} {g b : Nat} (inside : g < groups.count) (member : b ∈ freeOf groups view w g)
    (same : SameButTable s after (countedTable s.gbTable w.resource g (2 ^ 16 - 1))) :
    Balanced groups after (takenBlocks groups view s.gbTable w g b) := by
  have fewer : (clearBits (setBit (view (groups.bitmap w g)) b) (groups.limit w g)).card =
      (freeOf groups view w g).card - 1 := by
    rw [clearBits_setBit]
    exact Finset.card_erase_of_mem member
  have some : 0 < (freeOf groups view w g).card := Finset.card_pos.mpr ⟨b, member⟩
  have few := Nat.le_trans (freeOf_card_le groups view w g) (groups.limit_le w g)
  have blkSize : blkSz = 4096 := rfl
  have sum : (freeOf groups view w g).card + ∑ g' ∈ Finset.range groups.count,
        (freeOf groups (takenBlocks groups view s.gbTable w g b) w g').card =
      (clearBits (setBit (view (groups.bitmap w g)) b) (groups.limit w g)).card +
        ∑ g' ∈ Finset.range groups.count, (freeOf groups view w g').card := sum_moved fits inside
  rw [takenBlocks] at sum
  have sumSmall : ∑ g' ∈ Finset.range groups.count, (freeOf groups view w g').card < 2 ^ 32 :=
    Nat.lt_of_le_of_lt (Finset.sum_le_sum fun g' _ => freeOf_card_le groups view w g')
      (groups.sum_limit w)
  apply balanced.moved fits inside same
  · rw [fewer]
    omega
  · omega

/-- An allocation from any state with right counters leaves right counters, whether it finds a
number or not. -/
theorem Ready.alloc_step (ready : Ready groups loose held s) (w : Which) :
    wp (allocOf w) (fun n after =>
      Ready groups loose held after ∧ Allocated groups s w n after) s := by
  have fits := ready.fits
  apply wp_mono (alloc_spec ready.io ready.tight fits ready.balanced ready.room w)
  rintro n after (⟨g, inside, b, isNumber, first, same, io⟩ | ⟨rfl, rfl, none⟩)
  · have member : b ∈ freeOf groups s.block w g := first.1.mem
    refine ⟨Ready.of_view io ready.tight (fits.moved inside same)
      (ready.balanced.take fits inside member same) ready.room,
      Or.inl ⟨g, inside, b, isNumber, first, ?_⟩⟩
    intro w' g' inside' c
    rw [bits_moved fits inside ready.tight rfl io w' g' inside' c]
    by_cases isSame : w' = w ∧ g' = g
    · rw [if_pos isSame, bitAt_setBit, isSame.1, isSame.2]
      simp
    · have other : ¬ (w' = w ∧ g' = g ∧ c = b) := fun all => isSame ⟨all.1, all.2.1⟩
      rw [if_neg isSame, decide_eq_false other, Bool.false_or]
  · exact ⟨ready, Or.inr ⟨rfl, rfl, none⟩⟩

def releaseOf : Which → Nat → FsProg Unit
  | .block => ext2FreeBlock
  | .inode => ext2FreeInode

/-- A number that is allocated now. -/
def Taken (groups : Groups) (s : Vfs) (w : Which) (n : Nat) : Prop :=
  ∃ g < groups.count, ∃ b < groups.limit w g, n = groups.number w g b ∧
    bitAt (s.block (groups.bitmap w g)) b = true

theorem div_mod_of_lt (g k b : Nat) (below : b < k) :
    (g * k + b) / k = g ∧ (g * k + b) % k = b := by
  have positive : 0 < k := by omega
  rw [Nat.add_comm, Nat.add_mul_div_right _ _ positive, Nat.add_mul_mod_self_right,
    Nat.div_eq_of_lt below, Nat.mod_eq_of_lt below]
  exact ⟨Nat.zero_add g, rfl⟩

/-- To free a bit that is set keeps the counters equal to the clear bits. -/
theorem Ready.freeBit_step (ready : Ready groups loose held s) (w : Which) (g b : Nat)
    (inside : g < groups.count) (below : b < groups.limit w g)
    (isSet : bitAt (s.block (groups.bitmap w g)) b = true) :
    wp (freeBit w.resource g b) (fun _ after => Ready groups loose held after) s := by
  have fits := ready.fits
  have most := groups.limit_le w g
  apply wp_mono (freeBit_spec ready.io ready.tight fits ready.room w g b inside (by omega))
  rintro - after ⟨same, io⟩
  have absent : b ∉ freeOf groups s.block w g := by
    intro member
    rw [(mem_clearBits.mp member).2] at isSet
    cases isSet
  have more : (clearBits (clearBit (s.block (groups.bitmap w g)) b) (groups.limit w g)).card =
      (freeOf groups s.block w g).card + 1 := by
    rw [clearBits_clearBit _ _ _ below]
    exact Finset.card_insert_of_notMem absent
  have few := freeOf_card_le groups (givenBlocks groups s.block s.gbTable w g b) w g
  have blkSize : blkSz = 4096 := rfl
  have sum : (freeOf groups s.block w g).card + ∑ g' ∈ Finset.range groups.count,
        (freeOf groups (givenBlocks groups s.block s.gbTable w g b) w g').card =
      (clearBits (clearBit (s.block (groups.bitmap w g)) b) (groups.limit w g)).card +
        ∑ g' ∈ Finset.range groups.count, (freeOf groups s.block w g').card :=
    sum_moved fits inside
  rw [givenBlocks, freeOf_moved fits inside w g inside, if_pos ⟨rfl, rfl⟩, more] at few
  have sumSmall : ∑ g' ∈ Finset.range groups.count,
      (freeOf groups (givenBlocks groups s.block s.gbTable w g b) w g').card < 2 ^ 32 :=
    Nat.lt_of_le_of_lt (Finset.sum_le_sum fun g' _ => freeOf_card_le groups _ w g')
      (groups.sum_limit w)
  rw [givenBlocks] at sum sumSmall
  refine Ready.of_view io ready.tight (fits.moved inside same)
    (ready.balanced.moved fits inside same ?_ ?_) ready.room
  · rw [more]
    omega
  · omega

/-- Giving back an allocated number. Block 0 stays taken. -/
theorem Ready.release_step (ready : Ready groups loose held s) (w : Which) (n : Nat)
    (taken : Taken groups s w n) :
    wp (releaseOf w n) (fun _ after => Ready groups loose held after) s := by
  obtain ⟨g, inside, b, below, rfl, isSet⟩ := taken
  have step := ready.freeBit_step w g b inside below isSet
  cases w with
  | block =>
    have few : b < groups.perGroup := Nat.lt_of_lt_of_le below (Nat.min_le_left _ _)
    obtain ⟨isG, isB⟩ := div_mod_of_lt g groups.perGroup b few
    have number : groups.number .block g b = groups.first + (g * groups.perGroup + b) :=
      Nat.add_assoc _ _ _
    rw [releaseOf, ext2FreeBlock]
    apply wp_seq (ready.io.loadSuper_spec (by decide) ready.tight.super)
    rintro _ s ⟨rfl, rfl⟩
    apply wp_seq (ready.io.loadSuper_spec (by decide) ready.tight.super)
    rintro _ s ⟨rfl, rfl⟩
    rw [wp_onlyIf, ready.fits.first, ready.fits.perGroup, number, Nat.add_sub_cancel_left, isG, isB]
    split
    · exact step
    · exact ready
  | inode =>
    obtain ⟨isG, isB⟩ := div_mod_of_lt g groups.inodesPerGroup b below
    have number : groups.number .inode g b - 1 = g * groups.inodesPerGroup + b := rfl
    have positive : groups.number .inode g b ≠ 0 := Nat.succ_ne_zero _
    rw [releaseOf, ext2FreeInode, wp_bind, wp_get, wp_onlyIf, number, ready.fits.inodePerGroup, isG,
      isB, if_pos positive]
    exact step

inductive AllocOp where
  | alloc (w : Which)
  | free (w : Which) (n : Nat)

/-- Only allocated numbers are given back. -/
def AllocOp.Legal (groups : Groups) (s : Vfs) : AllocOp → Prop
  | .alloc _ => True
  | .free w n => Taken groups s w n

def AllocOp.exec : AllocOp → FsProg Nat
  | .alloc w => allocOf w
  | .free w n => do
    releaseOf w n
    return 0

/-- Allocations and frees in any order, from any state whose counters count. -/
inductive AllocRun (groups : Groups) (loose : Nat → Nat → Prop) (held : Multiset Nat) :
    Vfs → Prop where
  | start {s : Vfs} (ready : Ready groups loose held s) : AllocRun groups loose held s
  | step {s after : Vfs} {n : Nat} (earlier : AllocRun groups loose held s) (op : AllocOp)
      (legal : op.Legal groups s) (returned : Returns op.exec s n after) :
      AllocRun groups loose held after

theorem Ready.step (ready : Ready groups loose held s) (op : AllocOp) (legal : op.Legal groups s) :
    wp op.exec (fun _ after => Ready groups loose held after) s := by
  cases op with
  | alloc w => exact wp_mono (ready.alloc_step w) fun _ _ met => met.1
  | free w n =>
    refine wp_seq (ready.release_step w n legal) fun _ _ met => ?_
    exact wp_pure.mpr met

theorem Ready.of_run (run : AllocRun groups loose held s) : Ready groups loose held s := by
  induction run with
  | start ready => exact ready
  | step earlier op legal returned inductionHypothesis =>
    exact (inductionHypothesis.step op legal).of_returns returned

/-- When an allocation returns 0: no number is free, or block 0 is and it is the
smallest. -/
theorem Allocated.zero_iff {w : Which} {n : Nat} {after : Vfs}
    (allocated : Allocated groups s w n after) :
    n = 0 ↔ (∀ g < groups.count, freeOf groups s.block w g = ∅) ∨
      groups.number w 0 0 = 0 ∧ 0 < groups.count ∧ 0 ∈ freeOf groups s.block w 0 := by
  obtain ⟨g, inside, b, rfl, ⟨first, earlier⟩, -⟩ | ⟨rfl, -, none⟩ := allocated
  · have member : b ∈ freeOf groups s.block w g := first.mem
    constructor
    · intro zero
      have positive := groups.perGroupPositive
      cases w with
      | block =>
        simp only [Groups.number, Groups.base] at zero ⊢
        have isG : g = 0 := by
          have product : g * groups.perGroup = 0 := by omega
          exact (Nat.mul_eq_zero.mp product).resolve_right (by omega)
        have isB : b = 0 := by omega
        subst isG isB
        exact Or.inr ⟨by omega, inside, member⟩
      | inode => exact absurd zero (Nat.succ_ne_zero _)
    · rintro (none | ⟨zero, -, free⟩)
      · rw [none g inside] at member
        exact absurd member (Finset.notMem_empty _)
      · have isG : g = 0 := by
          by_contra later
          rw [earlier 0 (by omega)] at free
          exact absurd free (Finset.notMem_empty _)
        subst isG
        have isB : b = 0 := by
          by_contra later
          have isSet := first.2.2.2 0 (Nat.le_refl _) (by omega)
          rw [(mem_clearBits.mp free).2] at isSet
          cases isSet
        rw [isB]
        exact zero
  · exact ⟨fun _ => Or.inl none, fun _ => rfl⟩

/-- In every state of a run both counters count the clear bits, every call
returns, and an allocation takes the smallest free number and changes no other
bit. It returns 0 when no number is free, and also when it takes block 0. -/
theorem allocators_balanced (run : AllocRun groups loose held s) :
    Balanced groups s s.block ∧
    (∀ w n, Taken groups s w n → ∃ after, Returns (releaseOf w n) s () after) ∧
    ∀ w, ∃ n after, Returns (allocOf w) s n after ∧ Allocated groups s w n after ∧
      (n = 0 ↔ (∀ g < groups.count, freeOf groups s.block w g = ∅) ∨
        groups.number w 0 0 = 0 ∧ 0 < groups.count ∧ 0 ∈ freeOf groups s.block w 0) := by
  have ready := Ready.of_run run
  refine ⟨ready.balanced, fun w n taken => ?_, fun w => ?_⟩
  · obtain ⟨⟨⟩, after, returned, -⟩ := ready.release_step w n taken
    exact ⟨after, returned⟩
  · obtain ⟨n, after, returned, -, allocated⟩ := ready.alloc_step w
    exact ⟨n, after, returned, allocated, allocated.zero_iff⟩

end Allocation

/-- The one group of a disk of 100 blocks and 16 inodes. -/
def oneGroup : Groups where
  blockSize := 4096
  count := 1
  first := 0
  perGroup := 32768
  total := 100
  inodesPerGroup := 16
  bitmap := fun w _ =>
    match w with
    | .block => 2
    | .inode => 3
  sized := ⟨2, Nat.le_refl 2, rfl⟩
  perGroupPositive := by decide
  inodesPositive := by decide
  perGroupFits := by decide
  inodesFit := by decide
  started := by decide
  totalSmall := by decide
  inodesSmall := by decide
  notSuper := by
    intro w g inside
    cases w <;> decide
  notTable := by
    intro w g inside g' inside'
    cases w <;> simp only <;> omega
  apart := by
    intro w w' g inside g' inside' same
    refine ⟨?_, by omega⟩
    cases w <;> cases w' <;> first | rfl | exact absurd same (by decide)

/-- The state over `disk` whose superblock is held and whose table is block 1. -/
def opened (disk : Nat → ByteMap) (i : Fin nBlkNum) (caches : BlkCache.Caches ByteMap) : Vfs :=
  { unmounted disk with
    caches := caches
    sbBuf := i
    blockSize := 4096
    groupCount := 1
    inodePerGroup := 16
    gbTable := disk 1 }

/-- A disk with one group whose counters count its clear bits. -/
structure CountedDisk (disk : Nat → ByteMap) : Prop where
  sizes : load (disk 0) 1044 4 = 0 ∧ load (disk 0) 1056 4 = 32768 ∧ load (disk 0) 1028 4 = 100 ∧
    load (disk 0) 1024 4 = 16 ∧ load (disk 1) 0 4 = 2 ∧ load (disk 1) 4 4 = 3
  blocks : load (disk 1) 12 2 = (clearBits (disk 2) 100).card ∧
    load (disk 0) 1036 4 = (clearBits (disk 2) 100).card
  inodes : load (disk 1) 14 2 = (clearBits (disk 3) 16).card ∧
    load (disk 0) 1040 4 = (clearBits (disk 3) 16).card

/-- Such a disk can be opened. -/
theorem exists_opened {disk : Nat → ByteMap} (counted : CountedDisk disk) :
    ∃ i caches, Returns (BlkCache.bread 0) (BlkCache.boot (fun _ => 0) disk) i caches ∧
      Ready oneGroup (fun _ _ => False) {0} (opened disk i caches) ∧
      ∀ no, (opened disk i caches).block no = disk no := by
  have start : BlkCache.Represents (Agree fun _ _ => False) (BlkCache.boot (fun _ => 0) disk) disk
      (fun _ => False) 0 := by
    have exact := BlkCache.boot_represents (fun _ => (0 : Byte)) disk
    refine ⟨exact.distinct, exact.counted, exact.cached, fun i valid x _ => ?_,
      fun i valid clean settled x _ => ?_, fun no absent x _ => rfl, exact.pendingHeld⟩
    · exact congrFun (exact.data i valid) x
    · exact congrFun (exact.clean i valid clean settled) x
  have room : (0 : Multiset Nat).toFinset.card < nBlkNum := by decide
  obtain ⟨i, caches, returned, buffers, rep, -⟩ := BlkCache.bread_spec start 0 (Or.inr room)
    (by decide)
  have io : Io (fun _ _ => False) (opened disk i caches) disk (fun _ => False) {0} :=
    ⟨rep, buffers, Multiset.mem_singleton_self 0⟩
  obtain ⟨first, perGroup, total, inodes, blockMap, inodeMap⟩ := counted.sizes
  have tight : Tight oneGroup fun _ _ => False := ⟨fun _ => not_false, fun _ _ _ _ => not_false⟩
  have fits : Fits oneGroup (opened disk i caches) disk := by
    refine ⟨rfl, rfl, rfl, first, perGroup, total, inodes, fun w g inside => ?_⟩
    obtain rfl : g = 0 := Nat.lt_one_iff.mp inside
    cases w with
    | block => exact blockMap
    | inode => exact inodeMap
  have balanced : Balanced oneGroup (opened disk i caches) disk := by
    refine ⟨fun w g inside => ?_, fun w => ?_⟩
    · obtain rfl : g = 0 := Nat.lt_one_iff.mp inside
      cases w with
      | block => exact counted.blocks.1
      | inode => exact counted.inodes.1
    · rw [show oneGroup.count = 1 from rfl, Finset.sum_range_one]
      cases w with
      | block => exact counted.blocks.2
      | inode => exact counted.inodes.2
  exact ⟨i, caches, returned, Ready.of_view io tight fits balanced (by decide),
    fun no => io.block_eq no fun _ => not_false⟩

theorem smallDisk_counted : CountedDisk smallDisk :=
  ⟨by decide +kernel, by decide +kernel, by decide +kernel⟩

/-- On a small disk a block is taken and given back, and the counters still count. -/
theorem smallDisk_balanced : ∃ s n mid after, Returns (AllocOp.alloc .block).exec s n mid ∧ n ≠ 0 ∧
    Returns (AllocOp.free .block n).exec mid 0 after ∧
    AllocRun oneGroup (fun _ _ => False) {0} after ∧ Balanced oneGroup after after.block := by
  obtain ⟨i, caches, -, ready, isDisk⟩ := exists_opened smallDisk_counted
  have started : AllocRun oneGroup (fun _ _ => False) {0} (opened smallDisk i caches) := .start ready
  obtain ⟨n, mid, returned, allocated, zero⟩ := (allocators_balanced started).2.2 .block
  have free : 6 ∈ freeOf oneGroup (opened smallDisk i caches).block .block 0 := by
    rw [freeOf, isDisk]
    decide +kernel
  have used : 0 ∉ freeOf oneGroup (opened smallDisk i caches).block .block 0 := by
    rw [freeOf, isDisk]
    decide +kernel
  have granted : n ≠ 0 := by
    intro isZero
    rcases zero.mp isZero with none | ⟨-, -, first⟩
    · rw [none 0 (by decide)] at free
      exact absurd free (Finset.notMem_empty _)
    · exact used first
  have taken : Taken oneGroup mid .block n := by
    rcases allocated with ⟨g, inside, b, isNumber, first, bits⟩ | ⟨isZero, -⟩
    · refine ⟨g, inside, b, (mem_clearBits.mp first.1.mem).1, isNumber, ?_⟩
      rw [bits .block g inside b, decide_eq_true ⟨rfl, rfl, rfl⟩, Bool.true_or]
    · exact absurd isZero granted
  have ran := AllocRun.step started (.alloc .block) trivial returned
  obtain ⟨after, given⟩ := (allocators_balanced ran).2.1 .block n taken
  have released : Returns (AllocOp.free .block n).exec mid 0 after :=
    returns_bind.mpr ⟨(), after, given, returns_pure.mpr ⟨rfl, rfl⟩⟩
  have whole := AllocRun.step ran (.free .block n) taken released
  exact ⟨_, n, mid, after, returned, granted, released, whole, (allocators_balanced whole).1⟩

/-- The disk with the block of the superblock marked free. -/
def zeroFree : Nat → ByteMap
  | 0 => store (smallDisk 0) 1036 4 95
  | 1 => store (smallDisk 1) 12 2 95
  | 2 => store (smallDisk 2) 0 1 0x3E
  | no => smallDisk no

/-- Block 0 cannot be told from a failure. -/
theorem zero_not_only_when_full : ¬ ∀ s, AllocRun oneGroup (fun _ _ => False) {0} s →
    ∀ n after, Returns (allocOf .block) s n after →
      (n = 0 ↔ ∀ g < oneGroup.count, freeOf oneGroup s.block .block g = ∅) := by
  intro claimed
  have counted : CountedDisk zeroFree :=
    ⟨by decide +kernel, by decide +kernel, by decide +kernel⟩
  obtain ⟨i, caches, -, ready, isDisk⟩ := exists_opened counted
  obtain ⟨n, after, returned, -, allocated⟩ := ready.alloc_step .block
  have free : 0 ∈ freeOf oneGroup (opened zeroFree i caches).block .block 0 := by
    rw [freeOf, isDisk]
    decide +kernel
  have none := (claimed _ (.start ready) n after returned).mp
    (allocated.zero_iff.mpr (Or.inr ⟨rfl, by decide, free⟩))
  rw [none 0 (by decide)] at free
  exact absurd free (Finset.notMem_empty _)

end CuteCore.Fs
