import CuteCore.Fs.AllocRuns

/-!
# Freeing an arbitrary block number

Numbers reach `ext2_free_block` from index blocks on the disk. It ignores 0, the
numbers before the first group and those of groups that do not exist. For any
other number it clears a bit and counts up, whatever the bit was.
-/

namespace CuteCore.Fs

open Hoare Bytes

variable {groups : Groups} {loose : Nat → Nat → Prop} {held : Multiset Nat} {s : Vfs}

/-- The number of no block, as the comment of `ext2_free_block` lists them. -/
def Groups.Invalid (groups : Groups) (no : Nat) : Prop :=
  no = 0 ∨ no < groups.first ∨ groups.total ≤ no

/-- The numbers that the checks of `ext2_free_block` ignore. -/
def Groups.Ignored (groups : Groups) (no : Nat) : Prop :=
  no = 0 ∨ no < groups.first ∨ groups.count ≤ (no - groups.first) / groups.perGroup

/-- The counters still count, and an invalid number changed nothing. -/
def FreeSafe (groups : Groups) (s : Vfs) (no : Nat) (after : Vfs) : Prop :=
  Balanced groups after after.block ∧ (groups.Invalid no → after = s)

/-- The two parts of `ext2_free_block`: the checks, and the bit. -/
theorem ext2FreeBlock_cases (ready : Ready groups loose held s) (no : Nat) :
    (groups.Ignored no → wp (ext2FreeBlock no) (fun _ after => after = s) s) ∧
    (∀ post : Unit → Vfs → Prop, ¬ groups.Ignored no →
      wp (freeBit blocks ((no - groups.first) / groups.perGroup)
        ((no - groups.first) % groups.perGroup)) post s → wp (ext2FreeBlock no) post s) := by
  have checks : ∀ {post : Unit → Vfs → Prop},
      wp (onlyIf (no ≠ 0 ∧ groups.first ≤ no) (freeBit blocks ((no - groups.first) / groups.perGroup)
        ((no - groups.first) % groups.perGroup))) post s → wp (ext2FreeBlock no) post s := by
    intro post run
    rw [ext2FreeBlock]
    apply wp_seq (ready.io.loadSuper_spec (by decide) ready.tight.super)
    rintro _ _ ⟨rfl, rfl⟩
    apply wp_seq (ready.io.loadSuper_spec (by decide) ready.tight.super)
    rintro _ _ ⟨rfl, rfl⟩
    rw [ready.fits.first, ready.fits.perGroup]
    exact run
  constructor
  · intro ignored
    apply checks
    rw [wp_onlyIf]
    split
    · rename_i passed
      have outside : groups.count ≤ (no - groups.first) / groups.perGroup := by
        obtain zero | low | outside := ignored
        · exact absurd zero passed.1
        · omega
        · exact outside
      rw [freeBit, wp_bind, wp_get, wp_onlyIf, ready.fits.groupCount,
        if_neg (Nat.not_lt.mpr outside)]
    · rfl
  · intro post handled run
    apply checks
    rw [wp_onlyIf, if_pos]
    · exact run
    · exact ⟨fun zero => handled (.inl zero), Nat.not_lt.mp fun low => handled (.inr (.inl low))⟩

/-- Clearing a bit that is clear, or lies behind the last block, counts one too many. -/
theorem freeBit_miscounts (ready : Ready groups loose held s) (g b : Nat)
    (inside : g < groups.count) (below : b < 8 * blkSz)
    (notTaken : groups.limit .block g ≤ b ∨ bitAt (s.block (groups.bitmap .block g)) b = false) :
    wp (freeBit blocks g b) (fun _ after => ¬ Balanced groups after after.block) s := by
  have fits := ready.fits
  apply wp_mono (freeBit_spec ready.io ready.tight fits ready.room .block g b inside below)
  rintro - after ⟨same, io⟩ balanced
  -- the set of free blocks of the group is what it was
  have unchanged : clearBits (clearBit (s.block (groups.bitmap .block g)) b) (groups.limit .block g) =
      freeOf groups s.block .block g := by
    ext c
    rw [freeOf, mem_clearBits, mem_clearBits, bitAt_clearBit]
    by_cases isB : c = b
    · subst isB
      obtain behind | isClear := notTaken
      · simp [Nat.not_lt.mpr behind]
      · simp [isClear]
    · simp [isB]
  have free : freeOf groups after.block .block g = freeOf groups s.block .block g := by
    rw [freeOf, io.block_eq _ (ready.tight.bitmap .block g inside), givenBlocks,
      moved_bitmap fits inside .block g inside, if_pos ⟨rfl, rfl⟩, unchanged]
  have before : load s.gbTable (g * 32 + 12) 2 = (freeOf groups s.block .block g).card :=
    ready.balanced.group .block g inside
  have now : load after.gbTable (g * 32 + 12) 2 = (freeOf groups s.block .block g).card :=
    free ▸ balanced.group .block g inside
  have table : after.gbTable = countedTable s.gbTable blocks g 1 := by
    unfold SameButTable at same
    rw [← same]
    rfl
  have counted : load after.gbTable (g * 32 + 12) 2 =
      (load s.gbTable (g * 32 + 12) 2 + 1) % 2 ^ 16 := by
    rw [table]
    exact load_store_same ..
  omega

theorem Taken.valid {no : Nat} (taken : Taken groups s .block no) : groups.first ≤ no ∧
    no < groups.total := by
  obtain ⟨g, inside, b, below, rfl, -⟩ := taken
  have least : b < groups.total - groups.base .block g := Nat.lt_of_lt_of_le below (Nat.min_le_right _ _)
  have isBase : groups.base .block g = groups.first + g * groups.perGroup := rfl
  have isNumber : groups.number .block g b = groups.base .block g + b := rfl
  omega

/-- A free that keeps the counters right was of a number that the code ignores, or of a block in
use. -/
theorem safe_only (ready : Ready groups loose held s) (no : Nat)
    (safe : wp (ext2FreeBlock no) (fun _ after => FreeSafe groups s no after) s) :
    groups.Ignored no ∨ Taken groups s .block no := by
  by_contra neither
  obtain ⟨handled, notTaken⟩ := not_or.mp neither
  have positive := groups.perGroupPositive
  have inside : (no - groups.first) / groups.perGroup < groups.count :=
    Nat.not_le.mp fun outside => handled (.inr (.inr outside))
  have low : groups.first ≤ no := Nat.not_lt.mp fun low => handled (.inr (.inl low))
  have few : (no - groups.first) % groups.perGroup < groups.perGroup := Nat.mod_lt _ positive
  have fitting := groups.perGroupFits
  have whole : groups.number .block ((no - groups.first) / groups.perGroup)
      ((no - groups.first) % groups.perGroup) = no := by
    have parts := Nat.div_add_mod' (no - groups.first) groups.perGroup
    simp only [Groups.number, Groups.base]
    omega
  have miscounted := (ext2FreeBlock_cases ready no).2 _ handled (freeBit_miscounts ready _ _ inside
    (by omega) ?_)
  · obtain ⟨⟨⟩, after, returned, unbalanced⟩ := miscounted
    exact unbalanced (safe.of_returns returned).1
  · by_contra isTaken
    obtain ⟨within, isSet⟩ := not_or.mp isTaken
    refine notTaken ⟨_, inside, _, Nat.not_le.mp within, whole.symm, ?_⟩
    exact Bool.eq_true_of_not_eq_false isSet

/-- A number is freed safely exactly when it is ignored or its block is allocated. -/
theorem ext2FreeBlock_safe_iff (ready : Ready groups loose held s) (no : Nat) :
    wp (ext2FreeBlock no) (fun _ after => FreeSafe groups s no after) s ↔
      groups.Ignored no ∨ Taken groups s .block no := by
  constructor
  · exact safe_only ready no
  · intro condition
    by_cases ignored : groups.Ignored no
    · apply wp_mono ((ext2FreeBlock_cases ready no).1 ignored)
      rintro - after rfl
      exact ⟨ready.balanced, fun _ => rfl⟩
    · have taken := condition.resolve_left ignored
      apply wp_mono (ready.release_step .block no taken)
      rintro - after readyAfter
      refine ⟨readyAfter.balanced, ?_⟩
      rintro (zero | low | high)
      · exact absurd (.inl zero) ignored
      · exact absurd (.inr (.inl low)) ignored
      · exact absurd taken.valid.2 (Nat.not_lt.mpr high)

/-- The theorem for the block of the root directory on a small disk. -/
theorem root_block_freed : ∃ s, Ready oneGroup (fun _ _ => False) {0} s ∧
    wp (ext2FreeBlock 5) (fun _ after => FreeSafe oneGroup s 5 after) s := by
  obtain ⟨i, caches, -, ready, isDisk⟩ := exists_opened smallDisk_counted
  refine ⟨_, ready, (ext2FreeBlock_safe_iff ready 5).mpr (.inr ⟨0, by decide, 5, by decide, rfl, ?_⟩)⟩
  rw [isDisk]
  decide +kernel

/-- Block 100, behind the last one, is counted as a free block. -/
theorem block_behind_counted : ¬ ∀ s, Ready oneGroup (fun _ _ => False) {0} s → ∀ no,
    wp (ext2FreeBlock no) (fun _ after => FreeSafe oneGroup s no after) s := by
  intro claimed
  obtain ⟨i, caches, -, ready, -⟩ := exists_opened smallDisk_counted
  obtain ignored | taken := safe_only ready 100 (claimed _ ready 100)
  · obtain zero | low | outside := ignored
    · cases zero
    · exact absurd low (Nat.not_lt_zero _)
    · exact absurd outside (by decide)
  · exact absurd taken.valid.2 (by decide)

end CuteCore.Fs
