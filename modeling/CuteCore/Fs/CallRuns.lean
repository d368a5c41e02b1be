import CuteCore.Fs.Balance
import CuteCore.Fs.NewDirs

/-!
# Runs of calls from a mount

Between calls only the buffer of the superblock is held. Every change is recorded
but one: `ext2_mkdir` fills the slot of a new inode before it asks for a block, and
gives the slot's buffer back as it is when there is none.

A run starts from any image that mounts and may call the functions in any order, with any
names, numbers and lengths, and with any outcome of `kmalloc`. What is said of every state
is that each valid slot without an unrecorded change equals its block on disk, and that
the references of slots are those of the buffers held.
-/

namespace CuteCore.Fs

open Hoare Bytes BlkCache

section Calls

variable {loose : Nat → Nat → Prop} {room : Nat}

/-- What follows the allocation of the block ends the bracket of the slot. -/
theorem GivesBack.openDir {mode : Nat} {rest : Option NewDir → FsProg (Option Nat)}
    (without : GivesBack loose (room + 2) (rest none))
    (filled : ∀ made no, Bracket loose (room + 1) no made.icache True (rest (some made))) :
    GivesBack loose (room + 2) (Fs.openDir mode >>= rest) := by
  rw [Fs.openDir, bind_assoc]
  refine bind ext2AllocInode fun ino => ?_
  by_cases noInode : ino = 0
  · rw [if_pos noInode]
    exact without
  · rw [if_neg noInode]
    simp only [bind_assoc, pure_bind]
    exact bind (ext2InodeLoc _) fun loc => bread fun icache => Bracket.step get fun _ =>
      Bracket.clearBuf (Bracket.storeBuf (Bracket.storeBuf (Bracket.storeBuf (Bracket.storeBuf
        (Bracket.step ext2AllocBlock fun dataBlk => filled ⟨ino, loc.2, icache, dataBlk⟩ loc.1)))))

/-- With a block the slot is recorded, and the directory is linked. -/
theorem Bracket.closeDir {dir no : Nat} {name : List Byte} {made : NewDir}
    (granted : made.dataBlk ≠ 0) :
    Bracket loose (room + 1) no made.icache True (Fs.closeDir dir name (some made)) := by
  rw [Fs.closeDir, if_neg granted]
  refine Bracket.storeBuf (Bracket.bwrite (Bracket.release ?_))
  refine .bind (.derefInode dir) fun parent => .bind (.fillDirBlock ..) fun _ =>
    .bind (.ext2DirAddEntry ..) fun added => .ite (fun _ => ?_) fun _ => ?_
  · exact .bind (.ext2FreeBlock _) fun _ => .bind (.ext2FreeInode _) fun _ => .pure _
  · exact .bind (.updateInode ..) fun _ => .bind (.ext2WriteInode dir) fun _ =>
      .bind (.countDir _) fun _ => .ext2Iget _

/-- Without a block the buffer is given back, recorded or not. -/
theorem GivesBack.ext2Mkdir (all : ∀ m x, loose m x) (dir : Nat) (name : List Byte) (mode : Nat) :
    GivesBack loose (room + 2) (Fs.ext2Mkdir dir name mode) := by
  rw [ext2Mkdir_eq]
  refine ite (fun _ => pure _) fun _ => openDir (pure _) fun made no => ?_
  by_cases refused : made.dataBlk = 0
  · rw [closeDir, if_pos refused]
    exact Bracket.drop all (Bracket.release (bind (ext2FreeInode _) fun _ => pure _))
  · exact Bracket.closeDir refused

/-- The steps behind the allocation of the block, where there is one. -/
def closeGranted (dir : Nat) (name : List Byte) : Option NewDir → FsProg (Option Nat)
  | none => return none
  | some made => if made.dataBlk = 0 then throw .badAccess else closeDir dir name (some made)

theorem GivesBack.closeGranted (dir : Nat) (name : List Byte) (mode : Nat) :
    GivesBack loose (room + 2) (Fs.openDir mode >>= Fs.closeGranted dir name) := by
  refine openDir (pure _) fun made no => ?_
  by_cases refused : made.dataBlk = 0
  · rw [Fs.closeGranted, if_pos refused]
    exact ⟨fun _ _ _ _ _ _ _ _ => avoids_throw.mpr badAccess_allowed⟩
  · rw [Fs.closeGranted, if_neg refused]
    exact Bracket.closeDir refused

/-- An `ext2_mkdir` that is not left without a block records all it changes. -/
theorem ext2Mkdir_recorded {s after : Vfs} {pending : Nat → Prop} {held : Multiset Nat}
    {dir mode : Nat} {name : List Byte} {r : Option Nat} (buffered : Buffered loose s pending held)
    (fits : Multiset.card held + 2 ≤ nBlkNum) (fed : name ≠ [] →
      wlp (Fs.openDir mode) (fun found _ => ∀ made, found = some made → made.dataBlk ≠ 0) s)
    (returned : Returns (Fs.ext2Mkdir dir name mode) s r after) :
    Buffered loose after pending held := by
  rw [ext2Mkdir_eq] at returned
  split at returned
  · obtain ⟨-, rfl⟩ := returns_pure.mp returned
    exact buffered
  rename_i named
  obtain ⟨found, mid, opened, closed⟩ := returns_bind.mp returned
  have granted : Returns (Fs.openDir mode >>= Fs.closeGranted dir name) s r after := by
    refine returns_bind.mpr ⟨found, mid, opened, ?_⟩
    cases found with
    | none => exact closed
    | some made =>
      rw [Fs.closeGranted, if_neg (fed named _ mid opened made rfl)]
      exact closed
  exact (((GivesBack.closeGranted dir name mode).run s pending held buffered fits).of_returns
    granted).1

end Calls

/-- The calls of the file system, and `bsync`. -/
inductive FsCall where
  | lookup (dir : Nat) (name : List Byte)
  | create (dir : Nat) (name : List Byte) (mode : Nat)
  | mkdir (dir : Nat) (name : List Byte) (mode : Nat)
  | unlink (dir : Nat) (name : List Byte)
  | fileRead (p len offset : Nat) (out : ByteMap)
  | fileWrite (p len offset : Nat) (data : ByteMap)
  | truncate (p : Nat)
  | iget (ino : Nat)
  | iput (p : Nat)
  | bsync

/-- Run a call and leave its result. -/
def FsCall.exec : FsCall → FsProg Unit
  | .lookup dir name => do
    let _ ← ext2Lookup dir name
    return ()
  | .create dir name mode => do
    let _ ← ext2Create dir name mode
    return ()
  | .mkdir dir name mode => do
    let _ ← ext2Mkdir dir name mode
    return ()
  | .unlink dir name => do
    let _ ← ext2Unlink dir name
    return ()
  | .fileRead p len offset out => do
    let _ ← ext2FileRead p len offset out
    return ()
  | .fileWrite p len offset data => do
    let _ ← ext2FileWrite p len offset data
    return ()
  | .truncate p => ext2TruncateInode p
  | .iget ino => do
    let _ ← ext2Iget ino
    return ()
  | .iput p => Fs.iput p
  | .bsync => onCaches BlkCache.bsync

/-- Runs of calls after a successful mount over any disk, each with a condition on the
state before it. -/
inductive CallRun (legal : Vfs → FsCall → Prop) : Vfs → Prop where
  | mount {before s : Vfs} {disk : Nat → ByteMap} (shown : Shown before disk 0)
      (mounted : Returns ext2FsInit before 0 s) : CallRun legal s
  | step {s after : Vfs} (earlier : CallRun legal s) (call : FsCall) (allowed : legal s call)
      (returned : Returns call.exec s () after) : CallRun legal after

/-- Calls one after the other. -/
def runCalls : List FsCall → FsProg Unit
  | [] => return ()
  | call :: rest => do
    call.exec
    runCalls rest

/-- A sequence of legal calls that returns leads from one state of a run to another. -/
theorem CallRun.calls {legal : Vfs → FsCall → Prop} {calls : List FsCall} {s after : Vfs}
    (run : CallRun legal s) (allowed : ∀ call ∈ calls, ∀ s, legal s call)
    (returned : Returns (runCalls calls) s () after) : CallRun legal after := by
  induction calls generalizing s with
  | nil =>
    obtain ⟨-, rfl⟩ := returns_pure.mp returned
    exact run
  | cons call rest inductionHypothesis =>
    obtain ⟨_, mid, called, returned⟩ := returns_bind.mp returned
    have stepped := CallRun.step run call (allowed call (List.mem_cons_self ..) s) called
    exact inductionHypothesis stepped (fun next member => allowed next (List.mem_cons_of_mem _ member))
      returned

/-- A mount from the zero-initialized globals with calls after it. -/
def mountAndRun (calls : List FsCall) : FsProg Int := do
  let code ← ext2FsInit
  runCalls calls
  return code

/-- A run that was computed. -/
theorem CallRun.of_eval {legal : Vfs → FsCall → Prop} {calls : List FsCall} {disk : Nat → ByteMap}
    (test : Vfs → Bool) (allowed : ∀ call ∈ calls, ∀ s, legal s call)
    (computed : (mountAndRun calls (unmounted disk)).toOption.map
      (fun result => (result.1, test result.2)) = some (0, true)) :
    ∃ s, CallRun legal s ∧ test s = true := by
  obtain ⟨result, ran, tested⟩ := Option.map_eq_some_iff.mp computed
  have returned := returns_of_toOption ran
  obtain ⟨code, s, mounted, returned⟩ := returns_bind.mp returned
  obtain ⟨_, after, called, returned⟩ := returns_bind.mp returned
  obtain ⟨isCode, isAfter⟩ := returns_pure.mp returned
  have isZero : result.1 = 0 := congrArg Prod.fst tested
  rw [isCode, isZero] at mounted
  refine ⟨after, .calls (.mount (BlkCache.boot_represents _ _) mounted) allowed called, ?_⟩
  rw [isAfter]
  exact congrArg Prod.snd tested

/-- The state between calls. -/
abbrev Idle (loose : Nat → Nat → Prop) (s : Vfs) : Prop := Buffered loose s (fun _ => False) {0}

theorem Idle.of_mount {loose : Nat → Nat → Prop} {before s : Vfs} {disk : Nat → ByteMap}
    (shown : Shown before disk 0) (mounted : Returns ext2FsInit before 0 s) : Idle loose s :=
  ⟨disk, (mount_reads shown 0 s mounted rfl).io⟩

/-- All calls give their buffers back if `ext2_mkdir` does. -/
theorem FsCall.givesBack {loose : Nat → Nat → Prop} (call : FsCall)
    (mkdir : ∀ dir name mode, call = .mkdir dir name mode →
      GivesBack loose 4 (ext2Mkdir dir name mode)) : GivesBack loose 4 call.exec := by
  cases call with
  | lookup dir name => exact .bind (.ext2Lookup dir name) fun _ => .pure ()
  | create dir name mode => exact .bind (.ext2Create dir name mode) fun _ => .pure ()
  | mkdir dir name mode => exact .bind (mkdir dir name mode rfl) fun _ => .pure ()
  | unlink dir name => exact .bind (@GivesBack.ext2Unlink loose 0 dir name) fun _ => .pure ()
  | fileRead p len offset out => exact .bind (.ext2FileRead p len offset out) fun _ => .pure ()
  | fileWrite p len offset data => exact .bind (.ext2FileWrite p len offset data) fun _ => .pure ()
  | truncate p => exact @GivesBack.ext2TruncateInode loose 0 p
  | iget ino => exact .bind (.ext2Iget ino) fun _ => .pure ()
  | iput p => exact @GivesBack.iput loose 0 p
  | bsync => exact .bsync

section Idle

variable {loose : Nat → Nat → Prop} {s : Vfs}

/-- One buffer has a reference, that of the superblock. -/
theorem Idle.refcnt (idle : Idle loose s) (i : Fin nBlkNum) :
    (s.caches.slot i).refcnt = if i = s.sbBuf then 1 else 0 := by
  obtain ⟨view, io⟩ := idle
  rw [io.rep.counted i]
  by_cases isSuper : i = s.sbBuf
  · rw [if_pos isSuper, isSuper, if_pos io.super.1, io.super.2, Multiset.count_singleton_self]
    rfl
  · rw [if_neg isSuper]
    split
    · rename_i valid
      have other : (s.caches.slot i).blkNo ≠ 0 := fun isZero =>
        isSuper (io.rep.distinct i s.sbBuf valid io.super.1 (isZero.trans io.super.2.symm))
      rw [Multiset.count_singleton, if_neg other]
      rfl
    · rfl

/-- A valid buffer without a change is the block on disk. -/
theorem Idle.clean (idle : Idle (fun _ _ => False) s) (i : Fin nBlkNum)
    (valid : (s.caches.slot i).valid = true) (clean : (s.caches.slot i).dirty = false) :
    (s.caches.slot i).data = s.caches.disk (s.caches.slot i).blkNo := by
  obtain ⟨view, io⟩ := idle
  funext x
  exact (io.rep.data i valid x not_false).trans
    (io.rep.clean i valid clean not_false x not_false).symm

end Idle

theorem Idle.of_run {s : Vfs} (run : CallRun (fun _ _ => True) s) : Idle (fun _ _ => True) s := by
  induction run with
  | mount shown mounted => exact .of_mount shown mounted
  | step earlier call allowed returned inductionHypothesis =>
    have givesBack := call.givesBack fun dir name mode _ =>
      GivesBack.ext2Mkdir (fun _ _ => trivial) dir name mode
    exact ((givesBack.run _ _ _ inductionHypothesis (by decide)).of_returns returned).1

/-- In every state of a run one reference is held, to the superblock's buffer. Every
call leaves each buffer with the references it had, the held ones with their blocks,
and meets neither panic of the cache. -/
theorem buffers_balanced {s : Vfs} (run : CallRun (fun _ _ => True) s) (call : FsCall) :
    (∀ i, (s.caches.slot i).refcnt = if i = s.sbBuf then 1 else 0) ∧
    s.caches.Buffers s.sbBuf 0 ∧
    (∀ e, call.exec s = .error e → ¬ CachePanic e) ∧
    ∀ after, Returns call.exec s () after →
      ∀ i, (after.caches.slot i).refcnt = (s.caches.slot i).refcnt ∧
        ((s.caches.slot i).refcnt ≠ 0 → after.caches.Buffers i (s.caches.slot i).blkNo) := by
  have idle := Idle.of_run run
  have givesBack : GivesBack (fun _ _ => True) 4 call.exec := call.givesBack fun dir name mode _ =>
    GivesBack.ext2Mkdir (fun _ _ => trivial) dir name mode
  have ran := givesBack.run s _ _ idle (by decide)
  obtain ⟨view, io⟩ := idle
  refine ⟨Idle.refcnt ⟨view, io⟩, io.super, fun e stopped => ran.not_bad stopped, ?_⟩
  intro after returned i
  obtain ⟨⟨view', io'⟩, kept⟩ := ran.of_returns returned
  have stays := kept s.sbBuf 0 (Multiset.mem_singleton_self 0) io.super
  have same : after.sbBuf = s.sbBuf :=
    io'.rep.distinct _ _ io'.super.1 stays.1 (io'.super.2.trans stays.2.symm)
  refine ⟨?_, fun referenced => ?_⟩
  · rw [Idle.refcnt ⟨view, io⟩, Idle.refcnt ⟨view', io'⟩, same]
  · obtain rfl : i = s.sbBuf := by
      by_contra differs
      rw [Idle.refcnt ⟨view, io⟩, if_neg differs] at referenced
      exact referenced rfl
    rw [io.super.2]
    exact stays

/-- The theorem after the creation of a file on the small disk, for the call that removes it. -/
theorem created_balanced : ∃ s after, CallRun (fun _ _ => True) s ∧ s.icacheSize = 2 ∧
    Returns (FsCall.unlink 1 [0x61]).exec s () after ∧
    (∀ i, (s.caches.slot i).refcnt = if i = s.sbBuf then 1 else 0) ∧
    s.caches.Buffers s.sbBuf 0 ∧
    ∀ i, (after.caches.slot i).refcnt = (s.caches.slot i).refcnt ∧
      ((s.caches.slot i).refcnt ≠ 0 → after.caches.Buffers i (s.caches.slot i).blkNo) := by
  obtain ⟨s, run, test⟩ := @CallRun.of_eval (fun _ _ => True) [.create 1 [0x61] 0x1A4] smallDisk
    (fun s => decide (s.icacheSize = 2) && ((FsCall.unlink 1 [0x61]).exec s).toOption.isSome)
    (fun _ _ _ => trivial) (by decide +kernel)
  rw [Bool.and_eq_true, decide_eq_true_eq, Option.isSome_iff_exists] at test
  obtain ⟨isSize, ⟨⟨⟩, after⟩, ran⟩ := test
  have returned : Returns (FsCall.unlink 1 [0x61]).exec s () after := returns_of_toOption ran
  obtain ⟨references, super, -, balanced⟩ := buffers_balanced run (.unlink 1 [0x61])
  exact ⟨s, after, run, isSize, returned, references, super, balanced after returned⟩

/-- The condition that `ext2_mkdir` finds no inode or a block too. -/
def FsCall.Fed (s : Vfs) : FsCall → Prop
  | .mkdir _ name _ => name ≠ [] → FeedsMkdir s
  | _ => True

/-- In every state of a run whose `ext2_mkdir` calls find their block all clean slots equal the
disk. -/
theorem Idle.of_fed {s : Vfs} (run : CallRun FsCall.Fed s) : Idle (fun _ _ => False) s := by
  induction run with
  | mount shown mounted => exact .of_mount shown mounted
  | @step s after earlier call allowed returned inductionHypothesis =>
    by_cases isMkdir : ∃ dir name mode, call = .mkdir dir name mode
    · obtain ⟨dir, name, mode, rfl⟩ := isMkdir
      obtain ⟨r, mid, made, ends⟩ := returns_bind.mp returned
      obtain ⟨-, rfl⟩ := returns_pure.mp ends
      refine ext2Mkdir_recorded inductionHypothesis (by decide) (fun named => ?_) made
      obtain ⟨view, io⟩ := inductionHypothesis
      obtain rfl : s.block = view := funext fun no => io.block_eq no fun _ => id
      exact openDir_fed io (by decide) (allowed named) mode
    · have givesBack : GivesBack (fun _ _ => False) 4 call.exec :=
        call.givesBack fun dir name mode isCall => absurd ⟨dir, name, mode, isCall⟩ isMkdir
      exact ((givesBack.run s _ _ inductionHypothesis (by decide)).of_returns returned).1

/-- While every `ext2_mkdir` finds no inode or a block too, every valid buffer without a change holds its
block as it is on disk. -/
theorem clean_buffers_on_disk {s : Vfs} (run : CallRun FsCall.Fed s) (i : Fin nBlkNum)
    (valid : (s.caches.slot i).valid = true) (clean : (s.caches.slot i).dirty = false) :
    (s.caches.slot i).data = s.caches.disk (s.caches.slot i).blkNo :=
  (Idle.of_fed run).clean i valid clean

/-- The smallest free numbers of the small disk after its mount. -/
theorem smallDisk_feeds {s : Vfs} (mounted : Returns ext2FsInit (unmounted smallDisk) 0 s) :
    FeedsMkdir s := by
  have computed : (ext2FsInit (unmounted smallDisk)).toOption.map (fun result =>
      decide (result.2.blockSize = 4096 ∧ result.2.groupCount = 1 ∧
        Chosen result.2 result.2.block .inode 0 11 ∧ Chosen result.2 result.2.block .block 0 6 ∧
        (∀ w ∈ [Which.block, .inode], (numbersOf result.2 result.2.block w 0).2 ≤ 8 * blkSz) ∧
        numberAt result.2 result.2.block .block 0 6 = 6 ∧ result.2.bitmapOf .block 0 = 2 ∧
        result.2.bitmapOf .inode 0 = 3 ∧ gdtBlock result.2.block result.2.blockSize 0 = 1 ∧
        (result.2.slotOf (numberAt result.2 result.2.block .inode 0 11)).1 = 4)) = some true := by
    decide +kernel
  obtain ⟨⟨code, s'⟩, ran, test⟩ := Option.map_eq_some_iff.mp computed
  obtain ⟨-, rfl⟩ := mounted.unique (returns_of_toOption ran)
  obtain ⟨size, count, inode, block, small, number, blockMap, inodeMap, table, slot⟩ :=
    of_decide_eq_true test
  have only : ∀ g < s.groupCount, g = 0 := fun g inside =>
    Nat.lt_one_iff.mp (Nat.lt_of_lt_of_eq inside count)
  refine ⟨⟨2, Nat.le_refl 2, size⟩, ?_, Or.inr ⟨⟨0, 6, block, ?_⟩, ?_, ?_⟩⟩
  · intro w g inside
    rw [only g inside]
    cases w with
    | block => exact small .block (by simp)
    | inode => exact small .inode (by simp)
  · rw [number]
    decide
  · intro g inside
    rw [only g inside, blockMap]
    decide
  · intro g b chosen
    obtain ⟨rfl, rfl⟩ := inode.unique chosen
    rintro no isWrite
    have written : no = 3 ∨ no = 1 ∨ no = 4 := by
      rwa [FirstWrites, inodeMap, table, slot] at isWrite
    refine ⟨by omega, fun g inside => ?_⟩
    rw [only g inside, blockMap]
    omega

/-- A directory is made on the small disk. -/
theorem created_clean : ∃ s mid after, CallRun FsCall.Fed s ∧
    Returns (FsCall.mkdir 1 [0x61] 0x1ED).exec s () mid ∧ CallRun FsCall.Fed after ∧
    (after.caches.slot ⟨1, by decide⟩).dirty = false ∧ (after.caches.slot ⟨1, by decide⟩).data =
      after.caches.disk (after.caches.slot ⟨1, by decide⟩).blkNo := by
  have computed : (mountAndRun [.mkdir 1 [0x61] 0x1ED, .bsync] (unmounted smallDisk)).toOption.map
      (fun result => (result.1, (result.2.caches.slot ⟨1, by decide⟩).valid &&
        !(result.2.caches.slot ⟨1, by decide⟩).dirty)) = some (0, true) := by
    decide +kernel
  obtain ⟨⟨code, last⟩, ran, tested⟩ := Option.map_eq_some_iff.mp computed
  obtain ⟨code', s, mounted, returned⟩ := returns_bind.mp (returns_of_toOption ran)
  obtain ⟨_, _, called, ended⟩ := returns_bind.mp returned
  obtain ⟨isCode, rfl⟩ := returns_pure.mp ended
  obtain ⟨_, mid, made, called⟩ := returns_bind.mp called
  obtain ⟨_, after, stored, called⟩ := returns_bind.mp called
  obtain ⟨-, rfl⟩ := returns_pure.mp called
  obtain ⟨isZero, test⟩ := Prod.mk.inj tested
  have isMounted : Returns ext2FsInit (unmounted smallDisk) 0 s := by
    rwa [isCode, isZero] at mounted
  have run : CallRun FsCall.Fed s := .mount (BlkCache.boot_represents _ _) isMounted
  have runMade := run.step (.mkdir 1 [0x61] 0x1ED) (fun _ => smallDisk_feeds isMounted) made
  have runStored := runMade.step .bsync trivial stored
  rw [Bool.and_eq_true, Bool.not_eq_true'] at test
  exact ⟨s, mid, after, run, made, runStored, test.2,
    clean_buffers_on_disk runStored ⟨1, by decide⟩ test.1 test.2⟩

/-- An image whose table of inodes also holds the bitmap of the blocks, in the slot of
inode 1. No block is free, though the counters say one. Inode 11, the file `b` of the root
directory, has an index block. -/
def sharedTable : Nat → ByteMap
  | 0 => store (smallDisk 0) 1036 4 1
  | 1 => store (store (smallDisk 1) 0 4 4) 12 2 1
  | 4 => fill (store (store (store (smallDisk 4) 1280 2 0x81A4) 1306 2 1) 1368 4 6) 0 13 0xFF
  | 5 => blockOf [(0, 4, 2), (4, 2, 12), (6, 1, 1), (7, 1, 2), (8, 1, 0x2E), (12, 4, 2),
      (16, 2, 12), (18, 1, 2), (19, 1, 2), (20, 2, 0x2E2E), (24, 4, 11), (28, 2, 4072), (30, 1, 1),
      (31, 1, 1), (32, 1, 0x62)]
  | no => smallDisk no

/-- A write to the file leaves block 4 in slot 2, and `ext2_mkdir` its change. The calls are those
of the files, directories and the cache, without `ext2_iget`. -/
theorem starved_mkdir_unrecorded : ¬ ∀ s, CallRun (fun _ call => ∀ ino, call ≠ .iget ino) s → ∀ i,
    (s.caches.slot i).valid = true → (s.caches.slot i).dirty = false →
    (s.caches.slot i).data = s.caches.disk (s.caches.slot i).blkNo := by
  intro claimed
  obtain ⟨s, run, test⟩ := @CallRun.of_eval (fun _ call => ∀ ino, call ≠ .iget ino)
    [.lookup 1 [0x62], .fileWrite 2 1 49152 (fun _ => 7), .mkdir 1 [0x61] 0x1ED] sharedTable
    (fun s => (s.caches.slot ⟨2, by decide⟩).valid && !(s.caches.slot ⟨2, by decide⟩).dirty &&
      (s.caches.slot ⟨2, by decide⟩).data 1409 != s.caches.disk (s.caches.slot ⟨2, by decide⟩).blkNo 1409)
    (by simp) (by decide +kernel)
  rw [Bool.and_eq_true, Bool.and_eq_true, Bool.not_eq_true', bne_iff_ne] at test
  obtain ⟨⟨valid, clean⟩, differs⟩ := test
  exact differs (congrFun (claimed s run ⟨2, by decide⟩ valid clean) 1409)

end CuteCore.Fs
