import CuteCore.Block.CacheRefinement

/-!
# Crashes of the block cache

A crash between two calls loses the slots and keeps the disk. For every block the disk then
has one of the contents that the block had since the last `bsync`, and those alone, however
often it crashes: what was stored before a `bsync` and left alone is never lost.
-/

namespace CuteCore.BlkCache

open Hoare

variable {α : Type}

/-- The contents of each block that a crash may bring back, after one operation: `bsync` leaves
the last one, except of a block whose last change has not reached `bwrite`. -/
def versionsAfter (map : BlockMap α) (op : Op α) (versions : Nat → Set α) (no : Nat) : Set α :=
  match op with
  | .bsync => {content | content = map.stored no ∨ map.pending no ∧ content ∈ versions no}
  | .bread _ | .modify _ _ | .bwrite _ | .brelse _ =>
    insert ((map.step op).stored no) (versions no)

/-- A run of legal operations with crashes in between. -/
inductive CrashRun (zero : α) (disk : Nat → α) :
    Client α → BlockMap α → (Nat → Set α) → Prop where
  | boot : CrashRun zero disk ⟨boot zero disk, []⟩ ⟨disk, [], fun _ => False⟩ fun no => {disk no}
  | step {client after : Client α} {map : BlockMap α} {versions : Nat → Set α}
      (earlier : CrashRun zero disk client map versions) (op : Op α) (legal : map.Legal op)
      (returned : Returns (Client.exec op) client () after) :
      CrashRun zero disk after (map.step op) (versionsAfter map op versions)
  | crash {client : Client α} {map : BlockMap α} {versions : Nat → Set α}
      (earlier : CrashRun zero disk client map versions) :
      CrashRun zero disk ⟨boot zero client.cache.disk, []⟩
        ⟨client.cache.disk, [], fun _ => False⟩ versions

/-- The disk changes to the contents of slots only. -/
def WritesSlots (s after : Caches α) : Prop :=
  ∀ no, after.disk no = s.disk no ∨ ∃ i, s.Buffers i no ∧ after.disk no = (s.slot i).data

section

variable {s : Caches α}

theorem WritesSlots.refl (s : Caches α) : WritesSlots s s := fun _ => Or.inl rfl

theorem blkwrite_writesSlots (i : Fin nBlkNum) (valid : (s.slot i).valid = true) :
    WritesSlots s (s.blkwrite (s.slot i).blkNo (s.slot i).data) := by
  intro no
  by_cases same : no = (s.slot i).blkNo
  · subst same
    exact Or.inr ⟨i, ⟨valid, rfl⟩, blkwrite_disk_self s _ _⟩
  · exact Or.inl (blkwrite_disk_ne s _ _ _ same)

theorem writeBack_writesSlots (s : Caches α) (i : Fin nBlkNum) : WritesSlots s (s.writeBack i) := by
  unfold Caches.writeBack
  split
  · rename_i both
    exact blkwrite_writesSlots i (Bool.and_eq_true_iff.mp both).1
  · exact WritesSlots.refl s

theorem syncSlot_writesSlots (s : Caches α) (i : Fin nBlkNum) : WritesSlots s (s.syncSlot i) := by
  unfold Caches.syncSlot
  split
  · rename_i both
    exact blkwrite_writesSlots i (Bool.and_eq_true_iff.mp both).1
  · exact WritesSlots.refl s

/-- Slots keep their contents under `bsync`, so the writes of its passes add up. -/
theorem sync_writesSlots (slots : List (Fin nBlkNum)) (s : Caches α) :
    WritesSlots s (slots.foldl Caches.syncSlot s) := by
  induction slots generalizing s with
  | nil => exact WritesSlots.refl s
  | cons i rest inductionHypothesis =>
    intro no
    have same := syncSlot_same s i
    rcases inductionHypothesis (s.syncSlot i) no with kept | ⟨j, ⟨valid, number⟩, written⟩
    · rcases syncSlot_writesSlots s i no with untouched | ⟨j, buffers, written⟩
      · exact Or.inl (kept.trans untouched)
      · exact Or.inr ⟨j, buffers, kept.trans written⟩
    · obtain ⟨isValid, isNumber, -, isData⟩ := same j
      refine Or.inr ⟨j, ⟨isValid ▸ valid, isNumber ▸ number⟩, ?_⟩
      rw [List.foldl_cons, written, isData]

/-- `bread` writes to the disk at most the contents of a slot that it evicts. -/
theorem bread_writesSlots {after : Caches α} {no : Nat} {i : Fin nBlkNum}
    (returned : Returns (bread no) s i after) : WritesSlots s after := by
  obtain ⟨_, _, got, returned⟩ := returns_bind.mp returned
  obtain ⟨rfl, rfl⟩ := returns_get.mp got
  split at returned
  · split at returned
    · obtain ⟨_, _, written, done⟩ := returns_bind.mp returned
      obtain rfl := returns_set.mp written
      obtain ⟨-, rfl⟩ := returns_pure.mp done
      exact fun _ => Or.inl rfl
    · cases returns_throw.mp returned
  · split at returned
    · cases returns_throw.mp returned
    · rename_i j _
      obtain ⟨_, _, written, done⟩ := returns_bind.mp returned
      obtain rfl := returns_set.mp written
      obtain ⟨-, rfl⟩ := returns_pure.mp done
      exact writeBack_writesSlots s j

theorem brelse_writesSlots {after : Caches α} {i : Fin nBlkNum}
    (returned : Returns (brelse i) s () after) : WritesSlots s after := by
  obtain ⟨_, _, got, returned⟩ := returns_bind.mp returned
  obtain ⟨rfl, rfl⟩ := returns_get.mp got
  split at returned
  · cases returns_throw.mp returned
  · obtain rfl := returns_set.mp returned
    exact fun _ => Or.inl rfl

theorem pointer_same {client after : Client α} {k : Nat} {i : Fin nBlkNum}
    (returned : Returns (Client.pointer k) client i after) : after = client := by
  obtain ⟨_, _, got, returned⟩ := returns_bind.mp returned
  obtain ⟨rfl, rfl⟩ := returns_get.mp got
  split at returned
  · exact (returns_pure.mp returned).2.symm
  · cases returns_throw.mp returned

/-- No operation writes anything else to the disk. -/
theorem exec_writesSlots {client after : Client α} {op : Op α}
    (returned : Returns (Client.exec op) client () after) :
    WritesSlots client.cache after.cache := by
  cases op with
  | bread no =>
    obtain ⟨i, _, called, rest⟩ := returns_bind.mp returned
    obtain ⟨cache, ran, rfl⟩ := returns_onPart.mp called
    obtain rfl := returns_modify.mp rest
    exact bread_writesSlots ran
  | modify k f =>
    obtain ⟨i, _, pointed, rest⟩ := returns_bind.mp returned
    obtain rfl := pointer_same pointed
    obtain ⟨cache, ran, rfl⟩ := returns_onPart.mp rest
    obtain rfl := returns_modify.mp ran
    exact fun _ => Or.inl rfl
  | bwrite k =>
    obtain ⟨i, _, pointed, rest⟩ := returns_bind.mp returned
    obtain rfl := pointer_same pointed
    obtain ⟨cache, ran, rfl⟩ := returns_onPart.mp rest
    obtain rfl := returns_modify.mp ran
    intro no
    left
    change (if _ then _ else _ : Caches α).disk no = _
    split
    · rfl
    · rfl
  | brelse k =>
    obtain ⟨i, _, pointed, rest⟩ := returns_bind.mp returned
    obtain rfl := pointer_same pointed
    obtain ⟨_, _, called, last⟩ := returns_bind.mp rest
    obtain ⟨cache, ran, rfl⟩ := returns_onPart.mp called
    obtain rfl := returns_modify.mp last
    exact brelse_writesSlots ran
  | bsync =>
    rw [Client.exec, Client.call] at returned
    obtain ⟨cache, ran, rfl⟩ := returns_onPart.mp returned
    rw [bsync] at ran
    have synced := returns_modify.mp ran
    change WritesSlots client.cache cache
    rw [← synced]
    exact sync_writesSlots _ client.cache

end

/-! ## What a crash brings back -/

section

variable {zero : α} {disk : Nat → α} {client after : Client α} {map : BlockMap α}
  {versions : Nat → Set α}

/-- Disk and map have one of these contents. -/
structure Recoverable (client : Client α) (map : BlockMap α) (versions : Nat → Set α) : Prop where
  simulates : Simulates client map
  disk : ∀ no, client.cache.disk no ∈ versions no
  stored : ∀ no, map.stored no ∈ versions no

/-- One legal call keeps what a crash can leave behind: each block on the disk is one of its
versions, and the versions grow by the contents that the call stores. -/
theorem Recoverable.step (recoverable : Recoverable client map versions) {op : Op α}
    (legal : map.Legal op) (returned : Returns (Client.exec op) client () after) :
    Recoverable after (map.step op) (versionsAfter map op versions) := by
  have result := (exec_step recoverable.simulates op legal).of_returns returned
  -- the disk keeps a content or gets the one of a slot, which is the one stored
  have written : ∀ no, after.cache.disk no ∈ versions no := by
    intro no
    rcases exec_writesSlots returned no with kept | ⟨i, ⟨valid, number⟩, isData⟩
    · rw [kept]
      exact recoverable.disk no
    · have content := recoverable.simulates.represents.data i valid
      rw [isData, content, number]
      exact recoverable.stored no
  constructor
  · exact result.simulates
  · intro no
    cases op with
    | bsync =>
      by_cases pending : map.pending no
      · exact Or.inr ⟨pending, written no⟩
      · exact Or.inl (result.synced rfl no pending)
    | bread _ => exact Set.mem_insert_of_mem _ (written no)
    | modify _ _ => exact Set.mem_insert_of_mem _ (written no)
    | bwrite _ => exact Set.mem_insert_of_mem _ (written no)
    | brelse _ => exact Set.mem_insert_of_mem _ (written no)
  · intro no
    cases op with
    | bsync => exact Or.inl rfl
    | bread _ => exact Set.mem_insert _ _
    | modify _ _ => exact Set.mem_insert _ _
    | bwrite _ => exact Set.mem_insert _ _
    | brelse _ => exact Set.mem_insert _ _

/-- In every run with crashes the disk holds one of the versions of each block, by induction over
the run. -/
theorem CrashRun.recoverable (run : CrashRun zero disk client map versions) :
    Recoverable client map versions := by
  induction run with
  | boot =>
    constructor
    · exact ⟨boot_represents zero disk, List.Forall₂.nil⟩
    · exact fun no => rfl
    · exact fun no => rfl
  | step earlier op legal returned inductionHypothesis =>
    exact inductionHypothesis.step legal returned
  | @crash client map versions earlier inductionHypothesis =>
    constructor
    · exact ⟨boot_represents zero client.cache.disk, List.Forall₂.nil⟩
    · exact inductionHypothesis.disk
    · exact inductionHypothesis.disk

/-- After any number of crashes, each between any two calls: every block on the disk has one of
the contents it had since the last `bsync`, so one that was not changed since then has the
content that was stored, and the cache in front of the disk still goes on as a map. -/
theorem crash_keeps_versions (run : CrashRun zero disk client map versions) :
    (∀ no, client.cache.disk no ∈ versions no) ∧
      ∀ op, map.Legal op → ∃ after, Returns (Client.exec op) client () after ∧
        CrashRun zero disk after (map.step op) (versionsAfter map op versions) ∧
        ∀ no, op = .bread no → ∃ i, after.pointers = i :: client.pointers ∧
          (after.cache.slot i).data = map.stored no := by
  have recoverable := run.recoverable
  constructor
  · exact recoverable.disk
  · intro op legal
    obtain ⟨⟨⟩, after, returned, result⟩ := exec_step recoverable.simulates op legal
    exact ⟨after, returned, run.step op legal returned, result.reads⟩

/-- A change that was synced and a crash: the change is on the disk. -/
theorem synced_change_survives : ∃ client map versions,
    CrashRun (0 : Nat) id client map versions ∧ client.pointers = [] ∧
      client.cache.disk 7 = 8 := by
  have booted : CrashRun (0 : Nat) id _ _ _ := .boot
  obtain ⟨_, -, read, -⟩ := (crash_keeps_versions booted).2 (.bread 7)
    (by simp [BlockMap.Legal, nBlkNum])
  obtain ⟨_, -, changed, -⟩ := (crash_keeps_versions read).2 (.modify 0 Nat.succ)
    (Nat.zero_lt_succ _)
  obtain ⟨_, -, recorded, -⟩ := (crash_keeps_versions changed).2 (.bwrite 0)
    (Nat.zero_lt_succ _)
  obtain ⟨_, -, synced, -⟩ := (crash_keeps_versions recorded).2 .bsync trivial
  have onDisk := (crash_keeps_versions synced.crash).1 7
  refine ⟨_, _, _, synced.crash, rfl, ?_⟩
  rcases onDisk with stored | ⟨pending, -⟩
  · exact stored
  · exact absurd rfl pending.1

end

end CuteCore.BlkCache
