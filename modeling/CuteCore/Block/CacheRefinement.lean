import CuteCore.Block.BlkCache

/-!
# The block cache refines a map

The abstract side is a map from block numbers to the contents last stored, with
the list of blocks a client holds and the blocks whose last change it has not
passed to `bwrite` yet. The concrete side runs the cache for a client that
keeps the pointers `bread` returned. A client names a buffer by its position in
that list, so the same operation drives both sides.
-/

namespace CuteCore.BlkCache

open Hoare

variable {α : Type}

/-- What a client may do. -/
inductive Op (α : Type) where
  | bread (no : Nat)
  | modify (k : Nat) (f : α → α)
  | bwrite (k : Nat)
  | brelse (k : Nat)
  | bsync

/-- The map a client sees, with its own bookkeeping. -/
structure BlockMap (α : Type) where
  stored : Nat → α
  held : List Nat
  pending : Nat → Prop

/-- The client discipline: at most `NBLKNUM` blocks are held at once, each by fewer
references than its `i32` counter can count, a buffer is used only while it is held, and
its last holder lets go only after `bwrite` has followed the last change. -/
def BlockMap.Legal (map : BlockMap α) : Op α → Prop
  | .bread no => (no :: map.held).toFinset.card ≤ nBlkNum ∧ map.held.count no + 1 < 2 ^ 31
  | .modify k _ => k < map.held.length
  | .bwrite k => k < map.held.length
  | .brelse k => ∃ no, map.held[k]? = some no ∧ (map.pending no → no ∈ map.held.eraseIdx k)
  | .bsync => True

def BlockMap.step (map : BlockMap α) : Op α → BlockMap α
  | .bread no => { map with held := no :: map.held }
  | .modify k f =>
    match map.held[k]? with
    | some no => { map with
        stored := Function.update map.stored no (f (map.stored no))
        pending := fun m => m = no ∨ map.pending m }
    | none => map
  | .bwrite k =>
    match map.held[k]? with
    | some no => { map with pending := fun m => m ≠ no ∧ map.pending m }
    | none => map
  | .brelse k => { map with held := map.held.eraseIdx k }
  | .bsync => map

/-- The cache and the pointers its client holds. -/
structure Client (α : Type) where
  cache : Caches α
  pointers : List (Fin nBlkNum)

abbrev ClientProg (α β : Type) := Prog (Client α) Fault β

/-- Run a cache operation for the client. -/
def Client.call {β : Type} (program : CacheProg α β) : ClientProg α β :=
  onPart Client.cache (fun cache client => { client with cache := cache }) program

/-- The pointer at position `k`. -/
def Client.pointer (k : Nat) : ClientProg α (Fin nBlkNum) := do
  let client ← get
  match client.pointers[k]? with
  | some i => return i
  | none => throw .badAccess

def Client.exec : Op α → ClientProg α Unit
  | .bread no => do
    let i ← Client.call (BlkCache.bread no)
    modify fun client => { client with pointers := i :: client.pointers }
  | .modify k f => do
    let i ← Client.pointer k
    Client.call (modifyData i f)
  | .bwrite k => do
    let i ← Client.pointer k
    Client.call (BlkCache.bwrite i)
  | .brelse k => do
    let i ← Client.pointer k
    Client.call (BlkCache.brelse i)
    modify fun client => { client with pointers := client.pointers.eraseIdx k }
  | .bsync => Client.call BlkCache.bsync

/-- A run of legal operations from a zero-initialized cache in front of `disk`,
taken on both sides at once. -/
inductive Run (zero : α) (disk : Nat → α) : Client α → BlockMap α → Prop where
  | boot : Run zero disk ⟨boot zero disk, []⟩ ⟨disk, [], fun _ => False⟩
  | step {client after : Client α} {map : BlockMap α} (earlier : Run zero disk client map)
      (op : Op α) (legal : map.Legal op) (returned : Returns (Client.exec op) client () after) :
      Run zero disk after (map.step op)

/-- The concrete state stands for the map: the cache represents the contents and
each pointer buffers the block at its position. -/
structure Simulates (client : Client α) (map : BlockMap α) : Prop where
  represents : Represents (fun _ => Eq) client.cache map.stored map.pending map.held
  pointers : List.Forall₂ client.cache.Buffers client.pointers map.held

/-- What one operation does to the concrete state `client`, seen from the map. -/
structure StepResult (client : Client α) (map : BlockMap α) (op : Op α) (after : Client α) :
    Prop where
  simulates : Simulates after (map.step op)
  keeps : ∀ i, 0 < (client.cache.slot i).refcnt →
    (after.cache.slot i).valid = true ∧ (after.cache.slot i).blkNo = (client.cache.slot i).blkNo
  reads : ∀ no, op = .bread no → ∃ i, after.pointers = i :: client.pointers ∧
    (after.cache.slot i).data = map.stored no
  synced : op = .bsync → ∀ no, ¬ map.pending no → after.cache.disk no = map.stored no

namespace Simulates

variable {client : Client α} {map : BlockMap α}

/-- The pointer at a held position, with the block it buffers. -/
theorem pointer_at (simulates : Simulates client map) (k no : Nat) (atK : map.held[k]? = some no) :
    ∃ i, client.pointers[k]? = some i ∧ client.cache.Buffers i no := by
  have inRange : k < map.held.length := (List.getElem?_eq_some_iff.mp atK).1
  have shorter : k < client.pointers.length := simulates.pointers.length_eq ▸ inRange
  refine ⟨client.pointers[k], List.getElem?_eq_getElem shorter, ?_⟩
  have paired := simulates.pointers.get shorter inRange
  rw [List.getElem?_eq_getElem inRange] at atK
  simpa [← Option.some.inj atK] using paired

/-- Pointers stay good as long as the slots keep their block. -/
theorem keep_pointers (simulates : Simulates client map) (cache : Caches α)
    (kept : ∀ i no, client.cache.Buffers i no → no ∈ map.held → cache.Buffers i no) :
    List.Forall₂ cache.Buffers client.pointers map.held := by
  have paired := simulates.pointers
  rw [List.forall₂_iff_zip] at paired ⊢
  refine ⟨paired.1, ?_⟩
  intro i no member
  exact kept i no (paired.2 member) (List.of_mem_zip member).2

end Simulates

/-- Reading the pointer at a held position. -/
theorem pointer_spec {client : Client α} (k : Nat) (i : Fin nBlkNum)
    (atK : client.pointers[k]? = some i) :
    wp (Client.pointer k) (fun j after => j = i ∧ after = client) client := by
  rw [Client.pointer, wp_bind, wp_get, atK]
  simp

theorem forall₂_eraseIdx {β γ : Type} {R : β → γ → Prop} {xs : List β} {ys : List γ}
    (related : List.Forall₂ R xs ys) (k : Nat) :
    List.Forall₂ R (xs.eraseIdx k) (ys.eraseIdx k) := by
  induction related generalizing k with
  | nil => simp
  | cons head tail inductionHypothesis =>
    cases k with
    | zero => simpa using tail
    | succ k => simpa using ⟨head, inductionHypothesis k⟩

section Steps

variable {client : Client α} {map : BlockMap α} (simulates : Simulates client map)

include simulates

/-- A legal `bread` returns a buffer with what the map stores for the block, whether it was cached
or has to take the place of another one. -/
theorem bread_step (no : Nat) (legal : map.Legal (.bread no)) :
    wp (Client.exec (.bread no)) (fun _ after => StepResult client map (.bread no) after)
      client := by
  have room : no ∈ (map.held : Multiset Nat) ∨
      (map.held : Multiset Nat).toFinset.card < nBlkNum := by
    by_cases member : no ∈ map.held
    · exact Or.inl (Multiset.mem_coe.mpr member)
    · apply Or.inr
      have bound : (no :: map.held).toFinset.card ≤ nBlkNum := legal.1
      rw [List.toFinset_cons, Finset.card_insert_of_notMem (by simpa using member)] at bound
      change map.held.toFinset.card < nBlkNum
      omega
  rw [Client.exec, wp_bind, Client.call, wp_onPart]
  have few : (map.held : Multiset Nat).count no + 1 < 2 ^ 31 := by
    rw [Multiset.coe_count]
    exact legal.2
  apply wp_mono (bread_spec simulates.represents no room few)
  rintro i cache ⟨buffers, represents, kept⟩
  rw [wp_modify]
  refine ⟨⟨?_, ?_⟩, ?_, ?_, ?_⟩
  · exact represents
  · refine List.Forall₂.cons buffers (simulates.keep_pointers cache ?_)
    rintro j m ⟨valid, number⟩ member
    have references := simulates.represents.refcnt_pos j m ⟨valid, number⟩ member
    obtain ⟨sameValid, sameNo, -⟩ := kept j (by omega)
    exact ⟨sameValid.trans valid, sameNo.trans number⟩
  · intro j references
    obtain ⟨sameValid, sameNo, -⟩ := kept j (by omega)
    exact ⟨sameValid.trans (simulates.represents.held_of_refcnt j (by omega)).1, sameNo⟩
  · intro m isRead
    cases isRead
    refine ⟨i, rfl, ?_⟩
    have contents := represents.data i buffers.1
    rw [buffers.2] at contents
    exact contents
  · intro isSync
    cases isSync

/-- A buffer operation rewrites one slot and keeps its block, so every pointer
and every held slot keeps its block. -/
theorem buffer_keeps (i : Fin nBlkNum) (no : Nat) (buffers : client.cache.Buffers i no)
    (cache : Caches α) (still : cache.Buffers i no)
    (others : ∀ j, j ≠ i → cache.slot j = client.cache.slot j) :
    (∀ j m, client.cache.Buffers j m → cache.Buffers j m) ∧
    ∀ j, 0 < (client.cache.slot j).refcnt → (cache.slot j).valid = true ∧
      (cache.slot j).blkNo = (client.cache.slot j).blkNo := by
  constructor
  · rintro j m ⟨valid, number⟩
    by_cases isI : j = i
    · subst isI
      rw [← number, buffers.2]
      exact still
    · exact ⟨(congrArg Slot.valid (others j isI)).trans valid,
        (congrArg Slot.blkNo (others j isI)).trans number⟩
  · intro j references
    by_cases isI : j = i
    · subst isI
      exact ⟨still.1, still.2.trans buffers.2.symm⟩
    · rw [others j isI]
      exact ⟨(simulates.represents.held_of_refcnt j (by omega)).1, rfl⟩

/-- A client that holds a block changes the contents in the buffer. The map changes the block in the
same way, and the block counts as unrecorded until its `bwrite`. -/
theorem modify_step (k : Nat) (f : α → α) (legal : map.Legal (.modify k f)) :
    wp (Client.exec (.modify k f)) (fun _ after => StepResult client map (.modify k f) after)
      client := by
  obtain ⟨no, atK⟩ : ∃ no, map.held[k]? = some no := ⟨_, List.getElem?_eq_getElem legal⟩
  have member : no ∈ map.held := List.mem_of_getElem? atK
  obtain ⟨i, pointerAtK, buffers⟩ := simulates.pointer_at k no atK
  rw [Client.exec]
  apply wp_seq (pointer_spec k i pointerAtK)
  rintro j mid ⟨rfl, rfl⟩
  rw [Client.call, wp_onPart]
  have contents := simulates.represents.data j buffers.1
  rw [buffers.2] at contents
  refine wp_mono (modifyData_spec simulates.represents j no buffers (Multiset.mem_coe.mpr member)
    f (fun _ => Eq) (Function.update map.stored no (f (map.stored no))) ?_ ?_) ?_
  · intro m differs
    exact ⟨rfl, Function.update_of_ne differs ..⟩
  · rw [Function.update_self, contents]
  rintro - cache ⟨still, represents, -, others⟩
  obtain ⟨keepsBuffers, keepsHeld⟩ := buffer_keeps simulates j no buffers cache still others
  refine ⟨⟨?_, ?_⟩, keepsHeld, ?_, ?_⟩
  · simpa [BlockMap.step, atK] using represents
  · have paired := simulates.keep_pointers cache fun j m before _ => keepsBuffers j m before
    simpa [BlockMap.step, atK] using paired
  · intro m isRead
    cases isRead
  · intro isSync
    cases isSync

/-- A legal `bwrite` keeps cache and map in step; the change of the buffer counts as recorded. -/
theorem bwrite_step (k : Nat) (legal : map.Legal (.bwrite k)) :
    wp (Client.exec (.bwrite k)) (fun _ after => StepResult client map (.bwrite k) after)
      client := by
  obtain ⟨no, atK⟩ : ∃ no, map.held[k]? = some no := ⟨_, List.getElem?_eq_getElem legal⟩
  obtain ⟨i, pointerAtK, buffers⟩ := simulates.pointer_at k no atK
  rw [Client.exec]
  apply wp_seq (pointer_spec k i pointerAtK)
  rintro j mid ⟨rfl, rfl⟩
  rw [Client.call, wp_onPart]
  apply wp_mono (bwrite_spec simulates.represents j no buffers)
  rintro - cache ⟨still, represents, -, others⟩
  obtain ⟨keepsBuffers, keepsHeld⟩ := buffer_keeps simulates j no buffers cache still others
  refine ⟨⟨?_, ?_⟩, keepsHeld, ?_, ?_⟩
  · simpa [BlockMap.step, atK] using represents
  · have paired := simulates.keep_pointers cache fun j m before _ => keepsBuffers j m before
    simpa [BlockMap.step, atK] using paired
  · intro m isRead
    cases isRead
  · intro isSync
    cases isSync

/-- A legal `brelse` returns and leaves cache and map in step. The block stays in its slot, so its
contents do not change when the last reference goes. -/
theorem brelse_step (k : Nat) (legal : map.Legal (.brelse k)) :
    wp (Client.exec (.brelse k)) (fun _ after => StepResult client map (.brelse k) after)
      client := by
  obtain ⟨no, atK, recorded⟩ := legal
  have member : no ∈ map.held := List.mem_of_getElem? atK
  obtain ⟨inRange, isNo⟩ := List.getElem?_eq_some_iff.mp atK
  obtain ⟨i, pointerAtK, buffers⟩ := simulates.pointer_at k no atK
  have remaining : ((map.held : Multiset Nat).erase no) = (map.held.eraseIdx k : List Nat) := by
    have whole := Multiset.coe_eq_coe.mpr (List.getElem_cons_eraseIdx_perm inRange)
    rw [← whole, isNo, ← Multiset.cons_coe, Multiset.erase_cons_head]
  rw [Client.exec]
  apply wp_seq (pointer_spec k i pointerAtK)
  rintro j mid ⟨rfl, rfl⟩
  rw [wp_bind, Client.call, wp_onPart]
  refine wp_mono (brelse_spec simulates.represents j no buffers (Multiset.mem_coe.mpr member) ?_) ?_
  · intro mark
    rw [remaining]
    exact recorded mark
  rintro - cache ⟨still, represents, -, others⟩
  obtain ⟨keepsBuffers, keepsHeld⟩ := buffer_keeps simulates j no buffers cache still others
  rw [wp_modify]
  refine ⟨⟨?_, ?_⟩, keepsHeld, ?_, ?_⟩
  · rw [remaining] at represents
    exact represents
  · exact forall₂_eraseIdx
      (simulates.keep_pointers cache fun j m before _ => keepsBuffers j m before) k
  · intro m isRead
    cases isRead
  · intro isSync
    cases isSync

/-- After `bsync` the disk holds what the map stores for every block without an unrecorded change,
and the buffers are as before. -/
theorem bsync_step :
    wp (Client.exec .bsync) (fun _ after => StepResult client map .bsync after) client := by
  rw [Client.exec, Client.call, wp_onPart]
  apply wp_mono (bsync_spec simulates.represents)
  rintro - cache ⟨represents, same, written⟩
  refine ⟨⟨represents, ?_⟩, ?_, ?_, ?_⟩
  · apply simulates.keep_pointers cache
    rintro j m ⟨valid, number⟩ -
    exact ⟨(same j).1.trans valid, (same j).2.1.trans number⟩
  · intro j references
    exact ⟨(same j).1.trans (simulates.represents.held_of_refcnt j (by omega)).1, (same j).2.1⟩
  · intro m isRead
    cases isRead
  · intro _ no notPending
    exact written no notPending

/-- Every legal operation runs, and its result stands for the map's next state. -/
theorem exec_step (op : Op α) (legal : map.Legal op) :
    wp (Client.exec op) (fun _ after => StepResult client map op after) client := by
  cases op with
  | bread no => exact bread_step simulates no legal
  | modify k f => exact modify_step simulates k f legal
  | bwrite k => exact bwrite_step simulates k legal
  | brelse k => exact brelse_step simulates k legal
  | bsync => exact bsync_step simulates

end Steps

/-- The cache stands for the map in every state of every run. -/
theorem Run.simulates {zero : α} {disk : Nat → α} {client : Client α} {map : BlockMap α}
    (run : Run zero disk client map) : Simulates client map := by
  induction run with
  | boot => exact ⟨boot_represents zero disk, List.Forall₂.nil⟩
  | step earlier op legal returned inductionHypothesis =>
    exact ((exec_step inductionHypothesis op legal).of_returns returned).simulates

/-- The cache refines the map. In every reachable state no two valid slots carry
the same block, and every legal operation returns, keeps the block of every slot
with references, reads what the map stores, and after `bsync` the disk stores
what the map does wherever no change is pending. -/
theorem cache_refines_map (zero : α) (disk : Nat → α) (client : Client α) (map : BlockMap α)
    (run : Run zero disk client map) :
    (∀ i j, (client.cache.slot i).valid = true → (client.cache.slot j).valid = true →
      (client.cache.slot i).blkNo = (client.cache.slot j).blkNo → i = j) ∧
    ∀ op, map.Legal op → ∃ after, Returns (Client.exec op) client () after ∧
      Run zero disk after (map.step op) ∧
      (∀ i, 0 < (client.cache.slot i).refcnt → (after.cache.slot i).valid = true ∧
        (after.cache.slot i).blkNo = (client.cache.slot i).blkNo) ∧
      (∀ no, op = .bread no → ∃ i, after.pointers = i :: client.pointers ∧
        (after.cache.slot i).data = map.stored no) ∧
      (op = .bsync → ∀ no, ¬ map.pending no → after.cache.disk no = map.stored no) := by
  have simulates := run.simulates
  refine ⟨simulates.represents.distinct, ?_⟩
  intro op legal
  obtain ⟨⟨⟩, after, returned, result⟩ := exec_step simulates op legal
  exact ⟨after, returned, run.step op legal returned, result.keeps, result.reads, result.synced⟩

/-- A client changes block 7, records the change, lets go and reads block 8. -/
def changeAndEvict : ClientProg Nat Unit := do
  Client.exec (.bread 7)
  Client.exec (.modify 0 (· + 100))
  Client.exec (.bwrite 0)
  Client.exec (.brelse 0)
  Client.exec (.bread 8)

/-- On a disk that stores each block's number: block 8 takes the slot of block 7, whose
change goes to the disk. Block 7 then reads as it was stored, and `bsync` finds it there. -/
theorem change_outlives_eviction : ∃ evicted reread synced : Client Nat, ∃ map,
    Run 0 id evicted map ∧ evicted.cache.disk 7 = 107 ∧
    Returns (Client.exec (.bread 7)) evicted () reread ∧
    (∃ i, reread.pointers = i :: evicted.pointers ∧ (reread.cache.slot i).data = 107) ∧
    Returns (Client.exec .bsync) reread () synced ∧ synced.cache.disk 7 = 107 := by
  obtain ⟨c₁, returned₁, read, -⟩ := (cache_refines_map 0 id _ _ Run.boot).2 (.bread 7)
    ⟨by decide, by decide⟩
  obtain ⟨c₂, returned₂, changed, -⟩ := (cache_refines_map 0 id _ _ read).2 (.modify 0 (· + 100))
    (Nat.zero_lt_succ _)
  obtain ⟨c₃, returned₃, recorded, -⟩ := (cache_refines_map 0 id _ _ changed).2 (.bwrite 0)
    (Nat.zero_lt_succ _)
  obtain ⟨c₄, returned₄, released, -⟩ := (cache_refines_map 0 id _ _ recorded).2 (.brelse 0)
    ⟨7, rfl, fun pending => absurd rfl pending.1⟩
  obtain ⟨c₅, returned₅, evicted, -⟩ := (cache_refines_map 0 id _ _ released).2 (.bread 8)
    ⟨by decide, by decide⟩
  have ran : Returns changeAndEvict ⟨boot 0 id, []⟩ () c₅ :=
    returns_bind.mpr ⟨_, _, returned₁, returns_bind.mpr ⟨_, _, returned₂,
      returns_bind.mpr ⟨_, _, returned₃, returns_bind.mpr ⟨_, _, returned₄, returned₅⟩⟩⟩⟩
  have computed : (changeAndEvict ⟨boot 0 id, []⟩).toOption.map (fun r => r.2.cache.disk 7) =
      some 107 := by
    decide +kernel
  rw [show changeAndEvict ⟨boot 0 id, []⟩ = _ from ran] at computed
  obtain ⟨c₆, returned₆, reread, -, reads, -⟩ := (cache_refines_map 0 id _ _ evicted).2 (.bread 7)
    ⟨by decide, by decide⟩
  obtain ⟨c₇, returned₇, -, -, -, synced⟩ := (cache_refines_map 0 id _ _ reread).2 .bsync trivial
  refine ⟨c₅, c₆, c₇, _, evicted, Option.some.inj computed, returned₆, reads 7 rfl, returned₇, ?_⟩
  exact synced rfl 7 fun pending => absurd rfl pending.1

end CuteCore.BlkCache
