import CuteCore.Block.CacheRefinement
import CuteCore.Driver.BlockMap
import CuteCore.Library.Devices

/-!
# The block cache over the driver

The cache with its calls of `blkread` and `blkwrite` as requests to a device. Served by the
polled driver, in whatever order driver and device take their steps, it is the cache over
the blocks of the disk. So clients see a map of blocks, and `bsync` brings it to the disk.
-/

namespace CuteCore.BlkCache

open Hoare Devices

section

variable {α : Type}

/-- The slot array and the pointers of its client, without a disk. -/
structure Holder (α : Type) where
  slot : Fin nBlkNum → Slot α
  pointers : List (Fin nBlkNum)

/-- The client with this disk behind the cache. -/
def Holder.over (holder : Holder α) (disk : Nat → α) : Client α :=
  ⟨⟨holder.slot, disk⟩, holder.pointers⟩

def Holder.setSlot (holder : Holder α) (i : Fin nBlkNum) (entry : Slot α) : Holder α :=
  { holder with slot := Function.update holder.slot i entry }

/-- `bread`: the victim goes to the disk before the block is read. -/
def Holder.breadCode (holder : Holder α) (no : Nat) :
    Code Nat α (Option (Holder α × Fin nBlkNum)) :=
  match (List.finRange nBlkNum).find?
      fun i => (holder.slot i).valid && (holder.slot i).blkNo == no with
  | some i => .done (if (holder.slot i).refcnt + 1 < 2 ^ 31 then some
      (holder.setSlot i { holder.slot i with refcnt := (holder.slot i).refcnt + 1 }, i) else none)
  | none =>
    match (List.finRange nBlkNum).find? fun i => (holder.slot i).refcnt == 0 with
    | none => .done none
    | some i =>
      let fetch := .read no fun data => .done (some (holder.setSlot i
        { blkNo := no, valid := true, dirty := false, refcnt := 1, data := data }, i))
      if (holder.slot i).valid && (holder.slot i).dirty then
        .write (holder.slot i).blkNo (holder.slot i).data fetch
      else fetch

/-- The loop of `bsync` over these slots. -/
def Holder.syncCode (holder : Holder α) : List (Fin nBlkNum) → Code Nat α (Holder α)
  | [] => .done holder
  | i :: rest =>
    if (holder.slot i).valid && (holder.slot i).dirty then
      .write (holder.slot i).blkNo (holder.slot i).data
        ((holder.setSlot i { holder.slot i with dirty := false }).syncCode rest)
    else holder.syncCode rest

/-- An operation of the client; none where the cache panics. -/
def Op.code (holder : Holder α) : Op α → Code Nat α (Option (Holder α))
  | .bread no => (holder.breadCode no).map fun got => got.map fun found =>
      { found.1 with pointers := found.2 :: found.1.pointers }
  | .modify k f => .done (holder.pointers[k]?.map fun i =>
      holder.setSlot i { holder.slot i with data := f (holder.slot i).data })
  | .bwrite k => .done (holder.pointers[k]?.map fun i =>
      if (holder.slot i).valid then holder.setSlot i { holder.slot i with dirty := true }
      else holder)
  | .brelse k => .done (holder.pointers[k]?.bind fun i =>
      if (holder.slot i).refcnt ≤ 0 then none
      else some { holder.setSlot i { holder.slot i with refcnt := (holder.slot i).refcnt - 1 } with
        pointers := holder.pointers.eraseIdx k })
  | .bsync => (holder.syncCode (List.finRange nBlkNum)).map some

/-- `bread` over the disk makes these requests. -/
theorem breadCode_onMap {holder : Holder α} {disk : Nat → α} {no : Nat} {i : Fin nBlkNum}
    {after : Caches α} (returned : Returns (BlkCache.bread no) (holder.over disk).cache i after) :
    (holder.breadCode no).onMap disk =
      (after.disk, some ({ holder with slot := after.slot }, i)) := by
  have hit : (holder.over disk).cache.hit no = (List.finRange nBlkNum).find?
    fun i => (holder.slot i).valid && (holder.slot i).blkNo == no := rfl
  have free : (holder.over disk).cache.firstFree =
    (List.finRange nBlkNum).find? fun i => (holder.slot i).refcnt == 0 := rfl
  rw [BlkCache.bread, returns_bind] at returned
  obtain ⟨s, mid, isState, returned⟩ := returned
  obtain ⟨rfl, rfl⟩ := returns_get.mp isState
  rw [Holder.breadCode, ← hit, ← free]
  cases found : (holder.over disk).cache.hit no with
  | some j =>
    rw [found] at returned
    by_cases fits : (holder.slot j).refcnt + 1 < 2 ^ 31
    · have counted : ((holder.over disk).cache.slot j).refcnt + 1 < 2 ^ 31 := fits
      simp only [if_pos counted] at returned
      obtain ⟨u, mid, isSet, isPure⟩ := returns_bind.mp returned
      obtain ⟨rfl, rfl⟩ := returns_pure.mp isPure
      rw [← returns_set.mp isSet]
      simp only [if_pos fits]
      rfl
    · have counted : ¬ ((holder.over disk).cache.slot j).refcnt + 1 < 2 ^ 31 := fits
      simp only [if_neg counted] at returned
      exact (returns_throw.mp returned).elim
  | none =>
    rw [found] at returned
    cases isFree : (holder.over disk).cache.firstFree with
    | none =>
      rw [isFree] at returned
      exact (returns_throw.mp returned).elim
    | some j =>
      rw [isFree] at returned
      obtain ⟨u, mid, isSet, isPure⟩ := returns_bind.mp returned
      obtain ⟨rfl, rfl⟩ := returns_pure.mp isPure
      rw [← returns_set.mp isSet]
      by_cases unwritten : ((holder.slot j).valid && (holder.slot j).dirty) = true
      · have back : (holder.over disk).cache.writeBack j = (holder.over
          (Function.update disk (holder.slot j).blkNo (holder.slot j).data)).cache := if_pos unwritten
        simp only [back, if_pos unwritten]
        rfl
      · have back : (holder.over disk).cache.writeBack j = (holder.over disk).cache :=
          if_neg unwritten
        simp only [back, if_neg unwritten]
        rfl

/-- The loop of `bsync` makes these. -/
theorem syncCode_onMap (slots : List (Fin nBlkNum)) (holder : Holder α) (disk : Nat → α) :
    (holder.syncCode slots).onMap disk =
      ((slots.foldl Caches.syncSlot (holder.over disk).cache).disk,
        { holder with slot := (slots.foldl Caches.syncSlot (holder.over disk).cache).slot }) := by
  induction slots generalizing holder disk with
  | nil => rfl
  | cons i rest inductionHypothesis =>
    rw [Holder.syncCode, List.foldl_cons]
    have step : (holder.over disk).cache.syncSlot i =
        if ((holder.slot i).valid && (holder.slot i).dirty) = true then
          ((holder.setSlot i { holder.slot i with dirty := false }).over
            (Function.update disk (holder.slot i).blkNo (holder.slot i).data)).cache
        else (holder.over disk).cache := rfl
    rw [step]
    split
    · exact inductionHypothesis _ _
    · exact inductionHypothesis _ _

/-- An operation over the disk is its requests over the disk. -/
theorem exec_code {holder : Holder α} {disk : Nat → α} {op : Op α} {after : Client α}
    (returned : Returns (Client.exec op) (holder.over disk) () after) : ∃ holder',
    (op.code holder).onMap disk = (after.cache.disk, some holder') ∧
      after = holder'.over after.cache.disk := by
  have pointed : ∀ k i mid, Returns (Client.pointer k) (holder.over disk) i mid →
      holder.pointers[k]? = some i ∧ mid = holder.over disk := by
    intro k i mid isPointer
    rw [Client.pointer, returns_bind] at isPointer
    obtain ⟨s, s', isState, isPointer⟩ := isPointer
    obtain ⟨rfl, rfl⟩ := returns_get.mp isState
    change Returns (match holder.pointers[k]? with | some i => pure i | none => throw Fault.badAccess) _
      _ _ at isPointer
    cases atK : holder.pointers[k]? with
    | none =>
      rw [atK] at isPointer
      exact (returns_throw.mp isPointer).elim
    | some j =>
      rw [atK] at isPointer
      obtain ⟨rfl, rfl⟩ := returns_pure.mp isPointer
      exact ⟨rfl, rfl⟩
  refine ⟨⟨after.cache.slot, after.pointers⟩, ?_, rfl⟩
  cases op with
  | bread no =>
    rw [Client.exec, returns_bind] at returned
    obtain ⟨i, mid, called, pushed⟩ := returned
    obtain ⟨cache, isRead, rfl⟩ := returns_onPart.mp called
    rw [Op.code, Code.onMap_map, breadCode_onMap isRead, ← returns_modify.mp pushed]
    rfl
  | modify k f =>
    rw [Client.exec, returns_bind] at returned
    obtain ⟨i, mid, isPointer, called⟩ := returned
    obtain ⟨atK, rfl⟩ := pointed k i mid isPointer
    obtain ⟨cache, isModified, rfl⟩ := returns_onPart.mp called
    rw [← returns_modify.mp isModified, Op.code, atK]
    rfl
  | bwrite k =>
    rw [Client.exec, returns_bind] at returned
    obtain ⟨i, mid, isPointer, called⟩ := returned
    obtain ⟨atK, rfl⟩ := pointed k i mid isPointer
    obtain ⟨cache, isWritten, rfl⟩ := returns_onPart.mp called
    rw [← returns_modify.mp isWritten, Op.code, atK]
    change (disk, some (if (holder.slot i).valid = true then _ else holder)) =
      (Caches.disk (if (holder.slot i).valid = true then _ else (holder.over disk).cache), _)
    cases valid : (holder.slot i).valid with
    | true =>
      simp only [if_pos, Holder.over, valid]
      rfl
    | false =>
      simp only [Holder.over, valid]
      rfl
  | brelse k =>
    rw [Client.exec, returns_bind] at returned
    obtain ⟨i, mid, isPointer, returned⟩ := returned
    obtain ⟨atK, rfl⟩ := pointed k i mid isPointer
    obtain ⟨u, mid, called, pushed⟩ := returns_bind.mp returned
    obtain ⟨cache, isReleased, rfl⟩ := returns_onPart.mp called
    rw [← returns_modify.mp pushed, Op.code, atK]
    rw [BlkCache.brelse, returns_bind] at isReleased
    obtain ⟨s, mid, isState, isReleased⟩ := isReleased
    obtain ⟨rfl, rfl⟩ := returns_get.mp isState
    change Returns (if (holder.slot i).refcnt ≤ 0 then throw (Fault.panic "brelse") else set _) _ _ _
      at isReleased
    change (disk, if (holder.slot i).refcnt ≤ 0 then none else _) = _
    by_cases unheld : (holder.slot i).refcnt ≤ 0
    · rw [if_pos unheld] at isReleased
      exact (returns_throw.mp isReleased).elim
    · rw [if_neg unheld] at isReleased
      rw [if_neg unheld, ← returns_set.mp isReleased]
      rfl
  | bsync =>
    rw [Client.exec] at returned
    obtain ⟨cache, isSynced, rfl⟩ := returns_onPart.mp returned
    rw [BlkCache.bsync] at isSynced
    have synced := returns_modify.mp isSynced
    change (List.finRange nBlkNum).foldl Caches.syncSlot (holder.over disk).cache = cache at synced
    rw [Op.code, Code.onMap_map, syncCode_onMap, synced]
    rfl

/-! ## Runs over any device -/

/-- Runs of legal operations over a device, with the requests made so far and the map that
the cache is to stand for. Nothing is said about the device's answers. -/
inductive DeviceRun (zero : α) (disk : Nat → α) :
    Holder α → List (Request Nat α) → BlockMap α → Prop where
  | boot : DeviceRun zero disk ⟨(boot zero disk).slot, []⟩ [] ⟨disk, [], fun _ => False⟩
  | step {holder after : Holder α} {issued more : List (Request Nat α)} {map : BlockMap α}
      (earlier : DeviceRun zero disk holder issued map) (op : Op α) (legal : map.Legal op)
      (ran : Ran (op.code holder) more (some after)) :
      DeviceRun zero disk after (issued ++ more) (map.step op)

variable {zero : α} {disk : Nat → α} {holder : Holder α} {issued more : List (Request Nat α)}
  {map : BlockMap α}

/-- A legal operation over a truthful device does what it does over the disk. -/
theorem Simulates.ran {client : Client α} (simulates : Simulates client map) {op : Op α}
    (legal : map.Legal op) (isClient : client = holder.over disk) {result : Option (Holder α)}
    (ran : Ran (op.code holder) more result) (truthful : Truthful disk more) :
    ∃ after, result = some after ∧
      Returns (Client.exec op) client () (after.over (mapAfter disk more)) ∧
      StepResult client map op (after.over (mapAfter disk more)) := by
  obtain ⟨⟨⟩, after, returned, outcome⟩ := exec_step simulates op legal
  rw [isClient] at returned
  obtain ⟨holder', onMap, isAfter⟩ := exec_code returned
  rw [ran.onMap truthful] at onMap
  obtain ⟨isDisk, isResult⟩ := Prod.mk.inj onMap
  rw [← isDisk] at isAfter
  rw [isAfter] at returned outcome
  refine ⟨holder', isResult, ?_, outcome⟩
  rw [isClient]
  exact returned

/-- Over a truthful device the run is one over the disk. -/
theorem DeviceRun.run (run : DeviceRun zero disk holder issued map)
    (truthful : Truthful disk issued) :
    Run zero disk (holder.over (mapAfter disk issued)) map := by
  induction run with
  | boot => exact .boot
  | @step holder after issued more map earlier op legal ran inductionHypothesis =>
    have before := inductionHypothesis truthful.front
    obtain ⟨after', isSome, returned, -⟩ :=
      before.simulates.ran legal rfl ran truthful.back
    obtain rfl := Option.some.inj isSome
    rw [mapAfter_append]
    exact before.step op legal returned

end

/-! ## Served by the driver -/

section

open Virtio

/-- The blocks of the disk by their numbers in the cache. -/
def diskBlocks (disk : BitVec 64 → Sector) (no : Nat) : Virtio.Block :=
  blocksOf disk (BitVec.ofNat 64 no)

/-- A call of the driver that served a request. Block numbers are those of a disk with fewer
than `2 ^ 64` sectors. -/
inductive Serves : Request Nat Virtio.Block → Finished → Prop where
  | read {no : Nat} {finished : Finished} (small : no < 2 ^ 61)
      (reads : finished.call.writes = false) (number : finished.call.no = BitVec.ofNat 64 no) :
      Serves (.read no finished.block) finished
  | write {no : Nat} {finished : Finished} (small : no < 2 ^ 61)
      (writes : finished.call.writes = true) (number : finished.call.no = BitVec.ofNat 64 no) :
      Serves (.write no finished.given) finished

theorem toNat_number {no : Nat} (small : no < 2 ^ 61) : (BitVec.ofNat 64 no).toNat = no := by
  rw [BitVec.toNat_ofNat]
  exact Nat.mod_eq_of_lt (by omega)

theorem Serves.small {request : Request Nat Virtio.Block} {finished : Finished}
    (serves : Serves request finished) : finished.call.no.toNat < 2 ^ 61 := by
  cases serves with
  | read small _ number | write small _ number => rwa [number, toNat_number small]

variable {disk : BitVec 64 → Sector} {s : State} {calls : List Finished}
  {issued : List (Request Nat Virtio.Block)}

/-- A call that serves a request has a block number below 2⁶¹, so none of its sectors wraps. -/
theorem served_small (served : List.Forall₂ Serves issued calls) :
    ∀ finished ∈ calls, finished.call.no.toNat < 2 ^ 61 := by
  induction served with
  | nil =>
    intro finished member
    cases member
  | cons first _ inductionHypothesis =>
    intro finished member
    rcases List.mem_cons.mp member with isFirst | later
    · rw [isFirst]
      exact first.small
    · exact inductionHypothesis finished later

/-- The map of the driver's blocks is the map of the cache's. -/
theorem served_blocks (served : List.Forall₂ Serves issued calls)
    (kept : ∀ finished ∈ calls, finished.call.writes = true → finished.block = finished.given)
    {cells : Nat → Virtio.Block} {blocks : BitVec 64 → Virtio.Block}
    (agree : ∀ no < 2 ^ 61, blocks (BitVec.ofNat 64 no) = cells no) :
    ∀ no < 2 ^ 61, blocksAfter blocks calls (BitVec.ofNat 64 no) = mapAfter cells issued no := by
  induction served generalizing cells blocks with
  | nil => exact agree
  | @cons request finished issued calls first _ inductionHypothesis =>
    have isGiven := kept finished (List.mem_cons_self ..)
    apply inductionHypothesis fun other member => kept other (List.mem_cons_of_mem _ member)
    intro no small
    cases first with
    | read _ reads _ =>
      rw [Finished.apply, reads, if_neg Bool.false_ne_true]
      exact agree no small
    | @write written _ smallWritten writes number =>
      rw [Finished.apply, writes, if_pos rfl, number, isGiven writes]
      by_cases same : no = written
      · rw [same, Request.apply, Function.update_self, Function.update_self]
      · have differs : BitVec.ofNat 64 no ≠ BitVec.ofNat 64 written := by
          intro equal
          apply same
          rw [← toNat_number small, equal, toNat_number smallWritten]
        rw [Request.apply, Function.update_of_ne differs, Function.update_of_ne same]
        exact agree no small

/-- A request of a served sequence and the call that served it split both sequences at the same
place. -/
theorem served_split {earlier later : List (Request Nat Virtio.Block)}
    {request : Request Nat Virtio.Block}
    (served : List.Forall₂ Serves (earlier ++ request :: later) calls) : ∃ front finished back,
      calls = front ++ finished :: back ∧ List.Forall₂ Serves earlier front ∧
      Serves request finished := by
  induction earlier generalizing calls with
  | nil =>
    cases served with
    | cons first _ => exact ⟨[], _, _, rfl, .nil, first⟩
  | cons _ _ inductionHypothesis =>
    cases served with
    | cons first later =>
      obtain ⟨front, finished, back, rfl, fronts, serves⟩ := inductionHypothesis later
      exact ⟨_ :: front, finished, back, rfl, .cons first fronts, serves⟩

/-- The driver answers as the blocks of the disk would. -/
theorem served_truthful {current : List Event} (orderly : Orderly disk s calls current)
    (served : List.Forall₂ Serves issued calls) : Truthful (diskBlocks disk) issued := by
  intro earlier no got later split
  subst split
  obtain ⟨front, finished, back, isSplit, fronts, serves⟩ := served_split served
  cases serves with
  | read small reads number =>
    have inFront : ∀ other ∈ front, other ∈ calls := by
      intro other member
      rw [isSplit]
      exact List.mem_append_left _ member
    rw [orderly.read_block isSplit reads (served_small fronts)
      (by rwa [number, toNat_number small]), number]
    exact served_blocks fronts (fun other member => orderly.2.2.1 other (inFront other member))
      (fun _ _ => rfl) no small

/-- Every buffer that is held has what the map stores, and after `bsync` so has the disk. -/
structure Delivers (s : State) (map : BlockMap Virtio.Block) (op : Op Virtio.Block)
    (after : Holder Virtio.Block) : Prop where
  buffers : ∀ k no : Nat, (map.step op).held[k]? = some no → ∃ i, after.pointers[k]? = some i ∧
    (after.slot i).blkNo = no ∧ (after.slot i).data = (map.step op).stored no
  synced : op = .bsync → ∀ no < 2 ^ 61, ¬ map.pending no → diskBlocks s.disk no = map.stored no

/-- The cache over the driver and its device, which take their steps in any order. If the
calls that returned are the requests of the cache, no legal operation panics, and clients see
a map of blocks that `bsync` brings to the disk. -/
theorem cache_over_driver (reachable : Reachable disk s) (idle : s.driver = .idle) :
    ∃ calls, s.history = calls.flatMap Finished.events ∧
      ∀ zero holder issued map op more result,
        DeviceRun zero (diskBlocks disk) holder issued map → map.Legal op →
        Ran (op.code holder) more result → List.Forall₂ Serves (issued ++ more) calls →
        ∃ after, result = some after ∧ Delivers s map op after := by
  obtain ⟨calls, current, orderly⟩ := Orderly.of_run reachable
  have atPoint := orderly.2.2.2
  rw [AtPoint, idle] at atPoint
  obtain ⟨-, settled, rfl⟩ := atPoint
  have history := orderly.1
  rw [List.append_nil] at history
  refine ⟨calls, history, fun zero holder issued map op more result run legal ran served => ?_⟩
  have truthful := served_truthful orderly served
  obtain ⟨after, isSome, -, outcome⟩ :=
    (run.run truthful.front).simulates.ran legal rfl ran truthful.back
  refine ⟨after, isSome, fun k no atK => ?_, fun isSync no small unchanged => ?_⟩
  · obtain ⟨i, isPointer, valid, number⟩ := outcome.simulates.pointer_at k no atK
    have data := outcome.simulates.represents.data i valid
    rw [number] at data
    exact ⟨i, isPointer, number, data⟩
  · have synced := outcome.synced isSync no unchanged
    change mapAfter (mapAfter (diskBlocks disk) issued) more no = map.stored no at synced
    rw [← mapAfter_append] at synced
    have blocks : blocksAfter (blocksOf disk) calls (BitVec.ofNat 64 no) =
        mapAfter (diskBlocks disk) (issued ++ more) no :=
      served_blocks served orderly.2.2.1 (fun _ _ => rfl) no small
    rw [← synced, ← blocks, diskBlocks, settled, history]
    exact content_calls (served_small served) (by rwa [toNat_number small]) fun _ _ => rfl

/-- A first `bread` of block 5, for which the driver was called and has returned: the buffer
has what the disk stores there. -/
theorem first_bread_delivered : ∃ s after, Reachable (fun _ _ => 7) s ∧ s.driver = .idle ∧
    published s.history = 8 ∧
    Delivers s ⟨diskBlocks fun _ _ => 7, [], fun _ => False⟩ (.bread 5) after ∧
    ∃ i, after.pointers[0]? = some i ∧ (after.slot i).data = fun _ _ => 7 := by
  obtain ⟨s, given, block, reachable, idle, history⟩ :=
    first_call_returns (fun _ _ => 7) ⟨false, BitVec.ofNat 64 5, 0x80400000⟩
  obtain ⟨calls, isHistory, delivers⟩ := cache_over_driver reachable idle
  rw [history] at isHistory
  obtain rfl := sole_call isHistory.symm
  have counts := tally_finished ⟨⟨false, BitVec.ofNat 64 5, 0x80400000⟩, given, block⟩
  rw [← history] at counts
  have zero : Virtio.Block := fun _ _ => 0
  have legal : BlockMap.Legal ⟨diskBlocks fun _ _ => 7, [], fun _ => False⟩
      (.bread 5 : Op Virtio.Block) := ⟨by decide, by decide⟩
  have ran : Ran ((Op.bread 5 : Op Virtio.Block).code ⟨(boot zero (diskBlocks fun _ _ => 7)).slot, []⟩)
      [.read 5 block] _ := .read .done
  have serves : Serves (.read 5 block)
      ⟨⟨false, BitVec.ofNat 64 5, 0x80400000⟩, given, block⟩ :=
    @Serves.read 5 ⟨⟨false, BitVec.ofNat 64 5, 0x80400000⟩, given, block⟩ (by decide) rfl rfl
  obtain ⟨after, isSome, outcome⟩ := delivers zero _ [] _ _ _ _ .boot legal ran
    (.cons serves .nil)
  obtain ⟨i, atZero, number, data⟩ := outcome.buffers 0 5 rfl
  exact ⟨s, after, reachable, idle, congrArg Prod.fst counts, outcome, i, atZero, data⟩

end

end CuteCore.BlkCache
