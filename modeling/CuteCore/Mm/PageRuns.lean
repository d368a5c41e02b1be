import CuteCore.Mm.HeapRuns

/-!
# Runs of the page allocator

After `kinit` the pages above the kernel image are either allocated or on the
free list, each once. Clients free what is allocated and write anywhere but into
free pages.

The two sets are a partition of the pages: no page is in both and none is lost. A client
may write anywhere outside of the free pages, the allocated ones included, so the chain
through the free pages survives. `kalloc` fails exactly when everything is allocated.
-/

namespace CuteCore

open Hoare Bytes

variable {layout : Layout}

inductive PageOp where
  | kalloc
  | kfree (page : Nat)
  | write (a : Nat) (value : Byte)

/-- Clients free allocated pages and do not write into free ones. -/
def PageOp.Legal (s : Kernel) (allocated : List Nat) : PageOp → Prop
  | .kalloc => True
  | .kfree page => page ∈ allocated
  | .write a _ => ∀ page, OnFreeList s page → a < page ∨ page + pgSize ≤ a

variable (layout) in
def PageOp.exec : PageOp → KernelProg Nat
  | .kalloc => CuteCore.kalloc
  | .kfree page => do
    CuteCore.kfree layout page
    return 0
  | .write a value => do
    modify fun s => s.withMem (copy s.mem a 1 fun _ => value)
    return 0

/-- The allocated pages after an operation that returned `result`. -/
def PageOp.allocatedAfter (allocated : List Nat) (result : Nat) : PageOp → List Nat
  | .kalloc => if result = 0 then allocated else result :: allocated
  | .kfree page => allocated.erase page
  | .write _ _ => allocated

/-- The pages `kinit` has allocated itself. -/
def cachePages (s : Kernel) : List Nat :=
  ((List.finRange numCaches).filter fun i => s.caches i ≠ 0).map s.caches

inductive PageRun (layout : Layout) : Kernel → List Nat → Prop where
  | boot {mem : ByteMap} {s : Kernel} (booted : Returns (kinit layout) (Kernel.boot mem) () s) :
      PageRun layout s (cachePages s)
  | step {s after : Kernel} {allocated : List Nat} {result : Nat}
      (earlier : PageRun layout s allocated) (op : PageOp) (legal : op.Legal s allocated)
      (returned : Returns (op.exec layout) s result after) :
      PageRun layout after (op.allocatedAfter allocated result)

/-- The free list and the allocated pages share the pages above the image. -/
structure Partition (layout : Layout) (s : Kernel) (allocated free : List Nat) : Prop where
  freeList : FreeList layout s free
  distinct : allocated.Nodup
  allocatedPages : ∀ page ∈ allocated, layout.IsPage page
  covered : ∀ page, layout.IsPage page → (page ∈ free ↔ page ∉ allocated)

namespace Partition

variable {s : Kernel} {allocated free : List Nat}

theorem onFreeList (partition : Partition layout s allocated free) (page : Nat) :
    OnFreeList s page ↔ page ∈ free := by
  constructor
  · rintro ⟨pages, chain, member⟩
    rwa [chain.unique partition.freeList.chain] at member
  · exact fun member => ⟨free, partition.freeList.chain, member⟩

/-- After `kinit` the caches hold the allocated pages. -/
theorem of_kinit {mem : ByteMap} (booted : Returns (kinit layout) (Kernel.boot mem) () s) :
    Partition layout s (cachePages s) (bootFree layout) := by
  obtain ⟨idle, covered⟩ := (kinit_spec layout mem).of_returns booted
  have isCache : ∀ page, page ∈ cachePages s ↔ ∃ i, s.caches i ≠ 0 ∧ page = s.caches i := by
    intro page
    simp only [cachePages, List.mem_map, List.mem_filter, List.mem_finRange, true_and,
      decide_eq_true_eq]
    constructor
    · rintro ⟨i, created, rfl⟩
      exact ⟨i, created, rfl⟩
    · rintro ⟨i, created, rfl⟩
      exact ⟨i, created, rfl⟩
  refine ⟨idle.freeList, ?_, ?_, ?_⟩
  · refine List.Nodup.map_on ?_ ((List.nodup_finRange numCaches).filter _)
    intro i member j _ same
    have created : s.caches i ≠ 0 := of_decide_eq_true (List.mem_filter.mp member).2
    exact Role.cache.inj (idle.roles (s.caches i) (.cache i) (.cache j) ⟨created, rfl⟩
      ⟨same ▸ created, same⟩)
  · intro page member
    obtain ⟨i, created, rfl⟩ := (isCache page).mp member
    exact (idle.cache i created).cachePage
  · intro page isPage
    constructor
    · intro isFree member
      obtain ⟨i, created, rfl⟩ := (isCache page).mp member
      exact absurd (idle.roles _ .free (.cache i) isFree ⟨created, rfl⟩) (by simp)
    · intro notCache
      rcases covered page isPage with isFree | holds
      · exact isFree
      · exact absurd ((isCache page).mpr holds) notCache

/-- `kalloc` takes a page from the free ones and clears it, and returns null exactly when all pages
are allocated. -/
theorem kalloc_step (partition : Partition layout s allocated free) :
    wp kalloc (fun page after => (∃ free', Partition layout after
        (PageOp.kalloc.allocatedAfter allocated page) free') ∧
      (page = 0 ↔ ∀ p, layout.IsPage p → p ∈ allocated) ∧
      (page ≠ 0 → layout.IsPage page ∧ page ∉ allocated ∧
        ∀ x, page ≤ x → x < page + pgSize → after.mem x = 0)) s := by
  cases free with
  | nil =>
    apply wp_mono (kalloc_empty partition.freeList)
    rintro _ _ ⟨rfl, rfl⟩
    refine ⟨⟨[], partition⟩, ⟨fun _ p isPage => ?_, fun _ => rfl⟩, fun nonzero => absurd rfl nonzero⟩
    by_contra notAllocated
    exact absurd ((partition.covered p isPage).mpr notAllocated) List.not_mem_nil
  | cons head rest =>
    have isPage := partition.freeList.pages head (List.mem_cons_self ..)
    have fresh := (partition.covered head isPage).mp (List.mem_cons_self ..)
    have notAgain := (List.nodup_cons.mp partition.freeList.nodup).1
    apply wp_mono (kalloc_cons partition.freeList)
    rintro page _ ⟨rfl, rfl, popped⟩
    refine ⟨⟨rest, ?_⟩, ⟨fun null => absurd null isPage.ne_zero, fun all =>
      absurd (all page isPage) fresh⟩, fun _ => ⟨isPage, fresh, ?_⟩⟩
    · rw [PageOp.allocatedAfter, if_neg isPage.ne_zero]
      refine ⟨popped, List.nodup_cons.mpr ⟨fresh, partition.distinct⟩, ?_, ?_⟩
      · intro p member
        rcases List.mem_cons.mp member with rfl | member
        · exact isPage
        · exact partition.allocatedPages p member
      · intro p pPage
        have before := partition.covered p pPage
        rw [List.mem_cons] at before
        rw [List.mem_cons, not_or, ← before]
        constructor
        · intro isFree
          exact ⟨fun same => notAgain (same ▸ isFree), Or.inr isFree⟩
        · rintro ⟨notHead, rfl | isFree⟩
          · exact absurd rfl notHead
          · exact isFree
    · intro x low high
      exact partition.freeList.popPage_inside x low high

/-- A page that is freed goes from the allocated to the free ones. -/
theorem kfree_step (partition : Partition layout s allocated free) (page : Nat)
    (member : page ∈ allocated) :
    wp (kfree layout page) (fun _ after => Partition layout after (allocated.erase page)
      (page :: free)) s := by
  have isPage := partition.allocatedPages page member
  have notFree : page ∉ free := fun isFree => (partition.covered page isPage).mp isFree member
  apply wp_mono (kfree_spec partition.freeList page isPage notFree)
  rintro - _ ⟨rfl, pushed⟩
  refine ⟨pushed, partition.distinct.erase page,
    fun p stays => partition.allocatedPages p (List.mem_of_mem_erase stays), ?_⟩
  intro p pPage
  rw [List.mem_cons, partition.distinct.mem_erase_iff, partition.covered p pPage]
  tauto

theorem write_step (partition : Partition layout s allocated free) (a : Nat) (value : Byte)
    (legal : ∀ page, OnFreeList s page → a < page ∨ page + pgSize ≤ a) :
    Partition layout (s.withMem (copy s.mem a 1 fun _ => value)) allocated free := by
  refine ⟨partition.freeList.congr rfl fun page member x low high => ?_, partition.distinct,
    partition.allocatedPages, partition.covered⟩
  have away := legal page ((partition.onFreeList page).mpr member)
  apply copy_outside
  simp only [pgSize] at away
  omega

/-- A legal operation returns, and the pages are partitioned afterwards. -/
theorem step (partition : Partition layout s allocated free) (op : PageOp)
    (legal : op.Legal s allocated) :
    wp (op.exec layout) (fun result after =>
      ∃ free', Partition layout after (op.allocatedAfter allocated result) free') s := by
  cases op with
  | kalloc => exact wp_mono partition.kalloc_step fun _ _ holds => holds.1
  | kfree page =>
    apply wp_seq (partition.kfree_step page legal)
    rintro - after freed
    exact wp_pure.mpr ⟨page :: free, freed⟩
  | write a value =>
    refine wp_bind.mpr (wp_modify.mpr ?_)
    exact wp_pure.mpr ⟨free, partition.write_step a value legal⟩

theorem of_run (run : PageRun layout s allocated) : ∃ free, Partition layout s allocated free := by
  induction run with
  | boot booted => exact ⟨_, of_kinit booted⟩
  | step earlier op legal returned inductionHypothesis =>
    obtain ⟨free, partition⟩ := inductionHypothesis
    exact (partition.step op legal).of_returns returned

end Partition

/-- In every state of a run the free list holds exactly the pages that are not
allocated. Every legal operation returns, and `kalloc` takes a page that was
free and zeroes it, or returns null when all pages are allocated. -/
theorem pages_partitioned {s : Kernel} {allocated : List Nat} (run : PageRun layout s allocated) :
    (∃ free, Chain s.mem s.memlist free ∧ free.Nodup ∧
      ∀ page, page ∈ free ↔ layout.IsPage page ∧ page ∉ allocated) ∧
    (∀ op : PageOp, op.Legal s allocated →
      ∃ result after, Returns (op.exec layout) s result after) ∧
    ∀ page after, Returns kalloc s page after →
      (page = 0 ↔ ∀ p, layout.IsPage p → p ∈ allocated) ∧
      (page ≠ 0 → layout.IsPage page ∧ page ∉ allocated ∧
        ∀ x, page ≤ x → x < page + pgSize → after.mem x = 0) := by
  obtain ⟨free, partition⟩ := Partition.of_run run
  refine ⟨⟨free, partition.freeList.chain, partition.freeList.nodup, fun page => ?_⟩, ?_, ?_⟩
  · constructor
    · intro isFree
      have isPage := partition.freeList.pages page isFree
      exact ⟨isPage, (partition.covered page isPage).mp isFree⟩
    · rintro ⟨isPage, notAllocated⟩
      exact (partition.covered page isPage).mpr notAllocated
  · intro op legal
    obtain ⟨result, after, returned, -⟩ := partition.step op legal
    exact ⟨result, after, returned⟩
  · intro page after returned
    exact (partition.kalloc_step.of_returns returned).2

/-- On the small image a page is taken after boot, written and given back. Then it is on the free
list again, and so are the others that hold no cache. -/
theorem first_page_returned : ∃ s page taken written freed, Returns kalloc s page taken ∧ page ≠ 0 ∧
    (∀ x, page ≤ x → x < page + pgSize → taken.mem x = 0) ∧
    Returns ((PageOp.write page 7).exec smallImage) taken 0 written ∧ written.mem page = 7 ∧
    Returns ((PageOp.kfree page).exec smallImage) written 0 freed ∧
    ∃ free, Chain freed.mem freed.memlist free ∧ page ∈ free ∧
      ∀ p, p ∈ free ↔ smallImage.IsPage p ∧ p ∉ cachePages s := by
  obtain ⟨⟨⟩, s, booted, -⟩ := kinit_spec smallImage fun _ => 0
  have run : PageRun smallImage s (cachePages s) := .boot booted
  have partition := Partition.of_kinit booted
  obtain ⟨head, rest, isBootFree⟩ := bootFree_smallImage
  rw [isBootFree] at partition
  obtain ⟨_, taken, took, rfl, -⟩ := kalloc_cons partition.freeList
  rename_i page
  have isPage := partition.freeList.pages page (List.mem_cons_self ..)
  have nonzero := isPage.ne_zero
  obtain ⟨-, notCache, zeros⟩ := ((pages_partitioned run).2.2 page taken took).2 nonzero
  have allocated : PageRun smallImage taken (page :: cachePages s) := by
    have stepped := run.step .kalloc trivial took
    rwa [PageOp.allocatedAfter, if_neg nonzero] at stepped
  -- A write into an allocated page is away from the free ones.
  have away : (PageOp.write page 7).Legal taken (page :: cachePages s) := by
    intro other onList
    obtain ⟨free, takenPartition⟩ := Partition.of_run allocated
    have isFree := (takenPartition.onFreeList other).mp onList
    have otherPage := takenPartition.freeList.pages other isFree
    have differs : other ≠ page := by
      rintro rfl
      exact (takenPartition.covered other otherPage).mp isFree (List.mem_cons_self ..)
    have aligned := isPage.1
    have otherAligned := otherPage.1
    simp only [pgSize] at aligned otherAligned ⊢
    omega
  obtain ⟨written, wrote⟩ : ∃ written, Returns ((PageOp.write page 7).exec smallImage) taken 0
      written := ⟨_, returns_bind.mpr ⟨⟨⟩, _, returns_modify.mpr rfl, returns_pure.mpr ⟨rfl, rfl⟩⟩⟩
  have isByte : written.mem page = 7 := by
    obtain ⟨⟨⟩, mid, modified, ends⟩ := returns_bind.mp wrote
    obtain rfl := returns_modify.mp modified
    obtain ⟨-, rfl⟩ := returns_pure.mp ends
    exact copy_inside _ _ _ _ _ (Nat.le_refl _) (Nat.lt_succ_self _)
  have after := allocated.step (.write page 7) away wrote
  obtain ⟨result, freed, released⟩ :=
    (pages_partitioned after).2.1 (.kfree page) (List.mem_cons_self ..)
  have isZero : result = 0 := by
    obtain ⟨⟨⟩, mid, -, ends⟩ := returns_bind.mp released
    exact (returns_pure.mp ends).1.symm
  subst isZero
  have last := after.step (.kfree page) (List.mem_cons_self ..) released
  change PageRun smallImage freed ((page :: cachePages s).erase page) at last
  rw [List.erase_cons_head] at last
  obtain ⟨free, chain, -, members⟩ := (pages_partitioned last).1
  exact ⟨s, page, taken, written, freed, took, nonzero, zeros, wrote, isByte, released, free, chain,
    (members page).mpr ⟨isPage, notCache⟩, members⟩

end CuteCore
