import CuteCore.Mm.HeapSteps

/-!
# Runs of the heap

`kinit` establishes the invariant and every step of a run keeps it, as long as
the requests are of 9 to 4088 bytes. A larger request overlaps the page behind
its own right after boot.

The invariant gives every page one role: free, the page of a cache, a slab, or a large
block. It starts with the pages behind the kernel image, of which the nine caches take the
highest, and every operation of the allocators and of their clients moves pages between
two roles.
-/

namespace CuteCore

open Hoare Bytes DoublyLinked

variable {layout : Layout}

/-- Requests the allocators serve without overlaps. -/
def Served (size : Nat) : Prop := 8 < size ∧ size + 8 ≤ pgSize

namespace HeapInv

variable {s : Kernel} {client : Client} {lists : CacheLists} {avail : FreeObjectsOf}
  {free : List Nat}

/-- Each operation of a run keeps the invariant. -/
theorem step (inv : HeapInv layout s client lists avail free) (op : HeapOp)
    (legal : client.Legal Served op) {result : Nat} {after : Kernel}
    (returned : Returns (op.exec layout) s result after) : ∃ lists' avail' free',
      HeapInv layout after (client.step op result) lists' avail' free' := by
  have discard : ∀ {program : KernelProg Unit}, Returns (do program; return 0) s result after →
      result = 0 ∧ Returns program s () after := by
    intro program returned
    obtain ⟨_, _, ran, returned⟩ := returns_bind.mp returned
    obtain ⟨rfl, rfl⟩ := returns_pure.mp returned
    exact ⟨rfl, ran⟩
  cases op with
  | kmalloc size =>
    obtain ⟨word, fits⟩ := legal
    by_cases large : maxCacheSize < size
    · obtain ⟨free', kept⟩ := (inv.kmalloc_large_keeps size large fits).of_returns returned
      exact ⟨lists, avail, free', kept⟩
    · exact inv.kmalloc_small_keeps size (by omega) word returned
  | kmfree p =>
    obtain ⟨size, live⟩ := legal
    obtain ⟨rfl, ran⟩ := discard returned
    by_cases large : maxCacheSize < size
    · obtain ⟨free', kept⟩ := (inv.kmfree_large_keeps p size live large).of_returns ran
      exact ⟨lists, avail, free', kept⟩
    · exact (inv.kmfree_small_keeps p size live (by omega)).of_returns ran
  | kalloc =>
    obtain ⟨free', kept⟩ := inv.kalloc_keeps.of_returns returned
    exact ⟨lists, avail, free', kept⟩
  | kfree page =>
    obtain ⟨rfl, ran⟩ := discard returned
    obtain ⟨free', kept⟩ := (inv.kfree_keeps page legal).of_returns ran
    exact ⟨lists, avail, free', kept⟩
  | write a value =>
    obtain ⟨rfl, ran⟩ := discard returned
    obtain ⟨-, rfl⟩ := returns_modify.mp ran
    exact ⟨lists, avail, free, inv.write_keeps a value legal⟩

end HeapInv

/-- A new cache has no slabs. -/
theorem no_slabs (page : Nat) : ¬ SlabLists.Has (fun _ => []) page := by
  rintro ⟨c, member⟩
  exact absurd member List.not_mem_nil

/-- A new cache takes one page. -/
theorem cacheCreate_spec (size : Nat) {s : Kernel} {free : List Nat}
    (freeList : FreeList layout s free) :
    wp (cacheCreate size) (fun cache after => (cache = 0 ∧ after = s ∧ free = []) ∨
      ∃ free', free = cache :: free' ∧ FreeList layout after free' ∧ SameGlobals s after ∧
        (∀ x, (x < cache ∨ cache + pgSize ≤ x) → after.mem x = s.mem x) ∧
        ∀ objsz avail, (size + 7) / 8 * 8 = objsz → objsz < 2 ^ 32 →
          CacheOk layout after.mem cache objsz (fun _ => []) avail) s := by
  cases free with
  | nil =>
    apply wp_seq (kalloc_empty freeList)
    rintro _ _ ⟨rfl, rfl⟩
    rw [if_pos rfl, wp_pure]
    exact Or.inl ⟨rfl, rfl, rfl⟩
  | cons page free =>
    have isPage := freeList.pages page (List.mem_cons_self ..)
    apply wp_seq (kalloc_cons freeList)
    rintro result _ ⟨isHead, rfl, popped⟩
    rw [isHead, if_neg isPage.ne_zero, wp_bind, wp_storeField]
    refine ⟨isPage.inRam 0 4 (by simp [pgSize]), ?_⟩
    rw [wp_bind, wp_storeField]
    refine ⟨isPage.inRam 8 8 (by simp [pgSize]), ?_⟩
    rw [wp_bind, wp_storeField]
    refine ⟨isPage.inRam 16 8 (by simp [pgSize]), ?_⟩
    rw [wp_bind, wp_storeField]
    refine ⟨isPage.inRam 24 8 (by simp [pgSize]), ?_⟩
    rw [wp_bind, wp_storeField]
    refine ⟨isPage.inRam 32 4 (by simp [pgSize]), ?_⟩
    rw [wp_pure]
    simp only [withMem_withMem, withMem_mem]
    generalize made : store (store (store (store (store s.popPage.mem page 4 ((size + 7) / 8 * 8))
      (page + 8) 8 0) (page + 16) 8 0) (page + 24) 8 0) (page + 32) 4 0 = mem
    have outside : ∀ x, (x < page ∨ page + pgSize ≤ x) → mem x = s.mem x := by
      intro x away
      rw [← freeList.popPage_outside x away, ← made]
      simp only [pgSize] at away
      simp (disch := omega) only [store, copy_outside]
    refine Or.inr ⟨free, rfl, popped.congr rfl ?_, rfl, outside, ?_⟩
    · intro other member x low high
      have otherPage := popped.pages other member
      have differs : other ≠ page := by
        rintro rfl
        exact (List.nodup_cons.mp freeList.nodup).1 member
      have otherAligned := otherPage.1
      have aligned := isPage.1
      rw [withMem_mem, ← made]
      simp only [pgSize] at *
      simp (disch := omega) only [store, copy_outside]
    · rintro objsz avail rfl fits
      have word : ∀ offset, offset = 8 ∨ offset = 16 ∨ offset = 24 →
          load mem (page + offset) 8 = 0 := by
        rw [← made]
        rintro offset (rfl | rfl | rfl)
        all_goals simp (disch := omega) only [load_store_apart, load_store_same, Nat.zero_mod]
      refine ⟨⟨isPage, by simp, fun _ => List.nodup_nil, by simp, fun c => ?_⟩, ?_, ?_,
        fun t isSlab => absurd isSlab (no_slabs t), by simp, by simp, by simp, by simp⟩
      · exact word c.offset (by cases c <;> simp [SlabClass.offset])
      · rw [← made]
        simp (disch := omega) only [load_store_apart, load_store_same]
        omega
      · rw [← made, load_store_same]
        rfl

/-- The sizes of the classes are multiples of a word. -/
theorem rounded_sizes (i : Fin numCaches) :
    (sizes i + 7) / 8 * 8 = sizes i ∧ sizes i < 2 ^ 32 := by
  revert i
  decide

/-- The invariant while `kmallocinit` creates the caches: no slabs and no clients yet. -/
abbrev Idle (layout : Layout) (s : Kernel) (free : List Nat) : Prop :=
  HeapInv layout s ⟨[], []⟩ (fun _ _ => []) (fun _ _ => []) free

/-- Without caches and clients the free list is all there is to the invariant. -/
theorem idle_of_freeList {s : Kernel} {free : List Nat} (freeList : FreeList layout s free)
    (caches : ∀ i, s.caches i = 0) : Idle layout s free := by
  refine ⟨freeList, fun i created => absurd (caches i) created, fun _ => Nat.zero_le _,
    fun _ _ => no_slabs, fun _ _ => no_slabs, ?_, by simp, by simp, List.nodup_nil, by simp,
    List.nodup_nil⟩
  · intro page r r' first second
    have onlyFree : ∀ r, InRole s ⟨[], []⟩ (fun _ _ => []) free page r → r = .free := by
      intro r inRole
      cases r with
      | free => rfl
      | cache i => exact absurd (caches i) inRole.1
      | slab i => exact absurd inRole (no_slabs page)
      | large => exact absurd inRole.choose_spec.1 List.not_mem_nil
      | other => exact absurd inRole List.not_mem_nil
    rw [onlyFree r first, onlyFree r' second]

/-- The page is free or holds a cache. -/
def Covered (s : Kernel) (free : List Nat) (page : Nat) : Prop :=
  page ∈ free ∨ ∃ i, s.caches i ≠ 0 ∧ page = s.caches i

/-- The loop of `kmallocinit`, over classes not created yet. -/
theorem createCaches_spec (todo : List (Fin numCaches)) {s : Kernel} {free : List Nat}
    (idle : Idle layout s free) (distinct : todo.Nodup) (fresh : ∀ i ∈ todo, s.caches i = 0) :
    wp (createCaches todo) (fun _ after => Idle layout after (free.drop todo.length) ∧
      ∀ page, Covered s free page → Covered after (free.drop todo.length) page) s := by
  induction todo generalizing s free with
  | nil =>
    rw [createCaches, wp_pure]
    exact ⟨idle, fun _ covered => covered⟩
  | cons i rest inductionHypothesis =>
    obtain ⟨notAgain, distinctRest⟩ := List.nodup_cons.mp distinct
    have null := fresh i (List.mem_cons_self ..)
    rw [createCaches]
    apply wp_seq (cacheCreate_spec (sizes i) idle.freeList)
    rintro cache after (⟨rfl, rfl, rfl⟩ | ⟨free', rfl, freed, globals, outside, made⟩)
    · have same : ({ after with caches := Function.update after.caches i 0 } : Kernel) = after := by
        rw [← null, Function.update_eq_self]
      rw [wp_bind, wp_modify, same]
      have rest := inductionHypothesis idle distinctRest fun j member =>
        fresh j (List.mem_cons_of_mem _ member)
      rw [List.drop_nil] at rest ⊢
      exact rest
    · rw [wp_bind, wp_modify]
      have isPage := idle.freeList.pages cache (List.mem_cons_self ..)
      have sameCaches : after.caches = s.caches := by rw [globals]
      have onlyFree : ∀ r, InRole s ⟨[], []⟩ (fun _ _ => []) (cache :: free') cache r →
          r = .free := fun r inRole =>
        idle.roles cache r .free inRole (List.mem_cons_self ..)
      have afterIdle : Idle layout { after with caches := Function.update after.caches i cache }
          free' := by
        refine ⟨freed.congr rfl fun _ _ _ _ _ => rfl, ?_, idle.retained, fun _ _ => no_slabs,
          fun _ _ => no_slabs, ?_, by simp, by simp, List.nodup_nil, by simp, List.nodup_nil⟩
        · intro j createdJ
          simp only [sameCaches] at createdJ ⊢
          by_cases isI : j = i
          · subst isI
            rw [Function.update_self]
            exact made (sizes j) _ (rounded_sizes j).1 (rounded_sizes j).2
          · rw [Function.update_of_ne isI] at createdJ ⊢
            have aligned : ∀ other, other = cache → other % pgSize = 0 :=
              fun other isIt => isIt ▸ isPage.1
            refine idle.cache_kept aligned (fun x away => outside x (away cache rfl)) j createdJ ?_ ?_
            · intro isCache
              exact absurd (onlyFree (.cache j) ⟨createdJ, isCache.symm⟩) (by simp)
            · exact fun page isSlab => absurd isSlab (no_slabs page)
        · refine idle.roles.exchange .free (.cache i) ?_ ?_ ?_
          · intro page
            simp only [InRole, Function.update_self, List.mem_cons, null, ne_eq, not_true_eq_false,
              false_and, or_false]
            have nonzero := isPage.ne_zero
            tauto
          · intro page r notFree notCache
            cases r with
            | free => exact absurd rfl notFree
            | cache j =>
              have isOther : j ≠ i := fun equal => notCache (by rw [equal])
              simp only [InRole, sameCaches, Function.update_of_ne isOther]
            | slab j => exact Iff.rfl
            | large => exact Iff.rfl
            | other => exact Iff.rfl
          · rintro page isFree ⟨-, isCache⟩
            simp only [Function.update_self] at isCache
            exact (List.nodup_cons.mp idle.freeList.nodup).1 (isCache ▸ isFree)
      refine wp_mono (inductionHypothesis afterIdle distinctRest ?_) ?_
      · intro j member
        have differs : j ≠ i := by
          rintro rfl
          exact notAgain member
        change Function.update after.caches i cache j = 0
        rw [Function.update_of_ne differs, sameCaches]
        exact fresh j (List.mem_cons_of_mem _ member)
      · rintro - last ⟨lastIdle, kept⟩
        refine ⟨lastIdle, fun page covered => kept page ?_⟩
        rcases covered with isFree | ⟨j, createdJ, isCache⟩
        · rcases List.mem_cons.mp isFree with rfl | isFree
          · refine Or.inr ⟨i, ?_, ?_⟩
            · simp only [Function.update_self]
              exact isPage.ne_zero
            · simp only [Function.update_self]
          · exact Or.inl isFree
        · have differs : j ≠ i := by
            rintro rfl
            exact createdJ null
          refine Or.inr ⟨j, ?_, ?_⟩
          · simp only [Function.update_of_ne differs, sameCaches]
            exact createdJ
          · simp only [Function.update_of_ne differs, sameCaches]
            exact isCache

/-- The pages free after `kinit`: the caches take the highest ones. -/
def bootFree (layout : Layout) : List Nat :=
  (pagesFrom phyEnd layout.ekernel).reverse.drop numCaches

/-- After `kinit` all pages above the image are free or hold a cache. -/
theorem kinit_spec (layout : Layout) (mem : ByteMap) :
    wp (kinit layout) (fun _ after => Idle layout after (bootFree layout) ∧
      ∀ page, layout.IsPage page → Covered after (bootFree layout) page) (Kernel.boot mem) := by
  have empty : FreeList layout (Kernel.boot mem) [] := ⟨rfl, List.nodup_nil, by simp⟩
  rw [kinit]
  apply wp_seq (freerange_spec empty)
  rintro - mid ⟨globals, freed⟩
  have caches : ∀ i, mid.caches i = 0 := by
    rw [globals]
    exact fun _ => rfl
  have created := createCaches_spec _ (idle_of_freeList freed caches)
    (List.nodup_finRange numCaches) fun i _ => caches i
  rw [List.length_finRange] at created
  refine wp_mono created ?_
  rintro - after ⟨idle, kept⟩
  refine ⟨idle, fun page isPage => kept page (Or.inl ?_)⟩
  rw [List.mem_reverse, mem_pagesFrom]
  obtain ⟨aligned, low, high⟩ := isPage
  have kernelAligned := layout.ekernelAligned
  simp only [pgSize, phyEnd] at *
  omega

/-- The invariant holds along every run with served requests. -/
theorem HeapInv.of_run {s : Kernel} {client : Client} (run : Run layout Served s client) :
    ∃ lists avail free, HeapInv layout s client lists avail free := by
  induction run with
  | boot booted =>
    exact ⟨_, _, _, ((kinit_spec _ _).of_returns booted).1⟩
  | step earlier op legal returned inductionHypothesis =>
    obtain ⟨lists, avail, free, inv⟩ := inductionHypothesis
    exact inv.step op legal returned

/-- Along every run whose requests are of 9 to 4088 bytes, each live block is
owned alone. -/
theorem kmalloc_blocks_owned_alone {s : Kernel} {client : Client} (run : Run layout Served s client)
    (p size : Nat) (live : (p, size) ∈ client.live) : OwnedAlone layout s client p size := by
  obtain ⟨lists, avail, free, inv⟩ := HeapInv.of_run run
  exact inv.ownedAlone p size live

theorem length_pagesFrom (paEnd p : Nat) : (pagesFrom paEnd p).length = (paEnd - p) / pgSize := by
  induction p using pagesFrom.induct paEnd with
  | case1 p fits inductionHypothesis =>
    rw [pagesFrom, if_pos fits, List.length_cons, inductionHypothesis]
    simp only [pgSize] at *
    omega
  | case2 p full =>
    rw [pagesFrom, if_neg full]
    simp only [pgSize, List.length_nil] at *
    omega

/-- A kernel image of four pages. -/
def smallImage : Layout where
  stext := 0x80200000
  etext := 0x80201000
  erodata := 0x80202000
  edata := 0x80203000
  ekernel := 0x80204000
  stextLow := by decide
  text := by decide
  rodata := by decide
  data := by decide
  bss := by decide
  kernelEnd := by decide
  stextAligned := by decide
  etextAligned := by decide
  erodataAligned := by decide
  edataAligned := by decide
  ekernelAligned := by decide

/-- `kinit` leaves at least two free pages behind this image. -/
theorem bootFree_two : ∃ page next rest, bootFree smallImage = page :: next :: rest := by
  have long : 2 ≤ (bootFree smallImage).length := by
    rw [bootFree, List.length_drop, List.length_reverse, length_pagesFrom]
    decide
  generalize bootFree smallImage = free at long
  match free with
  | page :: next :: rest => exact ⟨page, next, rest, rfl⟩

/-- `kinit` leaves free pages behind this image. -/
theorem bootFree_smallImage : ∃ page rest, bootFree smallImage = page :: rest := by
  obtain ⟨page, next, rest, isFree⟩ := bootFree_two
  exact ⟨page, next :: rest, isFree⟩

/-- Right after boot a request of more than 4088 bytes reaches into the page
behind its own. -/
theorem oversized_not_alone (mem : ByteMap) {s : Kernel}
    (booted : Returns (kinit layout) (Kernel.boot mem) () s) (size : Nat)
    (oversized : pgSize < size + 8) {p : Nat} {after : Kernel}
    (returned : Returns (kmalloc size) s p after) (nonzero : p ≠ 0) :
    ¬ OwnedAlone layout after ⟨[(p, size)], []⟩ p size := by
  obtain ⟨idle, covered⟩ := (kinit_spec layout mem).of_returns booted
  have large : maxCacheSize < size := by
    simp only [pgSize, maxCacheSize] at *
    omega
  have positive : size ≠ 0 := by omega
  generalize bootFree layout = free at idle covered
  cases free with
  | nil =>
    have none : wp (kmalloc size) (fun result _ => result = 0) s := by
      rw [kmalloc, if_neg positive, if_pos large]
      apply wp_seq (kalloc_empty idle.freeList)
      rintro _ _ ⟨rfl, rfl⟩
      rw [if_pos rfl, wp_pure]
    exact absurd (none.of_returns returned) nonzero
  | cons page free =>
    obtain ⟨rfl, rfl, freed⟩ := (kmalloc_large_spec idle.freeList size large).of_returns returned
    have isPage := idle.freeList.pages page (List.mem_cons_self ..)
    intro alone
    have below := alone.inMemory.2
    have next : layout.IsPage (page + pgSize) := by
      obtain ⟨aligned, low, -⟩ := isPage
      simp only [Layout.IsPage, pgSize] at *
      omega
    rcases covered _ next with isFree | ⟨i, created, isCache⟩
    · have onList : OnFreeList (s.largePage page) (page + pgSize) := by
        refine ⟨free, freed.chain, ?_⟩
        rcases List.mem_cons.mp isFree with isSame | isFree
        · simp [pgSize] at isSame
        · exact isFree
      have apart := alone.free _ onList
      simp only [NoOverlap, pgSize] at *
      omega
    · have apart := alone.caches i created
      change NoOverlap (page + 8) size (s.caches i) pgSize at apart
      rw [← isCache] at apart
      simp only [NoOverlap, pgSize] at *
      omega

/-- A run that boots on the small image and makes one request of the large path. -/
theorem runs_large_request (allowed : Nat → Prop) (size : Nat) (asked : allowed size)
    (large : maxCacheSize < size) : ∃ s after p,
      Returns (kinit smallImage) (Kernel.boot fun _ => 0) () s ∧
      Returns (kmalloc size) s p after ∧ p ≠ 0 ∧ Run smallImage allowed after ⟨[(p, size)], []⟩ := by
  obtain ⟨⟨⟩, s, booted, idle, -⟩ := kinit_spec smallImage fun _ => 0
  obtain ⟨page, rest, isBootFree⟩ := bootFree_smallImage
  rw [isBootFree] at idle
  obtain ⟨p, after, returned, isP, -⟩ := kmalloc_large_spec idle.freeList size large
  have nonzero : p ≠ 0 := by omega
  have stepped := Run.step (Run.boot booted) (.kmalloc size) asked returned
  rw [Client.step, if_neg nonzero] at stepped
  exact ⟨s, after, p, booted, returned, nonzero, stepped⟩

/-- Two large requests behind boot are served by two pages, and both blocks are owned alone. -/
theorem two_large_blocks_owned_alone : ∃ s p q, p ≠ q ∧
    Run smallImage Served s ⟨[(q, 4088), (p, 4000)], []⟩ ∧
    OwnedAlone smallImage s ⟨[(q, 4088), (p, 4000)], []⟩ p 4000 ∧
    OwnedAlone smallImage s ⟨[(q, 4088), (p, 4000)], []⟩ q 4088 := by
  obtain ⟨⟨⟩, s, booted, idle, -⟩ := kinit_spec smallImage fun _ => 0
  obtain ⟨page, next, rest, isBootFree⟩ := bootFree_two
  rw [isBootFree] at idle
  have twice := idle.freeList.nodup
  obtain ⟨p, mid, returned, rfl, rfl, midFree⟩ := kmalloc_large_spec idle.freeList 4000 (by decide)
  obtain ⟨q, after, returned', rfl, rfl, -⟩ := kmalloc_large_spec midFree 4088 (by decide)
  have asked : Served 4000 := ⟨by decide, by decide⟩
  have asked' : Served 4088 := ⟨by decide, by decide⟩
  have first : Run smallImage Served _ _ := .step (.boot booted) (.kmalloc 4000) asked returned
  rw [Client.step, if_neg (Nat.succ_ne_zero _)] at first
  have run := first.step (.kmalloc 4088) asked' returned'
  rw [Client.step, if_neg (Nat.succ_ne_zero _)] at run
  refine ⟨_, page + 8, next + 8, ?_, run,
    kmalloc_blocks_owned_alone run _ _ (List.mem_cons_of_mem _ (List.mem_cons_self ..)),
    kmalloc_blocks_owned_alone run _ _ (List.mem_cons_self ..)⟩
  intro same
  have isSame : page = next := Nat.add_right_cancel same
  simp [isSame] at twice

/-- A request of 4089 bytes breaks ownership. -/
theorem kmalloc_blocks_overlap : ¬ ∀ (layout : Layout) (s : Kernel) (client : Client),
    Run layout (fun size => 0 < size) s client → ∀ p size, (p, size) ∈ client.live →
      OwnedAlone layout s client p size := by
  intro claimed
  obtain ⟨s, after, p, booted, returned, nonzero, run⟩ :=
    runs_large_request (fun size => 0 < size) 4089 (by decide) (by decide)
  exact oversized_not_alone _ booted 4089 (by decide) returned nonzero
    (claimed smallImage after _ run p 4089 (List.mem_cons_self ..))

end CuteCore
