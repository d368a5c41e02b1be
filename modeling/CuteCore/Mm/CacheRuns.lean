import CuteCore.Mm.PageRuns

/-!
# Runs of a slab cache

From `cache_create` on, clients take and give back objects and write into those
they hold. The live objects are exactly the taken ones. With two or more objects
to a slab, the number of free objects of a slab says which list it is on. A slab
with one object is put on the partial list when that object comes back.
-/

namespace CuteCore

open Hoare Bytes DoublyLinked

variable {layout : Layout}

inductive CacheOp where
  | alloc
  | free (p : Nat)
  | shrink
  | write (a : Nat) (value : Byte)

/-- The size `cache_create` rounds to. -/
def roundedSize (size : Nat) : Nat := (size + 7) / 8 * 8

/-- Clients free live objects and write inside live objects. -/
def CacheOp.Legal (objsz : Nat) (live : List Nat) : CacheOp → Prop
  | .alloc => True
  | .free p => p ∈ live
  | .shrink => True
  | .write a _ => ∃ p ∈ live, p ≤ a ∧ a < p + objsz

variable (layout) in
def CacheOp.exec (cache : Nat) : CacheOp → KernelProg Nat
  | .alloc => cacheAlloc cache
  | .free p => do
    cacheFree layout cache p
    return 0
  | .shrink => do
    cacheShrink layout cache
    return 0
  | .write a value => do
    modify fun s => s.withMem (copy s.mem a 1 fun _ => value)
    return 0

/-- The live objects after an operation that returned `result`. -/
def CacheOp.liveAfter (live : List Nat) (result : Nat) : CacheOp → List Nat
  | .alloc => if result = 0 then live else result :: live
  | .free p => live.erase p
  | .shrink => live
  | .write _ _ => live

/-- The runs of a cache created over the free pages `pool`, with its live objects. -/
inductive CacheRun (layout : Layout) (size : Nat) (pool : List Nat) (cache : Nat) :
    Kernel → List Nat → Prop where
  | create {before s : Kernel} (freeList : FreeList layout before pool)
      (created : Returns (cacheCreate size) before cache s) (nonnull : cache ≠ 0) :
      CacheRun layout size pool cache s []
  | step {s after : Kernel} {live : List Nat} {result : Nat}
      (earlier : CacheRun layout size pool cache s live) (op : CacheOp)
      (legal : op.Legal (roundedSize size) live)
      (returned : Returns (op.exec layout cache) s result after) :
      CacheRun layout size pool cache after (op.liveAfter live result)

/-- The pages a cache has taken from the pool for its slabs. -/
def IsSlabOf (pool : List Nat) (cache : Nat) (s : Kernel) (page : Nat) : Prop :=
  page ∈ pool ∧ page ≠ cache ∧ ¬ OnFreeList s page

/-- The list that `freenum` and `objectsnum` of a slab call for. -/
def classOf (mem : ByteMap) (slab : Nat) : SlabClass :=
  if load mem (slab + 24) 4 = 0 then .full
  else if load mem (slab + 24) 4 = load mem (slab + 28) 4 then .empty
  else .partly

/-- Every slab is on the list of its class, once, and on no other, and the
counter of empty slabs is right and within its bound. -/
structure Classified (mem : ByteMap) (cache : Nat) (isSlab : Nat → Prop) (lists : SlabLists) :
    Prop where
  linked : ∀ c, SlabList mem (cache + c.offset) (lists c)
  distinct : ∀ c, (lists c).Nodup
  classes : ∀ c page, page ∈ lists c ↔ isSlab page ∧ classOf mem page = c
  counter : load mem (cache + 32) 4 = (lists .empty).length
  few : (lists .empty).length ≤ maxEmptySlabs

/-- Between two operations of a run: the live objects are the taken ones, and the
slabs and the free pages make up the pool. -/
structure CacheInv (layout : Layout) (objsz : Nat) (pool : List Nat) (cache : Nat) (s : Kernel)
    (live : List Nat) (lists : SlabLists) (avail : Nat → List Nat) (free : List Nat) : Prop
    extends CacheHeap layout s cache objsz lists avail free where
  taken : ∀ p, p ∈ live ↔ Taken objsz lists avail p
  liveOnce : live.Nodup
  pages : ∀ page, (lists.Has page ∨ page ∈ free) ↔ page ∈ pool ∧ page ≠ cache
  noneWhole : 2 ≤ objectsPerSlab objsz → NoneWhole objsz lists avail

/-- Between calls `cache_shrink` finds nothing to give back. -/
theorem cacheShrink_idle {s : Kernel} {cache objsz : Nat} {lists : SlabLists}
    {avail : Nat → List Nat} {free : List Nat}
    (heap : CacheHeap layout s cache objsz lists avail free) :
    wp (cacheShrink layout cache) (fun _ after => after = s) s := by
  have cachePage := heap.ok.cachePage
  have few : ¬ tooManyEmpty (lists .empty).length := by
    rintro ⟨many, -⟩
    exact absurd heap.retained (by omega)
  rw [cacheShrink, wp_bind, wp_loadField]
  refine ⟨cachePage.inRam 24 8 (by simp [pgSize]), ?_⟩
  rw [wp_bind, wp_loadField, heap.ok.emptySlabs]
  refine ⟨cachePage.inRam 32 4 (by simp [pgSize]), ?_⟩
  cases (lists .empty).length with
  | zero =>
    rw [shrinkFrom, wp_pure]
  | succ budget =>
    rw [shrinkFrom, wp_bind, wp_loadField, heap.ok.emptySlabs]
    refine ⟨cachePage.inRam 32 4 (by simp [pgSize]), ?_⟩
    rw [wp_onlyIf, if_neg fun enter => few enter.2]

namespace CacheInv

variable {objsz : Nat} {pool : List Nat} {cache : Nat} {s : Kernel} {live : List Nat}
  {lists : SlabLists} {avail : Nat → List Nat} {free : List Nat}

theorem onFreeList (inv : CacheInv layout objsz pool cache s live lists avail free) (page : Nat) :
    OnFreeList s page ↔ page ∈ free := by
  constructor
  · rintro ⟨pages, chain, member⟩
    rwa [chain.unique inv.freeList.chain] at member
  · exact fun member => ⟨free, inv.freeList.chain, member⟩

theorem isSlab (inv : CacheInv layout objsz pool cache s live lists avail free) (page : Nat) :
    IsSlabOf pool cache s page ↔ lists.Has page := by
  have split := inv.pages page
  have apart := inv.apart page
  rw [IsSlabOf, inv.onFreeList, ← and_assoc, ← split]
  tauto

/-- A cache that was just created has no slabs, and its objects are all still to be handed out. -/
theorem of_create {size : Nat} {before : Kernel} (freeList : FreeList layout before pool)
    (objSize : ObjSize (roundedSize size))
    (created : Returns (cacheCreate size) before cache s) (nonnull : cache ≠ 0) :
    ∃ free, CacheInv layout (roundedSize size) pool cache s [] (fun _ => []) (fun _ => []) free := by
  rcases (cacheCreate_spec size freeList).of_returns created with
    ⟨null, -, -⟩ | ⟨free, rfl, freed, -, -, made⟩
  · exact absurd null nonnull
  · have small := objSize.small
    simp only [pgSize] at small
    have notAgain := (List.nodup_cons.mp freeList.nodup).1
    have fits : roundedSize size < 2 ^ 32 := by omega
    refine ⟨free, ⟨made _ _ rfl fits, freed, ?_, by simp⟩, ?_, List.nodup_nil, ?_, ?_⟩
    · intro page member
      refine ⟨?_, no_slabs page⟩
      rintro rfl
      exact notAgain member
    · intro p
      refine ⟨fun member => absurd member List.not_mem_nil, ?_⟩
      rintro ⟨slab, isSlab, -⟩
      exact absurd isSlab (no_slabs slab)
    · intro page
      have none := no_slabs page
      rw [List.mem_cons]
      constructor
      · rintro (isSlab | member)
        · exact absurd isSlab none
        · refine ⟨Or.inr member, ?_⟩
          rintro rfl
          exact notAgain member
      · rintro ⟨isCache | member, differs⟩
        · exact absurd isCache differs
        · exact Or.inr member
    · exact fun _ t member => absurd member List.not_mem_nil

/-- One `cache_alloc` keeps the invariant of the cache and hands out an object that no one holds. -/
theorem alloc_step (inv : CacheInv layout objsz pool cache s live lists avail free)
    (size : ObjSize objsz) :
    wp (cacheAlloc cache) (fun p after => (∃ lists' avail' free',
        CacheInv layout objsz pool cache after (CacheOp.alloc.liveAfter live p) lists' avail' free') ∧
      (p ≠ 0 → p ∉ live)) s := by
  apply wp_mono (cacheAlloc_spec inv.toCacheHeap size)
  rintro p after (⟨rfl, rfl, rfl, -⟩ | ⟨lists', avail', free', nonzero, heap, -, same, fresh, taken, -,
    noneWhole, -⟩)
  · exact ⟨⟨lists, avail, [], inv⟩, fun nonzero => absurd rfl nonzero⟩
  · have notLive : p ∉ live := fun member => fresh ((inv.taken p).mp member)
    refine ⟨⟨lists', avail', free', ?_⟩, fun _ => notLive⟩
    rw [CacheOp.liveAfter, if_neg nonzero]
    refine ⟨heap, fun q => ?_, List.nodup_cons.mpr ⟨notLive, inv.liveOnce⟩,
      fun page => (same page).trans (inv.pages page), fun many => noneWhole (inv.noneWhole many)⟩
    rw [List.mem_cons, inv.taken, taken]

theorem free_step (inv : CacheInv layout objsz pool cache s live lists avail free)
    (size : ObjSize objsz) (p : Nat) (member : p ∈ live) :
    wp (cacheFree layout cache p) (fun _ after => ∃ lists' avail' free',
      CacheInv layout objsz pool cache after (live.erase p) lists' avail' free') s := by
  apply wp_mono (cacheFree_spec inv.toCacheHeap size p ((inv.taken p).mp member))
  rintro - after ⟨lists', avail', free', heap, -, same, taken, -, noneWhole⟩
  refine ⟨lists', avail', free', heap, fun q => ?_, inv.liveOnce.erase p,
    fun page => (same page).trans (inv.pages page),
    fun many => noneWhole many (inv.noneWhole many)⟩
  rw [inv.liveOnce.mem_erase_iff, inv.taken, taken]

/-- A live object shares no byte with what the allocator keeps. -/
theorem write_step (inv : CacheInv layout objsz pool cache s live lists avail free)
    (size : ObjSize objsz) (a : Nat) (value : Byte)
    (legal : ∃ p ∈ live, p ≤ a ∧ a < p + objsz) :
    CacheInv layout objsz pool cache (s.withMem (copy s.mem a 1 fun _ => value)) live lists avail
      free := by
  obtain ⟨p, member, low, high⟩ := legal
  obtain ⟨home, isSlab, object, notAvail⟩ := (inv.taken p).mp member
  have inside := object.inside size
  have pages := inv.ok.toListed.page
  obtain ⟨homePage, homeNotCache⟩ := pages home isSlab
  have homeAligned := homePage.1
  have written : ∀ x, x ≠ a → copy s.mem a 1 (fun _ => value) x = s.mem x :=
    fun x differs => copy_outside _ _ _ _ _ (by omega)
  have otherPage : ∀ page, page % pgSize = 0 → page ≠ home →
      SameOn (copy s.mem a 1 fun _ => value) s.mem page pgSize := by
    intro page aligned differs x first last
    apply written x
    rintro rfl
    simp only [pgSize] at *
    omega
  have wide : pgSize = 4096 := rfl
  have word := size.word
  refine ⟨⟨?_, ?_, inv.apart, inv.retained⟩, inv.taken, inv.liveOnce, inv.pages, inv.noneWhole⟩
  · refine inv.ok.congr_free ?_ ?_ ?_
    · exact (otherPage cache inv.ok.cachePage.1 homeNotCache.symm).sub (Nat.le_refl _) (by omega)
    · intro t onList
      by_cases isHome : t = home
      · intro x first last
        refine written x ?_
        simp only [slabHeader] at inside
        omega
      · exact (otherPage t (pages t onList).1.1 isHome).sub (Nat.le_refl _) (by omega)
    · intro t onList q inAvail
      have qObject := (inv.ok.slab t onList).objects q inAvail
      by_cases isHome : t = home
      · subst isHome
        have differs : p ≠ q := by
          rintro rfl
          exact notAvail inAvail
        have apart := object.apart qObject differs
        intro x first last
        exact written x (by omega)
      · have qInside := qObject.inside size
        exact (otherPage t (pages t onList).1.1 isHome).sub (by omega) (by omega)
  · refine inv.freeList.congr rfl fun page isFree => ?_
    have differs : page ≠ home := by
      rintro rfl
      exact (inv.apart page isFree).2 isSlab
    exact (otherPage page (inv.freeList.pages page isFree).1 differs).sub (Nat.le_refl _) (by omega)

/-- A legal operation returns and keeps the invariant. -/
theorem step (inv : CacheInv layout objsz pool cache s live lists avail free)
    (size : ObjSize objsz) (op : CacheOp) (legal : op.Legal objsz live) :
    wp (op.exec layout cache) (fun result after => ∃ lists' avail' free',
      CacheInv layout objsz pool cache after (op.liveAfter live result) lists' avail' free') s := by
  cases op with
  | alloc => exact wp_mono (inv.alloc_step size) fun _ _ kept => kept.1
  | free p =>
    apply wp_seq (inv.free_step size p legal)
    rintro - after kept
    exact wp_pure.mpr kept
  | shrink =>
    apply wp_seq (cacheShrink_idle inv.toCacheHeap)
    rintro - after rfl
    exact wp_pure.mpr ⟨lists, avail, free, inv⟩
  | write a value =>
    refine wp_bind.mpr (wp_modify.mpr ?_)
    exact wp_pure.mpr ⟨lists, avail, free, inv.write_step size a value legal⟩

theorem of_run {size : Nat} (objSize : ObjSize (roundedSize size))
    (run : CacheRun layout size pool cache s live) : ∃ lists avail free,
      CacheInv layout (roundedSize size) pool cache s live lists avail free := by
  induction run with
  | create freeList created nonnull =>
    obtain ⟨free, inv⟩ := of_create freeList objSize created nonnull
    exact ⟨_, _, free, inv⟩
  | step earlier op legal returned inductionHypothesis =>
    obtain ⟨lists, avail, free, inv⟩ := inductionHypothesis
    exact (inv.step objSize op legal).of_returns returned

/-- With two or more objects to a slab, the lists are the classes. -/
theorem classOf_eq (inv : CacheInv layout objsz pool cache s live lists avail free)
    (many : 2 ≤ objectsPerSlab objsz) (c : SlabClass) (page : Nat)
    (onList : page ∈ lists c) : classOf s.mem page = c := by
  have slab := inv.ok.slab page ⟨c, onList⟩
  rw [classOf, slab.freenum, slab.objectsnum]
  cases c with
  | full =>
    rw [inv.ok.fullAvail page onList, List.length_nil, if_pos rfl]
  | partly =>
    have nonempty : (avail page).length ≠ 0 := by
      have some := inv.ok.partlyAvail page onList
      simpa using some
    have fewer := inv.noneWhole many page onList
    rw [if_neg nonempty, if_neg (by omega)]
  | empty =>
    rw [inv.ok.emptyAvail page onList, if_neg (by omega), if_pos rfl]

theorem classified (inv : CacheInv layout objsz pool cache s live lists avail free)
    (many : 2 ≤ objectsPerSlab objsz) :
    Classified s.mem cache (IsSlabOf pool cache s) lists := by
  refine ⟨inv.ok.linked, inv.ok.distinct, fun c page => ?_, inv.ok.emptySlabs, inv.retained⟩
  rw [inv.isSlab]
  constructor
  · exact fun onList => ⟨⟨c, onList⟩, inv.classOf_eq many c page onList⟩
  · rintro ⟨⟨d, onList⟩, called⟩
    rw [inv.classOf_eq many d page onList] at called
    rwa [← called]

/-- Without live objects every slab is on the empty list. -/
theorem all_empty (inv : CacheInv layout objsz pool cache s [] lists avail free)
    (size : ObjSize objsz) (many : 2 ≤ objectsPerSlab objsz) (page : Nat)
    (isSlab : lists.Has page) : page ∈ lists .empty := by
  have word := size.word
  have slab := inv.ok.slab page isSlab
  have all : allObjects objsz page ⊆ avail page := by
    intro p member
    by_contra notAvail
    have taken : Taken objsz lists avail p := ⟨page, isSlab, (mem_objectRun ..).mp member, notAvail⟩
    exact absurd ((inv.taken p).mpr taken) List.not_mem_nil
  have distinct := nodup_objectRun objsz (objectsPerSlab objsz) (page + slabHeader) (by omega)
  have atLeast := (distinct.subperm all).length_le
  rw [length_objectRun] at atLeast
  obtain ⟨c, onList⟩ := isSlab
  cases c with
  | full =>
    rw [inv.ok.fullAvail page onList, List.length_nil] at atLeast
    omega
  | partly =>
    have fewer := inv.noneWhole many page onList
    omega
  | empty => exact onList

end CacheInv

/-- The page is linked into one of the three lists. -/
def OnSlabList (mem : ByteMap) (cache page : Nat) : Prop :=
  ∃ (c : SlabClass) (slabs : List Nat), SlabList mem (cache + c.offset) slabs ∧ page ∈ slabs

/-- In every state of a run the legal operations return, a new object is a whole
object of a slab and not live, and the slabs of live objects are not free. -/
theorem slab_objects_handed_out_once {size : Nat} {pool : List Nat} {cache : Nat} {s : Kernel}
    {live : List Nat} (objSize : ObjSize (roundedSize size))
    (run : CacheRun layout size pool cache s live) :
    (∀ op : CacheOp, op.Legal (roundedSize size) live →
      ∃ result after, Returns (op.exec layout cache) s result after) ∧
    (∀ p after, Returns (cacheAlloc cache) s p after → p ≠ 0 → p ∉ live ∧
      ∃ slab, OnSlabList after.mem cache slab ∧ IsSlabOf pool cache after slab ∧
        IsObject (roundedSize size) slab p) ∧
    ∀ p ∈ live, ∃ slab, OnSlabList s.mem cache slab ∧ IsSlabOf pool cache s slab ∧
      IsObject (roundedSize size) slab p := by
  have owned : ∀ {s : Kernel} {live : List Nat} {lists avail free},
      CacheInv layout (roundedSize size) pool cache s live lists avail free →
      ∀ p ∈ live, ∃ slab, OnSlabList s.mem cache slab ∧ IsSlabOf pool cache s slab ∧
        IsObject (roundedSize size) slab p := by
    intro s live lists avail free inv p member
    obtain ⟨slab, isSlab, object, -⟩ := (inv.taken p).mp member
    obtain ⟨c, onList⟩ := isSlab
    exact ⟨slab, ⟨c, lists c, inv.ok.linked c, onList⟩, (inv.isSlab slab).mpr ⟨c, onList⟩, object⟩
  obtain ⟨lists, avail, free, inv⟩ := CacheInv.of_run objSize run
  refine ⟨?_, ?_, owned inv⟩
  · intro op legal
    obtain ⟨result, after, returned, -⟩ := inv.step objSize op legal
    exact ⟨result, after, returned⟩
  · intro p after returned nonzero
    obtain ⟨⟨lists', avail', free', kept⟩, notLive⟩ := (inv.alloc_step objSize).of_returns returned
    rw [CacheOp.liveAfter, if_neg nonzero] at kept
    exact ⟨notLive nonzero, owned kept p (List.mem_cons_self ..)⟩

/-- Every slab is on the list of its class, and a cache without live objects
keeps at most `MAX_EMPTY_SLABS` slabs. -/
structure Retention (pool : List Nat) (cache : Nat) (s : Kernel) (live : List Nat) : Prop where
  classified : ∃ lists, Classified s.mem cache (IsSlabOf pool cache s) lists
  retained : live = [] → ∀ slabs : List Nat, slabs.Nodup →
    (∀ page ∈ slabs, IsSlabOf pool cache s page) → slabs.length ≤ maxEmptySlabs

/-- With two or more objects to a slab the slabs are classified in every state. -/
theorem slabs_classified {size : Nat} {pool : List Nat} {cache : Nat} {s : Kernel}
    {live : List Nat} (objSize : ObjSize (roundedSize size))
    (many : 2 ≤ objectsPerSlab (roundedSize size))
    (run : CacheRun layout size pool cache s live) : Retention pool cache s live := by
  obtain ⟨lists, avail, free, inv⟩ := CacheInv.of_run objSize run
  refine ⟨⟨lists, inv.classified many⟩, ?_⟩
  rintro rfl slabs distinct areSlabs
  have empty : slabs ⊆ lists .empty := fun page member =>
    inv.all_empty objSize many page ((inv.isSlab page).mp (areSlabs page member))
  exact Nat.le_trans (distinct.subperm empty).length_le inv.retained

/-- A run on the small image that creates a cache and takes one object. -/
theorem runs_alloc (size : Nat) (objSize : ObjSize (roundedSize size)) : ∃ cache p s,
    CacheRun smallImage size (bootFree smallImage) cache s [p] := by
  obtain ⟨⟨⟩, booted, -, idle, -⟩ := kinit_spec smallImage fun _ => 0
  have freeList := idle.freeList
  have enough : 2 ≤ (bootFree smallImage).length := by
    rw [bootFree, List.length_drop, List.length_reverse, length_pagesFrom]
    decide
  generalize bootFree smallImage = pool at freeList enough
  obtain ⟨cache, s, created, made⟩ := cacheCreate_spec size freeList
  have nonnull : cache ≠ 0 := by
    rcases made with ⟨-, -, rfl⟩ | ⟨rest, rfl, -⟩
    · exact absurd enough (by simp)
    · exact (freeList.pages cache (List.mem_cons_self ..)).ne_zero
  have run := CacheRun.create freeList created nonnull
  obtain ⟨free, inv⟩ := CacheInv.of_create freeList objSize created nonnull
  obtain ⟨p, after, returned, outcome⟩ := cacheAlloc_spec inv.toCacheHeap objSize
  have stepped := run.step .alloc trivial returned
  have taken : p ≠ 0 := by
    rcases outcome with ⟨-, -, rfl, -⟩ | ⟨-, -, -, nonzero, -⟩
    · -- The new cache has no slabs, so all pages of the pool but its own are free.
      have onlyCache : pool ⊆ [cache] := by
        intro page member
        by_contra differs
        rcases (inv.pages page).mpr ⟨member, fun same => differs (by simp [same])⟩ with
          isSlab | isFree
        · exact no_slabs page isSlab
        · exact List.not_mem_nil isFree
      have short := (freeList.nodup.subperm onlyCache).length_le
      rw [List.length_singleton] at short
      omega
    · exact nonzero
  rw [CacheOp.liveAfter, if_neg taken] at stepped
  exact ⟨cache, p, after, stepped⟩

/-- With one live object and two or more to a slab, a slab has an object left. -/
theorem runs_alloc_again {size : Nat} {pool : List Nat} {cache p : Nat} {s : Kernel}
    (objSize : ObjSize (roundedSize size)) (many : 2 ≤ objectsPerSlab (roundedSize size))
    (run : CacheRun layout size pool cache s [p]) : ∃ q after,
      Returns (cacheAlloc cache) s q after ∧ CacheRun layout size pool cache after [q, p] := by
  obtain ⟨lists, avail, free, inv⟩ := CacheInv.of_run objSize run
  obtain ⟨q, after, returned, outcome⟩ := cacheAlloc_spec inv.toCacheHeap objSize
  have stepped := run.step .alloc trivial returned
  have taken : q ≠ 0 := by
    rcases outcome with ⟨-, -, -, notStocked⟩ | ⟨-, -, -, nonzero, -⟩
    · -- Without stock all objects of the slab of `p` are taken, so `p` is its only one.
      rw [SlabLists.Stocked, not_or, not_not, not_not] at notStocked
      obtain ⟨slab, ⟨c, onList⟩, -, -⟩ := (inv.taken p).mp (List.mem_singleton_self p)
      have onFull : slab ∈ lists .full := by
        cases c with
        | full => exact onList
        | partly =>
          rw [notStocked.1] at onList
          cases onList
        | empty =>
          rw [notStocked.2] at onList
          cases onList
      have all : allObjects (roundedSize size) slab ⊆ [p] := by
        intro object member
        refine (inv.taken object).mpr ⟨slab, ⟨.full, onFull⟩, (mem_objectRun ..).mp member, ?_⟩
        rw [inv.ok.fullAvail slab onFull]
        exact List.not_mem_nil
      have word := objSize.word
      have distinct := nodup_objectRun (roundedSize size) (objectsPerSlab (roundedSize size))
        (slab + slabHeader) (by omega)
      have few := (distinct.subperm all).length_le
      rw [length_objectRun, List.length_singleton] at few
      omega
    · exact nonzero
  rw [CacheOp.liveAfter, if_neg taken] at stepped
  exact ⟨q, after, returned, stepped⟩

/-- A live object is freed. -/
theorem runs_free {size : Nat} {pool : List Nat} {cache : Nat} {s : Kernel} {live : List Nat}
    (objSize : ObjSize (roundedSize size)) (run : CacheRun layout size pool cache s live) {p : Nat}
    (member : p ∈ live) : ∃ after, Returns ((CacheOp.free p).exec layout cache) s 0 after ∧
      CacheRun layout size pool cache after (live.erase p) := by
  obtain ⟨result, after, returned⟩ :=
    (slab_objects_handed_out_once objSize run).1 (.free p) member
  obtain ⟨⟨⟩, mid, -, ends⟩ := returns_bind.mp returned
  obtain rfl := (returns_pure.mp ends).1
  exact ⟨after, returned, run.step (.free p) member returned⟩

/-- Of two objects of 32 bytes the first one is freed. The other one is still in a slab, and is
not handed out again. -/
theorem words_handed_out_once : ∃ pool cache s p q freed, CacheRun smallImage 32 pool cache s [q, p] ∧
    q ≠ p ∧ Returns ((CacheOp.free p).exec smallImage cache) s 0 freed ∧
    (∃ slab, OnSlabList freed.mem cache slab ∧ IsSlabOf pool cache freed slab ∧
      IsObject 32 slab q) ∧
    ∀ r after, Returns (cacheAlloc cache) freed r after → r ≠ 0 → r ≠ q := by
  have objSize : ObjSize (roundedSize 32) := ⟨by decide, by decide, by decide, by decide⟩
  obtain ⟨cache, p, first, run⟩ := runs_alloc 32 objSize
  obtain ⟨q, s, -, run'⟩ := runs_alloc_again objSize (by decide) run
  obtain ⟨lists, avail, free, inv⟩ := CacheInv.of_run objSize run'
  have differs : q ≠ p := by
    rintro rfl
    exact (List.nodup_cons.mp inv.liveOnce).1 (List.mem_singleton_self _)
  obtain ⟨freed, released, last⟩ :=
    runs_free objSize run' (List.mem_cons_of_mem q (List.mem_singleton_self p))
  have left : [q, p].erase p = [q] := by
    rw [List.erase_cons_tail (by simpa using differs), List.erase_cons_head]
  rw [left] at last
  have outcome := slab_objects_handed_out_once objSize last
  refine ⟨_, cache, s, p, q, freed, run', differs, released, outcome.2.2 q (List.mem_cons_self ..), ?_⟩
  intro r after returned nonzero same
  exact (outcome.2.1 r after returned nonzero).1 (by rw [same]; exact List.mem_cons_self ..)

/-- Two objects of 32 bytes are taken and freed again. -/
theorem words_classified : ∃ pool cache s p q last, CacheRun smallImage 32 pool cache s [q, p] ∧
    Retention pool cache s [q, p] ∧ CacheRun smallImage 32 pool cache last [] ∧
    Retention pool cache last [] := by
  have objSize : ObjSize (roundedSize 32) := ⟨by decide, by decide, by decide, by decide⟩
  obtain ⟨cache, p, first, run⟩ := runs_alloc 32 objSize
  obtain ⟨q, s, -, run'⟩ := runs_alloc_again objSize (by decide) run
  obtain ⟨mid, -, runMid⟩ := runs_free objSize run' (List.mem_cons_self ..)
  rw [List.erase_cons_head] at runMid
  obtain ⟨last, -, runLast⟩ := runs_free objSize runMid (List.mem_cons_self ..)
  rw [List.erase_cons_head] at runLast
  exact ⟨_, cache, s, p, q, last, run', slabs_classified objSize (by decide) run', runLast,
    slabs_classified objSize (by decide) runLast⟩

/-- The only object of a slab comes back to the partial list, where its slab has
all objects free. -/
theorem cacheFree_single {s : Kernel} {cache objsz : Nat} {lists : SlabLists}
    {avail : Nat → List Nat} {free : List Nat}
    (heap : CacheHeap layout s cache objsz lists avail free) (size : ObjSize objsz)
    (single : objectsPerSlab objsz = 1) (p : Nat) (taken : Taken objsz lists avail p) :
    wp (cacheFree layout cache p) (fun _ after => ∃ slabs slab,
      SlabList after.mem (cache + SlabClass.partly.offset) slabs ∧ slab ∈ slabs ∧
      classOf after.mem slab = .empty) s := by
  obtain ⟨node, isSlab, object, notAvail⟩ := taken
  have ok := heap.ok
  obtain ⟨isPage, -⟩ := ok.toListed.page node isSlab
  have slab := ok.slab node isSlab
  have none : avail node = [] := by
    have count := avail_length_le size (List.nodup_cons.mpr ⟨notAvail, slab.nodup⟩)
      fun q member => by
        rcases List.mem_cons.mp member with rfl | member
        · exact object
        · exact slab.objects q member
    rw [List.length_cons, single] at count
    exact List.eq_nil_of_length_eq_zero (by omega)
  have onFull : node ∈ lists .full := by
    obtain ⟨c, onList⟩ := isSlab
    cases c with
    | full => exact onList
    | partly => exact absurd none (ok.partlyAvail node onList)
    | empty =>
      have whole := ok.emptyAvail node onList
      rw [none, List.length_nil, single] at whole
      omega
  rw [cacheFree, pgRoundDown_object size object isPage.1]
  apply wp_seq (giveObject_spec ok size node p isSlab object notAvail)
  rintro - _ ⟨given, rfl, data, -⟩
  have nodeSlab := data.slab node isSlab
  rw [Function.update_self, none] at nodeSlab
  rw [classify, wp_bind, wp_loadField]
  refine ⟨isPage.inRam 24 4 (by simp [pgSize]), ?_⟩
  rw [wp_bind, wp_loadField]
  refine ⟨isPage.inRam 28 4 (by simp [pgSize]), ?_⟩
  rw [withMem_mem, nodeSlab.freenum, List.length_singleton, if_pos rfl]
  apply wp_mono (data.move_spec size .full .partly (by decide) node onFull)
  rintro - _ ⟨mem, rfl, moved, -⟩
  have onPartly : node ∈ lists.move .full .partly node .partly := by
    rw [SlabLists.move_target]
    exact List.mem_cons_self ..
  refine ⟨_, node, moved.linked .partly, onPartly, ?_⟩
  have after := moved.slab node ⟨.partly, onPartly⟩
  rw [Function.update_self, none] at after
  rw [withMem_mem, classOf, after.freenum, after.objectsnum, single, List.length_singleton]
  decide

/-- Objects of 2048 bytes have a slab each, and a slab whose object was freed
stays on the partial list. -/
theorem single_object_slabs_misplaced : ¬ ∀ (layout : Layout) (size : Nat) (pool : List Nat)
    (cache : Nat) (s : Kernel) (live : List Nat), 1 ≤ objectsPerSlab (roundedSize size) →
      8 ≤ roundedSize size → roundedSize size ≤ 4056 → CacheRun layout size pool cache s live →
      Retention pool cache s live := by
  intro claimed
  have objSize : ObjSize (roundedSize 2048) := ⟨by decide, by decide, by decide, by decide⟩
  obtain ⟨cache, p, s, run⟩ := runs_alloc 2048 objSize
  obtain ⟨lists, avail, free, inv⟩ := CacheInv.of_run objSize run
  have live : p ∈ [p] := List.mem_cons_self ..
  obtain ⟨⟨⟩, after, returned, slabs, slab, linked, onPartly, whole⟩ :=
    cacheFree_single inv.toCacheHeap objSize (by decide) p ((inv.taken p).mp live)
  have freed : Returns ((CacheOp.free p).exec smallImage cache) s 0 after :=
    returns_bind.mpr ⟨(), after, returned, returns_pure.mpr ⟨rfl, rfl⟩⟩
  obtain ⟨classes, classified⟩ := (claimed smallImage 2048 _ cache after _ (by decide) (by decide)
    (by decide) (run.step (.free p) live freed)).classified
  have same := (classified.linked .partly).unique linked
  rw [← same] at onPartly
  have called := ((classified.classes .partly slab).mp onPartly).2
  rw [whole] at called
  exact absurd called (by decide)

end CuteCore
