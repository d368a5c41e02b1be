import CuteCore.Mm.SlabCache

/-!
# Freeing an object

`cache_free` puts the object back on its slab's chain and moves the slab to the
list of its new class. One empty slab too many goes back to the page allocator.

The slab of an object is found by rounding its address down to a page. The number of free
objects decides the list: the first object that comes back to a full slab makes it a
partly used one, and the last one makes it an empty one.
-/

namespace CuteCore

open Hoare Bytes DoublyLinked

variable {layout : Layout}

theorem pgRoundDown_object {objsz s p : Nat} (size : ObjSize objsz) (object : IsObject objsz s p)
    (aligned : s % pgSize = 0) : pgRoundDown p = s := by
  have inside := object.inside size
  have word := size.word
  simp only [pgRoundDown, pgSize, slabHeader] at *
  omega

/-- A slab with one more free object, in front of the others. -/
theorem SlabOk.pushed {mem after : ByteMap} {cache objsz t p : Nat} {avail : List Nat}
    (slab : SlabOk mem cache objsz t avail) (size : ObjSize objsz) (object : IsObject objsz t p)
    (taken : p ∉ avail) (head : load after (t + 16) 8 = p)
    (next : load after p 8 = load mem (t + 16) 8)
    (count : load after (t + 24) 4 = avail.length + 1)
    (same : ∀ x, (x < t + 16 ∨ t + 28 ≤ x) → (x < p ∨ p + 8 ≤ x) → after x = mem x) :
    SlabOk after cache objsz t (p :: avail) := by
  have word := size.word
  have header : slabHeader = 40 := rfl
  have inside := object.inside size
  refine ⟨?_, List.nodup_cons.mpr ⟨taken, slab.nodup⟩, ?_, count, ?_, ?_⟩
  · rw [head]
    refine ⟨rfl, ?_⟩
    rw [next]
    refine slab.chain.congr fun q member x low high => same x ?_ ?_
    · have qInside := (slab.objects q member).inside size
      omega
    · have differs : q ≠ p := fun equal => taken (equal ▸ member)
      have apart := (slab.objects q member).apart object differs
      omega
  · intro q member
    rcases List.mem_cons.mp member with rfl | member
    · exact object
    · exact slab.objects q member
  · rw [load_congr fun x low high => same x (by omega) (by omega), slab.objectsnum]
  · rw [load_congr fun x low high => same x (by omega) (by omega), slab.owner]

/-- Giving an object back to its slab leaves the lists and the counter as they are. -/
theorem giveObject_spec {s : Kernel} {cache objsz : Nat} {lists : SlabLists}
    {avail : Nat → List Nat} (ok : CacheOk layout s.mem cache objsz lists avail)
    (size : ObjSize objsz) (node p : Nat) (isSlab : lists.Has node)
    (object : IsObject objsz node p) (taken : p ∉ avail node) :
    wp (giveObject node p) (fun _ after => ∃ mem, after = s.withMem mem ∧
      CacheData layout mem cache objsz lists (Function.update avail node (p :: avail node))
        (lists .empty).length ∧ OutsideSame s.mem mem cache lists.Has) s := by
  obtain ⟨isPage, -⟩ := ok.toListed.page node isSlab
  have slab := ok.slab node isSlab
  have inside := object.inside size
  have count : (avail node).length ≤ 507 :=
    Nat.le_trans (avail_length_le size slab.nodup slab.objects) (objectsPerSlab_small size)
  have whole := isPage.inRam 0 pgSize (by simp)
  have word := size.word
  have header : slabHeader = 40 := rfl
  have wide : pgSize = 4096 := rfl
  have fits : p < 2 ^ 64 := by
    simp only [InRam, phyEnd] at whole
    omega
  rw [giveObject, wp_bind, wp_loadField]
  refine ⟨isPage.inRam 16 8 (by simp [pgSize]), ?_⟩
  rw [wp_bind, wp_storeField]
  refine ⟨by simp only [InRam] at whole ⊢; omega, ?_⟩
  rw [wp_bind, wp_storeField]
  refine ⟨isPage.inRam 16 8 (by simp [pgSize]), ?_⟩
  have freenum : load (store (store s.mem p 8 (load s.mem (node + 16) 8)) (node + 16) 8 p)
      (node + 24) 4 = (avail node).length := by
    rw [load_store_apart _ _ _ _ _ _ (by omega), load_store_apart _ _ _ _ _ _ (by omega),
      slab.freenum]
  rw [wp_bind, wp_loadField]
  refine ⟨isPage.inRam 24 4 (by simp [pgSize]), ?_⟩
  rw [withMem_withMem, withMem_mem, withMem_mem, freenum, wp_storeField]
  refine ⟨isPage.inRam 24 4 (by simp [pgSize]), ?_⟩
  rw [withMem_withMem, withMem_mem]
  generalize given : store (store (store s.mem p 8 (load s.mem (node + 16) 8)) (node + 16) 8 p)
    (node + 24) 4 ((avail node).length + 1) = mem
  have same : ∀ x, (x < node + 16 ∨ node + 28 ≤ x) → (x < p ∨ p + 8 ≤ x) → mem x = s.mem x := by
    intro x notHeader notObject
    rw [← given]
    simp (disch := omega) only [store, copy_outside]
  have head : load mem (node + 16) 8 = p := by
    rw [← given, load_store_apart _ _ _ _ _ _ (by omega), load_store_same,
      show 256 ^ 8 = 2 ^ 64 by norm_num, Nat.mod_eq_of_lt fits]
  have next : load mem p 8 = load s.mem (node + 16) 8 := by
    have bound := word_lt s.mem (node + 16)
    rw [← given, load_store_apart _ _ _ _ _ _ (by omega),
      load_store_apart _ _ _ _ _ _ (by omega), load_store_same,
      show 256 ^ 8 = 2 ^ 64 by norm_num, Nat.mod_eq_of_lt bound]
  have raised : load mem (node + 24) 4 = (avail node).length + 1 := by
    rw [← given, load_store_same]
    omega
  refine ⟨mem, rfl, ok.inSlab size isSlab (slab.pushed size object taken head next raised same) ?_⟩
  intro x outside
  exact same x (by omega) (by omega)

/-- `cache_shrink` gives back at most one slab: there is at most one too many. -/
theorem cacheShrink_spec {s : Kernel} {cache objsz : Nat} {lists : SlabLists}
    {avail : Nat → List Nat} {free : List Nat}
    (ok : CacheOk layout s.mem cache objsz lists avail) (size : ObjSize objsz)
    (holds : FreeList layout s free) (apart : ∀ page ∈ free, page ≠ cache ∧ ¬ lists.Has page)
    (many : (lists .empty).length = maxEmptySlabs + 1) :
    wp (cacheShrink layout cache) (fun _ after => ∃ node, node ∈ lists .empty ∧
      CacheHeap layout after cache objsz (lists.dropEmpty node) avail (node :: free) ∧
      SameGlobals s after ∧ OutsideSame s.mem after.mem cache lists.Has) s := by
  have cachePage := ok.cachePage
  have pages := ok.toListed.page
  have two : maxEmptySlabs = 2 := rfl
  rw [two] at many
  obtain ⟨node, others, empty⟩ : ∃ node others, lists .empty = node :: others := by
    cases listed : lists .empty with
    | nil => rw [listed] at many; simp at many
    | cons node others => exact ⟨node, others, rfl⟩
  have member : node ∈ lists .empty := by rw [empty]; exact List.mem_cons_self ..
  obtain ⟨isPage, notCache⟩ := pages node ⟨.empty, member⟩
  have head := (ok.linked .empty).head_eq
  simp only [SlabClass.offset] at head
  rw [empty, List.headD_cons] at head
  have shorter : lists.dropEmpty node .empty = others := by
    rw [SlabLists.dropEmpty_empty, empty, List.erase_cons_head]
  have count : others.length = 2 := by
    rw [empty, List.length_cons] at many
    omega
  rw [cacheShrink, wp_bind, wp_loadField, head]
  refine ⟨cachePage.inRam 24 8 (by simp [pgSize]), ?_⟩
  rw [wp_bind, wp_loadField, ok.emptySlabs, many]
  refine ⟨cachePage.inRam 32 4 (by simp [pgSize]), ?_⟩
  rw [shrinkFrom, wp_bind, wp_loadField, ok.emptySlabs, many]
  refine ⟨cachePage.inRam 32 4 (by simp [pgSize]), ?_⟩
  have enter : node ≠ 0 ∧ tooManyEmpty 3 := ⟨isPage.ne_zero, by decide⟩
  rw [wp_onlyIf, if_pos enter, wp_bind, wp_loadField]
  refine ⟨isPage.headInRam, ?_⟩
  have program : (do
      listRemove (cache + 24) node
      let empty ← loadField (cache + 32) 4
      storeField (cache + 32) 4 (empty + (2 ^ 32 - 1))
      kfree layout node
      shrinkFrom layout cache 2 (load s.mem node 8) : KernelProg Unit) = (do
      (do
        listRemove (cache + 24) node
        let empty ← loadField (cache + 32) 4
        storeField (cache + 32) 4 (empty + (2 ^ 32 - 1)))
      kfree layout node
      shrinkFrom layout cache 2 (load s.mem node 8)) := by simp only [bind_assoc]
  rw [program]
  apply wp_seq (detach_spec ok size node member)
  rintro - _ ⟨mem, rfl, detached, -, outside⟩
  have midFree := holds.outside cachePage (fun t isSlab => (pages t isSlab).1) apart outside
  have notFree : node ∉ free := fun isFree => (apart node isFree).2 ⟨.empty, member⟩
  refine wp_seq (kfree_spec midFree node isPage notFree) ?_
  rintro - _ ⟨rfl, pushed⟩
  have gone : ∀ t, (lists.dropEmpty node).Has t → t ≠ node ∧ lists.Has t :=
    fun t => (ok.toListed.has_dropEmpty node member t).mp
  have written : ∀ x, x < node ∨ node + pgSize ≤ x →
      ((s.withMem mem).pushPage node).mem x = mem x := by
    intro x outsidePage
    refine copy_outside _ _ _ _ _ ?_
    simp only [pgSize] at outsidePage
    omega
  have aligned := isPage.1
  have cacheAligned := cachePage.1
  have afterOk : CacheOk layout ((s.withMem mem).pushPage node).mem cache objsz
      (lists.dropEmpty node) avail := by
    refine detached.congr size (fun x low high => written x ?_)
      fun t isSlab x low high => written x ?_
    · simp only [pgSize] at *
      omega
    · obtain ⟨differs, isOld⟩ := gone t isSlab
      have tAligned := (pages t isOld).1.1
      simp only [pgSize] at *
      omega
  have stop : ¬ (load s.mem node 8 ≠ 0 ∧ tooManyEmpty 2) := by
    rintro ⟨-, more⟩
    exact absurd more (by decide)
  rw [shrinkFrom, wp_bind, wp_loadField, afterOk.emptySlabs, shorter, count]
  refine ⟨cachePage.inRam 32 4 (by simp [pgSize]), ?_⟩
  rw [wp_onlyIf, if_neg stop]
  refine ⟨node, member, ⟨afterOk, pushed, ?_, ?_⟩, rfl, ?_⟩
  · intro page inList
    rcases List.mem_cons.mp inList with rfl | inList
    · exact ⟨notCache, fun isSlab => (gone page isSlab).1 rfl⟩
    · exact ⟨(apart page inList).1, fun isSlab => (apart page inList).2 (gone page isSlab).2⟩
  · rw [shorter, count, two]
  · intro x notCache away
    rw [written x (away node ⟨.empty, member⟩)]
    exact outside x notCache away

/-- Writing the counter of empty slabs. -/
theorem CacheData.count_spec {s : Kernel} {cache objsz : Nat} {lists : SlabLists}
    {avail : Nat → List Nat} {count : Nat}
    (holds : CacheData layout s.mem cache objsz lists avail count) (size : ObjSize objsz)
    (value new : Nat) (fits : value % 256 ^ 4 = new) :
    CacheData layout (store s.mem (cache + 32) 4 value) cache objsz lists avail new ∧
      OutsideSame s.mem (store s.mem (cache + 32) 4 value) cache lists.Has := by
  have cacheAligned := holds.cachePage.1
  have same : ∀ x, x < cache + 32 ∨ cache + 36 ≤ x →
      store s.mem (cache + 32) 4 value x = s.mem x :=
    fun x outside => copy_outside _ _ _ _ _ (by omega)
  refine ⟨⟨?_, ?_, ?_, ?_⟩, ?_⟩
  · refine holds.toListed.congr (fun x low high => same x (by omega)) fun t isSlab x low high => ?_
    obtain ⟨tPage, differs⟩ := holds.toListed.page t isSlab
    have tAligned := tPage.1
    simp only [pgSize] at *
    exact same x (by omega)
  · rw [load_congr fun x low high => same x (by omega), holds.objszField]
  · rw [load_store_same, fits]
  · intro t isSlab
    obtain ⟨tPage, differs⟩ := holds.toListed.page t isSlab
    have tAligned := tPage.1
    refine (holds.slab t isSlab).congr size fun x low high => same x ?_
    simp only [pgSize] at *
    omega
  · intro x outside _
    refine same x ?_
    simp only [pgSize] at outside
    omega

/-- Every object of an empty slab is free. -/
theorem SlabOk.mem_of_whole {mem : ByteMap} {cache objsz s : Nat} {avail : List Nat}
    (slab : SlabOk mem cache objsz s avail) (size : ObjSize objsz)
    (whole : avail.length = objectsPerSlab objsz) (p : Nat) (object : IsObject objsz s p) :
    p ∈ avail := by
  by_contra notAvail
  have more := avail_length_le size (List.nodup_cons.mpr ⟨notAvail, slab.nodup⟩) fun q member => by
    rcases List.mem_cons.mp member with rfl | member
    · exact object
    · exact slab.objects q member
  rw [List.length_cons] at more
  omega

/-- What `cache_free` leaves: exactly this object is no longer taken. -/
def ObjectFreed (layout : Layout) (s : Kernel) (cache objsz : Nat) (lists : SlabLists)
    (avail : Nat → List Nat) (free : List Nat) (p : Nat) (after : Kernel) : Prop :=
  ∃ lists' avail' free', CacheHeap layout after cache objsz lists' avail' free' ∧
    SameGlobals s after ∧ SamePages lists lists' free free' ∧
    (∀ q, Taken objsz lists' avail' q ↔ q ≠ p ∧ Taken objsz lists avail q) ∧
    OutsideSame s.mem after.mem cache (fun t => lists.Has t ∨ t ∈ free) ∧
    (2 ≤ objectsPerSlab objsz → NoneWhole objsz lists avail → NoneWhole objsz lists' avail')

/-- The object is on the chain of its slab, and the slab on the list that it was on. -/
structure GivenBack (layout : Layout) (s : Kernel) (given : ByteMap) (cache objsz : Nat)
    (lists : SlabLists) (avail : Nat → List Nat) (free : List Nat) (node p : Nat)
    (avail' : Nat → List Nat) : Prop where
  heap : CacheHeap layout s cache objsz lists avail free
  data : CacheData layout given cache objsz lists avail' (lists .empty).length
  outside : OutsideSame s.mem given cache lists.Has
  here : avail' node = p :: avail node
  other : ∀ t, t ≠ node → avail' t = avail t
  taken : ∀ q, Taken objsz lists avail' q ↔ q ≠ p ∧ Taken objsz lists avail q

section

variable {s : Kernel} {given : ByteMap} {cache objsz : Nat} {lists : SlabLists}
  {avail avail' : Nat → List Nat} {free : List Nat} {node p : Nat}

/-- An object on the chain of its slab is no longer taken. -/
theorem CacheOk.taken_update (ok : CacheOk layout s.mem cache objsz lists avail)
    (size : ObjSize objsz) (isSlab : lists.Has node) (object : IsObject objsz node p) (q : Nat) :
    Taken objsz lists (Function.update avail node (p :: avail node)) q ↔
      q ≠ p ∧ Taken objsz lists avail q := by
  constructor
  · rintro ⟨t, onList, isObject, free⟩
    by_cases isNode : t = node
    · subst isNode
      rw [Function.update_self, List.mem_cons, not_or] at free
      exact ⟨free.1, t, onList, isObject, free.2⟩
    · rw [Function.update_of_ne isNode] at free
      refine ⟨?_, t, onList, isObject, free⟩
      rintro rfl
      exact isNode (isObject.unique size object (ok.toListed.page t onList).1.1
        (ok.toListed.page node isSlab).1.1)
  · rintro ⟨differs, t, onList, isObject, free⟩
    refine ⟨t, onList, isObject, ?_⟩
    by_cases isNode : t = node
    · subst isNode
      rw [Function.update_self, List.mem_cons, not_or]
      exact ⟨differs, free⟩
    · rwa [Function.update_of_ne isNode]

/-- A slab of another class is not the one whose object was freed. -/
theorem CacheOk.ne_of_class (ok : CacheOk layout s.mem cache objsz lists avail) {c : SlabClass}
    (onList : node ∈ lists c) (d : SlabClass) (differs : d ≠ c) (t : Nat) (inList : t ∈ lists d) :
    t ≠ node := by
  rintro rfl
  exact ok.disjoint d c differs t inList onList

/-- The cases that keep the set of slabs end the same way. -/
theorem GivenBack.freed (back : GivenBack layout s given cache objsz lists avail free node p avail')
    (mem : ByteMap) (lists' : SlabLists) (afterOk : CacheOk layout mem cache objsz lists' avail')
    (has : ∀ t, lists'.Has t ↔ lists.Has t) (few : (lists' .empty).length ≤ maxEmptySlabs)
    (written : OutsideSame s.mem mem cache lists.Has)
    (noneWhole : 2 ≤ objectsPerSlab objsz → NoneWhole objsz lists avail →
      NoneWhole objsz lists' avail') :
    ObjectFreed layout s cache objsz lists avail free p (s.withMem mem) := by
  obtain ⟨⟨ok, freeList, apart, -⟩, -, -, -, -, takenAfter⟩ := back
  have pages := ok.toListed.page
  have cachePage := ok.cachePage
  refine ⟨lists', avail', free, ⟨afterOk, ?_, ?_, few⟩, rfl, ?_, ?_, ?_, noneWhole⟩
  · exact freeList.outside cachePage (fun t onList => (pages t onList).1) apart written
  · intro page member
    rw [has]
    exact apart page member
  · intro page
    rw [has]
  · intro q
    rw [← takenAfter]
    exact exists_congr fun t => and_congr_left fun _ => has t
  · exact written.mono fun t onList => Or.inl onList

/-- A full slab becomes a partial one. -/
theorem GivenBack.full_spec
    (back : GivenBack layout s given cache objsz lists avail free node p avail')
    (size : ObjSize objsz) (onList : node ∈ lists .full) :
    wp (do listRemove (cache + 8) node; listInsert (cache + 16) node)
      (fun _ => ObjectFreed layout s cache objsz lists avail free p) (s.withMem given) := by
  have finish := back.freed
  obtain ⟨⟨ok, -, -, retained⟩, data, outside, availNode, availOther, -⟩ := back
  have notNode := ok.ne_of_class onList
  have none := ok.fullAvail node onList
  have emptyKept : lists.move .full .partly node .empty = lists .empty :=
    lists.move_other _ _ _ _ (by decide) (by decide)
  apply wp_mono (data.move_spec size .full .partly (by decide) node onList)
  rintro - _ ⟨mem, rfl, moved, lastOutside⟩
  have has := lists.has_move .full .partly node (by decide) onList
  refine finish mem _ ⟨moved.toListed, moved.objszField, ?_, moved.slab, ?_, ?_, ?_, ?_⟩ has ?_
    (outside.trans lastOutside) ?_
  · rw [emptyKept]
    exact moved.emptySlabs
  · intro t inList
    rw [SlabLists.move_source _ _ _ _ (by decide)] at inList
    have isOther : t ≠ node := by
      rintro rfl
      exact (ok.distinct .full).not_mem_erase inList
    rw [availOther t isOther]
    exact ok.fullAvail t (List.mem_of_mem_erase inList)
  · intro t inList
    rw [SlabLists.move_target] at inList
    rcases List.mem_cons.mp inList with rfl | inList
    · rw [availNode]
      exact List.cons_ne_nil _ _
    · rw [availOther t (notNode .partly (by decide) t inList)]
      exact ok.partlyAvail t inList
  · intro t inList
    rw [emptyKept] at inList
    rw [availOther t (notNode .empty (by decide) t inList)]
    exact ok.emptyAvail t inList
  · rw [emptyKept]
    exact ok.emptyFew
  · rw [emptyKept]
    exact retained
  · intro many noneWhole t inList
    rw [SlabLists.move_target] at inList
    rcases List.mem_cons.mp inList with rfl | inList
    · rw [availNode, none, List.length_singleton]
      omega
    · rw [availOther t (notNode .partly (by decide) t inList)]
      exact noneWhole t inList

/-- The slabs left on the partial list were on it before. -/
theorem GivenBack.noneWhole_erase
    (back : GivenBack layout s given cache objsz lists avail free node p avail')
    (noneWhole : NoneWhole objsz lists avail) (t : Nat) (inList : t ∈ (lists .partly).erase node) :
    (avail' t).length < objectsPerSlab objsz := by
  obtain ⟨differs, member⟩ := (back.heap.ok.distinct .partly).mem_erase_iff.mp inList
  rw [back.other t differs]
  exact noneWhole t member

/-- The slab is on the list of the empty ones, and counted. -/
theorem GivenBack.moved_ok
    (back : GivenBack layout s given cache objsz lists avail free node p avail')
    (onList : node ∈ lists .partly) (whole : (avail node).length + 1 = objectsPerSlab objsz)
    {mem : ByteMap} (counted : CacheData layout mem cache objsz (lists.move .partly .empty node)
      avail' ((lists .empty).length + 1)) :
    CacheOk layout mem cache objsz (lists.move .partly .empty node) avail' := by
  obtain ⟨⟨ok, -, -, retained⟩, -, -, availNode, availOther, -⟩ := back
  have notNode := ok.ne_of_class onList
  have emptyNow : lists.move .partly .empty node .empty = node :: lists .empty :=
    lists.move_target _ _ _
  refine ⟨counted.toListed, counted.objszField, ?_, counted.slab, ?_, ?_, ?_, ?_⟩
  · rw [emptyNow, List.length_cons]
    exact counted.emptySlabs
  · intro t inList
    rw [SlabLists.move_other _ _ _ _ _ (by decide) (by decide)] at inList
    rw [availOther t (notNode .full (by decide) t inList)]
    exact ok.fullAvail t inList
  · intro t inList
    rw [SlabLists.move_source _ _ _ _ (by decide)] at inList
    have isOther : t ≠ node := by
      rintro rfl
      exact (ok.distinct .partly).not_mem_erase inList
    rw [availOther t isOther]
    exact ok.partlyAvail t (List.mem_of_mem_erase inList)
  · intro t inList
    rw [emptyNow] at inList
    rcases List.mem_cons.mp inList with rfl | inList
    · rw [availNode, List.length_cons]
      exact whole
    · rw [availOther t (notNode .empty (by decide) t inList)]
      exact ok.emptyAvail t inList
  · rw [emptyNow, List.length_cons]
    omega

/-- One empty slab too many goes back to the page allocator. -/
theorem GivenBack.shrink_spec
    (back : GivenBack layout s given cache objsz lists avail free node p avail')
    (size : ObjSize objsz) (onList : node ∈ lists .partly) {mem : ByteMap}
    (lastOk : CacheOk layout mem cache objsz (lists.move .partly .empty node) avail')
    (lastOutside : OutsideSame s.mem mem cache lists.Has)
    (more : tooManyEmpty ((lists .empty).length + 1)) :
    wp (cacheShrink layout cache) (fun _ => ObjectFreed layout s cache objsz lists avail free p)
      (s.withMem mem) := by
  obtain ⟨ok, freeList, apart, retained⟩ := back.heap
  have takenAfter := back.taken
  have cachePage := ok.cachePage
  have pages := ok.toListed.page
  have has := lists.has_move .partly .empty node (by decide) onList
  have emptyNow : lists.move .partly .empty node .empty = node :: lists .empty :=
    lists.move_target _ _ _
  have many : (lists.move .partly .empty node .empty).length = maxEmptySlabs + 1 := by
    rw [emptyNow, List.length_cons]
    have above := more.1
    omega
  have onMem : CacheOk layout (s.withMem mem).mem cache objsz
    (lists.move .partly .empty node) avail' := lastOk
  have midFree := freeList.outside cachePage (fun t inList => (pages t inList).1) apart
    lastOutside
  refine wp_mono (cacheShrink_spec onMem size midFree (fun page member => by
    rw [has]
    exact apart page member) many) ?_
  rintro - after ⟨dropped, inEmpty, heap, globals, shrinkOutside⟩
  have gone := onMem.toListed.has_dropEmpty dropped inEmpty
  refine ⟨_, avail', dropped :: free, heap, globals, ?_, ?_, ?_, ?_⟩
  · intro page
    rw [gone, has, List.mem_cons]
    by_cases isDropped : page = dropped
    · rw [isDropped]
      have isSlab := (has dropped).mp ⟨.empty, inEmpty⟩
      simp [isSlab]
    · simp [isDropped]
  · intro q
    rw [← takenAfter]
    constructor
    · rintro ⟨t, inList, isObject, free⟩
      exact ⟨t, (has t).mp ((gone t).mp inList).2, isObject, free⟩
    · rintro ⟨t, inList, isObject, free⟩
      refine ⟨t, (gone t).mpr ⟨?_, (has t).mpr inList⟩, isObject, free⟩
      rintro rfl
      have slabT := lastOk.slab t ⟨.empty, inEmpty⟩
      exact free (slabT.mem_of_whole size (lastOk.emptyAvail t inEmpty) q isObject)
  · exact (lastOutside.trans (shrinkOutside.mono fun t => (has t).mp)).mono
      fun t inList => Or.inl inList
  · intro _ noneWhole t inList
    rw [SlabLists.dropEmpty_other _ dropped (by decide), SlabLists.move_source _ _ _ _ (by decide)]
      at inList
    exact back.noneWhole_erase noneWhole t inList

/-- A partial slab whose last object comes back is an empty one. -/
theorem GivenBack.whole_spec
    (back : GivenBack layout s given cache objsz lists avail free node p avail')
    (size : ObjSize objsz) (onList : node ∈ lists .partly)
    (whole : (avail node).length + 1 = objectsPerSlab objsz) :
    wp (do
      listRemove (cache + 16) node
      listInsert (cache + 24) node
      let empty ← loadField (cache + 32) 4
      storeField (cache + 32) 4 (empty + 1)
      let empty ← loadField (cache + 32) 4
      onlyIf (tooManyEmpty empty) (cacheShrink layout cache))
      (fun _ => ObjectFreed layout s cache objsz lists avail free p) (s.withMem given) := by
  have ok := back.heap.ok
  have retained := back.heap.retained
  have cachePage := ok.cachePage
  have has := lists.has_move .partly .empty node (by decide) onList
  have emptyNow : lists.move .partly .empty node .empty = node :: lists .empty :=
    lists.move_target _ _ _
  have program : (do
      listRemove (cache + 16) node
      listInsert (cache + 24) node
      let empty ← loadField (cache + 32) 4
      storeField (cache + 32) 4 (empty + 1)
      let empty ← loadField (cache + 32) 4
      onlyIf (tooManyEmpty empty) (cacheShrink layout cache) : KernelProg Unit) = (do
      (do listRemove (cache + 16) node; listInsert (cache + 24) node)
      let empty ← loadField (cache + 32) 4
      storeField (cache + 32) 4 (empty + 1)
      let empty ← loadField (cache + 32) 4
      onlyIf (tooManyEmpty empty) (cacheShrink layout cache)) := by simp only [bind_assoc]
  rw [program]
  apply wp_seq (back.data.move_spec size .partly .empty (by decide) node onList)
  rintro - _ ⟨first, rfl, moved, firstOutside⟩
  have atFirst : CacheData layout (s.withMem first).mem cache objsz
      (lists.move .partly .empty node) avail' (lists .empty).length := moved
  rw [wp_bind, wp_loadField, withMem_withMem, withMem_mem, moved.emptySlabs]
  refine ⟨cachePage.inRam 32 4 (by simp [pgSize]), ?_⟩
  rw [wp_bind, wp_storeField]
  refine ⟨cachePage.inRam 32 4 (by simp [pgSize]), ?_⟩
  obtain ⟨counted, countOutside⟩ := atFirst.count_spec size ((lists .empty).length + 1)
    ((lists .empty).length + 1) (by unfold maxEmptySlabs at retained; omega)
  rw [withMem_mem] at counted countOutside
  rw [withMem_withMem, withMem_mem]
  generalize store first (cache + 32) 4 ((lists .empty).length + 1) = mem at counted countOutside
  rw [wp_bind, wp_loadField, withMem_mem, counted.emptySlabs]
  refine ⟨cachePage.inRam 32 4 (by simp [pgSize]), ?_⟩
  have lastOk := back.moved_ok onList whole counted
  have lastOutside : OutsideSame s.mem mem cache lists.Has :=
    (back.outside.trans firstOutside).trans (countOutside.mono fun t => (has t).mp)
  rw [wp_onlyIf]
  by_cases more : tooManyEmpty ((lists .empty).length + 1)
  · rw [if_pos more]
    exact back.shrink_spec size onList lastOk lastOutside more
  · rw [if_neg more]
    refine back.freed mem _ lastOk has ?_ lastOutside ?_
    · rw [emptyNow, List.length_cons]
      simp only [tooManyEmpty, maxEmptySlabs] at more retained ⊢
      omega
    · intro _ noneWhole t inList
      rw [SlabLists.move_source _ _ _ _ (by decide)] at inList
      exact back.noneWhole_erase noneWhole t inList

/-- Another partial slab stays where it is. -/
theorem GivenBack.partly_freed
    (back : GivenBack layout s given cache objsz lists avail free node p avail')
    (onList : node ∈ lists .partly) (whole : ¬ (avail node).length + 1 = objectsPerSlab objsz)
    (count : (avail node).length + 1 ≤ objectsPerSlab objsz) :
    ObjectFreed layout s cache objsz lists avail free p (s.withMem given) := by
  have finish := back.freed
  obtain ⟨⟨ok, -, -, retained⟩, data, outside, availNode, availOther, -⟩ := back
  have notNode := ok.ne_of_class onList
  refine finish given lists ⟨data.toListed, data.objszField, data.emptySlabs, data.slab, ?_, ?_, ?_,
    ok.emptyFew⟩ (fun _ => Iff.rfl) retained outside ?_
  · intro t inList
    rw [availOther t (notNode .full (by decide) t inList)]
    exact ok.fullAvail t inList
  · intro t inList
    by_cases isNode : t = node
    · rw [isNode, availNode]
      exact List.cons_ne_nil _ _
    · rw [availOther t isNode]
      exact ok.partlyAvail t inList
  · intro t inList
    rw [availOther t (notNode .empty (by decide) t inList)]
    exact ok.emptyAvail t inList
  · intro _ noneWhole t inList
    by_cases isNode : t = node
    · rw [isNode, availNode, List.length_cons]
      omega
    · rw [availOther t isNode]
      exact noneWhole t inList

end

/-- `cache_free` of a taken object: exactly this object is no longer taken. -/
theorem cacheFree_spec {s : Kernel} {cache objsz : Nat} {lists : SlabLists}
    {avail : Nat → List Nat} {free : List Nat}
    (heap : CacheHeap layout s cache objsz lists avail free) (size : ObjSize objsz) (p : Nat)
    (taken : Taken objsz lists avail p) :
    wp (cacheFree layout cache p) (fun _ after => ∃ lists' avail' free',
      CacheHeap layout after cache objsz lists' avail' free' ∧ SameGlobals s after ∧
      SamePages lists lists' free free' ∧
      (∀ q, Taken objsz lists' avail' q ↔ q ≠ p ∧ Taken objsz lists avail q) ∧
      OutsideSame s.mem after.mem cache (fun t => lists.Has t ∨ t ∈ free) ∧
      (2 ≤ objectsPerSlab objsz → NoneWhole objsz lists avail → NoneWhole objsz lists' avail')) s := by
  have ok := heap.ok
  obtain ⟨node, isSlab, object, notAvail⟩ := taken
  obtain ⟨isPage, -⟩ := ok.toListed.page node isSlab
  have slab := ok.slab node isSlab
  have rounded := pgRoundDown_object size object isPage.1
  have count : (avail node).length + 1 ≤ objectsPerSlab objsz :=
    avail_length_le size (List.nodup_cons.mpr ⟨notAvail, slab.nodup⟩) fun q member => by
      rcases List.mem_cons.mp member with rfl | member
      · exact object
      · exact slab.objects q member
  rw [cacheFree, rounded]
  apply wp_seq (giveObject_spec ok size node p isSlab object notAvail)
  rintro - _ ⟨given, rfl, data, outside⟩
  have back : GivenBack layout s given cache objsz lists avail free node p
      (Function.update avail node (p :: avail node)) :=
    ⟨heap, data, outside, Function.update_self .., fun t differs => Function.update_of_ne differs _ _,
      ok.taken_update size isSlab object⟩
  have nodeSlab := data.slab node isSlab
  rw [classify, wp_bind, wp_loadField]
  refine ⟨isPage.inRam 24 4 (by simp [pgSize]), ?_⟩
  rw [wp_bind, wp_loadField]
  refine ⟨isPage.inRam 28 4 (by simp [pgSize]), ?_⟩
  rw [withMem_mem, nodeSlab.freenum, nodeSlab.objectsnum, back.here, List.length_cons]
  obtain ⟨c, onList⟩ := isSlab
  cases c with
  | full =>
    rw [ok.fullAvail node onList, List.length_nil, if_pos rfl]
    exact back.full_spec size onList
  | partly =>
    have positive := List.length_pos_iff.mpr (ok.partlyAvail node onList)
    rw [if_neg (by omega)]
    by_cases whole : (avail node).length + 1 = objectsPerSlab objsz
    · rw [if_pos whole]
      exact back.whole_spec size onList whole
    · rw [if_neg whole, wp_pure]
      exact back.partly_freed onList whole count
  | empty =>
    have whole := ok.emptyAvail node onList
    omega

end CuteCore
