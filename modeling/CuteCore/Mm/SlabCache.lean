import CuteCore.Mm.SlabSpec

/-!
# Allocating from and freeing to a cache

`CacheOk` is the invariant of one cache between the steps of `cache_alloc` and
`cache_free`: its lists, its counters and its slabs. The two operations are put
together from taking or giving back one object of a slab and moving the slab to
the list of its new class.
-/

namespace CuteCore

open Hoare Bytes DoublyLinked

variable {layout : Layout}

/-- A cache with these slabs on its lists and these free objects. -/
structure CacheOk (layout : Layout) (mem : ByteMap) (cache objsz : Nat) (lists : SlabLists)
    (avail : Nat → List Nat) : Prop extends Listed layout mem cache lists where
  objszField : load mem cache 4 = objsz
  emptySlabs : load mem (cache + 32) 4 = (lists .empty).length
  slab : ∀ s, lists.Has s → SlabOk mem cache objsz s (avail s)
  fullAvail : ∀ s ∈ lists .full, avail s = []
  partlyAvail : ∀ s ∈ lists .partly, avail s ≠ []
  emptyAvail : ∀ s ∈ lists .empty, (avail s).length = objectsPerSlab objsz
  emptyFew : (lists .empty).length ≤ maxEmptySlabs + 1

/-- Nothing is written outside the cache and these slabs. -/
def OutsideSame (mem after : ByteMap) (cache : Nat) (slabs : Nat → Prop) : Prop :=
  ∀ x, (x < cache ∨ cache + pgSize ≤ x) → (∀ s, slabs s → x < s ∨ s + pgSize ≤ x) →
    after x = mem x

theorem OutsideSame.trans {mem mid after : ByteMap} {cache : Nat} {slabs : Nat → Prop}
    (first : OutsideSame mem mid cache slabs) (second : OutsideSame mid after cache slabs) :
    OutsideSame mem after cache slabs :=
  fun x outside away => (second x outside away).trans (first x outside away)

theorem OutsideSame.mono {mem after : ByteMap} {cache : Nat} {slabs more : Nat → Prop}
    (same : OutsideSame mem after cache slabs) (implied : ∀ s, slabs s → more s) :
    OutsideSame mem after cache more :=
  fun x outside away => same x outside fun s isSlab => away s (implied s isSlab)

theorem HeadersOnly.outsideSame {mem after : ByteMap} {cache : Nat} {slabs : Nat → Prop}
    (only : HeadersOnly mem after cache slabs) : OutsideSame mem after cache slabs := by
  intro x outside away
  refine only x (by simp only [pgSize] at outside; omega) fun s isSlab => ?_
  have apart := away s isSlab
  simp only [pgSize] at apart
  omega

/-- Moving a slab from one list to another. -/
def SlabLists.move (lists : SlabLists) (c d : SlabClass) (node : Nat) : SlabLists :=
  Function.update (Function.update lists c ((lists c).erase node)) d (node :: lists d)

theorem SlabLists.move_source (lists : SlabLists) (c d : SlabClass) (node : Nat) (differs : c ≠ d) :
    lists.move c d node c = (lists c).erase node := by
  rw [move, Function.update_of_ne differs, Function.update_self]

theorem SlabLists.move_target (lists : SlabLists) (c d : SlabClass) (node : Nat) :
    lists.move c d node d = node :: lists d := Function.update_self ..

theorem SlabLists.move_other (lists : SlabLists) (c d e : SlabClass) (node : Nat) (notC : e ≠ c)
    (notD : e ≠ d) : lists.move c d node e = lists e := by
  rw [move, Function.update_of_ne notD, Function.update_of_ne notC]

/-- A move keeps the set of slabs. -/
theorem SlabLists.has_move (lists : SlabLists) (c d : SlabClass) (node : Nat) (differs : c ≠ d)
    (member : node ∈ lists c) (s : Nat) : (lists.move c d node).Has s ↔ lists.Has s := by
  constructor
  · rintro ⟨e, onList⟩
    by_cases atD : e = d
    · subst atD
      rw [move_target] at onList
      rcases List.mem_cons.mp onList with rfl | onList
      · exact ⟨c, member⟩
      · exact ⟨e, onList⟩
    · by_cases atC : e = c
      · subst atC
        rw [move_source _ _ _ _ differs] at onList
        exact ⟨e, List.mem_of_mem_erase onList⟩
      · rw [move_other _ _ _ _ _ atC atD] at onList
        exact ⟨e, onList⟩
  · rintro ⟨e, onList⟩
    by_cases isNode : s = node
    · subst isNode
      exact ⟨d, by rw [move_target]; exact List.mem_cons_self ..⟩
    · by_cases atD : e = d
      · subst atD
        exact ⟨e, by rw [move_target]; exact List.mem_cons_of_mem _ onList⟩
      · by_cases atC : e = c
        · subst atC
          exact ⟨e, by rw [move_source _ _ _ _ differs]; exact (List.mem_erase_of_ne isNode).mpr onList⟩
        · exact ⟨e, by rw [move_other _ _ _ _ _ atC atD]; exact onList⟩

namespace Listed

variable {mem after : ByteMap} {cache : Nat} {lists : SlabLists}

theorem congr (listed : Listed layout mem cache lists)
    (heads : SameOn after mem (cache + 8) 24) (links : ∀ s, lists.Has s → SameOn after mem s 16) :
    Listed layout after cache lists := by
  refine ⟨listed.cachePage, listed.pages, listed.distinct, listed.disjoint, fun c => ?_⟩
  have sameHead : load after (cache + c.offset) 8 = load mem (cache + c.offset) 8 := by
    refine load_congr (heads.sub ?_ ?_) <;> cases c <;> simp only [SlabClass.offset] <;> omega
  unfold SlabList
  rw [sameHead]
  refine (listed.linked c).congr fun s member => ⟨?_, ?_⟩
  · exact load_congr ((links s ⟨c, member⟩).sub (Nat.le_refl _) (by omega))
  · exact load_congr ((links s ⟨c, member⟩).sub (by omega) (by omega))

theorem page (listed : Listed layout mem cache lists) (s : Nat) (isSlab : lists.Has s) :
    layout.IsPage s ∧ s ≠ cache := by
  obtain ⟨c, member⟩ := isSlab
  exact listed.pages c s member

/-- List surgery leaves the fields of a cache other than the heads. -/
theorem field_same (cachePage : layout.IsPage cache) {slabs : Nat → Prop}
    (pages : ∀ s, slabs s → layout.IsPage s ∧ s ≠ cache)
    (only : HeadersOnly mem after cache slabs) (offset n : Nat) (inside : offset + n ≤ pgSize)
    (notHead : offset + n ≤ 8 ∨ 32 ≤ offset) :
    load after (cache + offset) n = load mem (cache + offset) n := by
  have cacheAligned := cachePage.1
  refine load_congr fun x low high => only x (by omega) fun s isSlab => ?_
  obtain ⟨isPage, differs⟩ := pages s isSlab
  have aligned := isPage.1
  simp only [pgSize] at *
  omega

/-- List surgery leaves everything of a slab but its links. -/
theorem slab_same {objsz s : Nat} {avail : List Nat} (slab : SlabOk mem cache objsz s avail)
    (size : ObjSize objsz) (cachePage : layout.IsPage cache) {slabs : Nat → Prop}
    (pages : ∀ s, slabs s → layout.IsPage s ∧ s ≠ cache) (isPage : layout.IsPage s)
    (differs : s ≠ cache) (only : HeadersOnly mem after cache slabs) :
    SlabOk after cache objsz s avail := by
  have cacheAligned := cachePage.1
  have aligned := isPage.1
  refine slab.congr size fun x low high => only x ?_ fun t isSlab => ?_
  · simp only [pgSize] at *
    omega
  · obtain ⟨tPage, -⟩ := pages t isSlab
    have tAligned := tPage.1
    simp only [pgSize] at *
    omega

/-- `list_remove` from one list and `list_insert` into another. -/
theorem move_spec {s : Kernel} (listed : Listed layout s.mem cache lists) (c d : SlabClass)
    (differs : c ≠ d) (node : Nat) (member : node ∈ lists c) :
    wp (do listRemove (cache + c.offset) node; listInsert (cache + d.offset) node)
      (fun _ later => ∃ mem, later = s.withMem mem ∧
        Listed layout mem cache (lists.move c d node) ∧ HeadersOnly s.mem mem cache lists.Has)
      s := by
  obtain ⟨isPage, notCache⟩ := listed.pages c node member
  refine wp_seq (listed.remove_spec c node member) ?_
  rintro - _ ⟨mid, rfl, removed, firstOnly⟩
  have fresh : ¬ SlabLists.Has (Function.update lists c ((lists c).erase node)) node := by
    rintro ⟨e, onList⟩
    by_cases atC : e = c
    · subst atC
      rw [Function.update_self] at onList
      exact (listed.distinct e).not_mem_erase onList
    · rw [Function.update_of_ne atC] at onList
      exact listed.disjoint c e (Ne.symm atC) node member onList
  refine wp_mono (removed.insert_spec d node isPage notCache fresh) ?_
  rintro - _ ⟨mem, rfl, inserted, secondOnly⟩
  rw [Function.update_of_ne (Ne.symm differs)] at inserted
  refine ⟨mem, rfl, inserted, ?_⟩
  intro x outside away
  refine (secondOnly x outside ?_).trans (firstOnly x outside away)
  rintro t (rfl | ⟨e, onList⟩)
  · exact away t ⟨c, member⟩
  · by_cases atC : e = c
    · subst atC
      rw [Function.update_self] at onList
      exact away t ⟨e, List.mem_of_mem_erase onList⟩
    · rw [Function.update_of_ne atC] at onList
      exact away t ⟨e, onList⟩

end Listed

theorem objectsPerSlab_small {objsz : Nat} (size : ObjSize objsz) : objectsPerSlab objsz ≤ 507 := by
  have bound : (pgSize - slabHeader) / objsz ≤ (pgSize - slabHeader) / 8 :=
    Nat.div_le_div_left size.word (by decide)
  exact bound

/-- A cache without what its lists say about the slabs on them, and with the
counter of empty slabs read as it is. -/
structure CacheData (layout : Layout) (mem : ByteMap) (cache objsz : Nat) (lists : SlabLists)
    (avail : Nat → List Nat) (count : Nat) : Prop extends Listed layout mem cache lists where
  objszField : load mem cache 4 = objsz
  emptySlabs : load mem (cache + 32) 4 = count
  slab : ∀ s, lists.Has s → SlabOk mem cache objsz s (avail s)

/-- Moving a slab to another list changes nothing else. -/
theorem CacheData.move_spec {s : Kernel} {cache objsz : Nat} {lists : SlabLists}
    {avail : Nat → List Nat} {count : Nat}
    (holds : CacheData layout s.mem cache objsz lists avail count) (size : ObjSize objsz)
    (c d : SlabClass) (differs : c ≠ d) (node : Nat) (member : node ∈ lists c) :
    wp (do listRemove (cache + c.offset) node; listInsert (cache + d.offset) node)
      (fun _ after => ∃ mem, after = s.withMem mem ∧
        CacheData layout mem cache objsz (lists.move c d node) avail count ∧
        OutsideSame s.mem mem cache lists.Has) s := by
  have pages := holds.toListed.page
  refine wp_mono (holds.toListed.move_spec c d differs node member) ?_
  rintro - _ ⟨mem, rfl, moved, only⟩
  refine ⟨mem, rfl, ⟨moved, ?_, ?_, ?_⟩, only.outsideSame⟩
  · exact (Listed.field_same holds.cachePage pages only 0 4 (by simp [pgSize]) (by omega)).trans
      holds.objszField
  · exact (Listed.field_same holds.cachePage pages only 32 4 (by simp [pgSize]) (by omega)).trans
      holds.emptySlabs
  · intro t isSlab
    have before := (lists.has_move c d node differs member t).mp isSlab
    exact Listed.slab_same (holds.slab t before) size holds.cachePage pages (pages t before).1
      (pages t before).2 only

/-- Writes inside one slab leave the lists, the counter and the other slabs. -/
theorem CacheOk.inSlab {mem after : ByteMap} {cache objsz : Nat} {lists : SlabLists}
    {avail : Nat → List Nat} {node : Nat} {left : List Nat}
    (ok : CacheOk layout mem cache objsz lists avail) (size : ObjSize objsz)
    (isSlab : lists.Has node) (slab : SlabOk after cache objsz node left)
    (same : ∀ x, x < node + 16 ∨ node + pgSize ≤ x → after x = mem x) :
    CacheData layout after cache objsz lists (Function.update avail node left)
      (lists .empty).length ∧ OutsideSame mem after cache lists.Has := by
  obtain ⟨isPage, notCache⟩ := ok.toListed.page node isSlab
  have aligned := isPage.1
  have cacheAligned := ok.cachePage.1
  have fields : SameOn after mem cache 40 := by
    intro x low high
    apply same x
    simp only [pgSize] at *
    omega
  refine ⟨⟨?_, ?_, ?_, ?_⟩, ?_⟩
  · refine ok.toListed.congr (fields.sub (by omega) (by omega)) fun t onList x low high => ?_
    have tAligned := (ok.toListed.page t onList).1.1
    apply same x
    simp only [pgSize] at *
    omega
  · rw [load_congr (fields.sub (Nat.le_refl _) (by omega)), ok.objszField]
  · rw [load_congr (fields.sub (by omega) (by omega)), ok.emptySlabs]
  · intro t onList
    by_cases isNode : t = node
    · rw [isNode, Function.update_self]
      exact slab
    · rw [Function.update_of_ne isNode]
      have tAligned := (ok.toListed.page t onList).1.1
      refine (ok.slab t onList).congr size fun x low high => same x ?_
      simp only [pgSize] at *
      omega
  · intro x _ away
    have apart := away node isSlab
    exact same x (by omega)

/-- A slab without the first of its free objects. -/
theorem SlabOk.popped {mem after : ByteMap} {cache objsz t p : Nat} {rest : List Nat}
    (slab : SlabOk mem cache objsz t (p :: rest)) (size : ObjSize objsz)
    (next : load after (t + 16) 8 = load mem p 8) (count : load after (t + 24) 4 = rest.length)
    (same : ∀ x, x < t + 16 ∨ t + 28 ≤ x → after x = mem x) : SlabOk after cache objsz t rest := by
  have header : slabHeader = 40 := rfl
  refine ⟨?_, (List.nodup_cons.mp slab.nodup).2,
    fun q inRest => slab.objects q (List.mem_cons_of_mem _ inRest), count, ?_, ?_⟩
  · rw [next]
    refine slab.chain.2.congr fun q inRest x low high => same x ?_
    have inside := (slab.objects q (List.mem_cons_of_mem _ inRest)).inside size
    omega
  · rw [load_congr fun x low high => same x (by omega), slab.objectsnum]
  · rw [load_congr fun x low high => same x (by omega), slab.owner]

/-- Taking the first free object of a slab on the partial list. -/
theorem takeObject_spec {s : Kernel} {cache objsz : Nat} {lists : SlabLists}
    {avail : Nat → List Nat} (ok : CacheOk layout s.mem cache objsz lists avail)
    (size : ObjSize objsz) (node p : Nat) (rest : List Nat) (member : node ∈ lists .partly)
    (first : avail node = p :: rest) :
    wp (takeObject cache node) (fun got after => got = p ∧ ∃ mem lists', after = s.withMem mem ∧
      CacheOk layout mem cache objsz lists' (Function.update avail node rest) ∧
      (∀ t, lists'.Has t ↔ lists.Has t) ∧ lists' .empty = lists .empty ∧
      OutsideSame s.mem mem cache lists.Has ∧ ∀ t ∈ lists' .partly, t ∈ lists .partly) s := by
  have isPage := (ok.pages .partly node member).1
  have slab := ok.slab node ⟨.partly, member⟩
  rw [first] at slab
  have object := (slab.objects p (List.mem_cons_self ..)).inside size
  have count : (p :: rest).length ≤ 507 :=
    Nat.le_trans (avail_length_le size slab.nodup slab.objects) (objectsPerSlab_small size)
  rw [List.length_cons] at count
  have whole := isPage.inRam 0 pgSize (by simp)
  have word := size.word
  obtain ⟨head, -⟩ := slab.chain
  rw [takeObject, wp_bind, wp_loadField, head]
  refine ⟨isPage.inRam 16 8 (by simp [pgSize]), ?_⟩
  rw [wp_bind, wp_loadField]
  refine ⟨by simp only [InRam] at whole ⊢; omega, ?_⟩
  rw [wp_bind, wp_storeField]
  refine ⟨isPage.inRam 16 8 (by simp [pgSize]), ?_⟩
  have freenum : load (store s.mem (node + 16) 8 (load s.mem p 8)) (node + 24) 4 =
      rest.length + 1 := by
    rw [load_store_apart _ _ _ _ _ _ (by omega), slab.freenum, List.length_cons]
  rw [wp_bind, wp_loadField]
  refine ⟨isPage.inRam 24 4 (by simp [pgSize]), ?_⟩
  rw [withMem_mem, freenum, wp_bind, wp_storeField]
  refine ⟨isPage.inRam 24 4 (by simp [pgSize]), ?_⟩
  have lowered : (rest.length + 1 + (2 ^ 32 - 1)) % 256 ^ 4 = rest.length := by omega
  rw [wp_bind, wp_loadField]
  refine ⟨isPage.inRam 24 4 (by simp [pgSize]), ?_⟩
  rw [withMem_withMem, withMem_mem, withMem_mem, load_store_same, lowered]
  generalize taken : store (store s.mem (node + 16) 8 (load s.mem p 8)) (node + 24) 4
    (rest.length + 1 + (2 ^ 32 - 1)) = mem
  have same : ∀ x, x < node + 16 ∨ node + 28 ≤ x → mem x = s.mem x := by
    intro x outside
    rw [← taken]
    simp (disch := omega) only [store, copy_outside]
  have next : load mem (node + 16) 8 = load s.mem p 8 := by
    have fits := word_lt s.mem p
    rw [← taken, load_store_apart _ _ _ _ _ _ (by omega), load_store_same,
      show 256 ^ 8 = 2 ^ 64 by norm_num, Nat.mod_eq_of_lt fits]
  have counted : load mem (node + 24) 4 = rest.length := by
    rw [← taken, load_store_same, lowered]
  obtain ⟨data, outside⟩ := ok.inSlab size ⟨.partly, member⟩ (slab.popped size next counted same)
    fun x away => same x (by simp only [pgSize] at away; omega)
  have others : ∀ t, t ∈ lists .full ∨ t ∈ lists .empty → Function.update avail node rest t = avail t := by
    rintro t (onList | onList)
    · refine Function.update_of_ne ?_ _ _
      rintro rfl
      exact ok.disjoint .full .partly (by decide) t onList member
    · refine Function.update_of_ne ?_ _ _
      rintro rfl
      exact ok.disjoint .empty .partly (by decide) t onList member
  rw [wp_bind, wp_onlyIf]
  by_cases last : rest.length = 0
  · rw [if_pos last]
    have onMem : CacheData layout (s.withMem mem).mem cache objsz lists
        (Function.update avail node rest) (lists .empty).length := data
    apply wp_mono (onMem.move_spec size .partly .full (by decide) node member)
    rintro - _ ⟨after, rfl, moved, movedOutside⟩
    have emptyKept : lists.move .partly .full node .empty = lists .empty :=
      lists.move_other _ _ _ _ (by decide) (by decide)
    rw [wp_pure]
    refine ⟨rfl, after, lists.move .partly .full node, rfl, ⟨moved.toListed, moved.objszField, ?_,
      moved.slab, ?_, ?_, ?_, ?_⟩, lists.has_move .partly .full node (by decide) member, emptyKept,
      outside.trans movedOutside, ?_⟩
    · rw [emptyKept]
      exact moved.emptySlabs
    · intro t onList
      rw [SlabLists.move_target] at onList
      rcases List.mem_cons.mp onList with rfl | onList
      · rw [Function.update_self]
        exact List.eq_nil_of_length_eq_zero last
      · rw [others t (Or.inl onList)]
        exact ok.fullAvail t onList
    · intro t onList
      rw [SlabLists.move_source _ _ _ _ (by decide)] at onList
      have isOther : t ≠ node := by
        rintro rfl
        exact (ok.distinct .partly).not_mem_erase onList
      rw [Function.update_of_ne isOther]
      exact ok.partlyAvail t (List.mem_of_mem_erase onList)
    · intro t onList
      rw [emptyKept] at onList
      rw [others t (Or.inr onList)]
      exact ok.emptyAvail t onList
    · rw [emptyKept]
      exact ok.emptyFew
    · intro t onList
      rw [SlabLists.move_source _ _ _ _ (by decide)] at onList
      exact List.mem_of_mem_erase onList
  · rw [if_neg last, wp_pure]
    refine ⟨rfl, mem, lists, rfl, ⟨data.toListed, data.objszField, data.emptySlabs, data.slab, ?_,
      ?_, ?_, ok.emptyFew⟩, fun _ => Iff.rfl, rfl, outside, fun _ onList => onList⟩
    · intro t onList
      rw [others t (Or.inl onList)]
      exact ok.fullAvail t onList
    · intro t onList
      by_cases isNode : t = node
      · subst isNode
        rw [Function.update_self]
        exact fun nil => last (by rw [nil]; rfl)
      · rw [Function.update_of_ne isNode]
        exact ok.partlyAvail t onList
    · intro t onList
      rw [others t (Or.inr onList)]
      exact ok.emptyAvail t onList

/-- All objects of a slab, in the order `slabinit` chains them. -/
def allObjects (objsz s : Nat) : List Nat :=
  objectRun objsz (objectsPerSlab objsz) (s + slabHeader)

/-- A cache depends on its own fields, on the headers of its slabs and on the
first words of its free objects. -/
theorem CacheOk.congr_free {mem after : ByteMap} {cache objsz : Nat} {lists : SlabLists}
    {avail : Nat → List Nat} (ok : CacheOk layout mem cache objsz lists avail)
    (fields : SameOn after mem cache 40) (headers : ∀ t, lists.Has t → SameOn after mem t 40)
    (objects : ∀ t, lists.Has t → ∀ p ∈ avail t, SameOn after mem p 8) :
    CacheOk layout after cache objsz lists avail := by
  refine ⟨ok.toListed.congr (fields.sub (by omega) (by omega)) ?_, ?_, ?_, ?_, ok.fullAvail,
    ok.partlyAvail, ok.emptyAvail, ok.emptyFew⟩
  · exact fun t isSlab => (headers t isSlab).sub (Nat.le_refl _) (by omega)
  · rw [load_congr (fields.sub (Nat.le_refl _) (by omega)), ok.objszField]
  · rw [load_congr (fields.sub (by omega) (by omega)), ok.emptySlabs]
  · intro t isSlab
    exact (ok.slab t isSlab).congr_free ((headers t isSlab).sub (by omega) (by omega))
      (objects t isSlab)

/-- A cache depends on its own page and on its slabs. -/
theorem CacheOk.congr {mem after : ByteMap} {cache objsz : Nat} {lists : SlabLists}
    {avail : Nat → List Nat} (ok : CacheOk layout mem cache objsz lists avail)
    (size : ObjSize objsz) (cacheSame : SameOn after mem cache pgSize)
    (slabsSame : ∀ t, lists.Has t → SameOn after mem t pgSize) :
    CacheOk layout after cache objsz lists avail := by
  have wide : pgSize = 4096 := rfl
  rw [wide] at cacheSame slabsSame
  refine ok.congr_free (cacheSame.sub (Nat.le_refl _) (by omega)) ?_ ?_
  · exact fun t isSlab => (slabsSame t isSlab).sub (Nat.le_refl _) (by omega)
  · intro t isSlab p member
    have inside := ((ok.slab t isSlab).objects p member).inside size
    have word := size.word
    simp only [slabHeader, pgSize] at inside
    exact (slabsSame t isSlab).sub (by omega) (by omega)

/-- The lists without a slab of the empty list. -/
def SlabLists.dropEmpty (lists : SlabLists) (node : Nat) : SlabLists :=
  Function.update lists .empty ((lists .empty).erase node)

/-- The lists with one more slab on the partial list. -/
def SlabLists.adopt (lists : SlabLists) (node : Nat) : SlabLists :=
  Function.update lists .partly (node :: lists .partly)

/-- Some slab has a free object. -/
def SlabLists.Stocked (lists : SlabLists) : Prop := lists .partly ≠ [] ∨ lists .empty ≠ []

theorem SlabLists.dropEmpty_empty (lists : SlabLists) (node : Nat) :
    lists.dropEmpty node .empty = (lists .empty).erase node := Function.update_self ..

theorem SlabLists.dropEmpty_other (lists : SlabLists) (node : Nat) {c : SlabClass}
    (notEmpty : c ≠ .empty) : lists.dropEmpty node c = lists c :=
  Function.update_of_ne notEmpty _ _

theorem SlabLists.adopt_partly (lists : SlabLists) (node : Nat) :
    lists.adopt node .partly = node :: lists .partly := Function.update_self ..

theorem SlabLists.adopt_other (lists : SlabLists) (node : Nat) {c : SlabClass}
    (notPartly : c ≠ .partly) : lists.adopt node c = lists c :=
  Function.update_of_ne notPartly _ _

theorem SlabLists.has_dropEmpty (lists : SlabLists) (node t : Nat)
    (isSlab : (lists.dropEmpty node).Has t) : lists.Has t := by
  obtain ⟨c, onList⟩ := isSlab
  by_cases atEmpty : c = .empty
  · subst atEmpty
    rw [dropEmpty_empty] at onList
    exact ⟨.empty, List.mem_of_mem_erase onList⟩
  · rw [dropEmpty_other lists node atEmpty] at onList
    exact ⟨c, onList⟩

/-- The slabs after one was taken in. -/
theorem SlabLists.has_adopt (lists : SlabLists) (node t : Nat) :
    (lists.adopt node).Has t ↔ t = node ∨ lists.Has t := by
  constructor
  · rintro ⟨c, onList⟩
    by_cases atPartly : c = .partly
    · subst atPartly
      rw [adopt_partly] at onList
      exact (List.mem_cons.mp onList).imp_right fun inside => ⟨.partly, inside⟩
    · rw [adopt_other lists node atPartly] at onList
      exact Or.inr ⟨c, onList⟩
  · rintro (rfl | ⟨c, onList⟩)
    · exact ⟨.partly, by rw [adopt_partly]; exact List.mem_cons_self ..⟩
    · by_cases atPartly : c = .partly
      · subst atPartly
        exact ⟨.partly, by rw [adopt_partly]; exact List.mem_cons_of_mem _ onList⟩
      · exact ⟨c, by rw [adopt_other lists node atPartly]; exact onList⟩

/-- Dropping a slab leaves exactly the other slabs. -/
theorem Listed.has_dropEmpty {mem : ByteMap} {cache : Nat} {lists : SlabLists}
    (listed : Listed layout mem cache lists) (node : Nat) (member : node ∈ lists .empty) (t : Nat) :
    (lists.dropEmpty node).Has t ↔ t ≠ node ∧ lists.Has t := by
  constructor
  · intro isSlab
    refine ⟨?_, lists.has_dropEmpty node t isSlab⟩
    rintro rfl
    obtain ⟨c, onList⟩ := isSlab
    by_cases atEmpty : c = .empty
    · subst atEmpty
      rw [SlabLists.dropEmpty_empty] at onList
      exact (listed.distinct .empty).not_mem_erase onList
    · rw [lists.dropEmpty_other t atEmpty] at onList
      exact listed.disjoint .empty c (Ne.symm atEmpty) t member onList
  · rintro ⟨differs, c, onList⟩
    refine ⟨c, ?_⟩
    by_cases atEmpty : c = .empty
    · subst atEmpty
      rw [SlabLists.dropEmpty_empty]
      exact (List.mem_erase_of_ne differs).mpr onList
    · rw [lists.dropEmpty_other node atEmpty]
      exact onList

/-- A slab of the empty list that goes to the partial list stays a slab of the cache. -/
theorem Listed.has_reused {mem : ByteMap} {cache : Nat} {lists : SlabLists}
    (listed : Listed layout mem cache lists) (node : Nat) (member : node ∈ lists .empty) (t : Nat) :
    ((lists.dropEmpty node).adopt node).Has t ↔ lists.Has t := by
  rw [SlabLists.has_adopt, listed.has_dropEmpty node member]
  constructor
  · rintro (rfl | ⟨-, isSlab⟩)
    · exact ⟨.empty, member⟩
    · exact isSlab
  · intro isSlab
    by_cases isNode : t = node
    · exact Or.inl isNode
    · exact Or.inr ⟨isNode, isSlab⟩

/-- Taking a slab off the empty list, with its counter. -/
theorem detach_spec {s : Kernel} {cache objsz : Nat} {lists : SlabLists}
    {avail : Nat → List Nat} (ok : CacheOk layout s.mem cache objsz lists avail)
    (size : ObjSize objsz) (node : Nat) (member : node ∈ lists .empty) :
    wp (do
      listRemove (cache + 24) node
      let empty ← loadField (cache + 32) 4
      storeField (cache + 32) 4 (empty + (2 ^ 32 - 1)))
      (fun _ after => ∃ mem, after = s.withMem mem ∧
        CacheOk layout mem cache objsz (lists.dropEmpty node) avail ∧
        SlabOk mem cache objsz node (avail node) ∧ OutsideSame s.mem mem cache lists.Has) s := by
  have cachePage := ok.cachePage
  have cacheAligned := cachePage.1
  have pages := ok.toListed.page
  have fewer : ((lists .empty).erase node).length + 1 = (lists .empty).length := by
    rw [List.length_erase_of_mem member]
    have positive := List.length_pos_of_mem member
    omega
  have few := ok.emptyFew
  have emptyNow := lists.dropEmpty_empty node
  refine wp_seq (ok.toListed.remove_spec .empty node member) ?_
  rintro - _ ⟨first, rfl, removed, only⟩
  have count : load first (cache + 32) 4 = (lists .empty).length :=
    (Listed.field_same cachePage pages only 32 4 (by simp [pgSize]) (by omega)).trans ok.emptySlabs
  rw [wp_bind, wp_loadField]
  refine ⟨cachePage.inRam 32 4 (by simp [pgSize]), ?_⟩
  rw [withMem_mem, count, wp_storeField]
  refine ⟨cachePage.inRam 32 4 (by simp [pgSize]), ?_⟩
  rw [withMem_withMem, withMem_mem]
  generalize counted : store first (cache + 32) 4 ((lists .empty).length + (2 ^ 32 - 1)) = mem
  have same : ∀ x, x < cache + 32 ∨ cache + 36 ≤ x → mem x = first x := by
    intro x outside
    rw [← counted]
    exact copy_outside _ _ _ _ _ (by omega)
  have lowered : load mem (cache + 32) 4 = ((lists .empty).erase node).length := by
    rw [← counted, load_store_same]
    unfold maxEmptySlabs at few
    omega
  have relisted : Listed layout mem cache (lists.dropEmpty node) := by
    refine removed.congr (fun x low high => same x (by omega)) fun t isSlab x low high => ?_
    obtain ⟨tPage, tNe⟩ := pages t (lists.has_dropEmpty node t isSlab)
    have tAligned := tPage.1
    simp only [pgSize] at *
    exact same x (by omega)
  have slabs : ∀ t, lists.Has t → SlabOk mem cache objsz t (avail t) := by
    intro t isSlab
    obtain ⟨tPage, tNe⟩ := pages t isSlab
    have tAligned := tPage.1
    have atFirst := Listed.slab_same (ok.slab t isSlab) size cachePage pages tPage tNe only
    refine atFirst.congr size fun x low high => same x ?_
    simp only [pgSize] at *
    omega
  refine ⟨mem, rfl, ⟨relisted, ?_, ?_, ?_, ok.fullAvail, ok.partlyAvail, ?_, ?_⟩, ?_, ?_⟩
  · have atLast : load mem (cache + 0) 4 = load first (cache + 0) 4 :=
      load_congr fun x low high => same x (by omega)
    exact atLast.trans ((Listed.field_same cachePage pages only 0 4
      (by simp [pgSize]) (by omega)).trans ok.objszField)
  · rw [emptyNow, lowered]
  · exact fun t isSlab => slabs t (lists.has_dropEmpty node t isSlab)
  · intro t onList
    rw [emptyNow] at onList
    exact ok.emptyAvail t (List.mem_of_mem_erase onList)
  · rw [emptyNow]
    omega
  · exact slabs node ⟨.empty, member⟩
  · intro x notCache away
    rw [same x (by simp only [pgSize] at notCache; omega)]
    exact only.outsideSame x notCache away

/-- Putting a slab with a free object on the partial list. -/
theorem adopt_spec {s : Kernel} {cache objsz : Nat} {lists : SlabLists}
    {avail : Nat → List Nat} (ok : CacheOk layout s.mem cache objsz lists avail)
    (size : ObjSize objsz) (node : Nat) (isPage : layout.IsPage node) (notCache : node ≠ cache)
    (fresh : ¬ lists.Has node) (slab : SlabOk s.mem cache objsz node (avail node))
    (some : avail node ≠ []) :
    wp (listInsert (cache + 16) node) (fun _ after => ∃ mem, after = s.withMem mem ∧
      CacheOk layout mem cache objsz (lists.adopt node) avail ∧
      OutsideSame s.mem mem cache (lists.adopt node).Has) s := by
  have cachePage := ok.cachePage
  have pages : ∀ t, (t = node ∨ lists.Has t) → layout.IsPage t ∧ t ≠ cache := by
    rintro t (rfl | isSlab)
    · exact ⟨isPage, notCache⟩
    · exact ok.toListed.page t isSlab
  have emptyKept : lists.adopt node .empty = lists .empty := lists.adopt_other node (by decide)
  have fullKept : lists.adopt node .full = lists .full := lists.adopt_other node (by decide)
  have partlyNow := lists.adopt_partly node
  apply wp_mono (ok.toListed.insert_spec .partly node isPage notCache fresh)
  rintro - _ ⟨mem, rfl, inserted, only⟩
  refine ⟨mem, rfl, ⟨inserted, ?_, ?_, ?_, ?_, ?_, ?_, ?_⟩, ?_⟩
  · exact (Listed.field_same cachePage pages only 0 4 (by simp [pgSize]) (by omega)).trans
      ok.objszField
  · rw [emptyKept]
    exact (Listed.field_same cachePage pages only 32 4 (by simp [pgSize]) (by omega)).trans
      ok.emptySlabs
  · intro t isSlab
    have before := (lists.has_adopt node t).mp isSlab
    have earlier : SlabOk s.mem cache objsz t (avail t) := by
      rcases before with rfl | isSlab
      · exact slab
      · exact ok.slab t isSlab
    exact Listed.slab_same earlier size cachePage pages (pages t before).1 (pages t before).2 only
  · rw [fullKept]
    exact ok.fullAvail
  · intro t onList
    rw [partlyNow] at onList
    rcases List.mem_cons.mp onList with rfl | onList
    · exact some
    · exact ok.partlyAvail t onList
  · rw [emptyKept]
    exact ok.emptyAvail
  · rw [emptyKept]
    exact ok.emptyFew
  · exact only.outsideSame.mono fun t => (lists.has_adopt node t).mpr

/-- Free objects of pages that are no slabs do not matter. -/
theorem CacheOk.avail_congr {mem : ByteMap} {cache objsz : Nat} {lists : SlabLists}
    {avail other : Nat → List Nat} (ok : CacheOk layout mem cache objsz lists avail)
    (same : ∀ t, lists.Has t → other t = avail t) : CacheOk layout mem cache objsz lists other := by
  refine ⟨ok.toListed, ok.objszField, ok.emptySlabs, ?_, ?_, ?_, ?_, ok.emptyFew⟩
  · intro t isSlab
    rw [same t isSlab]
    exact ok.slab t isSlab
  · intro t onList
    rw [same t ⟨.full, onList⟩]
    exact ok.fullAvail t onList
  · intro t onList
    rw [same t ⟨.partly, onList⟩]
    exact ok.partlyAvail t onList
  · intro t onList
    rw [same t ⟨.empty, onList⟩]
    exact ok.emptyAvail t onList

/-- A slab of the empty list goes back to the partial list. -/
theorem reuse_spec {s : Kernel} {cache objsz : Nat} {lists : SlabLists}
    {avail : Nat → List Nat} (ok : CacheOk layout s.mem cache objsz lists avail)
    (size : ObjSize objsz) (node : Nat) (member : node ∈ lists .empty) :
    wp (do
      listRemove (cache + 24) node
      let empty ← loadField (cache + 32) 4
      storeField (cache + 32) 4 (empty + (2 ^ 32 - 1))
      listInsert (cache + 16) node)
      (fun _ after => ∃ mem, after = s.withMem mem ∧
        CacheOk layout mem cache objsz ((lists.dropEmpty node).adopt node) avail ∧
        OutsideSame s.mem mem cache lists.Has) s := by
  obtain ⟨isPage, notCache⟩ := ok.pages .empty node member
  have program : (do
      listRemove (cache + 24) node
      let empty ← loadField (cache + 32) 4
      storeField (cache + 32) 4 (empty + (2 ^ 32 - 1))
      listInsert (cache + 16) node : KernelProg Unit) = (do
      (do
        listRemove (cache + 24) node
        let empty ← loadField (cache + 32) 4
        storeField (cache + 32) 4 (empty + (2 ^ 32 - 1)))
      listInsert (cache + 16) node) := by simp only [bind_assoc]
  have some : avail node ≠ [] := by
    intro nil
    have whole := ok.emptyAvail node member
    rw [nil, List.length_nil] at whole
    have some := size.some
    omega
  have gone : ¬ (lists.dropEmpty node).Has node :=
    fun isSlab => ((ok.toListed.has_dropEmpty node member node).mp isSlab).1 rfl
  rw [program]
  apply wp_seq (detach_spec ok size node member)
  rintro - _ ⟨first, rfl, detached, slab, firstOutside⟩
  have midway : CacheOk layout (s.withMem first).mem cache objsz (lists.dropEmpty node) avail :=
    detached
  apply wp_mono (adopt_spec midway size node isPage notCache gone slab some)
  rintro - _ ⟨mem, rfl, adopted, lastOutside⟩
  exact ⟨mem, rfl, adopted, firstOutside.trans
    (lastOutside.mono fun t => (ok.toListed.has_reused node member t).mp)⟩

/-- A fresh page becomes a slab on the partial list. -/
theorem fresh_spec {s : Kernel} {cache objsz : Nat} {lists : SlabLists}
    {avail : Nat → List Nat} (ok : CacheOk layout s.mem cache objsz lists avail)
    (size : ObjSize objsz) (page : Nat) (isPage : layout.IsPage page) (notCache : page ≠ cache)
    (fresh : ¬ lists.Has page) :
    wp (do slabinit cache page; listInsert (cache + 16) page)
      (fun _ after => ∃ mem, after = s.withMem mem ∧
        CacheOk layout mem cache objsz (lists.adopt page)
          (Function.update avail page (allObjects objsz page)) ∧
        OutsideSame s.mem mem cache (lists.adopt page).Has) s := by
  have cacheAligned := ok.cachePage.1
  have pages := ok.toListed.page
  have aligned := isPage.1
  have some : allObjects objsz page ≠ [] := by
    intro nil
    have whole := length_objectRun objsz (objectsPerSlab objsz) (page + slabHeader)
    rw [show objectRun objsz (objectsPerSlab objsz) (page + slabHeader) = [] from nil,
      List.length_nil] at whole
    have some := size.some
    omega
  apply wp_seq (slabinit_spec size ok.cachePage isPage notCache ok.objszField)
  rintro - _ ⟨first, rfl, slab, same⟩
  have atFirst : CacheOk layout (s.withMem first).mem cache objsz lists
      (Function.update avail page (allObjects objsz page)) := by
    refine (ok.congr size (fun x low high => same x ?_)
      fun t isSlab x low high => same x ?_).avail_congr fun t isSlab => ?_
    · simp only [pgSize] at *
      omega
    · have tAligned := (pages t isSlab).1.1
      have differs : t ≠ page := fun equal => fresh (equal ▸ isSlab)
      simp only [pgSize] at *
      omega
    · refine Function.update_of_ne ?_ _ _
      rintro rfl
      exact fresh isSlab
  refine wp_mono (adopt_spec atFirst size page isPage notCache fresh
    (by rw [Function.update_self]; exact slab) (by rw [Function.update_self]; exact some)) ?_
  rintro - _ ⟨mem, rfl, adopted, outside⟩
  refine ⟨mem, rfl, adopted, fun x notCache away => (outside x notCache away).trans (same x ?_)⟩
  exact away page ((lists.has_adopt page page).mpr (Or.inl rfl))

/-- Writes to a cache and its slabs keep a free list of other pages. -/
theorem FreeList.outside {s : Kernel} {free : List Nat} (holds : FreeList layout s free)
    {mem : ByteMap} {cache : Nat} {slabs : Nat → Prop} (cachePage : layout.IsPage cache)
    (pages : ∀ t, slabs t → layout.IsPage t)
    (apart : ∀ page ∈ free, page ≠ cache ∧ ¬ slabs page)
    (same : OutsideSame s.mem mem cache slabs) : FreeList layout (s.withMem mem) free := by
  refine holds.congr rfl fun page member x low high => same x ?_ fun t isSlab => ?_
  · have aligned := (holds.pages page member).1
    have cacheAligned := cachePage.1
    have differs := (apart page member).1
    simp only [pgSize] at *
    omega
  · have aligned := (holds.pages page member).1
    have tAligned := (pages t isSlab).1
    have differs : page ≠ t := fun equal => (apart page member).2 (equal ▸ isSlab)
    simp only [pgSize] at *
    omega

/-- A cache stays as it is when a page that is none of its own is taken. -/
theorem CacheOk.popPage {s : Kernel} {cache objsz page : Nat} {lists : SlabLists}
    {avail : Nat → List Nat} {free : List Nat}
    (ok : CacheOk layout s.mem cache objsz lists avail) (size : ObjSize objsz)
    (holds : FreeList layout s (page :: free)) (notCache : page ≠ cache)
    (fresh : ¬ lists.Has page) : CacheOk layout s.popPage.mem cache objsz lists avail := by
  have aligned := (holds.pages page (List.mem_cons_self ..)).1
  have cacheAligned := ok.cachePage.1
  refine ok.congr size (fun x low high => holds.popPage_outside x ?_)
    fun t isSlab x low high => holds.popPage_outside x ?_
  · simp only [pgSize] at *
    omega
  · have tAligned := (ok.toListed.page t isSlab).1.1
    have differs : t ≠ page := fun equal => fresh (equal ▸ isSlab)
    simp only [pgSize] at *
    omega

/-- The slabs after one was picked: those there were, or the page `node` is a new one beside them
with all its objects free. -/
def Restocked (objsz : Nat) (lists : SlabLists) (avail : Nat → List Nat) (free : List Nat)
    (node : Nat) (lists' : SlabLists) (avail' : Nat → List Nat) (free' : List Nat) : Prop :=
  (free' = free ∧ avail' = avail ∧ ∀ t, lists'.Has t ↔ lists.Has t) ∨
  (free = node :: free' ∧ avail' = Function.update avail node (allObjects objsz node) ∧
    ∀ t, lists'.Has t ↔ t = node ∨ lists.Has t)

/-- What `pickSlab` gives: null where there is neither a slab with a free object nor a free page,
or a slab at the list of partly used ones, which was there, was empty, or is new. -/
def Picked (layout : Layout) (s : Kernel) (cache objsz : Nat) (lists : SlabLists)
    (avail : Nat → List Nat) (free : List Nat) (node : Nat) (after : Kernel) : Prop :=
  (node = 0 ∧ after = s ∧ free = [] ∧ ¬ lists.Stocked) ∨
  ∃ lists' avail' free', node ≠ 0 ∧ node ∈ lists' .partly ∧
    CacheOk layout after.mem cache objsz lists' avail' ∧ FreeList layout after free' ∧
    SameGlobals s after ∧ Restocked objsz lists avail free node lists' avail' free' ∧
    (lists' .empty).length ≤ (lists .empty).length ∧
    OutsideSame s.mem after.mem cache lists'.Has ∧
    (∀ t ∈ lists' .partly, t = node ∨ t ∈ lists .partly) ∧
    (lists.Stocked ∧ free' = free ∨ ¬ lists.Stocked ∧ free = node :: free')

section

variable {s : Kernel} {cache objsz : Nat} {lists : SlabLists} {avail : Nat → List Nat}
  {free : List Nat}

/-- An empty slab goes to the list of partly used ones. -/
theorem pickSlab_reuse (ok : CacheOk layout s.mem cache objsz lists avail) (size : ObjSize objsz)
    (holds : FreeList layout s free) (apart : ∀ page ∈ free, page ≠ cache ∧ ¬ lists.Has page)
    (partly : lists .partly = []) {node : Nat} (onList : node ∈ lists .empty) :
    wp (do
      listRemove (cache + 24) node
      let empty ← loadField (cache + 32) 4
      storeField (cache + 32) 4 (empty + (2 ^ 32 - 1))
      listInsert (cache + 16) node
      return node : KernelProg Nat) (Picked layout s cache objsz lists avail free) s := by
  have pages := ok.toListed.page
  have nonzero := (pages node ⟨.empty, onList⟩).1.ne_zero
  have program : (do
      listRemove (cache + 24) node
      let empty ← loadField (cache + 32) 4
      storeField (cache + 32) 4 (empty + (2 ^ 32 - 1))
      listInsert (cache + 16) node
      return node : KernelProg Nat) = (do
      (do
        listRemove (cache + 24) node
        let empty ← loadField (cache + 32) 4
        storeField (cache + 32) 4 (empty + (2 ^ 32 - 1))
        listInsert (cache + 16) node)
      return node) := by simp only [bind_assoc]
  rw [program]
  refine wp_seq (reuse_spec ok size node onList) ?_
  rintro - _ ⟨mem, rfl, reused, outside⟩
  have kept := ok.toListed.has_reused node onList
  have shorter : (lists.dropEmpty node).adopt node .empty = (lists .empty).erase node := by
    rw [SlabLists.adopt_other _ node (by decide), SlabLists.dropEmpty_empty]
  have longer : (lists.dropEmpty node).adopt node .partly = [node] := by
    rw [SlabLists.adopt_partly, lists.dropEmpty_other node (by decide), partly]
  rw [wp_pure]
  refine Or.inr ⟨(lists.dropEmpty node).adopt node, avail, free, nonzero, ?_, reused, ?_, rfl,
    Or.inl ⟨rfl, rfl, kept⟩, ?_, outside.mono fun t isSlab => (kept t).mpr isSlab, ?_,
    Or.inl ⟨Or.inr (List.ne_nil_of_mem onList), rfl⟩⟩
  · rw [longer]
    exact List.mem_cons_self ..
  · exact holds.outside ok.cachePage (fun t isSlab => (pages t isSlab).1) apart outside
  · rw [shorter, List.length_erase_of_mem onList]
    exact Nat.sub_le _ _
  · intro t inList
    rw [longer] at inList
    exact Or.inl (List.mem_singleton.mp inList)

/-- A new slab takes a free page, and there is none where the list of pages is empty. -/
theorem pickSlab_fresh (ok : CacheOk layout s.mem cache objsz lists avail) (size : ObjSize objsz)
    (holds : FreeList layout s free) (apart : ∀ page ∈ free, page ≠ cache ∧ ¬ lists.Has page)
    (partly : lists .partly = []) (empty : lists .empty = []) :
    wp (do
      let page ← kalloc
      if page = 0 then return 0
      else do
        slabinit cache page
        listInsert (cache + 16) page
        return page : KernelProg Nat) (Picked layout s cache objsz lists avail free) s := by
  have cachePage := ok.cachePage
  have pages := ok.toListed.page
  have noStock : ¬ lists.Stocked := by simp [SlabLists.Stocked, partly, empty]
  cases free with
  | nil =>
    apply wp_seq (kalloc_empty holds)
    rintro _ _ ⟨rfl, rfl⟩
    rw [if_pos rfl, wp_pure]
    exact Or.inl ⟨rfl, rfl, rfl, noStock⟩
  | cons page free =>
    have isPage := holds.pages page (List.mem_cons_self ..)
    obtain ⟨notCache, fresh⟩ := apart page (List.mem_cons_self ..)
    apply wp_seq (kalloc_cons holds)
    rintro got _ ⟨isHead, rfl, popped⟩
    rw [isHead, if_neg isPage.ne_zero]
    have popOk := ok.popPage size holds notCache fresh
    have program : (do
        slabinit cache page
        listInsert (cache + 16) page
        return page : KernelProg Nat) = (do
        (do slabinit cache page; listInsert (cache + 16) page)
        return page) := by simp only [bind_assoc]
    rw [program]
    apply wp_seq (fresh_spec popOk size page isPage notCache fresh)
    rintro - _ ⟨mem, rfl, made, outside⟩
    have has := lists.has_adopt page
    have onlyNew : ∀ other ∈ free, other ≠ cache ∧ ¬ (lists.adopt page).Has other := by
      intro other member
      rw [has]
      obtain ⟨otherNe, notSlab⟩ := apart other (List.mem_cons_of_mem _ member)
      refine ⟨otherNe, not_or.mpr ⟨?_, notSlab⟩⟩
      rintro rfl
      exact (List.nodup_cons.mp holds.nodup).1 member
    have freed := popped.outside cachePage (fun t isSlab => by
      rcases (has t).mp isSlab with rfl | isSlab
      · exact isPage
      · exact (pages t isSlab).1) onlyNew outside
    rw [wp_pure]
    refine Or.inr ⟨_, _, free, isPage.ne_zero, ?_, made, freed, rfl,
      Or.inr ⟨rfl, rfl, has⟩, ?_, ?_, ?_, Or.inr ⟨noStock, rfl⟩⟩
    · rw [SlabLists.adopt_partly]
      exact List.mem_cons_self ..
    · rw [lists.adopt_other page (by decide), empty]
    · intro x notCache away
      have awayPage := away page ((has page).mpr (Or.inl rfl))
      have last := outside x notCache away
      exact last.trans (holds.popPage_outside x awayPage)
    · intro t inList
      rw [SlabLists.adopt_partly] at inList
      exact List.mem_cons.mp inList

/-- `pickSlab` finds a slab with a free object: a partly used one, else an empty one that is moved,
else a new one. It fails only without a free page. -/
theorem pickSlab_spec (ok : CacheOk layout s.mem cache objsz lists avail) (size : ObjSize objsz)
    (holds : FreeList layout s free) (apart : ∀ page ∈ free, page ≠ cache ∧ ¬ lists.Has page) :
    wp (pickSlab cache) (Picked layout s cache objsz lists avail free) s := by
  have cachePage := ok.cachePage
  have pages := ok.toListed.page
  rw [pickSlab, wp_bind, wp_loadField]
  refine ⟨cachePage.inRam 16 8 (by simp [pgSize]), ?_⟩
  have partlyHead := (ok.linked .partly).head_eq
  have emptyHead := (ok.linked .empty).head_eq
  simp only [SlabClass.offset] at partlyHead emptyHead
  cases partly : lists .partly with
  | cons node others =>
    have onList : node ∈ lists .partly := by rw [partly]; exact List.mem_cons_self ..
    have nonzero := (pages node ⟨.partly, onList⟩).1.ne_zero
    rw [partly, List.headD_cons] at partlyHead
    rw [partlyHead, if_pos nonzero, wp_pure]
    exact Or.inr ⟨lists, avail, free, nonzero, onList, ok, holds, rfl,
      Or.inl ⟨rfl, rfl, fun _ => Iff.rfl⟩, Nat.le_refl _, fun _ _ _ => rfl,
      fun t inList => Or.inr inList, Or.inl ⟨Or.inl (by simp [partly]), rfl⟩⟩
  | nil =>
    rw [partly, List.headD_nil] at partlyHead
    rw [partlyHead, if_neg (fun nonnull => nonnull rfl), wp_bind, wp_loadField]
    refine ⟨cachePage.inRam 24 8 (by simp [pgSize]), ?_⟩
    cases empty : lists .empty with
    | cons node others =>
      have onList : node ∈ lists .empty := by rw [empty]; exact List.mem_cons_self ..
      have nonzero := (pages node ⟨.empty, onList⟩).1.ne_zero
      rw [empty, List.headD_cons] at emptyHead
      rw [emptyHead, if_neg nonzero]
      exact pickSlab_reuse ok size holds apart partly onList
    | nil =>
      rw [empty, List.headD_nil] at emptyHead
      rw [emptyHead, if_pos rfl]
      exact pickSlab_fresh ok size holds apart partly empty

end

/-- The object is handed out: it belongs to a slab and is not free. -/
def Taken (objsz : Nat) (lists : SlabLists) (avail : Nat → List Nat) (p : Nat) : Prop :=
  ∃ slab, lists.Has slab ∧ IsObject objsz slab p ∧ p ∉ avail slab

/-- No slab on the partial list has all its objects free. -/
def NoneWhole (objsz : Nat) (lists : SlabLists) (avail : Nat → List Nat) : Prop :=
  ∀ t ∈ lists .partly, (avail t).length < objectsPerSlab objsz

/-- A cache next to the free list, between two calls. -/
structure CacheHeap (layout : Layout) (s : Kernel) (cache objsz : Nat) (lists : SlabLists)
    (avail : Nat → List Nat) (free : List Nat) : Prop where
  ok : CacheOk layout s.mem cache objsz lists avail
  freeList : FreeList layout s free
  apart : ∀ page ∈ free, page ≠ cache ∧ ¬ lists.Has page
  retained : (lists .empty).length ≤ maxEmptySlabs

/-- The pages of the cache's slabs and the free pages stay the same together. -/
def SamePages (lists lists' : SlabLists) (free free' : List Nat) : Prop :=
  ∀ page, (lists'.Has page ∨ page ∈ free') ↔ (lists.Has page ∨ page ∈ free)

/-- An object lies in one slab page only. -/
theorem IsObject.unique {objsz s t p : Nat} (size : ObjSize objsz) (first : IsObject objsz s p)
    (second : IsObject objsz t p) (sAligned : s % pgSize = 0) (tAligned : t % pgSize = 0) :
    s = t := by
  have inS := first.inside size
  have inT := second.inside size
  have word := size.word
  simp only [pgSize, slabHeader] at *
  omega

section

variable {objsz node : Nat} {lists lists' : SlabLists} {avail avail' : Nat → List Nat}
  {free free' : List Nat}

namespace Restocked

/-- A page is a slab or free as before. -/
theorem samePages (restocked : Restocked objsz lists avail free node lists' avail' free') :
    SamePages lists lists' free free' := by
  intro page
  rcases restocked with ⟨rfl, -, has⟩ | ⟨rfl, -, has⟩
  · rw [has]
  · rw [has, List.mem_cons]
    tauto

/-- The free pages that are left are no slabs. -/
theorem apart {cache : Nat} (restocked : Restocked objsz lists avail free node lists' avail' free')
    (once : free.Nodup) (apart : ∀ page ∈ free, page ≠ cache ∧ ¬ lists.Has page) :
    ∀ page ∈ free', page ≠ cache ∧ ¬ lists'.Has page := by
  intro page member
  rcases restocked with ⟨rfl, -, has⟩ | ⟨rfl, -, has⟩
  · rw [has]
    exact apart page member
  · obtain ⟨notCache, notSlab⟩ := apart page (List.mem_cons_of_mem _ member)
    rw [has]
    refine ⟨notCache, not_or.mpr ⟨?_, notSlab⟩⟩
    rintro rfl
    exact (List.nodup_cons.mp once).1 member

/-- No object was handed out: those of a new slab are all free. -/
theorem taken_iff (restocked : Restocked objsz lists avail free node lists' avail' free')
    (noSlab : ∀ page ∈ free, ¬ lists.Has page) (q : Nat) :
    Taken objsz lists' avail' q ↔ Taken objsz lists avail q := by
  rcases restocked with ⟨-, rfl, has⟩ | ⟨rfl, rfl, has⟩
  · exact exists_congr fun t => and_congr_left fun _ => has t
  · have notSlab := noSlab node (List.mem_cons_self ..)
    constructor
    · rintro ⟨t, isSlab, isObject, notAvail⟩
      by_cases isNew : t = node
      · subst isNew
        rw [Function.update_self] at notAvail
        exact absurd ((mem_objectRun ..).mpr isObject) notAvail
      · rw [Function.update_of_ne isNew] at notAvail
        exact ⟨t, ((has t).mp isSlab).resolve_left isNew, isObject, notAvail⟩
    · rintro ⟨t, isSlab, isObject, notAvail⟩
      have isOld : t ≠ node := fun equal => notSlab (equal ▸ isSlab)
      exact ⟨t, (has t).mpr (Or.inr isSlab), isObject,
        by rw [Function.update_of_ne isOld]; exact notAvail⟩

end Restocked

/-- The objects handed out after the first free object `p` of a slab was taken. -/
theorem taken_first {p : Nat} {rest : List Nat} (isSlab : lists.Has node)
    (object : IsObject objsz node p) (first : avail node = p :: rest) (once : (p :: rest).Nodup)
    (has : ∀ t, lists'.Has t ↔ lists.Has t) (q : Nat) :
    Taken objsz lists' (Function.update avail node rest) q ↔
      q = p ∨ Taken objsz lists avail q := by
  constructor
  · rintro ⟨t, isSlab, isObject, notAvail⟩
    by_cases isP : q = p
    · exact Or.inl isP
    · refine Or.inr ⟨t, (has t).mp isSlab, isObject, ?_⟩
      by_cases isNode : t = node
      · subst isNode
        rw [Function.update_self] at notAvail
        rw [first, List.mem_cons, not_or]
        exact ⟨isP, notAvail⟩
      · rwa [Function.update_of_ne isNode] at notAvail
  · rintro (rfl | ⟨t, isSlab, isObject, notAvail⟩)
    · refine ⟨node, (has node).mpr isSlab, object, ?_⟩
      rw [Function.update_self]
      exact (List.nodup_cons.mp once).1
    · refine ⟨t, (has t).mpr isSlab, isObject, ?_⟩
      by_cases isNode : t = node
      · subst isNode
        rw [Function.update_self]
        rw [first] at notAvail
        exact fun inRest => notAvail (List.mem_cons_of_mem _ inRest)
      · rwa [Function.update_of_ne isNode]

end

/-- `cache_alloc` returns null only without free pages and slabs, and otherwise
one object more is taken. -/
theorem cacheAlloc_spec {s : Kernel} {cache objsz : Nat} {lists : SlabLists}
    {avail : Nat → List Nat} {free : List Nat}
    (heap : CacheHeap layout s cache objsz lists avail free) (size : ObjSize objsz) :
    wp (cacheAlloc cache) (fun p after => (p = 0 ∧ after = s ∧ free = [] ∧ ¬ lists.Stocked) ∨
      ∃ lists' avail' free', p ≠ 0 ∧ CacheHeap layout after cache objsz lists' avail' free' ∧
        SameGlobals s after ∧ SamePages lists lists' free free' ∧ ¬ Taken objsz lists avail p ∧
        (∀ q, Taken objsz lists' avail' q ↔ q = p ∨ Taken objsz lists avail q) ∧
        OutsideSame s.mem after.mem cache (fun t => lists.Has t ∨ t ∈ free) ∧
        (NoneWhole objsz lists avail → NoneWhole objsz lists' avail') ∧
        (lists.Stocked ∧ free' = free ∨ ¬ lists.Stocked ∧ ∃ page, free = page :: free')) s := by
  obtain ⟨ok, freeList, apart, retained⟩ := heap
  have cachePage := ok.cachePage
  rw [cacheAlloc]
  apply wp_seq (pickSlab_spec ok size freeList apart)
  rintro node mid (⟨rfl, rfl, rfl, notStocked⟩ | ⟨lists', avail', free', nonzero, onList, picked, midFree,
    globals, change, fewer, outside, newPartly, source⟩)
  · rw [if_pos rfl, wp_pure]
    exact Or.inl ⟨rfl, rfl, rfl, notStocked⟩
  rw [if_neg nonzero]
  obtain ⟨p, rest, first⟩ := List.exists_cons_of_ne_nil (picked.partlyAvail node onList)
  have slab := picked.slab node ⟨.partly, onList⟩
  rw [first] at slab
  have object := slab.objects p (List.mem_cons_self ..)
  have pages := picked.toListed.page
  have isPage := (pages node ⟨.partly, onList⟩).1
  have samePages := change.samePages
  have midApart := change.apart freeList.nodup apart
  have takenBefore := change.taken_iff fun page member => (apart page member).2
  apply wp_mono (takeObject_spec picked size node p rest onList first)
  rintro got _ ⟨isFirst, mem, lists'', rfl, taken, has, emptyKept, lastOutside, stillPartly⟩
  rw [isFirst]
  have inside := object.inside size
  refine Or.inr ⟨lists'', _, free', ?_, ⟨taken, ?_, ?_, ?_⟩, ?_, ?_, ?_, ?_, ?_, ?_,
    source.imp_right fun fresh => ⟨fresh.1, node, fresh.2⟩⟩
  · unfold slabHeader at inside
    omega
  · exact midFree.outside cachePage (fun t isSlab => (pages t isSlab).1) midApart lastOutside
  · intro page member
    rw [has]
    exact midApart page member
  · rw [emptyKept]
    omega
  · unfold SameGlobals at globals ⊢
    rw [globals]
    rfl
  · intro page
    rw [has]
    exact samePages page
  · rw [← takenBefore]
    rintro ⟨t, isSlab, isObject, notAvail⟩
    have same := isObject.unique size object (pages t isSlab).1.1 isPage.1
    rw [same, first] at notAvail
    exact notAvail (List.mem_cons_self ..)
  · intro q
    rw [← takenBefore]
    exact taken_first ⟨.partly, onList⟩ object first slab.nodup has q
  · have covered : ∀ t, lists'.Has t → lists.Has t ∨ t ∈ free :=
      fun t isSlab => (samePages t).mp (Or.inl isSlab)
    exact (outside.mono covered).trans (lastOutside.mono covered)
  · intro none t inList
    have before := stillPartly t inList
    by_cases isNode : t = node
    · subst isNode
      have fits := avail_length_le size slab.nodup slab.objects
      rw [Function.update_self]
      rw [List.length_cons] at fits
      omega
    · rw [Function.update_of_ne isNode]
      have wasPartly := (newPartly t before).resolve_left isNode
      rcases change with ⟨-, rfl, -⟩ | ⟨-, rfl, -⟩
      · exact none t wasPartly
      · rw [Function.update_of_ne isNode]
        exact none t wasPartly

end CuteCore
