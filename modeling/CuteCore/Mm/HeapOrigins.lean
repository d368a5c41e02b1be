import CuteCore.Library.Frames
import CuteCore.Mm.HeapRuns

/-!
# Where freed memory goes

`kmfree` tells a large block from a small one by the first word of its page: a
magic word, or the link of a slab to the next one. In a run whose requests are
not of 1 to 8 bytes the word is right for every live block, so a large block
gives its page back and a small one goes to the cache it was taken from. A slab
of 8-byte objects ends its chain in the first word of the page behind it.
-/

namespace CuteCore

open Hoare Bytes DoublyLinked

variable {layout : Layout}

/-! ## The kernel variables along a call -/

instance : Std.Refl SameGlobals where
  refl _ := rfl

instance : IsTrans Kernel SameGlobals where
  trans s mid after first second := by
    unfold SameGlobals at *
    rw [second, first]

section Frames

open Keeps

theorem loadField_keeps (a n : Nat) : Keeps SameGlobals (loadField a n) :=
  bind_keeps get_keeps fun _ => ite_keeps (pure_keeps _) (throw_keeps _)

/-- A write into memory. -/
theorem setMem_keeps (inside : Prop) [Decidable inside] (written : Kernel → ByteMap) :
    Keeps SameGlobals (do
      let s ← get
      if inside then set (s.withMem (written s)) else throw .badAccess : KernelProg Unit) := by
  refine ⟨fun s u after returned => ?_⟩
  obtain ⟨_, _, got, returned⟩ := returns_bind.mp returned
  obtain ⟨rfl, rfl⟩ := returns_get.mp got
  split at returned
  · obtain rfl := returns_set.mp returned
    rfl
  · exact absurd (returns_throw.mp returned) not_false

theorem storeField_keeps (a n value : Nat) : Keeps SameGlobals (storeField a n value) :=
  setMem_keeps _ fun s => store s.mem a n value

theorem zeroBytes_keeps (a n : Nat) : Keeps SameGlobals (zeroBytes a n) :=
  setMem_keeps _ fun s => fill s.mem a n 0

theorem kalloc_sameGlobals : Keeps SameGlobals kalloc :=
  bind_keeps get_keeps fun _ => ite_keeps (pure_keeps _) (bind_keeps (loadField_keeps ..) fun _ =>
    bind_keeps (modify_keeps fun _ => rfl) fun _ => bind_keeps (zeroBytes_keeps ..) fun _ =>
    pure_keeps _)

theorem kfree_sameGlobals (page : Nat) : Keeps SameGlobals (kfree layout page) :=
  ite_keeps (throw_keeps _) (bind_keeps get_keeps fun _ => bind_keeps (storeField_keeps ..) fun _ =>
    modify_keeps fun _ => rfl)

theorem listRemove_keeps (head node : Nat) : Keeps SameGlobals (listRemove head node) :=
  bind_keeps (loadField_keeps ..) fun _ => bind_keeps (loadField_keeps ..) fun _ =>
    bind_keeps (ite_keeps (storeField_keeps ..) (storeField_keeps ..)) fun _ =>
    bind_keeps (loadField_keeps ..) fun _ => onlyIf_keeps (bind_keeps (loadField_keeps ..) fun _ =>
    storeField_keeps ..)

theorem listInsert_keeps (head node : Nat) : Keeps SameGlobals (listInsert head node) :=
  bind_keeps (loadField_keeps ..) fun _ => bind_keeps (storeField_keeps ..) fun _ =>
    bind_keeps (storeField_keeps ..) fun _ => bind_keeps (loadField_keeps ..) fun _ =>
    bind_keeps (onlyIf_keeps (storeField_keeps ..)) fun _ => storeField_keeps ..

theorem chainObjects_keeps (objsz n p : Nat) : Keeps SameGlobals (chainObjects objsz n p) := by
  induction n generalizing p with
  | zero => exact pure_keeps _
  | succ n inductionHypothesis =>
    exact bind_keeps (storeField_keeps ..) fun _ => inductionHypothesis (p + objsz)

theorem slabinit_keeps (cache page : Nat) : Keeps SameGlobals (slabinit cache page) :=
  bind_keeps (storeField_keeps ..) fun _ => bind_keeps (loadField_keeps ..) fun _ =>
    bind_keeps (storeField_keeps ..) fun _ => bind_keeps (loadField_keeps ..) fun _ =>
    bind_keeps (storeField_keeps ..) fun _ => bind_keeps (storeField_keeps ..) fun _ =>
    bind_keeps (storeField_keeps ..) fun _ => bind_keeps (storeField_keeps ..) fun _ =>
    bind_keeps (chainObjects_keeps ..) fun _ => storeField_keeps ..

theorem pickSlab_keeps (cache : Nat) : Keeps SameGlobals (pickSlab cache) :=
  bind_keeps (loadField_keeps ..) fun _ => ite_keeps (pure_keeps _)
    (bind_keeps (loadField_keeps ..) fun _ => ite_keeps
      (bind_keeps kalloc_sameGlobals fun _ => ite_keeps (pure_keeps _)
        (bind_keeps (slabinit_keeps ..) fun _ => bind_keeps (listInsert_keeps ..) fun _ =>
          pure_keeps _))
      (bind_keeps (listRemove_keeps ..) fun _ => bind_keeps (loadField_keeps ..) fun _ =>
        bind_keeps (storeField_keeps ..) fun _ => bind_keeps (listInsert_keeps ..) fun _ =>
        pure_keeps _))

theorem takeObject_keeps (cache slab : Nat) : Keeps SameGlobals (takeObject cache slab) :=
  bind_keeps (loadField_keeps ..) fun _ => bind_keeps (loadField_keeps ..) fun _ =>
    bind_keeps (storeField_keeps ..) fun _ => bind_keeps (loadField_keeps ..) fun _ =>
    bind_keeps (storeField_keeps ..) fun _ => bind_keeps (loadField_keeps ..) fun _ =>
    bind_keeps (onlyIf_keeps (bind_keeps (listRemove_keeps ..) fun _ => listInsert_keeps ..))
      fun _ => pure_keeps _

theorem cacheAlloc_keeps (cache : Nat) : Keeps SameGlobals (cacheAlloc cache) :=
  bind_keeps (pickSlab_keeps cache) fun _ => ite_keeps (pure_keeps _) (takeObject_keeps ..)

theorem shrinkFrom_keeps (cache budget slab : Nat) :
    Keeps SameGlobals (shrinkFrom layout cache budget slab) := by
  induction budget generalizing slab with
  | zero => exact pure_keeps _
  | succ budget inductionHypothesis =>
    exact bind_keeps (loadField_keeps ..) fun _ => onlyIf_keeps (bind_keeps (loadField_keeps ..)
      fun next => bind_keeps (listRemove_keeps ..) fun _ => bind_keeps (loadField_keeps ..) fun _ =>
      bind_keeps (storeField_keeps ..) fun _ => bind_keeps (kfree_sameGlobals _) fun _ =>
      inductionHypothesis next)

/-- `cache_free` leaves the variables of the allocators alone but for the free list. -/
theorem cacheFree_keeps (cache obj : Nat) : Keeps SameGlobals (cacheFree layout cache obj) :=
  bind_keeps
    (bind_keeps (loadField_keeps ..) fun _ => bind_keeps (storeField_keeps ..) fun _ =>
      bind_keeps (storeField_keeps ..) fun _ => bind_keeps (loadField_keeps ..) fun _ =>
      storeField_keeps ..)
    fun _ => bind_keeps (loadField_keeps ..) fun _ => bind_keeps (loadField_keeps ..) fun _ =>
      ite_keeps (bind_keeps (listRemove_keeps ..) fun _ => listInsert_keeps ..)
        (ite_keeps
          (bind_keeps (listRemove_keeps ..) fun _ => bind_keeps (listInsert_keeps ..) fun _ =>
            bind_keeps (loadField_keeps ..) fun _ => bind_keeps (storeField_keeps ..) fun _ =>
            bind_keeps (loadField_keeps ..) fun _ => onlyIf_keeps (bind_keeps (loadField_keeps ..)
              fun _ => bind_keeps (loadField_keeps ..) fun _ => shrinkFrom_keeps ..))
          (pure_keeps _))

theorem kmalloc_sameGlobals (size : Nat) : Keeps SameGlobals (kmalloc size) := by
  refine ite_keeps (pure_keeps _) (ite_keeps (bind_keeps kalloc_sameGlobals fun _ =>
    ite_keeps (pure_keeps _) (bind_keeps (storeField_keeps ..) fun _ => pure_keeps _))
    (bind_keeps get_keeps fun s => ?_))
  split
  · exact cacheAlloc_keeps _
  · exact pure_keeps _

theorem kmfree_sameGlobals (p : Nat) : Keeps SameGlobals (kmfree layout p) :=
  ite_keeps (pure_keeps _) (bind_keeps (loadField_keeps ..) fun _ =>
    ite_keeps (kfree_sameGlobals _) (bind_keeps (loadField_keeps ..) fun _ => cacheFree_keeps ..))

/-- No operation of a run replaces a cache. -/
theorem exec_keeps (op : HeapOp) : Keeps SameGlobals (op.exec layout) := by
  cases op with
  | kmalloc size => exact kmalloc_sameGlobals size
  | kmfree p => exact bind_keeps (kmfree_sameGlobals p) fun _ => pure_keeps _
  | kalloc => exact kalloc_sameGlobals
  | kfree page => exact bind_keeps (kfree_sameGlobals page) fun _ => pure_keeps _
  | write a value => exact bind_keeps (modify_keeps fun _ => rfl) fun _ => pure_keeps _

end Frames

/-! ## Runs that remember where a block came from -/

/-- The bytes of a block that its holder may use: its object, or the page behind the magic word. -/
def usable (size : Nat) : Nat :=
  if maxCacheSize < size then pgSize - 8 else ((cacheFor size).map sizes).getD 0

/-- The cache that serves a small request. -/
def Kernel.cacheOf (s : Kernel) (size : Nat) : Nat := ((cacheFor size).map s.caches).getD 0

/-- The operation with the whole usable block on request. -/
def HeapOp.whole : HeapOp → HeapOp
  | .kmalloc size => .kmalloc (usable size)
  | op => op

/-- The caches that the live small blocks were taken from. -/
def originAfter (s : Kernel) (origin : Nat → Nat) (op : HeapOp) (result : Nat) : Nat → Nat :=
  match op with
  | .kmalloc size => if result = 0 then origin else Function.update origin result (s.cacheOf size)
  | _ => origin

/-- A run from boot in which the clients use their blocks up to the last usable byte. -/
inductive OriginRun (layout : Layout) (allowed : Nat → Prop) :
    Kernel → Client → (Nat → Nat) → Prop where
  | boot {mem : ByteMap} {s : Kernel} (booted : Returns (kinit layout) (Kernel.boot mem) () s) :
      OriginRun layout allowed s ⟨[], []⟩ fun _ => 0
  | step {s after : Kernel} {client : Client} {origin : Nat → Nat} {result : Nat}
      (earlier : OriginRun layout allowed s client origin) (op : HeapOp)
      (legal : client.Legal allowed op) (returned : Returns (op.exec layout) s result after) :
      OriginRun layout allowed after (client.step op.whole result) (originAfter s origin op result)

/-- Every request but those of 1 to 8 bytes. -/
def NotTiny (size : Nat) : Prop := size = 0 ∨ 8 < size

theorem cacheFor_usable {size : Nat} (small : size ≤ maxCacheSize) (word : 8 < size) :
    cacheFor (usable size) = cacheFor size ∧ 8 < usable size ∧ usable size ≤ maxCacheSize := by
  obtain ⟨i, isClass, fits, -⟩ := cacheFor_spec size small word
  have own : ∀ i : Fin numCaches, cacheFor (sizes i) = some i ∧ sizes i ≤ maxCacheSize := by
    decide
  have isUsable : usable size = sizes i := by
    rw [usable, if_neg (Nat.not_lt.mpr small), isClass]
    rfl
  rw [isUsable, isClass]
  exact ⟨(own i).1, Nat.lt_of_lt_of_le word fits, (own i).2⟩

theorem usable_large {size : Nat} (large : maxCacheSize < size) : usable size = 4088 := if_pos large

/-- A request gets the block that a request for all of its bytes gets. -/
theorem kmalloc_usable {size : Nat} (word : 8 < size) : kmalloc (usable size) = kmalloc size := by
  have positive : ¬ size = 0 := by omega
  unfold kmalloc
  by_cases large : maxCacheSize < size
  · rw [usable_large large, if_neg (show ¬ 4088 = 0 by decide),
      if_pos (show maxCacheSize < 4088 by decide), if_neg positive, if_pos large]
  · obtain ⟨sameClass, low, high⟩ := cacheFor_usable (Nat.not_lt.mp large) word
    rw [if_neg (by omega), if_neg (Nat.not_lt.mpr high), if_neg positive, if_neg large, sameClass]

theorem served_usable {size : Nat} (word : 8 < size) : Served (usable size) := by
  by_cases large : maxCacheSize < size
  · rw [usable_large large]
    exact ⟨by decide, by decide⟩
  · obtain ⟨-, low, high⟩ := cacheFor_usable (Nat.not_lt.mp large) word
    refine ⟨low, ?_⟩
    simp only [maxCacheSize, pgSize] at *
    omega

/-- Live small blocks come from the caches of their classes. -/
def Remembered (s : Kernel) (client : Client) (origin : Nat → Nat) : Prop :=
  ∀ p size, (p, size) ∈ client.live → size ≤ maxCacheSize → origin p = s.cacheOf size

/-- One step keeps what is remembered and is a step of a run with served requests. -/
theorem Remembered.step {s after : Kernel} {client : Client} {origin : Nat → Nat} {result : Nat}
    (run : Run layout Served s client) (remembered : Remembered s client origin) (op : HeapOp)
    (legal : client.Legal NotTiny op) (returned : Returns (op.exec layout) s result after) :
    Run layout Served after (client.step op.whole result) ∧
      Remembered after (client.step op.whole result) (originAfter s origin op result) := by
  have globals := (exec_keeps op).related s result after returned
  have sameCaches : after.caches = s.caches := by rw [globals]
  have sameOf : ∀ size, after.cacheOf size = s.cacheOf size := fun size => by
    rw [Kernel.cacheOf, Kernel.cacheOf, sameCaches]
  cases op with
  | kmalloc size =>
    obtain rfl | word := legal
    · obtain ⟨rfl, rfl⟩ := returns_pure.mp returned
      exact ⟨run, remembered⟩
    have whole : Returns (kmalloc (usable size)) s result after := by
      rw [kmalloc_usable word]
      exact returned
    have next : Run layout Served after (client.step (.kmalloc (usable size)) result) :=
      run.step (.kmalloc (usable size)) (served_usable word) whole
    refine ⟨next, ?_⟩
    obtain ⟨lists, avail, free, inv⟩ := HeapInv.of_run next
    have distinct := inv.distinct
    simp only [HeapOp.whole, Client.step, originAfter] at distinct ⊢
    by_cases none : result = 0
    · rw [if_pos none, if_pos none]
      exact fun p k live small => (remembered p k live small).trans (sameOf k).symm
    · rw [if_neg none] at distinct
      rw [if_neg none, if_neg none]
      intro p k live small
      rw [sameOf]
      rcases List.mem_cons.mp live with isNew | wasLive
      · obtain ⟨rfl, rfl⟩ := Prod.mk.inj isNew
        rw [Function.update_self]
        have notLarge : size ≤ maxCacheSize := by
          by_contra large
          rw [usable_large (Nat.not_le.mp large)] at small
          exact absurd small (by decide)
        rw [Kernel.cacheOf, Kernel.cacheOf, (cacheFor_usable notLarge word).1]
      · have differs : p ≠ result := by
          rintro rfl
          exact (List.nodup_cons.mp distinct).1 (List.mem_map.mpr ⟨_, wasLive, rfl⟩)
        rw [Function.update_of_ne differs]
        exact remembered p k wasLive small
  | kmfree p =>
    refine ⟨run.step (.kmfree p) legal returned, fun q k live small => ?_⟩
    have wasLive := (List.mem_filter.mp live).1
    exact (remembered q k wasLive small).trans (sameOf k).symm
  | kalloc =>
    refine ⟨run.step .kalloc trivial returned, fun q k live small => ?_⟩
    have wasLive : (q, k) ∈ client.live := by
      simp only [HeapOp.whole, Client.step] at live
      split at live <;> exact live
    exact (remembered q k wasLive small).trans (sameOf k).symm
  | kfree page =>
    refine ⟨run.step (.kfree page) legal returned, fun q k live small => ?_⟩
    exact (remembered q k live small).trans (sameOf k).symm
  | write a value =>
    refine ⟨run.step (.write a value) legal returned, fun q k live small => ?_⟩
    exact (remembered q k live small).trans (sameOf k).symm

theorem OriginRun.remembers {s : Kernel} {client : Client} {origin : Nat → Nat}
    (run : OriginRun layout NotTiny s client origin) :
    Run layout Served s client ∧ Remembered s client origin := by
  induction run with
  | boot booted => exact ⟨.boot booted, fun p size live => absurd live List.not_mem_nil⟩
  | step earlier op legal returned inductionHypothesis =>
    exact inductionHypothesis.2.step inductionHypothesis.1 op legal returned

/-- Every live block is freed to where it came from, and the first word of a page tells the two
kinds apart. -/
structure FreedHome (layout : Layout) (s : Kernel) (client : Client) (origin : Nat → Nat) : Prop where
  magic : ∀ p size, (p, size) ∈ client.live → maxCacheSize < size →
    load s.mem (p - 8) 8 = largeAllocMagic
  large : ∀ p size, (p, size) ∈ client.live → maxCacheSize < size →
    wp (kmfree layout p) (fun _ after => after = s.pushPage (p - 8) ∧ OnFreeList after (p - 8)) s
  small : ∀ p size, (p, size) ∈ client.live → size ≤ maxCacheSize →
    (∃ i, origin p = s.caches i ∧ s.caches i ≠ 0) ∧
    kmfree layout p s = cacheFree layout (origin p) p s ∧
    ∃ after, Returns (kmfree layout p) s () after
  slabs : ∀ page, IsSlab s page → load s.mem page 8 ≠ largeAllocMagic

/-- In every run without requests of 1 to 8 bytes `kmfree` returns memory to where it came from. -/
theorem kmfree_returns_home {s : Kernel} {client : Client} {origin : Nat → Nat}
    (run : OriginRun layout NotTiny s client origin) : FreedHome layout s client origin := by
  obtain ⟨served, remembered⟩ := run.remembers
  obtain ⟨lists, avail, free, inv⟩ := HeapInv.of_run served
  refine ⟨?_, ?_, ?_, ?_⟩
  · intro p size live large
    obtain ⟨page, rfl, -, -, magic⟩ := inv.large p size live large
    exact magic
  · intro p size live large
    obtain ⟨page, rfl, -⟩ := inv.large p size live large
    apply wp_mono (inv.kmfree_large_spec page size live large)
    rintro - after ⟨pushed, freeList⟩
    exact ⟨pushed, _, freeList.chain, List.mem_cons_self ..⟩
  · intro p size live small
    obtain ⟨i, isClass, taken⟩ := inv.small p size live small
    have isOrigin : origin p = s.caches i := by
      rw [remembered p size live small, Kernel.cacheOf, isClass]
      rfl
    have held := taken
    obtain ⟨slab, isSlab, -⟩ := held
    obtain ⟨⟨⟩, after, returned, -⟩ := inv.kmfree_small_keeps p size live small
    refine ⟨⟨i, isOrigin, (inv.used i slab isSlab).1⟩, ?_, after, returned⟩
    rw [isOrigin]
    exact inv.kmfree_small_run i p taken
  · rintro page ⟨i, c, slabs, created, linked, member⟩
    have onList := linked.unique ((inv.cache i created).linked c) ▸ member
    exact inv.slab_notMagic i page ⟨c, onList⟩

/-- The pages of memory stand in the order of their addresses. -/
theorem pagesFrom_get (paEnd p i : Nat) (inside : p + (i + 1) * pgSize ≤ paEnd) :
    (pagesFrom paEnd p)[i]? = some (p + i * pgSize) := by
  have positive : 0 < pgSize := by decide
  have whole : (i + 1) * pgSize = i * pgSize + pgSize := Nat.succ_mul i pgSize
  induction i generalizing p with
  | zero => rw [pagesFrom, if_pos (by omega), List.getElem?_cons_zero, Nat.zero_mul, Nat.add_zero]
  | succ i inductionHypothesis =>
    have fewer : (i + 1) * pgSize = i * pgSize + pgSize := Nat.succ_mul i pgSize
    rw [pagesFrom, if_pos (by omega), List.getElem?_cons_succ,
      inductionHypothesis (p + pgSize) (by omega) fewer]
    congr 1
    omega

/-- Each page of memory is listed once. -/
theorem nodup_pagesFrom (paEnd p : Nat) : (pagesFrom paEnd p).Nodup := by
  induction p using pagesFrom.induct paEnd with
  | case1 p fits inductionHypothesis =>
    rw [pagesFrom, if_pos fits, List.nodup_cons]
    refine ⟨fun member => ?_, inductionHypothesis⟩
    have above := ((mem_pagesFrom ..).mp member).1
    simp only [pgSize] at above
    omega
  | case2 p full =>
    rw [pagesFrom, if_neg full]
    exact List.nodup_nil

/-- The first two free pages on the small image: the higher one comes first. -/
theorem bootFree_pair : ∃ page rest, bootFree smallImage = (page + 4096) :: page :: rest := by
  have count : (pagesFrom phyEnd smallImage.ekernel).length = 32252 := by
    rw [length_pagesFrom]
    decide
  have get : ∀ k < 2, (bootFree smallImage)[k]? =
      some (smallImage.ekernel + (32242 - k) * pgSize) := by
    intro k few
    rw [bootFree, List.getElem?_drop, List.getElem?_reverse (by rw [count, numCaches]; omega), count]
    have index : 32252 - 1 - (numCaches + k) = 32242 - k := by
      rw [numCaches]
      omega
    rw [index]
    refine pagesFrom_get _ _ _ ?_
    have image : smallImage.ekernel = 0x80204000 := rfl
    rw [image, phyEnd, pgSize]
    omega
  have first := get 0 (by decide)
  have second := get 1 (by decide)
  generalize bootFree smallImage = free at first second
  obtain _ | ⟨a, _ | ⟨b, rest⟩⟩ := free
  · cases first
  · cases second
  · obtain rfl := Option.some.inj first
    obtain rfl := Option.some.inj second
    exact ⟨_, rest, rfl⟩

/-- All classes have a cache after `kinit` on the small image. -/
theorem caches_created {s : Kernel} (unset : Fin numCaches)
    (covered : ∀ page, smallImage.IsPage page → Covered s (bootFree smallImage) page) :
    s.caches unset ≠ 0 := by
  intro null
  have pages := nodup_pagesFrom phyEnd smallImage.ekernel
  have within : (pagesFrom phyEnd smallImage.ekernel).toFinset ⊆
      (bootFree smallImage).toFinset ∪ (Finset.univ.erase unset).image s.caches := by
    intro page member
    obtain ⟨low, high, aligned⟩ := (mem_pagesFrom ..).mp (List.mem_toFinset.mp member)
    have isPage : smallImage.IsPage page := by
      have image : smallImage.ekernel = 0x80204000 := rfl
      rw [image] at low aligned
      simp only [Layout.IsPage, image, pgSize, phyEnd] at *
      omega
    rw [Finset.mem_union, List.mem_toFinset]
    obtain free | ⟨i, created, isCache⟩ := covered page isPage
    · exact .inl free
    · refine .inr (Finset.mem_image.mpr ⟨i, Finset.mem_erase.mpr ⟨?_, Finset.mem_univ i⟩, isCache.symm⟩)
      rintro rfl
      exact created null
  have few := (Finset.card_le_card within).trans (Finset.card_union_le _ _)
  have others : ((Finset.univ.erase unset).image s.caches).card ≤ numCaches - 1 := by
    refine Finset.card_image_le.trans ?_
    rw [Finset.card_erase_of_mem (Finset.mem_univ _), Finset.card_univ, Fintype.card_fin]
  have count : (pagesFrom phyEnd smallImage.ekernel).length = 32252 := by
    rw [length_pagesFrom]
    decide
  have free : (bootFree smallImage).toFinset.card ≤ 32252 - numCaches := by
    refine (List.toFinset_card_le _).trans ?_
    rw [bootFree, List.length_drop, List.length_reverse, count]
  have nine : numCaches = 9 := rfl
  rw [List.toFinset_card_of_nodup pages, count] at few
  omega

/-- The theorem for requests of 4000 and 100 bytes, and after the free of the first one. -/
theorem large_and_small_home : ∃ s after p q origin, p ≠ 0 ∧ q ≠ 0 ∧
    OriginRun smallImage NotTiny s ⟨[(q, usable 100), (p, usable 4000)], []⟩ origin ∧
    FreedHome smallImage s ⟨[(q, usable 100), (p, usable 4000)], []⟩ origin ∧
    Returns (kmfree smallImage p) s () after ∧
    FreedHome smallImage after ⟨[(q, usable 100)], []⟩ origin := by
  obtain ⟨⟨⟩, booted, isBooted, idle, covered⟩ := kinit_spec smallImage fun _ => 0
  obtain ⟨page, rest, isFree⟩ := bootFree_pair
  rw [isFree] at idle
  obtain ⟨p, mid, gotLarge, isP, isMid, freeList⟩ :=
    kmalloc_large_spec idle.freeList 4000 (by decide)
  obtain ⟨free', inv⟩ := (idle.kmalloc_large_keeps 4000 (by decide) (by decide)).of_returns gotLarge
  obtain rfl : free' = page :: rest := inv.freeList.chain.unique freeList.chain
  have isSome : p ≠ 0 := by omega
  -- the request of 100 bytes takes a free page for its slab
  obtain ⟨i, isClass, -, used⟩ := cacheFor_spec 100 (by decide) (by decide)
  have created : mid.caches i ≠ 0 := isMid ▸ caches_created i covered
  obtain ⟨q, s, gotSmall, ⟨-, -, absurdly, -⟩ | ⟨_, _, _, nonzero, -⟩⟩ :=
    cacheAlloc_spec (inv.cacheHeap i created) (sizes_ok i used)
  · cases absurdly
  have gotSmall' : Returns (kmalloc 100) mid q s := by
    rw [kmalloc, if_neg (by decide), if_neg (by decide), returns_bind]
    refine ⟨mid, mid, returns_get.mpr ⟨rfl, rfl⟩, ?_⟩
    rw [isClass]
    exact gotSmall
  have isLarge : NotTiny 4000 := Or.inr (by decide)
  have isSmall : NotTiny 100 := Or.inr (by decide)
  have first : OriginRun smallImage NotTiny mid _ _ :=
    .step (.boot isBooted) (.kmalloc 4000) isLarge gotLarge
  have run : OriginRun smallImage NotTiny s _ _ := .step first (.kmalloc 100) isSmall gotSmall'
  simp only [HeapOp.whole, Client.step, if_neg nonzero, if_neg isSome] at run
  have home := kmfree_returns_home run
  have live : (p, usable 4000) ∈ [(q, usable 100), (p, usable 4000)] := by simp
  obtain ⟨⟨⟩, after, freed, -⟩ := home.large p (usable 4000) live (by decide)
  have ran : Returns ((HeapOp.kmfree p).exec smallImage) s 0 after :=
    returns_bind.mpr ⟨⟨⟩, after, freed, returns_pure.mpr ⟨rfl, rfl⟩⟩
  have shorter : OriginRun smallImage NotTiny after _ _ := .step run (.kmfree p) ⟨_, live⟩ ran
  obtain ⟨served, -⟩ := run.remembers
  obtain ⟨_, _, _, whole⟩ := HeapInv.of_run served
  have differs : q ≠ p := by
    have distinct := whole.distinct
    simp at distinct
    exact distinct
  have left : [(q, usable 100), (p, usable 4000)].filter (fun b => b.1 ≠ p) = [(q, usable 100)] := by
    simp [differs]
  simp only [HeapOp.whole, Client.step, left] at shorter
  exact ⟨s, after, p, q, _, isSome, nonzero, run, home, freed, kmfree_returns_home shorter⟩

/-! ## A slab of 8-byte objects -/

/-- The chain of 507 objects of 8 bytes ends in the first word behind the page. -/
theorem slabinit_overrun {s : Kernel} {cache page : Nat} (cachePage : layout.IsPage cache)
    (isPage : layout.IsPage page) (next : layout.IsPage (page + 4096))
    (stored : load s.mem cache 4 = 8) (differs : cache ≠ page) :
    wp (slabinit cache page) (fun _ after => ∃ mem, after = s.withMem mem ∧
      load mem (page + 4096) 8 = 0 ∧ load mem (page + 16) 8 = page + slabHeader ∧
      load mem (page + 24) 4 = 507 ∧
      ∀ x, (x < page ∨ page + 4096 + 8 ≤ x) → mem x = s.mem x) s := by
  obtain ⟨filled, slab, runs⟩ := slabinit_fills (Nat.le_refl 8) cachePage isPage differs.symm stored
  have atEnd : slabEnd 8 page = page + 4096 := rfl
  rw [atEnd] at runs
  refine (runs _).mpr ⟨next.headInRam, _, rfl, ?_, ?_, ?_, ?_⟩
  · rw [load_store_same, Nat.zero_mod]
  · rw [load_store_apart _ _ _ _ _ _ (by omega), slab.list]
  · rw [load_store_apart _ _ _ _ _ _ (by omega), slab.freenum]
    rfl
  · intro x outside
    have sizes : pgSize = 4096 := rfl
    rw [store, copy_outside _ _ _ _ _ (by omega), slab.outside x (by omega)]

/-- The class of 8-byte objects. -/
def firstClass : Fin numCaches := ⟨0, by decide⟩

/-- A cache of 8-byte objects without slabs makes one of the next free page. -/
theorem pickSlab_overrun {s : Kernel} {cache page : Nat} {free : List Nat}
    (freeList : FreeList layout s (page :: free)) (cachePage : layout.IsPage cache)
    (next : layout.IsPage (page + 4096)) (_ : cache ≠ page + 4096) (differs : cache ≠ page)
    (objsz : load s.mem cache 4 = 8) (noPartly : load s.mem (cache + 16) 8 = 0)
    (noEmpty : load s.mem (cache + 24) 8 = 0) :
    wp (pickSlab cache) (fun slab after => slab = page ∧ load after.mem (page + 4096) 8 = 0 ∧
      load after.mem (page + 16) 8 = page + slabHeader ∧ load after.mem (page + 24) 4 = 507) s := by
  have isPage := freeList.pages page (List.mem_cons_self ..)
  have cacheAligned : cache % 4096 = 0 := cachePage.1
  have pageAligned : page % 4096 = 0 := isPage.1
  have popped : ∀ x, (x < page ∨ page + 4096 ≤ x) → s.popPage.mem x = s.mem x :=
    freeList.popPage_outside
  have sameSize : load s.popPage.mem cache 4 = 8 := by
    rw [← objsz]
    exact load_congr fun x low high => popped x (by omega)
  rw [pickSlab, wp_bind, wp_loadField, noPartly]
  refine ⟨cachePage.inRam 16 8 (by simp [pgSize]), ?_⟩
  rw [if_neg (by decide), wp_bind, wp_loadField, noEmpty]
  refine ⟨cachePage.inRam 24 8 (by simp [pgSize]), ?_⟩
  rw [if_pos rfl]
  apply wp_seq (kalloc_cons freeList)
  rintro got _ ⟨isHead, rfl, -⟩
  rw [isHead, if_neg isPage.ne_zero]
  apply wp_seq (slabinit_overrun cachePage isPage next sameSize differs)
  rintro - _ ⟨mem, rfl, behind, list, freenum, outside⟩
  -- the new slab is the only one on its list
  have first : load mem (cache + 16) 8 = 0 := by
    rw [← noPartly, load_congr fun x low high => outside x (by omega)]
    exact load_congr fun x low high => popped x (by omega)
  rw [listInsert, wp_bind, wp_bind, wp_loadField, withMem_mem, first]
  refine ⟨cachePage.inRam 16 8 (by simp [pgSize]), ?_⟩
  rw [wp_bind, wp_storeField]
  refine ⟨isPage.headInRam, ?_⟩
  rw [wp_bind, wp_storeField]
  refine ⟨isPage.inRam 8 8 (by simp [pgSize]), ?_⟩
  simp only [withMem_withMem, withMem_mem]
  have still : load (store (store mem page 8 0) (page + 8) 8 0) (cache + 16) 8 = 0 := by
    rw [load_store_apart _ _ _ _ _ _ (by omega), load_store_apart _ _ _ _ _ _ (by omega), first]
  rw [wp_bind, wp_loadField, withMem_mem, still]
  refine ⟨cachePage.inRam 16 8 (by simp [pgSize]), ?_⟩
  rw [wp_bind, wp_onlyIf, if_neg (by decide), wp_storeField]
  refine ⟨cachePage.inRam 16 8 (by simp [pgSize]), ?_⟩
  rw [wp_pure]
  simp only [withMem_withMem, withMem_mem]
  simp (disch := omega) only [load_store_apart]
  exact ⟨trivial, behind, list, freenum⟩

/-- A request of 8 bytes that opens a slab clears the first word of the page behind it. -/
theorem tiny_request {s : Kernel} {client : Client} {lists : CacheLists} {avail : FreeObjectsOf}
    {page : Nat} {free : List Nat} (inv : HeapInv layout s client lists avail (page :: free))
    (created : s.caches firstClass ≠ 0) (next : layout.IsPage (page + 4096))
    (apart : s.caches firstClass ≠ page + 4096) :
    wp (kmalloc 8) (fun p after => p ≠ 0 ∧ load after.mem (page + 4096) 8 = 0) s := by
  have ok := inv.cache firstClass created
  have noSlab := inv.unused firstClass rfl
  have none : ∀ c, lists firstClass c = [] := fun c =>
    List.eq_nil_iff_forall_not_mem.mpr fun slab member => noSlab slab ⟨c, member⟩
  have noPartly : load s.mem (s.caches firstClass + 16) 8 = 0 := by
    have linked := ok.linked .partly
    rw [none] at linked
    exact linked
  have noEmpty : load s.mem (s.caches firstClass + 24) 8 = 0 := by
    have linked := ok.linked .empty
    rw [none] at linked
    exact linked
  have isPage := inv.freeList.pages page (List.mem_cons_self ..)
  have differs : s.caches firstClass ≠ page := by
    intro same
    have freeRole : InRole s client lists (page :: free) page .free := List.mem_cons_self ..
    exact absurd (inv.roles page (.cache firstClass) .free ⟨created, same.symm⟩ freeRole) (by simp)
  have isClass : cacheFor 8 = some firstClass := by decide
  rw [kmalloc, if_neg (by decide), if_neg (by decide), wp_bind, wp_get]
  simp only [isClass]
  rw [cacheAlloc]
  apply wp_seq (pickSlab_overrun inv.freeList ok.cachePage next apart differs ok.objszField noPartly
    noEmpty)
  rintro slab picked ⟨isSlab, behind, list, freenum⟩
  rw [isSlab, if_neg isPage.ne_zero, takeObject, wp_bind, wp_loadField, list]
  refine ⟨isPage.inRam 16 8 (by simp [pgSize]), ?_⟩
  rw [wp_bind, wp_loadField]
  refine ⟨isPage.inRam slabHeader 8 (by simp [pgSize, slabHeader]), ?_⟩
  rw [wp_bind, wp_storeField]
  refine ⟨isPage.inRam 16 8 (by simp [pgSize]), ?_⟩
  rw [wp_bind, wp_loadField]
  refine ⟨isPage.inRam 24 4 (by simp [pgSize]), ?_⟩
  rw [withMem_mem, load_store_apart _ _ _ _ _ _ (by omega), freenum, wp_bind, wp_storeField]
  refine ⟨isPage.inRam 24 4 (by simp [pgSize]), ?_⟩
  rw [wp_bind, wp_loadField]
  refine ⟨isPage.inRam 24 4 (by simp [pgSize]), ?_⟩
  have stillSome : (507 + (2 ^ 32 - 1)) % 256 ^ 4 ≠ 0 := by decide
  rw [wp_bind, wp_onlyIf]
  simp only [withMem_withMem, withMem_mem, load_store_same, if_neg stillSome, wp_pure]
  rw [load_store_apart _ _ _ _ _ _ (by omega), load_store_apart _ _ _ _ _ _ (by omega)]
  refine ⟨?_, behind⟩
  simp only [slabHeader]
  omega

/-- A request of 8 bytes after one of 4000: the large page lost its magic word. -/
theorem large_page_mistaken : ¬ ∀ (layout : Layout) (s : Kernel) (client : Client)
    (origin : Nat → Nat), OriginRun layout (fun _ => True) s client origin →
      FreedHome layout s client origin := by
  intro claimed
  obtain ⟨⟨⟩, s, booted, idle, covered⟩ := kinit_spec smallImage fun _ => 0
  have created := caches_created firstClass covered
  obtain ⟨page, rest, isFree⟩ := bootFree_pair
  rw [isFree] at idle
  have apart : s.caches firstClass ≠ page + 4096 := by
    intro same
    have freeRole : InRole s ⟨[], []⟩ (fun _ _ => []) ((page + 4096) :: page :: rest) (page + 4096)
      .free := List.mem_cons_self ..
    exact absurd (idle.roles _ (.cache firstClass) .free ⟨created, same.symm⟩ freeRole) (by simp)
  have next := idle.freeList.pages (page + 4096) (List.mem_cons_self ..)
  obtain ⟨p, after, returned, isP, isAfter, freeList⟩ :=
    kmalloc_large_spec idle.freeList 4000 (by decide)
  obtain ⟨free', inv⟩ := (idle.kmalloc_large_keeps 4000 (by decide) (by decide)).of_returns returned
  obtain rfl : free' = page :: rest := inv.freeList.chain.unique freeList.chain
  have sameCaches : after.caches = s.caches := by
    rw [isAfter]
    rfl
  obtain ⟨q, last, tiny, nonzero, cleared⟩ := tiny_request inv (sameCaches ▸ created) next
    (sameCaches ▸ apart)
  have first : OriginRun smallImage (fun _ => True) after _ _ :=
    .step (.boot booted) (.kmalloc 4000) trivial returned
  have run : OriginRun smallImage (fun _ => True) last _ _ := .step first (.kmalloc 8) trivial tiny
  simp only [HeapOp.whole, Client.step, if_neg nonzero, if_neg (show p ≠ 0 by omega)] at run
  have magic := (claimed _ _ _ _ run).magic p (usable 4000)
    (List.mem_cons_of_mem _ (List.mem_cons_self ..)) (by decide)
  rw [isP, Nat.add_sub_cancel, cleared] at magic
  exact absurd magic (by decide)

end CuteCore
