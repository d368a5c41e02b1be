import CuteCore.Mm.KmallocSafety

/-!
# Steps of the heap keep its invariant

One lemma for each operation of a run. An operation writes into pages of the
roles it moves pages between, so every page of another role is as it was.

Clients write into what they hold and into nothing else. That keeps the invariant, since
the words of the allocators lie in pages of other roles or, for a large block, in front of
what the client may use. A free finds the slab of an object by rounding down, and the
cache in the slab's header.
-/

namespace CuteCore

open Hoare Bytes DoublyLinked

variable {layout : Layout}

/-- A page that is none of the changed ones keeps its bytes. -/
theorem sameOn_page {mem after : ByteMap} {changed : Nat → Prop}
    (aligned : ∀ page, changed page → page % pgSize = 0)
    (same : ∀ x, (∀ page, changed page → x < page ∨ page + pgSize ≤ x) → after x = mem x)
    (page : Nat) (pageAligned : page % pgSize = 0) (kept : ¬ changed page) :
    SameOn after mem page pgSize := by
  intro x low high
  refine same x fun other isChanged => ?_
  have otherAligned := aligned other isChanged
  have differs : other ≠ page := fun equal => kept (equal ▸ isChanged)
  simp only [pgSize] at *
  omega

/-- A cache that was not created faults. -/
theorem cacheAlloc_null {s after : Kernel} {p : Nat} : ¬ Returns (cacheAlloc 0) s p after := by
  intro returned
  rw [cacheAlloc, returns_bind] at returned
  obtain ⟨_, _, picked, -⟩ := returned
  rw [pickSlab, returns_bind] at picked
  obtain ⟨_, _, loaded, -⟩ := picked
  have inRam := (returns_loadField.mp loaded).1
  exact absurd inRam (by decide)

/-- Every request up to the largest class has a class, and the first class
serves only requests of up to 8 bytes. -/
theorem cacheFor_spec (size : Nat) (small : size ≤ maxCacheSize) (word : 8 < size) :
    ∃ i, cacheFor size = some i ∧ size ≤ sizes i ∧ i.val ≠ 0 := by
  have last : sizes ⟨8, by decide⟩ = maxCacheSize := rfl
  have found : (cacheFor size).isSome := by
    rw [cacheFor, List.find?_isSome]
    refine ⟨⟨8, by decide⟩, List.mem_finRange _, ?_⟩
    rw [last]
    exact decide_eq_true small
  obtain ⟨i, isFirst⟩ := Option.isSome_iff_exists.mp found
  have fits := cacheFor_fits isFirst
  refine ⟨i, isFirst, fits, fun zero => ?_⟩
  have first : i = ⟨0, by decide⟩ := Fin.ext zero
  have eight : sizes ⟨0, by decide⟩ = 8 := rfl
  rw [first, eight] at fits
  omega

/-- The state after a large request that took the head of the free list. -/
def Kernel.largePage (s : Kernel) (page : Nat) : Kernel :=
  s.popPage.withMem (store s.popPage.mem page 8 largeAllocMagic)

/-- A large request takes the first free page and stores the magic word in it, whatever its size is.
-/
theorem kmalloc_large_spec {s : Kernel} {page : Nat} {free : List Nat}
    (freeList : FreeList layout s (page :: free)) (size : Nat) (large : maxCacheSize < size) :
    wp (kmalloc size) (fun p after => p = page + 8 ∧ after = s.largePage page ∧
      FreeList layout after free) s := by
  have isPage := freeList.pages page (List.mem_cons_self ..)
  have positive : size ≠ 0 := by omega
  rw [kmalloc, if_neg positive, if_pos large]
  apply wp_seq (kalloc_cons freeList)
  rintro result _ ⟨isHead, rfl, popped⟩
  rw [isHead, if_neg isPage.ne_zero, wp_bind, wp_storeField]
  refine ⟨isPage.headInRam, ?_⟩
  rw [wp_pure]
  refine ⟨rfl, rfl, popped.congr rfl fun other member => ?_⟩
  have otherPage := popped.pages other member
  have differs : other ≠ page := by
    rintro rfl
    exact (List.nodup_cons.mp freeList.nodup).1 member
  exact sameOn_store _ _ _ _ _ _ (apart_pages otherPage.1 isPage.1 differs
    (by simp [pgSize]) (by simp [pgSize]))

namespace HeapInv

variable {s : Kernel} {client : Client} {lists : CacheLists} {avail : FreeObjectsOf}
  {free : List Nat}

/-- A cache whose pages are not written keeps its invariant. -/
theorem cache_kept (inv : HeapInv layout s client lists avail free) {mem : ByteMap}
    {changed : Nat → Prop} (aligned : ∀ page, changed page → page % pgSize = 0)
    (same : ∀ x, (∀ page, changed page → x < page ∨ page + pgSize ≤ x) → mem x = s.mem x)
    (i : Fin numCaches) (created : s.caches i ≠ 0) (cacheKept : ¬ changed (s.caches i))
    (slabsKept : ∀ page, (lists i).Has page → ¬ changed page) :
    CacheOk layout mem (s.caches i) (sizes i) (lists i) (avail i) := by
  have ok := inv.cache i created
  have whole : ∀ page, (lists i).Has page → SameOn mem s.mem page pgSize := fun page isSlab =>
    sameOn_page aligned same page (ok.toListed.page page isSlab).1.1 (slabsKept page isSlab)
  refine ok.congr_free ?_ ?_ ?_
  · exact (sameOn_page aligned same _ ok.cachePage.1 cacheKept).sub (Nat.le_refl _)
      (by simp [pgSize])
  · exact fun page isSlab => (whole page isSlab).sub (Nat.le_refl _) (by simp [pgSize])
  · intro page isSlab p member
    have size := (inv.used i page isSlab).2
    have inside := ((ok.slab page isSlab).objects p member).inside size
    have word := size.word
    exact (whole page isSlab).sub (by omega) (by omega)

/-- The magic word of a large page that is not written. -/
theorem magic_kept (inv : HeapInv layout s client lists avail free) {mem : ByteMap}
    {changed : Nat → Prop} (aligned : ∀ page, changed page → page % pgSize = 0)
    (same : ∀ x, (∀ page, changed page → x < page ∨ page + pgSize ≤ x) → mem x = s.mem x)
    (page size : Nat) (live : (page + 8, size) ∈ client.live) (large : maxCacheSize < size)
    (kept : ¬ changed page) : load mem page 8 = largeAllocMagic := by
  obtain ⟨other, isOther, isPage, -, magic⟩ := inv.large _ _ live large
  have isPage' : page = other := Nat.add_right_cancel isOther
  subst isPage'
  rw [← magic]
  exact load_congr ((sameOn_page aligned same page isPage.1 kept).sub (Nat.le_refl _)
    (by simp [pgSize]))

/-- A page for others. -/
theorem kalloc_keeps (inv : HeapInv layout s client lists avail free) :
    wp kalloc (fun result after => ∃ free',
      HeapInv layout after (client.step .kalloc result) lists avail free') s := by
  cases free with
  | nil =>
    apply wp_mono (kalloc_empty inv.freeList)
    rintro _ _ ⟨rfl, rfl⟩
    exact ⟨[], inv⟩
  | cons page free =>
    have isPage := inv.freeList.pages page (List.mem_cons_self ..)
    apply wp_mono (kalloc_cons inv.freeList)
    rintro result _ ⟨isHead, rfl, popped⟩
    have nonzero : result ≠ 0 := by rw [isHead]; exact isPage.ne_zero
    have aligned : ∀ other, other = page → other % pgSize = 0 := fun other isIt => isIt ▸ isPage.1
    have same : ∀ x, (∀ other, other = page → x < other ∨ other + pgSize ≤ x) →
        s.popPage.mem x = s.mem x :=
      fun x away => inv.freeList.popPage_outside x (away page rfl)
    have fresh : ∀ r, InRole s client lists (page :: free) page r → r = .free :=
      fun r inRole => inv.roles page r .free inRole (List.mem_cons_self ..)
    have kept : ∀ r, r ≠ .free → ∀ other, InRole s client lists (page :: free) other r →
        ¬ other = page := by
      rintro r notFree other inRole rfl
      exact notFree (fresh r inRole)
    have stepped : client.step .kalloc result = { client with others := page :: client.others } := by
      rw [Client.step, if_neg nonzero, isHead]
    rw [stepped]
    refine ⟨free, popped, ?_, inv.retained, inv.absent, inv.unused, ?_, ?_, inv.small, inv.distinct,
      ?_, ?_⟩
    · intro i created
      exact inv.cache_kept aligned same i created (kept (.cache i) (by simp) _ ⟨created, rfl⟩)
        fun other isSlab => kept (.slab i) (by simp) other isSlab
    · refine inv.roles.exchange .free .other ?_ ?_ ?_
      · intro other
        simp only [InRole, List.mem_cons]
        tauto
      · intro other r notFree notOther
        cases r with
        | free => exact absurd rfl notFree
        | other => exact absurd rfl notOther
        | cache i => exact Iff.rfl
        | slab i => exact Iff.rfl
        | large => exact Iff.rfl
      · intro other isFree isOther
        rcases List.mem_cons.mp isOther with rfl | isOther
        · exact (List.nodup_cons.mp inv.freeList.nodup).1 isFree
        · exact absurd (inv.roles other .free .other (List.mem_cons_of_mem _ isFree) isOther) (by simp)
    · intro p size live large
      obtain ⟨other, rfl, otherPage, fits, -⟩ := inv.large p size live large
      exact ⟨other, rfl, otherPage, fits, inv.magic_kept aligned same other size live large
        (kept .large (by simp) other ⟨size, live, large⟩)⟩
    · intro other member
      rcases List.mem_cons.mp member with rfl | member
      · exact isPage
      · exact inv.others other member
    · refine List.nodup_cons.mpr ⟨fun member => ?_, inv.othersNodup⟩
      exact absurd (fresh .other member) (by simp)

/-- A page of others goes back. -/
theorem kfree_keeps (inv : HeapInv layout s client lists avail free) (page : Nat)
    (member : page ∈ client.others) :
    wp (kfree layout page) (fun _ after => ∃ free',
      HeapInv layout after (client.step (.kfree page) 0) lists avail free') s := by
  have isPage := inv.others page member
  have only : ∀ r, InRole s client lists free page r → r = .other :=
    fun r inRole => inv.roles page r .other inRole member
  have notFree : page ∉ free := fun isFree => absurd (only .free isFree) (by simp)
  apply wp_mono (kfree_spec inv.freeList page isPage notFree)
  rintro - _ ⟨rfl, pushed⟩
  have aligned : ∀ other, other = page → other % pgSize = 0 := fun other isIt => isIt ▸ isPage.1
  have same : ∀ x, (∀ other, other = page → x < other ∨ other + pgSize ≤ x) →
      (s.pushPage page).mem x = s.mem x := by
    intro x away
    have outside := away page rfl
    apply copy_outside
    simp only [pgSize] at outside
    omega
  have kept : ∀ r, r ≠ .other → ∀ other, InRole s client lists free other r → ¬ other = page := by
    rintro r notOther other inRole rfl
    exact notOther (only r inRole)
  have erased : ∀ other, other ∈ client.others.erase page ↔ other ≠ page ∧ other ∈ client.others :=
    fun other => inv.othersNodup.mem_erase_iff
  refine ⟨page :: free, pushed, ?_, inv.retained, inv.absent, inv.unused, ?_, ?_, inv.small,
    inv.distinct, ?_, inv.othersNodup.erase page⟩
  · intro i created
    exact inv.cache_kept aligned same i created (kept (.cache i) (by simp) _ ⟨created, rfl⟩)
      fun other isSlab => kept (.slab i) (by simp) other isSlab
  · refine inv.roles.exchange .free .other ?_ ?_ ?_
    · intro other
      simp only [InRole, Client.step, List.mem_cons, erased]
      by_cases isPage : other = page
      · simp [isPage, member]
      · simp [isPage]
    · intro other r notFree notOther
      cases r with
      | free => exact absurd rfl notFree
      | other => exact absurd rfl notOther
      | cache i => exact Iff.rfl
      | slab i => exact Iff.rfl
      | large => exact Iff.rfl
    · intro other isFree isOther
      obtain ⟨differs, wasOther⟩ := (erased other).mp isOther
      rcases List.mem_cons.mp isFree with rfl | isFree
      · exact differs rfl
      · exact absurd (inv.roles other .free .other isFree wasOther) (by simp)
  · intro p size live large
    obtain ⟨other, rfl, otherPage, fits, -⟩ := inv.large p size live large
    exact ⟨other, rfl, otherPage, fits, inv.magic_kept aligned same other size live large
      (kept .large (by simp) other ⟨size, live, large⟩)⟩
  · intro other isOther
    exact inv.others other ((erased other).mp isOther).2

/-- A live block inside a page: the page is its slab or its large page. -/
theorem role_of_live (inv : HeapInv layout s client lists avail free) (page p : Nat)
    (aligned : page % pgSize = 0) (low : page ≤ p) (high : p < page + pgSize)
    (live : p ∈ client.live.map Prod.fst) :
    InRole s client lists free page .large ∨
      ∃ i, InRole s client lists free page (.slab i) ∧ Taken (sizes i) (lists i) (avail i) p := by
  obtain ⟨⟨q, size⟩, member, rfl⟩ := List.mem_map.mp live
  obtain ⟨home, r, homeRole, behind, -, kind⟩ := inv.home q size member
  have homeAligned := (inv.isPage home r homeRole).1
  have same : q < home + pgSize → home = page := by
    intro inside
    simp only [pgSize] at *
    omega
  rcases kind with ⟨rfl, isQ, -⟩ | ⟨i, rfl, -, object, -, taken⟩
  · have isPage := same (by simp only [pgSize]; omega)
    exact Or.inl (isPage ▸ homeRole)
  · have size := (inv.used i home homeRole).2
    have inside := object.inside size
    have word := size.word
    have isPage := same (by omega)
    subst isPage
    exact Or.inr ⟨i, homeRole, home, homeRole, object, taken⟩

/-- A large request takes a page and marks it. -/
theorem kmalloc_large_keeps (inv : HeapInv layout s client lists avail free) (size : Nat)
    (large : maxCacheSize < size) (fits : size + 8 ≤ pgSize) :
    wp (kmalloc size) (fun result after => ∃ free',
      HeapInv layout after (client.step (.kmalloc size) result) lists avail free') s := by
  cases free with
  | nil =>
    have positive : size ≠ 0 := by omega
    rw [kmalloc, if_neg positive, if_pos large]
    apply wp_seq (kalloc_empty inv.freeList)
    rintro _ _ ⟨rfl, rfl⟩
    rw [if_pos rfl, wp_pure]
    exact ⟨[], inv⟩
  | cons page free =>
    have isPage := inv.freeList.pages page (List.mem_cons_self ..)
    apply wp_mono (kmalloc_large_spec inv.freeList size large)
    rintro _ _ ⟨rfl, rfl, freed⟩
    have aligned : ∀ other, other = page → other % pgSize = 0 := fun other isIt => isIt ▸ isPage.1
    have same : ∀ x, (∀ other, other = page → x < other ∨ other + pgSize ≤ x) →
        store s.popPage.mem page 8 largeAllocMagic x = s.mem x := by
      intro x away
      have outside := away page rfl
      rw [← inv.freeList.popPage_outside x outside]
      apply copy_outside
      simp only [pgSize] at outside
      omega
    have marked : load (store s.popPage.mem page 8 largeAllocMagic) page 8 = largeAllocMagic := by
      rw [load_store_word _ _ _ _ isPage.aligned8 isPage.aligned8 (by decide), if_pos rfl]
    have fresh : ∀ r, InRole s client lists (page :: free) page r → r = .free :=
      fun r inRole => inv.roles page r .free inRole (List.mem_cons_self ..)
    have kept : ∀ r, r ≠ .free → ∀ other, InRole s client lists (page :: free) other r →
        ¬ other = page := by
      rintro r notFree other inRole rfl
      exact notFree (fresh r inRole)
    have notLive : page + 8 ∉ client.live.map Prod.fst := by
      intro live
      rcases inv.role_of_live page (page + 8) isPage.1 (by omega) (by simp [pgSize]) live with
        isLarge | ⟨i, isSlab, -⟩
      · exact absurd (fresh .large isLarge) (by simp)
      · exact absurd (fresh (.slab i) isSlab) (by simp)
    have stepped : client.step (.kmalloc size) (page + 8) =
        { client with live := (page + 8, size) :: client.live } := by
      rw [Client.step, if_neg (by omega)]
    rw [stepped]
    refine ⟨free, freed, ?_, inv.retained, inv.absent, inv.unused, ?_, ?_, ?_, ?_, inv.others,
      inv.othersNodup⟩
    · intro i created
      exact inv.cache_kept aligned same i created (kept (.cache i) (by simp) _ ⟨created, rfl⟩)
        fun other isSlab => kept (.slab i) (by simp) other isSlab
    · refine inv.roles.exchange .free .large ?_ ?_ ?_
      · intro other
        simp only [InRole, List.mem_cons, Prod.mk.injEq]
        constructor
        · rintro (isFree | ⟨k, ⟨isPage, -⟩ | live, isLarge⟩)
          · exact Or.inl (Or.inr isFree)
          · exact Or.inl (Or.inl (Nat.add_right_cancel isPage))
          · exact Or.inr ⟨k, live, isLarge⟩
        · rintro ((rfl | isFree) | ⟨k, live, isLarge⟩)
          · exact Or.inr ⟨size, Or.inl ⟨rfl, rfl⟩, large⟩
          · exact Or.inl isFree
          · exact Or.inr ⟨k, Or.inr live, isLarge⟩
      · intro other r notFree notLarge
        cases r with
        | free => exact absurd rfl notFree
        | large => exact absurd rfl notLarge
        | cache i => exact Iff.rfl
        | slab i => exact Iff.rfl
        | other => exact Iff.rfl
      · rintro other isFree ⟨k, live, isLarge⟩
        rcases List.mem_cons.mp live with isNew | live
        · have isPage : other = page := Nat.add_right_cancel (congrArg Prod.fst isNew)
          exact (List.nodup_cons.mp inv.freeList.nodup).1 (isPage ▸ isFree)
        · exact absurd (inv.roles other .free .large (List.mem_cons_of_mem _ isFree)
            ⟨k, live, isLarge⟩) (by simp)
    · intro p k live isLarge
      rcases List.mem_cons.mp live with isNew | live
      · cases isNew
        exact ⟨page, rfl, isPage, by omega, marked⟩
      · obtain ⟨other, rfl, otherPage, inside, -⟩ := inv.large p k live isLarge
        exact ⟨other, rfl, otherPage, inside, inv.magic_kept aligned same other k live isLarge
          (kept .large (by simp) other ⟨k, live, isLarge⟩)⟩
    · intro p k live small
      rcases List.mem_cons.mp live with isNew | live
      · cases isNew
        omega
      · exact inv.small p k live small
    · exact List.nodup_cons.mpr ⟨notLive, inv.distinct⟩

/-- A write of a holder. -/
theorem write_keeps (inv : HeapInv layout s client lists avail free) (a : Nat) (value : Byte)
    (legal : (∃ p size, (p, size) ∈ client.live ∧ p ≤ a ∧ a < p + size) ∨
      ∃ page ∈ client.others, page ≤ a ∧ a < page + pgSize) :
    HeapInv layout (s.withMem (copy s.mem a 1 fun _ => value)) client lists avail free := by
  -- The written byte lies in a page of others or in a live block.
  obtain ⟨home, r, homeRole, low, high, spares⟩ : ∃ home r, InRole s client lists free home r ∧
      home ≤ a ∧ a < home + pgSize ∧ (r = .other ∨ (r = .large ∧ home + 8 ≤ a) ∨
        ∃ i, r = .slab i ∧ home + slabHeader ≤ a ∧
          ∀ q ∈ avail i home, a + 1 ≤ q ∨ q + 8 ≤ a) := by
    rcases legal with ⟨p, size, live, low, high⟩ | ⟨page, member, low, high⟩
    · obtain ⟨home, r, homeRole, behind, inside, kind⟩ := inv.home p size live
      refine ⟨home, r, homeRole, by omega, by omega, Or.inr ?_⟩
      rcases kind with ⟨rfl, isP, -⟩ | ⟨i, rfl, fits, object, header, taken⟩
      · exact Or.inl ⟨rfl, by omega⟩
      · refine Or.inr ⟨i, rfl, by omega, fun q member => ?_⟩
        obtain ⟨created, size⟩ := inv.used i home homeRole
        have other := ((inv.cache i created).slab home homeRole).objects q member
        have differs : p ≠ q := fun equal => taken (equal ▸ member)
        have apart := object.apart other differs
        have word := size.word
        omega
    · exact ⟨page, .other, member, low, high, Or.inl rfl⟩
  have homePage := inv.isPage home r homeRole
  have homeAligned := homePage.1
  have written : ∀ x, x ≠ a → copy s.mem a 1 (fun _ => value) x = s.mem x :=
    fun x differs => copy_outside _ _ _ _ _ (by omega)
  have kept : ∀ page r', InRole s client lists free page r' → page ≠ home →
      SameOn (copy s.mem a 1 fun _ => value) s.mem page pgSize := by
    intro page r' inRole differs x first last
    refine written x ?_
    rintro rfl
    have pageAligned := (inv.isPage page r' inRole).1
    simp only [pgSize] at *
    omega
  have notHome : ∀ page r', InRole s client lists free page r' → r' ≠ r → page ≠ home := by
    rintro page r' inRole differs rfl
    exact differs (inv.roles page r' r inRole homeRole)
  have wide : pgSize = 4096 := rfl
  refine ⟨?_, ?_, inv.retained, inv.absent, inv.unused, inv.roles, ?_, inv.small, inv.distinct,
    inv.others, inv.othersNodup⟩
  · refine inv.freeList.congr rfl fun page member => ?_
    have differs : Role.free ≠ r := by
      rcases spares with rfl | ⟨rfl, -⟩ | ⟨i, rfl, -⟩ <;> simp
    exact (kept page .free member (notHome page .free member differs)).sub (Nat.le_refl _) (by omega)
  · intro i created
    have ok := inv.cache i created
    have differs : Role.cache i ≠ r := by
      rcases spares with rfl | ⟨rfl, -⟩ | ⟨i, rfl, -⟩ <;> simp
    have isCache : InRole s client lists free (s.caches i) (.cache i) := ⟨created, rfl⟩
    refine ok.congr_free ?_ ?_ ?_
    · exact (kept _ _ isCache (notHome _ _ isCache differs)).sub (Nat.le_refl _) (by omega)
    · intro t isSlab
      by_cases isHome : t = home
      · have same := inv.roles t (.slab i) r isSlab (isHome ▸ homeRole)
        rcases spares with rfl | ⟨rfl, -⟩ | ⟨j, rfl, behind, -⟩
        · cases same
        · cases same
        · intro x first last
          apply written x
          unfold slabHeader at behind
          omega
      · exact (kept t (.slab i) isSlab isHome).sub (Nat.le_refl _) (by omega)
    · intro t isSlab q member
      have size := (inv.used i t isSlab).2
      have inside := ((ok.slab t isSlab).objects q member).inside size
      have word := size.word
      by_cases isHome : t = home
      · have same := inv.roles t (.slab i) r isSlab (isHome ▸ homeRole)
        rcases spares with rfl | ⟨rfl, -⟩ | ⟨j, rfl, -, apart⟩
        · cases same
        · cases same
        · cases same
          intro x first last
          apply written x
          have away := apart q (isHome ▸ member)
          omega
      · exact (kept t (.slab i) isSlab isHome).sub (by omega) (by omega)
  · intro p size live large
    obtain ⟨page, rfl, isPage, fits, magic⟩ := inv.large p size live large
    refine ⟨page, rfl, isPage, fits, ?_⟩
    have isLarge : InRole s client lists free page .large := ⟨size, live, large⟩
    rw [← magic]
    refine load_congr ?_
    by_cases isHome : page = home
    · have same := inv.roles page .large r isLarge (isHome ▸ homeRole)
      rcases spares with rfl | ⟨-, behind⟩ | ⟨i, rfl, -⟩
      · cases same
      · exact fun x first last => written x (by omega)
      · cases same
    · exact (kept page .large isLarge isHome).sub (Nat.le_refl _) (by omega)

/-- A cache between two operations. -/
theorem cacheHeap (inv : HeapInv layout s client lists avail free) (i : Fin numCaches)
    (created : s.caches i ≠ 0) :
    CacheHeap layout s (s.caches i) (sizes i) (lists i) (avail i) free := by
  refine ⟨inv.cache i created, inv.freeList, fun page isFree => ⟨?_, ?_⟩, inv.retained i⟩
  · rintro rfl
    exact absurd (inv.roles _ .free (.cache i) isFree ⟨created, rfl⟩) (by simp)
  · intro isSlab
    exact absurd (inv.roles _ .free (.slab i) isFree isSlab) (by simp)

/-- An operation of one cache moves pages between its slabs and the free list.
What the clients hold of it afterwards is given by the operation. -/
theorem cache_changed (inv : HeapInv layout s client lists avail free) (i : Fin numCaches)
    (created : s.caches i ≠ 0) (used : i.val ≠ 0) {after : Kernel} {lists' : SlabLists}
    {avail' : Nat → List Nat} {free' : List Nat} {live' : List (Nat × Nat)}
    (heap : CacheHeap layout after (s.caches i) (sizes i) lists' avail' free')
    (globals : SameGlobals s after) (pages : SamePages (lists i) lists' free free')
    (outside : OutsideSame s.mem after.mem (s.caches i) fun t => (lists i).Has t ∨ t ∈ free)
    (largeSame : ∀ p size, maxCacheSize < size → ((p, size) ∈ live' ↔ (p, size) ∈ client.live))
    (smallHeld : ∀ p size, (p, size) ∈ live' → size ≤ maxCacheSize → ∃ j, cacheFor size = some j ∧
      Taken (sizes j) (Function.update lists i lists' j) (Function.update avail i avail' j) p)
    (distinct : (live'.map Prod.fst).Nodup) :
    HeapInv layout after { client with live := live' } (Function.update lists i lists')
      (Function.update avail i avail') free' := by
  have sameCaches : after.caches = s.caches := by rw [globals]
  have isCache : InRole s client lists free (s.caches i) (.cache i) := ⟨created, rfl⟩
  -- The pages that may have been written.
  generalize isChanged : (fun page => page = s.caches i ∨ (lists i).Has page ∨ page ∈ free) =
    changed
  have changedRole : ∀ page, changed page → ∃ r, InRole s client lists free page r ∧
      (r = .cache i ∨ r = .slab i ∨ r = .free) := by
    rw [← isChanged]
    rintro page (rfl | isSlab | isFree)
    · exact ⟨.cache i, isCache, Or.inl rfl⟩
    · exact ⟨.slab i, isSlab, Or.inr (Or.inl rfl)⟩
    · exact ⟨.free, isFree, Or.inr (Or.inr rfl)⟩
  have aligned : ∀ page, changed page → page % pgSize = 0 := by
    intro page written
    obtain ⟨r, inRole, -⟩ := changedRole page written
    exact (inv.isPage page r inRole).1
  have same : ∀ x, (∀ page, changed page → x < page ∨ page + pgSize ≤ x) →
      after.mem x = s.mem x := by
    rw [← isChanged]
    intro x away
    exact outside x (away _ (Or.inl rfl)) fun t member => away t (Or.inr member)
  have kept : ∀ page r, InRole s client lists free page r → r ≠ .cache i → r ≠ .slab i →
      r ≠ .free → ¬ changed page := by
    intro page r inRole notCache notSlab notFree written
    obtain ⟨r', inRole', isOne⟩ := changedRole page written
    have sameRole := inv.roles page r r' inRole inRole'
    rcases isOne with rfl | rfl | rfl
    · exact notCache sameRole
    · exact notSlab sameRole
    · exact notFree sameRole
  refine ⟨heap.freeList, ?_, ?_, ?_, ?_, ?_, ?_, smallHeld, distinct, inv.others,
    inv.othersNodup⟩
  · intro j createdJ
    rw [sameCaches] at createdJ ⊢
    by_cases isI : j = i
    · subst isI
      rw [Function.update_self, Function.update_self]
      exact heap.ok
    · rw [Function.update_of_ne isI, Function.update_of_ne isI]
      have notI : Role.cache j ≠ .cache i := fun equal => isI (Role.cache.inj equal)
      have notSlabI : Role.slab j ≠ .slab i := fun equal => isI (Role.slab.inj equal)
      exact inv.cache_kept aligned same j createdJ
        (kept _ (.cache j) ⟨createdJ, rfl⟩ notI (by simp) (by simp))
        fun page isSlab => kept page (.slab j) isSlab (by simp) notSlabI (by simp)
  · intro j
    by_cases isI : j = i
    · subst isI
      rw [Function.update_self]
      exact heap.retained
    · rw [Function.update_of_ne isI]
      exact inv.retained j
  · intro j null
    rw [sameCaches] at null
    have notI : j ≠ i := by
      rintro rfl
      exact created null
    rw [Function.update_of_ne notI]
    exact inv.absent j null
  · intro j zero
    have notI : j ≠ i := by
      rintro rfl
      exact used zero
    rw [Function.update_of_ne notI]
    exact inv.unused j zero
  · refine inv.roles.exchange .free (.slab i) ?_ ?_ ?_
    · intro page
      have moved := pages page
      simp only [InRole, Function.update_self]
      tauto
    · intro page r notFree notSlab
      cases r with
      | free => exact absurd rfl notFree
      | cache j => simp only [InRole, sameCaches]
      | slab j =>
        have notI : j ≠ i := fun equal => notSlab (by rw [equal])
        simp only [InRole, Function.update_of_ne notI]
      | large =>
        simp only [InRole]
        refine exists_congr fun size => ?_
        constructor
        · rintro ⟨live, isLarge⟩
          exact ⟨(largeSame _ size isLarge).mp live, isLarge⟩
        · rintro ⟨live, isLarge⟩
          exact ⟨(largeSame _ size isLarge).mpr live, isLarge⟩
      | other => exact Iff.rfl
    · intro page isFree isSlab
      simp only [InRole, Function.update_self] at isFree isSlab
      exact (heap.apart page isFree).2 isSlab
  · intro p size live isLarge
    have wasLive := (largeSame p size isLarge).mp live
    obtain ⟨page, rfl, isPage, fits, -⟩ := inv.large p size wasLive isLarge
    exact ⟨page, rfl, isPage, fits, inv.magic_kept aligned same page size wasLive isLarge
      (kept page .large ⟨size, wasLive, isLarge⟩ (by simp) (by simp) (by simp))⟩

/-- A small request takes an object of its class. -/
theorem kmalloc_small_keeps (inv : HeapInv layout s client lists avail free) (size : Nat)
    (small : size ≤ maxCacheSize) (word : 8 < size) {p : Nat} {after : Kernel}
    (returned : Returns (kmalloc size) s p after) : ∃ lists' avail' free',
      HeapInv layout after (client.step (.kmalloc size) p) lists' avail' free' := by
  have positive : size ≠ 0 := by omega
  have notLarge : ¬ maxCacheSize < size := by omega
  obtain ⟨i, isClass, -, used⟩ := cacheFor_spec size small word
  rw [kmalloc, if_neg positive, if_neg notLarge, returns_bind] at returned
  obtain ⟨_, _, got, returned⟩ := returned
  obtain ⟨rfl, rfl⟩ := returns_get.mp got
  rw [isClass] at returned
  by_cases created : s.caches i = 0
  · simp only [created] at returned
    exact absurd returned cacheAlloc_null
  rcases (cacheAlloc_spec (inv.cacheHeap i created) (sizes_ok i used)).of_returns returned with
    ⟨rfl, rfl, rfl, -⟩ | ⟨lists', avail', free', nonzero, heap, globals, pages, fresh, taken, outside, -⟩
  · exact ⟨lists, avail, [], inv⟩
  · rw [Client.step, if_neg nonzero]
    have notLive : p ∉ client.live.map Prod.fst := by
      intro live
      obtain ⟨slab, isSlab, object, -⟩ := (taken p).mpr (Or.inl rfl)
      have inside := object.inside (sizes_ok i used)
      have slabPage := (heap.ok.toListed.page slab isSlab).1
      have bound := (sizes_ok i used).word
      rcases inv.role_of_live slab p slabPage.1 (by omega) (by omega) live with
        isLarge | ⟨j, isSlabJ, takenJ⟩
      · rcases (pages slab).mp (Or.inl isSlab) with wasSlab | wasFree
        · exact absurd (inv.roles slab .large (.slab i) isLarge wasSlab) (by simp)
        · exact absurd (inv.roles slab .large .free isLarge wasFree) (by simp)
      · rcases (pages slab).mp (Or.inl isSlab) with wasSlab | wasFree
        · have sameClass := Role.slab.inj (inv.roles slab (.slab j) (.slab i) isSlabJ wasSlab)
          exact fresh (sameClass ▸ takenJ)
        · exact absurd (inv.roles slab (.slab j) .free isSlabJ wasFree) (by simp)
    refine ⟨_, _, free', inv.cache_changed i created used heap globals pages outside ?_ ?_
      (List.nodup_cons.mpr ⟨notLive, inv.distinct⟩)⟩
    · intro q k isLarge
      rw [List.mem_cons]
      constructor
      · rintro (isNew | live)
        · cases isNew
          omega
        · exact live
      · exact Or.inr
    · intro q k live isSmall
      rcases List.mem_cons.mp live with isNew | live
      · cases isNew
        refine ⟨i, isClass, ?_⟩
        rw [Function.update_self, Function.update_self]
        exact (taken p).mpr (Or.inl rfl)
      · obtain ⟨j, classJ, takenJ⟩ := inv.small q k live isSmall
        refine ⟨j, classJ, ?_⟩
        by_cases isI : j = i
        · subst isI
          rw [Function.update_self, Function.update_self]
          exact (taken q).mpr (Or.inr takenJ)
        · rw [Function.update_of_ne isI, Function.update_of_ne isI]
          exact takenJ

/-- The first word of a slab is null or a page, never the magic word. -/
theorem slab_notMagic (inv : HeapInv layout s client lists avail free) (i : Fin numCaches)
    (slab : Nat) (isSlab : (lists i).Has slab) : load s.mem slab 8 ≠ largeAllocMagic := by
  have ok := inv.cache i (inv.used i slab isSlab).1
  obtain ⟨c, onList⟩ := isSlab
  obtain ⟨front, back, isMiddle⟩ := List.append_of_mem onList
  have linked := ok.linked c
  rw [isMiddle] at linked
  have next : load s.mem slab 8 = back.headD 0 := linked.neighbours.2
  rw [next]
  cases back with
  | nil => decide
  | cons first rest =>
    have nextPage := (ok.pages c first (by rw [isMiddle]; simp)).1
    have aligned := nextPage.1
    rw [List.headD_cons]
    rintro rfl
    exact absurd aligned (by decide)

/-- Freeing an object of a slab is `cache_free` on the cache of the slab. -/
theorem kmfree_small_run (inv : HeapInv layout s client lists avail free) (i : Fin numCaches)
    (p : Nat) (taken : Taken (sizes i) (lists i) (avail i) p) :
    kmfree layout p s = cacheFree layout (s.caches i) p s := by
  obtain ⟨slab, isSlab, object, -⟩ := taken
  obtain ⟨created, objSize⟩ := inv.used i slab isSlab
  have ok := inv.cache i created
  have isPage := (ok.toListed.page slab isSlab).1
  have rounded := pgRoundDown_object objSize object isPage.1
  have inside := object.inside objSize
  have positive : p ≠ 0 := by
    unfold slabHeader at inside
    omega
  rw [kmfree, if_neg positive]
  simp only [rounded]
  rw [run_loadField isPage.headInRam, if_neg (inv.slab_notMagic i slab isSlab),
    run_loadField (isPage.inRam 32 8 (by simp [pgSize])), (ok.slab slab isSlab).owner]

/-- Freeing a small block gives its object back. -/
theorem kmfree_small_keeps (inv : HeapInv layout s client lists avail free) (p size : Nat)
    (live : (p, size) ∈ client.live) (small : size ≤ maxCacheSize) :
    wp (kmfree layout p) (fun _ after => ∃ lists' avail' free',
      HeapInv layout after (client.step (.kmfree p) 0) lists' avail' free') s := by
  obtain ⟨i, -, held⟩ := inv.small p size live small
  obtain ⟨slab, isSlab, object, notAvail⟩ := held
  obtain ⟨created, objSize⟩ := inv.used i slab isSlab
  have used : i.val ≠ 0 := fun zero => inv.unused i zero slab isSlab
  have same := inv.kmfree_small_run i p ⟨slab, isSlab, object, notAvail⟩
  simp only [wp, Returns, same]
  refine wp_mono (cacheFree_spec (inv.cacheHeap i created) objSize p
    ⟨slab, isSlab, object, notAvail⟩) ?_
  rintro - after ⟨lists', avail', free', heap, globals, pages, taken, outside, -⟩
  have onlyBlock : ∀ k, (p, k) ∈ client.live → k = size := by
    intro k other
    exact congrArg Prod.snd (List.inj_on_of_nodup_map inv.distinct other live rfl)
  refine ⟨_, _, free', inv.cache_changed i created used heap globals pages outside ?_ ?_
    (inv.distinct.sublist (List.Sublist.map _ List.filter_sublist))⟩
  · intro q k isLarge
    simp only [List.mem_filter, ne_eq, decide_not, Bool.not_eq_eq_eq_not, Bool.not_true,
      decide_eq_false_iff_not, and_iff_left_iff_imp]
    rintro other rfl
    have same := onlyBlock k other
    omega
  · intro q k other isSmall
    simp only [List.mem_filter, ne_eq, decide_not, Bool.not_eq_eq_eq_not, Bool.not_true,
      decide_eq_false_iff_not] at other
    obtain ⟨j, classJ, takenJ⟩ := inv.small q k other.1 isSmall
    refine ⟨j, classJ, ?_⟩
    by_cases isI : j = i
    · subst isI
      rw [Function.update_self, Function.update_self]
      exact (taken q).mpr ⟨other.2, takenJ⟩
    · rw [Function.update_of_ne isI, Function.update_of_ne isI]
      exact takenJ

/-- Freeing a large block is `kfree` of its page. -/
theorem kmfree_large_spec (inv : HeapInv layout s client lists avail free) (page size : Nat)
    (live : (page + 8, size) ∈ client.live) (large : maxCacheSize < size) :
    wp (kmfree layout (page + 8)) (fun _ after => after = s.pushPage page ∧
      FreeList layout after (page :: free)) s := by
  obtain ⟨home, isHome, isPage, -, magic⟩ := inv.large _ size live large
  obtain rfl : page = home := Nat.add_right_cancel isHome
  have isLarge : InRole s client lists free page .large := ⟨size, live, large⟩
  have rounded : pgRoundDown (page + 8) = page := by
    have aligned := isPage.1
    simp only [pgRoundDown, pgSize] at *
    omega
  have notFree : page ∉ free := fun isFree =>
    absurd (inv.roles page .free .large isFree isLarge) (by simp)
  rw [kmfree, if_neg (by omega)]
  simp only [rounded]
  rw [wp_bind, wp_loadField]
  refine ⟨isPage.headInRam, ?_⟩
  rw [if_pos magic]
  exact kfree_spec inv.freeList page isPage notFree

/-- Freeing a large block gives its page back. -/
theorem kmfree_large_keeps (inv : HeapInv layout s client lists avail free) (p size : Nat)
    (live : (p, size) ∈ client.live) (large : maxCacheSize < size) :
    wp (kmfree layout p) (fun _ after => ∃ free',
      HeapInv layout after (client.step (.kmfree p) 0) lists avail free') s := by
  obtain ⟨page, rfl, isPage, -, -⟩ := inv.large p size live large
  have isLarge : InRole s client lists free page .large := ⟨size, live, large⟩
  have only : ∀ r, InRole s client lists free page r → r = .large :=
    fun r inRole => inv.roles page r .large inRole isLarge
  have notFree : page ∉ free := fun isFree => absurd (only .free isFree) (by simp)
  apply wp_mono (inv.kmfree_large_spec page size live large)
  rintro - _ ⟨rfl, pushed⟩
  have aligned : ∀ other, other = page → other % pgSize = 0 := fun other isIt => isIt ▸ isPage.1
  have same : ∀ x, (∀ other, other = page → x < other ∨ other + pgSize ≤ x) →
      (s.pushPage page).mem x = s.mem x := by
    intro x away
    have outside := away page rfl
    apply copy_outside
    simp only [pgSize] at outside
    omega
  have kept : ∀ r, r ≠ .large → ∀ other, InRole s client lists free other r → ¬ other = page := by
    rintro r notLarge other inRole rfl
    exact notLarge (only r inRole)
  have stillLive : ∀ q k, (q, k) ∈ (client.step (.kmfree (page + 8)) 0).live ↔
      q ≠ page + 8 ∧ (q, k) ∈ client.live := by
    intro q k
    simp only [Client.step, List.mem_filter, decide_eq_true_eq]
    exact and_comm
  refine ⟨page :: free, pushed, ?_, inv.retained, inv.absent, inv.unused, ?_, ?_, ?_,
    inv.distinct.sublist (List.Sublist.map _ List.filter_sublist), inv.others, inv.othersNodup⟩
  · intro i created
    exact inv.cache_kept aligned same i created (kept (.cache i) (by simp) _ ⟨created, rfl⟩)
      fun other isSlab => kept (.slab i) (by simp) other isSlab
  · refine inv.roles.exchange .free .large ?_ ?_ ?_
    · intro other
      simp only [InRole, stillLive, List.mem_cons]
      constructor
      · rintro ((rfl | isFree) | ⟨k, ⟨-, wasLive⟩, isLarge⟩)
        · exact Or.inr isLarge
        · exact Or.inl isFree
        · exact Or.inr ⟨k, wasLive, isLarge⟩
      · rintro (isFree | ⟨k, wasLive, isLarge⟩)
        · exact Or.inl (Or.inr isFree)
        · by_cases isPage : other = page
          · exact Or.inl (Or.inl isPage)
          · exact Or.inr ⟨k, ⟨by omega, wasLive⟩, isLarge⟩
    · intro other r notFree notLarge
      cases r with
      | free => exact absurd rfl notFree
      | large => exact absurd rfl notLarge
      | cache i => exact Iff.rfl
      | slab i => exact Iff.rfl
      | other => exact Iff.rfl
    · rintro other isFree ⟨k, isLive, isLarge⟩
      obtain ⟨differs, wasLive⟩ := (stillLive _ k).mp isLive
      rcases List.mem_cons.mp isFree with rfl | isFree
      · exact differs rfl
      · exact absurd (inv.roles other .free .large isFree ⟨k, wasLive, isLarge⟩) (by simp)
  · intro q k isLive isLarge
    obtain ⟨differs, wasLive⟩ := (stillLive q k).mp isLive
    obtain ⟨other, rfl, otherPage, fits, -⟩ := inv.large q k wasLive isLarge
    refine ⟨other, rfl, otherPage, fits, inv.magic_kept aligned same other k wasLive isLarge ?_⟩
    rintro rfl
    exact differs rfl
  · intro q k isLive isSmall
    exact inv.small q k ((stillLive q k).mp isLive).2 isSmall

end HeapInv

end CuteCore
