import CuteCore.Mm.Kmalloc

/-!
# Blocks of kmalloc do not overlap

Runs of the allocators with their clients: `kmalloc` and `kmfree`, pages taken
and returned by others, and writes of the holders into what they hold. Every
page has one role at most, and each step moves pages between two roles.

A request of 9 to 4088 bytes gets a range of its own. The nine-page classes and
the large path do not serve the other sizes: a large block has only 4088 bytes
behind its magic word, and a slab of 8-byte objects ends its chain outside its
page.
-/

namespace CuteCore

open Hoare Bytes DoublyLinked

variable {layout : Layout}

/-- What the clients hold: blocks with their requested sizes, and pages. -/
structure Client where
  live : List (Nat × Nat)
  others : List Nat

inductive HeapOp where
  | kmalloc (size : Nat)
  | kmfree (p : Nat)
  | kalloc
  | kfree (page : Nat)
  | write (a : Nat) (value : Byte)

/-- Clients free what they hold and write inside what they hold. The predicate
says which sizes they request. -/
def Client.Legal (allowed : Nat → Prop) (client : Client) : HeapOp → Prop
  | .kmalloc size => allowed size
  | .kmfree p => ∃ size, (p, size) ∈ client.live
  | .kalloc => True
  | .kfree page => page ∈ client.others
  | .write a _ => (∃ p size, (p, size) ∈ client.live ∧ p ≤ a ∧ a < p + size) ∨
      ∃ page ∈ client.others, page ≤ a ∧ a < page + pgSize

variable (layout) in
def HeapOp.exec : HeapOp → KernelProg Nat
  | .kmalloc size => CuteCore.kmalloc size
  | .kmfree p => do
    CuteCore.kmfree layout p
    return 0
  | .kalloc => CuteCore.kalloc
  | .kfree page => do
    CuteCore.kfree layout page
    return 0
  | .write a value => do
    modify fun s => s.withMem (copy s.mem a 1 fun _ => value)
    return 0

/-- The clients after an operation that returned `result`. -/
def Client.step (client : Client) (op : HeapOp) (result : Nat) : Client :=
  match op with
  | .kmalloc size =>
    if result = 0 then client else { client with live := (result, size) :: client.live }
  | .kmfree p => { client with live := client.live.filter fun block => block.1 ≠ p }
  | .kalloc => if result = 0 then client else { client with others := result :: client.others }
  | .kfree page => { client with others := client.others.erase page }
  | .write _ _ => client

/-- The kernel variables at boot, before `kinit`. -/
def Kernel.boot (mem : ByteMap) : Kernel where
  mem := mem
  memlist := 0
  caches _ := 0
  kvmroot := 0
  procCache := 0
  pidBitmap _ := 0
  lastPid := 0

/-- A run from boot. -/
inductive Run (layout : Layout) (allowed : Nat → Prop) : Kernel → Client → Prop where
  | boot {mem : ByteMap} {s : Kernel} (booted : Returns (kinit layout) (Kernel.boot mem) () s) :
      Run layout allowed s ⟨[], []⟩
  | step {s after : Kernel} {client : Client} {result : Nat} (earlier : Run layout allowed s client)
      (op : HeapOp) (legal : client.Legal allowed op)
      (returned : Returns (op.exec layout) s result after) :
      Run layout allowed after (client.step op result)

/-- The page is on the free list. -/
def OnFreeList (s : Kernel) (page : Nat) : Prop :=
  ∃ pages, Chain s.mem s.memlist pages ∧ page ∈ pages

/-- The page is a slab of one of the caches. -/
def IsSlab (s : Kernel) (page : Nat) : Prop :=
  ∃ i, ∃ c : SlabClass, ∃ slabs, s.caches i ≠ 0 ∧
    SlabList s.mem (s.caches i + c.offset) slabs ∧ page ∈ slabs

def NoOverlap (a n b k : Nat) : Prop := a + n ≤ b ∨ b + k ≤ a

/-- The range `[p, p + size)` belongs to one allocation alone: the pointer is live once, and
the range meets no other live block and nothing else that is in use or free. -/
structure OwnedAlone (layout : Layout) (s : Kernel) (client : Client) (p size : Nat) : Prop where
  inMemory : layout.ekernel ≤ p ∧ p + size ≤ phyEnd
  once : (client.live.map Prod.fst).count p = 1
  blocks : ∀ q k, (q, k) ∈ client.live → q ≠ p → NoOverlap p size q k
  slabs : ∀ page, IsSlab s page → NoOverlap p size page slabHeader
  large : ∀ q k, (q, k) ∈ client.live → maxCacheSize < k → NoOverlap p size (q - 8) 8
  free : ∀ page, OnFreeList s page → NoOverlap p size page pgSize
  others : ∀ page ∈ client.others, NoOverlap p size page pgSize
  caches : ∀ i, s.caches i ≠ 0 → NoOverlap p size (s.caches i) pgSize

/-- What a page is used for. -/
inductive Role where
  | free
  | cache (i : Fin numCaches)
  | slab (i : Fin numCaches)
  | large
  | other

abbrev CacheLists := Fin numCaches → SlabLists
abbrev FreeObjectsOf := Fin numCaches → Nat → List Nat

def InRole (s : Kernel) (client : Client) (lists : CacheLists) (free : List Nat) (page : Nat) :
    Role → Prop
  | .free => page ∈ free
  | .cache i => s.caches i ≠ 0 ∧ page = s.caches i
  | .slab i => (lists i).Has page
  | .large => ∃ size, (page + 8, size) ∈ client.live ∧ maxCacheSize < size
  | .other => page ∈ client.others

/-- Each page has one role at most. -/
def OneRole (inRole : Nat → Role → Prop) : Prop :=
  ∀ page r r', inRole page r → inRole page r' → r = r'

/-- The invariant of a run with requests of 9 to 4088 bytes. -/
structure HeapInv (layout : Layout) (s : Kernel) (client : Client) (lists : CacheLists)
    (avail : FreeObjectsOf) (free : List Nat) : Prop where
  freeList : FreeList layout s free
  cache : ∀ i, s.caches i ≠ 0 → CacheOk layout s.mem (s.caches i) (sizes i) (lists i) (avail i)
  retained : ∀ i, (lists i .empty).length ≤ maxEmptySlabs
  absent : ∀ i, s.caches i = 0 → ∀ page, ¬ (lists i).Has page
  unused : ∀ i, i.val = 0 → ∀ page, ¬ (lists i).Has page
  roles : OneRole (InRole s client lists free)
  large : ∀ p size, (p, size) ∈ client.live → maxCacheSize < size → ∃ page, p = page + 8 ∧
    layout.IsPage page ∧ p + size ≤ page + pgSize ∧ load s.mem page 8 = largeAllocMagic
  small : ∀ p size, (p, size) ∈ client.live → size ≤ maxCacheSize → ∃ i,
    cacheFor size = some i ∧ Taken (sizes i) (lists i) (avail i) p
  distinct : (client.live.map Prod.fst).Nodup
  others : ∀ page ∈ client.others, layout.IsPage page
  othersNodup : client.others.Nodup

/-- Objects of the class are large enough. -/
theorem cacheFor_fits {size : Nat} {i : Fin numCaches} (isClass : cacheFor size = some i) :
    size ≤ sizes i := by
  simpa using List.find?_some isClass

/-- All classes but the first have room for the null word at the end of a chain. -/
theorem sizes_ok (i : Fin numCaches) (used : i.val ≠ 0) : ObjSize (sizes i) := by
  have checked : ∀ i : Fin numCaches, i.val ≠ 0 → 8 ≤ sizes i ∧ sizes i ≤ pgSize ∧
      1 ≤ objectsPerSlab (sizes i) ∧
      slabHeader + objectsPerSlab (sizes i) * sizes i + 8 ≤ pgSize := by decide
  obtain ⟨word, small, some, sentinel⟩ := checked i used
  exact ⟨word, small, some, sentinel⟩

/-- Moving pages between two roles keeps the roles unique. -/
theorem OneRole.exchange {inRole after : Nat → Role → Prop} (roles : OneRole inRole) (a b : Role)
    (both : ∀ page, (after page a ∨ after page b) ↔ (inRole page a ∨ inRole page b))
    (others : ∀ page r, r ≠ a → r ≠ b → (after page r ↔ inRole page r))
    (apart : ∀ page, after page a → ¬ after page b) : OneRole after := by
  have before : ∀ page r, after page r → ∃ r', inRole page r' ∧
      (r = r' ∨ ((r = a ∨ r = b) ∧ (r' = a ∨ r' = b))) := by
    intro page r now
    by_cases atA : r = a
    · subst atA
      rcases (both page).mp (Or.inl now) with was | was
      · exact ⟨r, was, Or.inl rfl⟩
      · exact ⟨b, was, Or.inr ⟨Or.inl rfl, Or.inr rfl⟩⟩
    · by_cases atB : r = b
      · subst atB
        rcases (both page).mp (Or.inr now) with was | was
        · exact ⟨a, was, Or.inr ⟨Or.inr rfl, Or.inl rfl⟩⟩
        · exact ⟨r, was, Or.inl rfl⟩
      · exact ⟨r, (others page r atA atB).mp now, Or.inl rfl⟩
  intro page r r' first second
  obtain ⟨old, wasOld, change⟩ := before page r first
  obtain ⟨old', wasOld', change'⟩ := before page r' second
  have same := roles page old old' wasOld wasOld'
  subst same
  have exchanged : ∀ x y : Role, (x = a ∨ x = b) → (y = a ∨ y = b) → after page x →
      after page y → x = y := by
    rintro x y (rfl | rfl) (rfl | rfl) atX atY
    · rfl
    · exact absurd atY (apart page atX)
    · exact absurd atX (apart page atY)
    · rfl
  rcases change with rfl | ⟨isEither, oldEither⟩
  · rcases change' with rfl | ⟨isEither', oldEither'⟩
    · rfl
    · exact exchanged _ _ oldEither' isEither' first second
  · rcases change' with rfl | ⟨isEither', -⟩
    · exact exchanged _ _ isEither oldEither first second
    · exact exchanged _ _ isEither isEither' first second

namespace HeapInv

variable {s : Kernel} {client : Client} {lists : CacheLists} {avail : FreeObjectsOf}
  {free : List Nat}

/-- The cache of a slab exists and is not the first class. -/
theorem used (inv : HeapInv layout s client lists avail free) (i : Fin numCaches) (page : Nat)
    (isSlab : (lists i).Has page) : s.caches i ≠ 0 ∧ ObjSize (sizes i) :=
  ⟨fun null => inv.absent i null page isSlab, sizes_ok i fun zero => inv.unused i zero page isSlab⟩

/-- Whatever role it has, it is a page above the kernel image. -/
theorem isPage (inv : HeapInv layout s client lists avail free) (page : Nat) (r : Role)
    (inRole : InRole s client lists free page r) : layout.IsPage page := by
  cases r with
  | free => exact inv.freeList.pages page inRole
  | cache i =>
    obtain ⟨created, rfl⟩ := inRole
    exact (inv.cache i created).cachePage
  | slab i => exact ((inv.cache i (inv.used i page inRole).1).toListed.page page inRole).1
  | large =>
    obtain ⟨size, live, large⟩ := inRole
    obtain ⟨other, same, isPage, -⟩ := inv.large _ _ live large
    rwa [Nat.add_right_cancel same]
  | other => exact inv.others page inRole

/-- A page in another role than a block's home does not meet the block. -/
theorem apart_of_role (inv : HeapInv layout s client lists avail free) {home page : Nat}
    (r r' : Role) (homeRole : InRole s client lists free home r)
    (pageRole : InRole s client lists free page r') (differs : home ≠ page) {p size : Nat}
    (low : home ≤ p) (high : p + size ≤ home + pgSize) (a n : Nat)
    (inside : page ≤ a ∧ a + n ≤ page + pgSize) : NoOverlap p size a n :=
  apart_pages (inv.isPage home r homeRole).1 (inv.isPage page r' pageRole).1 differs ⟨low, high⟩
    inside

/-- The page a live block lies in: a slab or a large page. -/
theorem home (inv : HeapInv layout s client lists avail free) (p size : Nat)
    (live : (p, size) ∈ client.live) : ∃ home r, InRole s client lists free home r ∧
      home + 8 ≤ p ∧ p + size ≤ home + pgSize ∧
      ((r = .large ∧ p = home + 8 ∧ maxCacheSize < size) ∨
        ∃ i, r = .slab i ∧ size ≤ sizes i ∧ IsObject (sizes i) home p ∧ home + slabHeader ≤ p ∧
          p ∉ avail i home) := by
  by_cases large : maxCacheSize < size
  · obtain ⟨page, rfl, isPage, fits, -⟩ := inv.large p size live large
    exact ⟨page, .large, ⟨size, live, large⟩, Nat.le_refl _, fits, Or.inl ⟨rfl, rfl, large⟩⟩
  · obtain ⟨i, isClass, slab, isSlab, object, taken⟩ := inv.small p size live (by omega)
    have fits := cacheFor_fits isClass
    have inside := object.inside (inv.used i slab isSlab).2
    refine ⟨slab, .slab i, isSlab, ?_, ?_, Or.inr ⟨i, rfl, fits, object, inside.1, taken⟩⟩
    · unfold slabHeader at inside
      omega
    · omega

/-- In a state of the invariant every live block is owned alone. -/
theorem ownedAlone (inv : HeapInv layout s client lists avail free) (p size : Nat)
    (live : (p, size) ∈ client.live) : OwnedAlone layout s client p size := by
  obtain ⟨home, r, homeRole, low, high, kind⟩ := inv.home p size live
  have homePage := inv.isPage home r homeRole
  have whole : home ≤ p := by omega
  have notSame : ∀ page r', InRole s client lists free page r' → r' ≠ r → home ≠ page := by
    rintro page r' pageRole differs rfl
    exact differs (inv.roles home r' r pageRole homeRole)
  refine ⟨⟨?_, ?_⟩, ?_, ?_, ?_, ?_, ?_, ?_, ?_⟩
  · have above := homePage.2.1
    omega
  · have aligned := homePage.1
    have below := homePage.2.2
    simp only [pgSize, phyEnd] at *
    omega
  · exact List.count_eq_one_of_mem inv.distinct (List.mem_map_of_mem live)
  · intro q k other differs
    obtain ⟨home', r', homeRole', low', high', kind'⟩ := inv.home q k other
    by_cases same : home = home'
    · subst same
      have sameRole := inv.roles home r r' homeRole homeRole'
      subst sameRole
      rcases kind with ⟨rfl, isP, -⟩ | ⟨i, rfl, fits, object, -, -⟩
      · rcases kind' with ⟨-, isQ, -⟩ | ⟨i, isSlab, -⟩
        · exact absurd (isQ.trans isP.symm) differs
        · cases isSlab
      · rcases kind' with ⟨isLarge, -⟩ | ⟨j, isSlab, fits', object', -, -⟩
        · cases isLarge
        · cases isSlab
          have apart := object.apart object' (Ne.symm differs)
          unfold NoOverlap
          omega
    · exact inv.apart_of_role r r' homeRole homeRole' same whole high q k ⟨by omega, high'⟩
  · rintro page ⟨i, c, slabs, created, linked, member⟩
    have listed := inv.cache i created
    have isSlab : (lists i).Has page := by
      have sameList := linked.unique (listed.linked c)
      exact ⟨c, sameList ▸ member⟩
    by_cases same : home = page
    · subst same
      have sameRole := inv.roles home r (.slab i) homeRole isSlab
      rcases kind with ⟨isLarge, -⟩ | ⟨j, -, -, -, behind, -⟩
      · rw [isLarge] at sameRole
        cases sameRole
      · exact Or.inr behind
    · exact inv.apart_of_role r (.slab i) homeRole isSlab same whole high page slabHeader
        (by simp only [slabHeader, pgSize]; omega)
  · intro q k other large
    obtain ⟨page, rfl, -, -⟩ := inv.large q k other large
    rw [Nat.add_sub_cancel]
    by_cases same : home = page
    · exact Or.inr (same ▸ low)
    · exact inv.apart_of_role r .large homeRole ⟨k, other, large⟩ same whole high page 8
        (by simp only [pgSize]; omega)
  · rintro page ⟨pages, chain, member⟩
    have isFree : page ∈ free := chain.unique inv.freeList.chain ▸ member
    refine inv.apart_of_role r .free homeRole isFree ?_ whole high page pgSize (by omega)
    apply notSame page .free isFree
    rcases kind with ⟨rfl, -⟩ | ⟨i, rfl, -⟩ <;> simp
  · intro page member
    refine inv.apart_of_role r .other homeRole member ?_ whole high page pgSize (by omega)
    apply notSame page .other member
    rcases kind with ⟨rfl, -⟩ | ⟨i, rfl, -⟩ <;> simp
  · intro i created
    refine inv.apart_of_role r (.cache i) homeRole ⟨created, rfl⟩ ?_ whole high _ pgSize
      (by omega)
    apply notSame _ (.cache i) ⟨created, rfl⟩
    rcases kind with ⟨rfl, -⟩ | ⟨i, rfl, -⟩ <;> simp

end HeapInv

end CuteCore
