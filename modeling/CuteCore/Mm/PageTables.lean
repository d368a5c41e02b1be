import CuteCore.Mm.Vm
import CuteCore.Library.RadixForest

/-!
# The page tables in memory

`PageTables` describes memory as a forest of page tables: the table `base` and
the roots that share its subtrees, with the free list beside them. Every page
has one kind. The leaves for the pages of user addresses refer to frames of
their own, or to device registers below the kernel image.
-/

namespace CuteCore

open Hoare Bytes RadixForest

variable {layout : Layout}

/-- Uses of pages other than tables and mapped frames. -/
inductive Spare where
  | free
  | held
  | slab
  | outside
  deriving DecidableEq

abbrev PageKind := Kind (Fin 512) Spare

/-- Pages that clients may write: the ones they hold and the mapped frames. -/
def IsClient (kind : PageKind) : Prop := kind = .other .held ∨ kind = .frame

def entry (mem : ByteMap) (t : Nat) (i : Fin 512) : Nat := load mem (t + 8 * i.val) 8

/-- The entries read as slots: `walk` follows the links, and the last table has leaves. -/
def tableSlots (mem : ByteMap) : Slots Nat (Fin 512) Nat where
  link t i := if pteValid (entry mem t i) then some (pte2pa (entry mem t i)) else none
  leaf t i := if pteValid (entry mem t i) then some (entry mem t i) else none

/-- The number of the page a path and a last index lead to. -/
def pageNumber (path : List (Fin 512)) (i : Fin 512) : Nat :=
  path.foldl (fun n j => n * 512 + j.val) 0 * 512 + i.val

/-- Three levels; the pages below `bound` are for users. `kfree` refuses what
lies below the end of the kernel image. -/
def sv39 (layout : Layout) (bound : Nat) : Shape Nat (Fin 512) Nat where
  depth := 2
  positive := by decide
  target := pte2pa
  fixed page := page < layout.ekernel
  guarded path i := pageNumber path i < bound

@[simp] theorem sv39_depth (layout : Layout) (bound : Nat) : (sv39 layout bound).depth = 2 := rfl

def index (level va : Nat) : Fin 512 := ⟨px level va, Nat.mod_lt _ (by decide)⟩

/-- The indices of an address in the upper two levels. -/
def upper (va : Nat) : List (Fin 512) := [index 2 va, index 1 va]

theorem pageNumber_va (va : Nat) : pageNumber (upper va) (index 0 va) = va / pgSize % 2 ^ 27 := by
  simp only [pageNumber, upper, index, px, pgSize, List.foldl_cons, List.foldl_nil]
  omega

/-! ## Entries -/

theorem pteValid_iff (pte : Nat) : pteValid pte ↔ pte % 2 = 1 := by
  rw [pteValid, pteV, Nat.and_one_is_mod]
  omega

theorem pteValid_zero : ¬ pteValid 0 := by decide

theorem pteValid_made (pte : Nat) : pteValid (pte ||| pteV) := by
  rw [pteValid_iff, pteV, Nat.or_mod_two_eq_one]
  exact Or.inr rfl

/-- The bits of a page address and the flags do not meet. -/
theorem pte2pa_made (pa flags : Nat) (aligned : pa % pgSize = 0) (inside : pa < 2 ^ 64)
    (small : flags < 2 ^ 10) : pte2pa (pa2pte pa ||| flags) = pa := by
  have high : (pa2pte pa ||| flags) / 2 ^ 10 = pa / 2 ^ 12 := by
    rw [Nat.or_div_two_pow, Nat.div_eq_of_lt small, Nat.or_zero, pa2pte]
    exact Nat.mul_div_cancel _ (by decide)
  rw [pte2pa, high]
  simp only [pgSize] at *
  omega

theorem pte_made_lt (pa flags : Nat) (inside : pa < 2 ^ 64) (small : flags < 2 ^ 10) :
    pa2pte pa ||| flags < 2 ^ 64 := by
  refine Nat.or_lt_two_pow ?_ (Nat.lt_trans small (by decide))
  simp only [pa2pte]
  omega

/-- The entry for a table is no leaf. -/
theorem not_pteLeaf_made (pa : Nat) : ¬ pteLeaf (pa2pte pa ||| pteV) := by
  have low : (pa2pte pa ||| pteV) % 2 ^ 4 = 1 := by
    have shifted : pa2pte pa % 2 ^ 4 = 0 := by
      unfold pa2pte
      omega
    rw [Nat.or_mod_two_pow, shifted]
    rfl
  have masked : (pa2pte pa ||| pteV) &&& 14 = 0 := by
    have small : (pa2pte pa ||| pteV) &&& 14 < 2 ^ 4 := Nat.and_lt_two_pow _ (by decide)
    rw [← Nat.mod_eq_of_lt small, Nat.and_mod_two_pow, low]
    rfl
  exact fun leaf => leaf masked

theorem entry_congr {mem after : ByteMap} {t : Nat} (same : SameOn after mem t pgSize)
    (i : Fin 512) : entry after t i = entry mem t i := by
  have bound := i.isLt
  refine load_congr (same.sub (Nat.le_add_right ..) ?_)
  simp only [pgSize]
  omega

/-- A page from `kalloc` has no valid entries. -/
theorem FreeList.popPage_entry {s : Kernel} {page : Nat} {free : List Nat}
    (holds : FreeList layout s (page :: free)) (i : Fin 512) : entry s.popPage.mem page i = 0 := by
  have bound := i.isLt
  change load (fill s.mem s.memlist pgSize 0) (page + 8 * i.val) 8 = 0
  rw [holds.pop.1]
  apply load_fill_zero _ _ _ _ _ (Nat.le_add_right ..)
  simp only [pgSize]
  omega

/-- The entries of tables after one of them was stored. -/
theorem entry_store {mem : ByteMap} {t t' : Nat} (aligned : t % pgSize = 0)
    (aligned' : t' % pgSize = 0) (i i' : Fin 512) {value : Nat} (fits : value < 2 ^ 64) :
    entry (store mem (t + 8 * i.val) 8 value) t' i' =
      if t' = t ∧ i' = i then value else entry mem t' i' := by
  have bound := i.isLt
  have bound' := i'.isLt
  have same : t' + 8 * i'.val = t + 8 * i.val ↔ t' = t ∧ i' = i := by
    rw [Fin.ext_iff]
    simp only [pgSize] at *
    omega
  have word : (t + 8 * i.val) % 8 = 0 ∧ (t' + 8 * i'.val) % 8 = 0 := by
    simp only [pgSize] at *
    omega
  rw [entry, load_store_word _ _ _ _ word.1 word.2 fits]
  exact if_congr same rfl rfl

/-- A table entry writes its own page only. -/
theorem sameOn_entry {mem : ByteMap} {t page : Nat} (aligned : t % pgSize = 0)
    (aligned' : page % pgSize = 0) (differs : page ≠ t) (i : Fin 512) (value : Nat) :
    SameOn (store mem (t + 8 * i.val) 8 value) mem page pgSize := by
  have bound := i.isLt
  apply sameOn_store
  simp only [pgSize] at *
  omega

theorem link_of_valid {mem : ByteMap} {t : Nat} {i : Fin 512} (valid : pteValid (entry mem t i)) :
    (tableSlots mem).link t i = some (pte2pa (entry mem t i)) := if_pos valid

theorem link_of_invalid {mem : ByteMap} {t : Nat} {i : Fin 512}
    (invalid : ¬ pteValid (entry mem t i)) : (tableSlots mem).link t i = none := if_neg invalid

theorem leaf_of_valid {mem : ByteMap} {t : Nat} {i : Fin 512} (valid : pteValid (entry mem t i)) :
    (tableSlots mem).leaf t i = some (entry mem t i) := if_pos valid

theorem leaf_of_invalid {mem : ByteMap} {t : Nat} {i : Fin 512}
    (invalid : ¬ pteValid (entry mem t i)) : (tableSlots mem).leaf t i = none := if_neg invalid

/-- Slots depend on the entries. -/
theorem slots_of_entry {mem after : ByteMap} {t : Nat} {i : Fin 512}
    (same : entry after t i = entry mem t i) :
    (tableSlots after).link t i = (tableSlots mem).link t i ∧
      (tableSlots after).leaf t i = (tableSlots mem).leaf t i := by
  simp only [tableSlots, same, and_self]

/-! ## The invariant -/

structure PageTables (layout : Layout) (bound : Nat) (s : Kernel) (base : Nat) (roots : List Nat)
    (kind : Nat → PageKind) (free : List Nat) : Prop where
  forest : Forest (sv39 layout bound) (tableSlots s.mem) kind base roots
  freeList : FreeList layout s free
  isFree : ∀ page, page ∈ free ↔ kind page = .other .free
  pages : ∀ page, kind page ≠ .other .outside → layout.IsPage page
  pointers : ∀ t path i, kind t = .table path → path.length < 2 → pteValid (entry s.mem t i) →
    ¬ pteLeaf (entry s.mem t i)

namespace PageTables

variable {bound : Nat} {s : Kernel} {base : Nat} {roots : List Nat} {kind : Nat → PageKind}
  {free : List Nat}

theorem isPage (tables : PageTables layout bound s base roots kind free) {t : Nat}
    {path : List (Fin 512)} (isTable : kind t = .table path) : layout.IsPage t := by
  apply tables.pages t
  simp [isTable]

theorem framePage (tables : PageTables layout bound s base roots kind free) {page : Nat}
    (isFrame : kind page = .frame) : layout.IsPage page := by
  apply tables.pages page
  simp [isFrame]

/-- Pages that are no tables and no frames may be used anew and written. -/
theorem rearrange (tables : PageTables layout bound s base roots kind free) {after : Kernel}
    {kind' : Nat → PageKind} {free' : List Nat} (freeList : FreeList layout after free')
    (isFree : ∀ page, page ∈ free' ↔ kind' page = .other .free)
    (pages : ∀ page, kind' page ≠ .other .outside → layout.IsPage page)
    (sameTables : SameTables kind kind') (frames : ∀ page, kind page = .frame → kind' page = .frame)
    (entries : ∀ t path i, kind t = .table path → entry after.mem t i = entry s.mem t i) :
    PageTables layout bound after base roots kind' free' := by
  refine ⟨?_, freeList, isFree, pages, ?_⟩
  · exact tables.forest.congr (fun t path i isTable => slots_of_entry (entries t path i isTable))
      sameTables frames
  · intro t path i isTable short valid
    have before := (sameTables t path).mp isTable
    rw [entries t path i before] at valid ⊢
    exact tables.pointers t path i before short valid

/-- `kalloc` clears no table. -/
theorem popPage_entries {page : Nat}
    (tables : PageTables layout bound s base roots kind (page :: free)) (t : Nat)
    (path : List (Fin 512)) (i : Fin 512) (isTable : kind t = .table path) :
    entry s.popPage.mem t i = entry s.mem t i := by
  have isFree := (tables.isFree page).mp (List.mem_cons_self ..)
  have differs : t ≠ page := by
    rintro rfl
    rw [isFree] at isTable
    cases isTable
  exact entry_congr (tables.freeList.popPage_other (tables.isPage isTable) differs) i

/-- `kalloc` takes the head of the free list for a use that is no table. -/
theorem take {page : Nat} (tables : PageTables layout bound s base roots kind (page :: free)) :
    PageTables layout bound s.popPage base roots (Function.update kind page (.other .held)) free := by
  have isFree := (tables.isFree page).mp (List.mem_cons_self ..)
  have isPage := tables.freeList.pages page (List.mem_cons_self ..)
  have notAgain := (List.nodup_cons.mp tables.freeList.nodup).1
  have notTable : ∀ path, kind page ≠ .table path := by
    simp [isFree]
  refine tables.rearrange tables.freeList.pop.2 ?_ ?_ ?_ ?_ ?_
  · intro other
    by_cases isSame : other = page
    · subst isSame
      rw [Function.update_self]
      simp [notAgain]
    · rw [Function.update_of_ne isSame, ← tables.isFree, List.mem_cons]
      simp [isSame]
  · intro other used
    by_cases isSame : other = page
    · exact isSame ▸ isPage
    · rw [Function.update_of_ne isSame] at used
      exact tables.pages other used
  · intro t path
    by_cases isSame : t = page
    · subst isSame
      rw [Function.update_self]
      simp [notTable]
    · rw [Function.update_of_ne isSame]
  · intro other isFrame
    rw [Function.update_of_ne, isFrame]
    rintro rfl
    rw [isFree] at isFrame
    cases isFrame
  · exact tables.popPage_entries

/-- `kfree` of a page that is no table writes into no table. -/
theorem pushPage_entries (tables : PageTables layout bound s base roots kind free) {page : Nat}
    (isPage : layout.IsPage page) (notTable : ∀ path, kind page ≠ .table path) (t : Nat)
    (path : List (Fin 512)) (i : Fin 512) (isTable : kind t = .table path) :
    entry (s.pushPage page).mem t i = entry s.mem t i := by
  have differs : t ≠ page := by
    rintro rfl
    exact notTable path isTable
  refine entry_congr ?_ i
  apply sameOn_store
  exact apart_pages (tables.isPage isTable).1 isPage.1 differs (by omega) (by simp [pgSize])

/-- `kfree` of a page that is no table and no frame. -/
theorem give (tables : PageTables layout bound s base roots kind free) (page : Nat)
    (isHeld : kind page = .other .held) :
    PageTables layout bound (s.pushPage page) base roots
      (Function.update kind page (.other .free)) (page :: free) := by
  have isPage : layout.IsPage page := tables.pages page (by rw [isHeld]; simp)
  have fresh : page ∉ free := by
    rw [tables.isFree, isHeld]
    simp
  refine tables.rearrange
    (tables.freeList.push page isPage fresh tables.freeList.memlist_lt) ?_ ?_ ?_ ?_ ?_
  · intro other
    by_cases isSame : other = page
    · subst isSame
      simp
    · rw [Function.update_of_ne isSame, ← tables.isFree, List.mem_cons]
      simp [isSame]
  · intro other used
    by_cases isSame : other = page
    · exact isSame ▸ isPage
    · rw [Function.update_of_ne isSame] at used
      exact tables.pages other used
  · intro t path
    by_cases isSame : t = page
    · subst isSame
      rw [Function.update_self, isHeld]
      simp
    · rw [Function.update_of_ne isSame]
  · intro other isFrame
    rw [Function.update_of_ne, isFrame]
    rintro rfl
    rw [isHeld] at isFrame
    cases isFrame
  · exact tables.pushPage_entries isPage (by simp [isHeld])

/-- A table taken from the free list, hung into a free slot. -/
theorem hang {t page : Nat} {path : List (Fin 512)} {i : Fin 512}
    (tables : PageTables layout bound s base roots kind (page :: free))
    (isTable : kind t = .table path) (vacant : ¬ pteValid (entry s.mem t i)) :
    Forest.Attached (tableSlots s.popPage.mem)
      (tableSlots (store s.popPage.mem (t + 8 * i.val) 8 (pa2pte page ||| pteV)))
      (Function.update kind page (.other .held))
      (Function.update kind page (.table (path ++ [i]))) t page path i := by
  have isFree := (tables.isFree page).mp (List.mem_cons_self ..)
  have isPage := tables.freeList.pages page (List.mem_cons_self ..)
  have inside := isPage.lt
  have differs : t ≠ page := by
    rintro rfl
    rw [isFree] at isTable
    cases isTable
  have tPage := tables.isPage isTable
  have fits := pte_made_lt page pteV inside (by decide)
  have written : ∀ t' i', t' % pgSize = 0 →
      entry (store s.popPage.mem (t + 8 * i.val) 8 (pa2pte page ||| pteV)) t' i' =
        if t' = t ∧ i' = i then pa2pte page ||| pteV else entry s.popPage.mem t' i' :=
    fun t' i' aligned' => entry_store tPage.1 aligned' i i' fits
  have popped := tables.popPage_entries t path i isTable
  have set : entry (store s.popPage.mem (t + 8 * i.val) 8 (pa2pte page ||| pteV)) t i =
      pa2pte page ||| pteV := by
    rw [written t i tPage.1, if_pos ⟨rfl, rfl⟩]
  refine ⟨?_, ?_, ⟨.held, Function.update_self ..⟩, ?_, ?_, ?_, ?_, ?_⟩
  · rw [Function.update_of_ne differs, isTable]
  · exact link_of_invalid (by rw [popped]; exact vacant)
  · intro t' path' i' isTable' elsewhere
    have tPage' : t' % pgSize = 0 := by
      by_cases isSame : t' = page
      · rw [isSame]
        exact isPage.1
      · rw [Function.update_of_ne isSame] at isTable'
        exact (tables.isPage isTable').1
    exact slots_of_entry (by rw [written t' i' tPage', if_neg elsewhere])
  · rw [link_of_valid (by rw [set]; exact pteValid_made _), set,
      pte2pa_made page pteV isPage.1 inside (by decide)]
  · intro j
    have zeroed : entry (store s.popPage.mem (t + 8 * i.val) 8 (pa2pte page ||| pteV)) page j = 0 := by
      rw [written page j isPage.1, if_neg fun both => differs both.1.symm]
      exact tables.freeList.popPage_entry j
    exact ⟨link_of_invalid (by rw [zeroed]; decide), leaf_of_invalid (by rw [zeroed]; decide)⟩
  · intro p more
    by_cases isSame : p = page
    · subst isSame
      simp [eq_comm]
    · rw [Function.update_of_ne isSame, Function.update_of_ne isSame]
      simp [isSame]
  · intro p isFrame
    by_cases isSame : p = page
    · subst isSame
      simp at isFrame
    · rw [Function.update_of_ne isSame] at isFrame
      rw [Function.update_of_ne isSame, isFrame]

end PageTables

/-- What a walk may change: it takes free pages for empty tables. -/
structure Grown (layout : Layout) (s after : Kernel) (base : Nat) (roots : List Nat)
    (kind kind' : Nat → PageKind) (free free' : List Nat) : Prop where
  globals : SameGlobals s after
  used : ∀ page, kind page ≠ .other .free → kind' page = kind page
  spare : ∀ page, kind page = .other .free → kind' page = .other .free ∨ ∃ path, kind' page = .table path
  kept : ∀ page, layout.IsPage page → kind page ≠ .other .free → (∀ path, kind page ≠ .table path) →
    SameOn after.mem s.mem page pgSize
  reach : ∀ r path l, kind r = .table [] → path.length ≤ 2 →
    (tableSlots s.mem).reach r path = some l → (tableSlots after.mem).reach r path = some l
  lookup : ∀ r path k, kind r = .table [] → path.length = 2 →
    (tableSlots after.mem).lookup r path k = (tableSlots s.mem).lookup r path k
  baseSlots : roots ≠ [] → ∀ i, entry after.mem base i = entry s.mem base i
  taken : ∃ new, free = new ++ free'

theorem SameGlobals.trans {s mid after : Kernel} (first : SameGlobals s mid)
    (second : SameGlobals mid after) : SameGlobals s after := by
  unfold SameGlobals at *
  rw [second, first]

namespace Grown

variable {s mid after : Kernel} {base : Nat} {roots : List Nat}
  {kind kind' kind'' : Nat → PageKind} {free free' free'' : List Nat}

theorem refl : Grown layout s s base roots kind kind free free :=
  ⟨rfl, fun _ _ => rfl, fun _ isFree => Or.inl isFree, fun _ _ _ _ _ _ _ => rfl,
    fun _ _ _ _ _ reached => reached, fun _ _ _ _ _ => rfl, fun _ _ => rfl, ⟨[], rfl⟩⟩

/-- Two growths of the tables one after the other are one. -/
theorem trans (first : Grown layout s mid base roots kind kind' free free')
    (second : Grown layout mid after base roots kind' kind'' free' free'') :
    Grown layout s after base roots kind kind'' free free'' := by
  have sameTable : ∀ t path, kind t = .table path → kind' t = .table path := by
    intro t path isTable
    rw [first.used t (by simp [isTable]), isTable]
  refine ⟨first.globals.trans second.globals, ?_, ?_, ?_, ?_, ?_, ?_, ?_⟩
  · intro page used
    have same := first.used page used
    rw [← same] at used
    rw [second.used page used, same]
  · intro page isFree
    rcases first.spare page isFree with still | ⟨path, isTable⟩
    · exact second.spare page still
    · exact Or.inr ⟨path, by rw [second.used page (by simp [isTable]), isTable]⟩
  · intro page isPage used notTable
    have same := first.used page used
    refine SameOn.trans (second.kept page isPage ?_ ?_) (first.kept page isPage used notTable)
    · rwa [same]
    · rwa [same]
  · intro r path l isTop short reached
    exact second.reach r path l (sameTable r [] isTop) short (first.reach r path l isTop short reached)
  · intro r path k isTop full
    rw [second.lookup r path k (sameTable r [] isTop) full, first.lookup r path k isTop full]
  · intro some i
    rw [second.baseSlots some i, first.baseSlots some i]
  · obtain ⟨new, rfl⟩ := first.taken
    obtain ⟨more, rfl⟩ := second.taken
    exact ⟨new ++ more, by rw [List.append_assoc]⟩

end Grown

namespace PageTables

variable {bound : Nat} {s : Kernel} {base : Nat} {roots : List Nat} {kind : Nat → PageKind}
  {free : List Nat}

/-- Hanging a new table keeps the invariant. -/
theorem hung {t page : Nat} {path : List (Fin 512)} {i : Fin 512}
    (tables : PageTables layout bound s base roots kind (page :: free))
    (isTable : kind t = .table path) (short : path.length < 2)
    (vacant : ¬ pteValid (entry s.mem t i)) (unbased : t = base → roots = []) :
    PageTables layout bound
        (s.popPage.withMem (store s.popPage.mem (t + 8 * i.val) 8 (pa2pte page ||| pteV))) base roots
        (Function.update kind page (.table (path ++ [i]))) free ∧
      Grown layout s
        (s.popPage.withMem (store s.popPage.mem (t + 8 * i.val) 8 (pa2pte page ||| pteV))) base roots
        kind (Function.update kind page (.table (path ++ [i]))) (page :: free) free := by
  have isFree := (tables.isFree page).mp (List.mem_cons_self ..)
  have isPage := tables.freeList.pages page (List.mem_cons_self ..)
  have attached := tables.hang isTable vacant
  have popped := tables.take
  have tPage := tables.isPage isTable
  have differs : t ≠ page := by
    rintro rfl
    rw [isFree] at isTable
    cases isTable
  have fits := pte_made_lt page pteV isPage.lt (by decide)
  have poppedSame : ∀ other, layout.IsPage other → other ≠ page →
      SameOn s.popPage.mem s.mem other pgSize :=
    fun other otherPage notPage => tables.freeList.popPage_other otherPage notPage
  have top : ∀ r, kind r = .table [] → Function.update kind page (.other .held) r = .table [] := by
    intro r isTop
    rw [Function.update_of_ne, isTop]
    rintro rfl
    rw [isFree] at isTop
    cases isTop
  have sameSlots : (tableSlots s.mem).Same (tableSlots s.popPage.mem) kind := by
    intro t' path' i' isTable'
    have notPage : t' ≠ page := by
      rintro rfl
      rw [isFree] at isTable'
      cases isTable'
    exact slots_of_entry (entry_congr (poppedSame t' (tables.isPage isTable') notPage) i')
  have forest := popped.forest.attach attached short unbased
  constructor
  · refine ⟨forest, ?_, ?_, ?_, ?_⟩
    · refine popped.freeList.congr rfl fun other member => ?_
      have otherPage := popped.freeList.pages other member
      have notT : other ≠ t := by
        rintro rfl
        have alsoFree := (popped.isFree other).mp member
        rw [attached.isTable] at alsoFree
        cases alsoFree
      exact (sameOn_entry tPage.1 otherPage.1 notT i _).sub (Nat.le_refl _) (by simp [pgSize])
    · intro other
      rw [popped.isFree]
      by_cases isSame : other = page
      · subst isSame
        simp
      · rw [Function.update_of_ne isSame, Function.update_of_ne isSame]
    · intro other used
      by_cases isSame : other = page
      · exact isSame ▸ isPage
      · rw [Function.update_of_ne isSame] at used
        exact tables.pages other used
    · intro p more j isTable' short' valid
      have pPage : p % pgSize = 0 := by
        by_cases isSame : p = page
        · rw [isSame]
          exact isPage.1
        · rw [Function.update_of_ne isSame] at isTable'
          exact (tables.isPage isTable').1
      rw [withMem_mem, entry_store tPage.1 pPage i j fits] at valid ⊢
      by_cases atSlot : p = t ∧ j = i
      · rw [if_pos atSlot]
        exact not_pteLeaf_made page
      · rw [if_neg atSlot] at valid ⊢
        by_cases isSame : p = page
        · subst isSame
          rw [tables.freeList.popPage_entry j] at valid
          exact absurd valid pteValid_zero
        · refine popped.pointers p more j ?_ short' valid
          rw [Function.update_of_ne isSame] at isTable' ⊢
          exact isTable'
  · refine ⟨rfl, ?_, ?_, ?_, ?_, ?_, ?_, ⟨[page], rfl⟩⟩
    · intro other used
      refine Function.update_of_ne ?_ _ _
      rintro rfl
      exact used isFree
    · intro other wasFree
      by_cases isSame : other = page
      · subst isSame
        exact Or.inr ⟨path ++ [i], Function.update_self ..⟩
      · exact Or.inl (by rw [Function.update_of_ne isSame, wasFree])
    · intro other otherPage used notTable
      have notPage : other ≠ page := by
        rintro rfl
        exact used isFree
      have notT : other ≠ t := by
        rintro rfl
        exact notTable path isTable
      exact (sameOn_entry tPage.1 otherPage.1 notT i _).trans (poppedSame other otherPage notPage)
    · intro r more l isTop shortMore reached
      apply attached.reach popped.forest more (top r isTop) (by simpa using shortMore)
      rw [tables.forest.reach_congr sameSlots more isTop (by simpa using shortMore)]
      exact reached
    · intro r more k isTop full
      rw [withMem_mem, attached.lookup popped.forest short more k (top r isTop) (by simpa using full)]
      exact tables.forest.lookup_congr sameSlots more k isTop (by simpa using full)
    · intro some j
      have notT : ¬ (base = t ∧ j = i) := fun both => some (unbased both.1.symm)
      have basePage := tables.isPage tables.forest.baseTop
      have notPage : base ≠ page := by
        rintro rfl
        have baseTop := tables.forest.baseTop
        rw [isFree] at baseTop
        cases baseTop
      rw [withMem_mem, entry_store tPage.1 basePage.1 i j fits, if_neg notT]
      exact entry_congr (poppedSame base basePage notPage) j

end PageTables

end CuteCore
