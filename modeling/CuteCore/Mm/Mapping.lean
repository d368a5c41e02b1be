import CuteCore.Mm.PageTables

/-!
# Walking, mapping and unmapping one page

`walk` takes at most two free pages for new tables and changes no translation.
`mapPage` sets one leaf and `unmapPage` clears one. Both are seen through one
root only, unless the base table uses the top-level slot.

The translation of an address is what a walk through three tables finds. New tables come
from the free list and are empty, so linking one in shows no new leaf. The lemmas say for
every root and every address what it finds afterwards, and how many free pages are left.
-/

namespace CuteCore

open Hoare Bytes RadixForest

variable {layout : Layout}

theorem returns_storeField {s after : Kernel} {a n value : Nat}
    (returned : Returns (storeField a n value) s () after) :
    after = s.withMem (store s.mem a n value) := by
  rw [storeField, returns_bind] at returned
  obtain ⟨_, _, got, returned⟩ := returned
  obtain ⟨rfl, rfl⟩ := returns_get.mp got
  split at returned
  · exact (returns_set.mp returned).symm
  · exact (returns_throw.mp returned).elim

/-- `kfree` returns for pages above the kernel image only. -/
theorem returns_kfree {s after : Kernel} {page : Nat}
    (returned : Returns (kfree layout page) s () after) :
    layout.IsPage page ∧ after = s.pushPage page := by
  rw [kfree] at returned
  split at returned
  · exact (returns_throw.mp returned).elim
  · rename_i legal
    obtain ⟨_, _, got, returned⟩ := returns_bind.mp returned
    obtain ⟨rfl, rfl⟩ := returns_get.mp got
    have isPage : layout.IsPage page := by
      unfold Layout.IsPage
      omega
    have stored : wp (storeField page 8 s.memlist >>= fun _ =>
        modify fun s => { s with memlist := page })
        (fun _ after => after = s.pushPage page) s := by
      rw [wp_bind, wp_storeField]
      exact ⟨isPage.headInRam, wp_modify.mpr rfl⟩
    exact ⟨isPage, stored.of_returns returned⟩

/-- `walk` without allocation reads the tables in memory. -/
theorem walk_view {s : Kernel} {root : Nat} (va : Nat)
    (inRam : ∀ (path : List (Fin 512)) t (i : Fin 512), path.length ≤ 1 →
      (tableSlots s.mem).reach root path = some t → InRam (t + 8 * i.val) 8) :
    wp (walk root va false) (fun got after => after = s ∧
      got = ((tableSlots s.mem).reach root (upper va)).map (· + 8 * (index 0 va).val)) s := by
  have level : ∀ (t : Nat) (i : Fin 512), InRam (t + 8 * i.val) 8 →
      wp (walkLevel (t + 8 * i.val) false)
        (fun got after => after = s ∧ got = (tableSlots s.mem).link t i) s := by
    intro t i entryInRam
    rw [walkLevel, wp_bind, wp_loadField]
    refine ⟨entryInRam, ?_⟩
    change wp (if pteValid (entry s.mem t i) then _ else _) _ s
    by_cases valid : pteValid (entry s.mem t i)
    · rw [if_pos valid, wp_pure]
      exact ⟨rfl, (link_of_valid valid).symm⟩
    · rw [if_neg valid, if_neg (by simp), wp_pure]
      exact ⟨rfl, (link_of_invalid valid).symm⟩
  rw [walk]
  apply wp_seq (level root (index 2 va) (inRam [] root _ (Nat.zero_le _) rfl))
  intro got mid found
  rw [found.1, found.2, upper, Slots.reach]
  cases linked : (tableSlots s.mem).link root (index 2 va) with
  | none => exact wp_pure.mpr ⟨rfl, rfl⟩
  | some child =>
    have reached : (tableSlots s.mem).reach root [index 2 va] = some child := by
      rw [Slots.reach, linked]
      rfl
    apply wp_seq (level child (index 1 va) (inRam _ child _ (Nat.le_refl _) reached))
    intro got mid found
    change wp _ (fun got after => after = s ∧ got = ((tableSlots s.mem).reach child
      [index 1 va]).map (· + 8 * (index 0 va).val)) mid
    rw [found.1, found.2, Slots.reach]
    cases (tableSlots s.mem).link child (index 1 va) with
    | none => exact wp_pure.mpr ⟨rfl, rfl⟩
    | some l => exact wp_pure.mpr ⟨rfl, rfl⟩

namespace PageTables

variable {bound : Nat} {s : Kernel} {base : Nat} {roots : List Nat} {kind : Nat → PageKind}
  {free : List Nat}

/-- An entry of a table lies in memory. -/
theorem entryInRam (tables : PageTables layout bound s base roots kind free) {t : Nat}
    {path : List (Fin 512)} (isTable : kind t = .table path) (i : Fin 512) :
    InRam (t + 8 * i.val) 8 := by
  have small := i.isLt
  apply (tables.isPage isTable).inRam _ _
  simp only [pgSize]
  omega

/-- One level of `walk`: it follows the link, or takes a free page for a new table and links it. It
fails only when there is no free page. -/
theorem walkLevel_spec (tables : PageTables layout bound s base roots kind free) {t : Nat}
    {path : List (Fin 512)} (i : Fin 512) (isTable : kind t = .table path) (short : path.length < 2)
    (unbased : t = base → roots = []) :
    wp (walkLevel (t + 8 * i.val) true) (fun got after => ∃ kind' free',
      PageTables layout bound after base roots kind' free' ∧
      Grown layout s after base roots kind kind' free free' ∧
      ((got = none ∧ free' = [] ∧ (tableSlots after.mem).link t i = none) ∨
        ∃ child, got = some child ∧ (tableSlots after.mem).link t i = some child) ∧
      free.length ≤ free'.length + 1 ∧
      ((tableSlots s.mem).link t i ≠ none → after = s ∧ free' = free) ∧
      ∀ p more, kind' p = .table more → kind p = .table more ∨
        more = path ++ [i] ∧ (tableSlots after.mem).link t i = some p) s := by
  rw [walkLevel, wp_bind, wp_loadField]
  refine ⟨tables.entryInRam isTable i, ?_⟩
  change wp (if pteValid (entry s.mem t i) then _ else _) _ s
  by_cases valid : pteValid (entry s.mem t i)
  · rw [if_pos valid, wp_pure]
    exact ⟨kind, free, tables, Grown.refl, Or.inr ⟨_, rfl, link_of_valid valid⟩, by omega,
      fun _ => ⟨rfl, rfl⟩, fun _ _ isTable' => Or.inl isTable'⟩
  · have noLink : (tableSlots s.mem).link t i = none := link_of_invalid valid
    rw [if_neg valid, if_pos rfl]
    cases free with
    | nil =>
      apply wp_seq (kalloc_empty tables.freeList)
      rintro _ _ ⟨rfl, rfl⟩
      rw [if_pos rfl, wp_pure]
      exact ⟨kind, [], tables, Grown.refl, Or.inl ⟨rfl, rfl, noLink⟩, Nat.zero_le _, fun some =>
        absurd noLink some, fun _ _ isTable' => Or.inl isTable'⟩
    | cons page free =>
      have isPage := tables.freeList.pages page (List.mem_cons_self ..)
      have attached := tables.hang isTable valid
      apply wp_seq (kalloc_cons tables.freeList)
      rintro got _ ⟨rfl, rfl, -⟩
      rw [if_neg isPage.ne_zero, wp_bind, wp_storeField]
      refine ⟨tables.entryInRam isTable i, ?_⟩
      rw [wp_pure]
      obtain ⟨hung, grown⟩ := tables.hung isTable short valid unbased
      refine ⟨_, free, hung, grown, Or.inr ⟨got, rfl, attached.linked⟩,
        Nat.le_of_eq (List.length_cons ..), fun some => absurd noLink some, ?_⟩
      intro p more isTable'
      by_cases isNew : p = got
      · subst isNew
        rw [Function.update_self] at isTable'
        exact Or.inr ⟨(Kind.table.inj isTable').symm, attached.linked⟩
      · rw [Function.update_of_ne isNew] at isTable'
        exact Or.inl isTable'

/-- `walk` with allocation. Its new tables are reached from the root. -/
theorem walk_spec (tables : PageTables layout bound s base roots kind free) {root : Nat} (va : Nat)
    (isTop : kind root = .table []) (unbased : root = base → roots = []) :
    wp (walk root va true) (fun got after => ∃ kind' free',
      PageTables layout bound after base roots kind' free' ∧
      Grown layout s after base roots kind kind' free free' ∧
      ((got = none ∧ free' = [] ∧ (tableSlots after.mem).reach root (upper va) = none) ∨
        ∃ l, got = some (l + 8 * (index 0 va).val) ∧
          (tableSlots after.mem).reach root (upper va) = some l) ∧
      free.length ≤ free'.length + 2 ∧
      ((tableSlots s.mem).reach root (upper va) ≠ none → after = s ∧ free' = free) ∧
      ∀ p more, kind' p = .table more → kind p = .table more ∨
        more <+: upper va ∧ (tableSlots after.mem).reach root more = some p) s := by
  rw [walk]
  apply wp_seq (tables.walkLevel_spec (index 2 va) isTop (by simp) unbased)
  rintro got mid ⟨kind₁, free₁, midTables, grown₁, found₁, cost₁, cheap₁, fresh₁⟩
  have reached₁ : ∀ p more, kind₁ p = .table more → kind p = .table more ∨
      more = [index 2 va] ∧ (tableSlots mid.mem).reach root more = some p := by
    intro p more isTable
    apply (fresh₁ p more isTable).imp_right
    rintro ⟨rfl, linked⟩
    exact ⟨rfl, by rw [List.nil_append, Slots.reach, linked]; rfl⟩
  have isPrefix : [index 2 va] <+: upper va := ⟨[index 1 va], rfl⟩
  rcases found₁ with ⟨rfl, rfl, stillNone⟩ | ⟨child, rfl, linked⟩
  · rw [wp_pure]
    refine ⟨kind₁, [], midTables, grown₁, Or.inl ⟨rfl, rfl, ?_⟩, by omega, fun some => cheap₁ ?_,
      fun p more isTable => (reached₁ p more isTable).imp_right ?_⟩
    · rw [upper, Slots.reach, stillNone]
      rfl
    · intro noLink
      rw [upper, Slots.reach, noLink] at some
      exact some rfl
    · rintro ⟨rfl, reached⟩
      exact ⟨isPrefix, reached⟩
  · have stillTop : kind₁ root = .table [] := by rw [grown₁.used root (by simp [isTop]), isTop]
    have childTable := midTables.forest.links root [] (index 2 va) child stillTop (by simp) linked
    have notBase : child = base → roots = [] := by
      rintro rfl
      rw [midTables.forest.baseTop] at childTable
      simp at childTable
    apply wp_seq (midTables.walkLevel_spec (index 1 va) childTable (by simp) notBase)
    rintro got after ⟨kind₂, free₂, afterTables, grown₂, found₂, cost₂, cheap₂, fresh₂⟩
    have grown := grown₁.trans grown₂
    have childReached : (tableSlots after.mem).reach root [index 2 va] = some child := by
      apply grown₂.reach root [index 2 va] child stillTop (by simp)
      rw [Slots.reach, linked]
      rfl
    have fresh : ∀ p more, kind₂ p = .table more → kind p = .table more ∨
        more <+: upper va ∧ (tableSlots after.mem).reach root more = some p := by
      intro p more isTable
      rcases fresh₂ p more isTable with before | ⟨rfl, linked₂⟩
      · refine (reached₁ p more before).imp_right ?_
        rintro ⟨rfl, reached⟩
        exact ⟨isPrefix, grown₂.reach root _ p stillTop (by simp) reached⟩
      · obtain ⟨next, nextLinked, isNext⟩ := Option.bind_eq_some_iff.mp childReached
        cases isNext
        refine Or.inr ⟨List.prefix_rfl, ?_⟩
        rw [List.nil_append, List.singleton_append, Slots.reach, nextLinked]
        change (tableSlots after.mem).reach child [index 1 va] = some p
        rw [Slots.reach, linked₂]
        rfl
    have cheap : (tableSlots s.mem).reach root (upper va) ≠ none → after = s ∧ free₂ = free := by
      intro some
      have firstLink : (tableSlots s.mem).link root (index 2 va) ≠ none := by
        intro noLink
        rw [upper, Slots.reach, noLink] at some
        exact some rfl
      obtain ⟨rfl, rfl⟩ := cheap₁ firstLink
      refine cheap₂ fun noLink => ?_
      rw [upper, Slots.reach, linked] at some
      change (tableSlots mid.mem).reach child [index 1 va] ≠ none at some
      rw [Slots.reach, noLink] at some
      exact some rfl
    rcases found₂ with ⟨rfl, rfl, stillNone⟩ | ⟨l, rfl, linked₂⟩
    · rw [wp_pure]
      refine ⟨kind₂, [], afterTables, grown, Or.inl ⟨rfl, rfl, ?_⟩, by omega, cheap, fresh⟩
      obtain ⟨next, nextLinked, isNext⟩ := Option.bind_eq_some_iff.mp childReached
      cases isNext
      rw [upper, Slots.reach, nextLinked]
      change (tableSlots after.mem).reach child [index 1 va] = none
      rw [Slots.reach, stillNone]
      rfl
    · rw [wp_pure]
      refine ⟨kind₂, free₂, afterTables, grown, Or.inr ⟨l, rfl, ?_⟩, by omega, cheap, fresh⟩
      obtain ⟨next, nextLinked, isNext⟩ := Option.bind_eq_some_iff.mp childReached
      cases isNext
      rw [upper, Slots.reach, nextLinked]
      change (tableSlots after.mem).reach child [index 1 va] = some l
      rw [Slots.reach, linked₂]
      rfl

/-- `walk` without allocation finds the last table if there is one. -/
theorem walk_find (tables : PageTables layout bound s base roots kind free) {root : Nat} (va : Nat)
    (isTop : kind root = .table []) :
    wp (walk root va false) (fun got after => after = s ∧
      got = ((tableSlots s.mem).reach root (upper va)).map (· + 8 * (index 0 va).val)) s := by
  refine walk_view va fun path t i short reached => ?_
  have isTable := tables.forest.reach_kind path isTop (by simpa using Nat.le_succ_of_le short) reached
  exact tables.entryInRam isTable i

/-- Only the entry of one last table changes, with the free list and the kinds. -/
theorem changeLeaf (tables : PageTables layout bound s base roots kind free) {l : Nat}
    {path : List (Fin 512)} {k : Fin 512} (isTable : kind l = .table path) (full : path.length = 2)
    {after : Kernel} {kind' : Nat → PageKind} {free' : List Nat}
    (others : ∀ t more i, kind t = .table more → ¬ (t = l ∧ i = k) →
      entry after.mem t i = entry s.mem t i)
    (freeList : FreeList layout after free')
    (isFree : ∀ page, page ∈ free' ↔ kind' page = .other .free)
    (pages : ∀ page, kind' page ≠ .other .outside → layout.IsPage page)
    (sameTables : SameTables kind kind')
    (forest : Forest (sv39 layout bound) (tableSlots after.mem) kind' base roots) :
    PageTables layout bound after base roots kind' free' := by
  refine ⟨forest, freeList, isFree, pages, ?_⟩
  intro t more i isNow short valid
  have was := (sameTables t more).mp isNow
  have notSlot : ¬ (t = l ∧ i = k) := by
    rintro ⟨rfl, -⟩
    rw [was] at isTable
    cases isTable
    omega
  rw [others t more i was notSlot] at valid ⊢
  exact tables.pointers t more i was short valid

/-- Setting a leaf that is free. A page for users becomes a frame. -/
theorem setLeaf (tables : PageTables layout bound s base roots kind free) {l : Nat}
    {path : List (Fin 512)} {k : Fin 512} (isTable : kind l = .table path) (full : path.length = 2)
    {value : Nat} (valid : pteValid value) (fits : value < 2 ^ 64)
    (allowed : pageNumber path k < bound →
      pte2pa value < layout.ekernel ∨ kind (pte2pa value) = .other .held) :
    ∃ kind', PageTables layout bound (s.withMem (store s.mem (l + 8 * k.val) 8 value)) base roots
        kind' free ∧ SameTables kind kind' ∧
      (∀ page, page ≠ pte2pa value → kind' page = kind page) ∧
      (kind' (pte2pa value) = kind (pte2pa value) ∨ kind' (pte2pa value) = .frame) ∧
      (bound ≤ pageNumber path k → kind' = kind) := by
  have lPage := tables.isPage isTable
  have written : ∀ t more i, kind t = .table more →
      entry (store s.mem (l + 8 * k.val) 8 value) t i =
        if t = l ∧ i = k then value else entry s.mem t i :=
    fun t more i isTable' => entry_store lPage.1 (tables.isPage isTable').1 k i fits
  have others : ∀ t more i, kind t = .table more → ¬ (t = l ∧ i = k) →
      entry (s.withMem (store s.mem (l + 8 * k.val) 8 value)).mem t i = entry s.mem t i := by
    intro t more i isTable' notSlot
    rw [withMem_mem, written t more i isTable', if_neg notSlot]
  have sameBut : (tableSlots s.mem).SameBut
      (tableSlots (s.withMem (store s.mem (l + 8 * k.val) 8 value)).mem) kind l k :=
    fun t more i isTable' notSlot => slots_of_entry (others t more i isTable' notSlot)
  have set : (tableSlots (s.withMem (store s.mem (l + 8 * k.val) 8 value)).mem).leaf l k =
      some value := by
    have here : entry (s.withMem (store s.mem (l + 8 * k.val) 8 value)).mem l k = value := by
      rw [withMem_mem, written l path k isTable, if_pos ⟨rfl, rfl⟩]
    rw [leaf_of_valid (by rw [here]; exact valid), here]
  have freeList : FreeList layout (s.withMem (store s.mem (l + 8 * k.val) 8 value)) free := by
    refine tables.freeList.congr rfl fun page member => ?_
    have isFree := (tables.isFree page).mp member
    have differs : page ≠ l := by
      rintro rfl
      rw [isFree] at isTable
      cases isTable
    have pageAligned := (tables.freeList.pages page member).1
    exact (sameOn_entry lPage.1 pageAligned differs k value).sub (Nat.le_refl _) (by simp [pgSize])
  by_cases user : pageNumber path k < bound ∧ ¬ pte2pa value < layout.ekernel
  · obtain ⟨isUser, notFixed⟩ := user
    have isHeld := (allowed isUser).resolve_left notFixed
    refine ⟨Function.update kind (pte2pa value) .frame, ?_, ?_, ?_, Or.inr (Function.update_self ..),
      fun beyond => absurd isUser (Nat.not_lt.mpr beyond)⟩
    · refine tables.changeLeaf isTable full others freeList ?_ ?_ ?_ ?_
      · intro page
        rw [tables.isFree]
        by_cases isTarget : page = pte2pa value
        · subst isTarget
          simp [isHeld]
        · rw [Function.update_of_ne isTarget]
      · intro page used
        by_cases isTarget : page = pte2pa value
        · subst isTarget
          exact tables.pages _ (by simp [isHeld])
        · rw [Function.update_of_ne isTarget] at used
          exact tables.pages page used
      · intro t more
        by_cases isTarget : t = pte2pa value
        · subst isTarget
          simp [isHeld]
        · rw [Function.update_of_ne isTarget]
      · refine tables.forest.setLeaf isTable (by simpa using full) sameBut set ?_ ?_ ?_
        · intro t more
          by_cases isTarget : t = pte2pa value
          · subst isTarget
            simp [isHeld]
          · rw [Function.update_of_ne isTarget]
        · intro page isFrame
          by_cases isTarget : page = pte2pa value
          · subst isTarget
            exact Function.update_self ..
          · rw [Function.update_of_ne isTarget, isFrame]
        · intro _
          refine Or.inr ⟨?_, Function.update_self ..⟩
          change kind (pte2pa value) ≠ .frame
          simp [isHeld]
    · intro t more
      by_cases isTarget : t = pte2pa value
      · subst isTarget
        simp [isHeld]
      · rw [Function.update_of_ne isTarget]
    · exact fun page differs => Function.update_of_ne differs _ _
  · refine ⟨kind, ?_, fun _ _ => Iff.rfl, fun _ _ => rfl, Or.inl rfl, fun _ => rfl⟩
    refine tables.changeLeaf isTable full others freeList tables.isFree tables.pages
      (fun _ _ => Iff.rfl) ?_
    refine tables.forest.setLeaf isTable (by simpa using full) sameBut set (fun _ _ => Iff.rfl)
      (fun _ isFrame => isFrame) ?_
    intro isUser
    exact Or.inl (by_contra fun notFixed => user ⟨isUser, notFixed⟩)

end PageTables

/-- The entry `vmmap` writes. -/
def leafEntry (pa perm : Nat) : Nat := pa2pte pa ||| perm ||| pteV

theorem leafEntry_valid (pa perm : Nat) : pteValid (leafEntry pa perm) := pteValid_made _

theorem flags_lt {perm : Nat} (small : perm < 2 ^ 10) : perm ||| pteV < 2 ^ 10 :=
  Nat.or_lt_two_pow small (by decide)

theorem leafEntry_lt {pa perm : Nat} (inside : pa < 2 ^ 64) (small : perm < 2 ^ 10) :
    leafEntry pa perm < 2 ^ 64 := by
  rw [leafEntry, Nat.or_assoc]
  exact pte_made_lt pa _ inside (flags_lt small)

theorem pte2pa_leafEntry {pa perm : Nat} (aligned : pa % pgSize = 0) (inside : pa < 2 ^ 64)
    (small : perm < 2 ^ 10) : pte2pa (leafEntry pa perm) = pa := by
  rw [leafEntry, Nat.or_assoc]
  exact pte2pa_made pa _ aligned inside (flags_lt small)

/-- The leaf for an address. -/
def leafAt (mem : ByteMap) (root va : Nat) : Option Nat :=
  (tableSlots mem).lookup root (upper va) (index 0 va)

/-- Below `2 ^ 39` only addresses of one page share their place in the tables. -/
theorem same_place {va va' : Nat} (low : va < 2 ^ 39) (low' : va' < 2 ^ 39) :
    (upper va = upper va' ∧ index 0 va = index 0 va') ↔ va / pgSize = va' / pgSize := by
  simp only [upper, index, px, pgSize, List.cons.injEq, Fin.mk.injEq, and_true]
  omega

theorem SameGlobals.withMem {s after : Kernel} (same : SameGlobals s after) (mem : ByteMap) :
    SameGlobals s (after.withMem mem) := by
  unfold SameGlobals at *
  rw [same]
  rfl

/-- What a mapping operation on `root` changes: the leaves of the touched places,
seen through `root` and through the tables of the base. The target pages may get
another use; other held pages and slabs stay as they are. -/
structure Changed (layout : Layout) (s after : Kernel) (base : Nat) (roots : List Nat)
    (kind kind' : Nat → PageKind) (root : Nat) (touched : List (Fin 512) → Fin 512 → Prop)
    (targets : Nat → Prop) : Prop where
  globals : SameGlobals s after
  keeps : ∀ page, kind page = .other .held ∨ kind page = .other .slab → ¬ targets page →
    kind' page = kind page ∧ SameOn after.mem s.mem page pgSize
  slabs : ∀ page, kind' page = .other .slab → kind page = .other .slab
  baseSlots : roots ≠ [] → ∀ i, entry after.mem base i = entry s.mem base i
  leaves : ∀ r path k, kind r = .table [] → path.length = 2 →
    (tableSlots after.mem).lookup r path k = (tableSlots s.mem).lookup r path k ∨
      (touched path k ∧
        (r = root ∨ ∃ i rest, path = i :: rest ∧ (tableSlots s.mem).link base i ≠ none))

/-- Only `root` may show something else; the base table keeps its links. -/
def Isolated (s after : Kernel) (base root : Nat) (kind : Nat → PageKind) : Prop :=
  (∀ i, (tableSlots after.mem).link base i = (tableSlots s.mem).link base i) ∧
  ∀ r va, kind r = .table [] → r ≠ root → leafAt after.mem r va = leafAt s.mem r va

/-- The leaves for device registers stay. -/
def KeepsDevices (layout : Layout) (s after : Kernel) (kind : Nat → PageKind) : Prop :=
  ∀ r path k e, kind r = .table [] → path.length = 2 →
    (tableSlots s.mem).lookup r path k = some e → pte2pa e < layout.ekernel →
    (tableSlots after.mem).lookup r path k = some e

namespace PageTables

variable {bound : Nat} {s : Kernel} {base : Nat} {roots : List Nat} {kind : Nat → PageKind}
  {free : List Nat}

/-- New tables change no translation. -/
theorem changed_of_grown (tables : PageTables layout bound s base roots kind free) {after : Kernel}
    {kind' : Nat → PageKind} {free' : List Nat}
    (grown : Grown layout s after base roots kind kind' free free') (root : Nat)
    (touched : List (Fin 512) → Fin 512 → Prop) (targets : Nat → Prop) :
    Changed layout s after base roots kind kind' root touched targets := by
  refine ⟨grown.globals, ?_, ?_, grown.baseSlots,
    fun r path k isTop full => Or.inl (grown.lookup r path k isTop full)⟩
  · intro page spare _
    have notFree : kind page ≠ .other .free := by
      rcases spare with isHeld | isSlab
      · simp [isHeld]
      · simp [isSlab]
    have notTable : ∀ path, kind page ≠ .table path := by
      rcases spare with isHeld | isSlab
      · simp [isHeld]
      · simp [isSlab]
    have isPage : layout.IsPage page := by
      apply tables.pages page
      rcases spare with isHeld | isSlab
      · simp [isHeld]
      · simp [isSlab]
    exact ⟨grown.used page notFree, grown.kept page isPage notFree notTable⟩
  · intro page isSlab
    by_cases isFree : kind page = .other .free
    · rcases grown.spare page isFree with still | ⟨path, isTable⟩
      · rw [still] at isSlab
        simp at isSlab
      · rw [isTable] at isSlab
        simp at isSlab
    · rw [← grown.used page isFree, isSlab]

/-- The tables agree but for the entry that is written. -/
theorem sameBut_store (tables : PageTables layout bound s base roots kind free) {l : Nat}
    {path : List (Fin 512)} (k : Fin 512) (isTable : kind l = .table path) {value : Nat}
    (fits : value < 2 ^ 64) :
    (tableSlots s.mem).SameBut (tableSlots (store s.mem (l + 8 * k.val) 8 value)) kind l k ∧
      entry (store s.mem (l + 8 * k.val) 8 value) l k = value := by
  have written : ∀ t more i, kind t = .table more →
      entry (store s.mem (l + 8 * k.val) 8 value) t i =
        if t = l ∧ i = k then value else entry s.mem t i :=
    fun t more i isTable' =>
      entry_store (tables.isPage isTable).1 (tables.isPage isTable').1 k i fits
  refine ⟨fun t more i isTable' notSlot => slots_of_entry ?_, ?_⟩
  · rw [written t more i isTable', if_neg notSlot]
  · rw [written l path k isTable, if_pos ⟨rfl, rfl⟩]

/-- A leaf that is stored in a table of the grown tree changes what is translated at its place
only, and turns its target into a frame at most. -/
theorem changed_of_leaf (tables : PageTables layout bound s base roots kind free) {mid : Kernel}
    {kind₁ kind' : Nat → PageKind} {free₁ : List Nat}
    (midTables : PageTables layout bound mid base roots kind₁ free₁)
    (grown : Grown layout s mid base roots kind kind₁ free free₁) {root l pa value : Nat}
    {top : List (Fin 512)} (k : Fin 512) (isTop : kind root = .table []) (full : top.length = 2)
    (isTable : kind₁ l = .table top) (reached : (tableSlots mid.mem).reach root top = some l)
    (fits : value < 2 ^ 64) (otherKinds : ∀ page, page ≠ pa → kind' page = kind₁ page)
    (targetKind : kind' pa = kind₁ pa ∨ kind' pa = .frame) :
    Changed layout s (mid.withMem (store mid.mem (l + 8 * k.val) 8 value)) base roots kind kind'
      root (fun path i => path = top ∧ i = k) (fun page => page = pa) := by
  have changed := tables.changed_of_grown grown root
    (fun path i => path = top ∧ i = k) (fun page => page = pa)
  have stillTop : ∀ r, kind r = .table [] → kind₁ r = .table [] := by
    intro r wasTop
    rw [grown.used r (by simp [wasTop]), wasTop]
  obtain ⟨sameBut, -⟩ := midTables.sameBut_store k isTable fits
  refine ⟨changed.globals.withMem _, ?_, ?_, ?_, ?_⟩
  · intro page spare notTarget
    obtain ⟨sameKind, sameMem⟩ := changed.keeps page spare notTarget
    refine ⟨(otherKinds page notTarget).trans sameKind, SameOn.trans ?_ sameMem⟩
    have notTable : page ≠ l := by
      rintro rfl
      rw [sameKind] at isTable
      rcases spare with isHeld | isSlab
      · simp [isHeld] at isTable
      · simp [isSlab] at isTable
    have isPage : layout.IsPage page := by
      apply tables.pages page
      rcases spare with isHeld | isSlab
      · simp [isHeld]
      · simp [isSlab]
    exact sameOn_entry (midTables.isPage isTable).1 isPage.1 notTable _ _
  · intro page isSlab
    by_cases isTarget : page = pa
    · subst isTarget
      rcases targetKind with same | isFrame
      · exact changed.slabs page (same ▸ isSlab)
      · rw [isFrame] at isSlab
        cases isSlab
    · exact changed.slabs page (by rw [← otherKinds page isTarget, isSlab])
  · intro some i
    rw [← changed.baseSlots some i, withMem_mem]
    have basePage := midTables.isPage midTables.forest.baseTop
    have notTable : base ≠ l := by
      rintro rfl
      rw [midTables.forest.baseTop] at isTable
      obtain rfl : [] = top := by simpa using isTable
      cases full
    exact entry_congr (sameOn_entry (midTables.isPage isTable).1 basePage.1 notTable _ _) i
  · intro r path i isTop' isFull
    rcases midTables.forest.lookup_elsewhere (stillTop root isTop) full reached sameBut
      (stillTop r isTop') path i isFull with same | ⟨-, here, seenThrough⟩
    · exact Or.inl (same.trans (grown.lookup r path i isTop' isFull))
    · refine Or.inr ⟨here, ?_⟩
      rcases seenThrough with isRoot | ⟨j, rest, isPath, isShared⟩
      · exact Or.inl isRoot
      · by_cases none : roots = []
        · subst none
          have onlyBase : ∀ p, kind p = .table [] → p = base := by
            intro p pTop
            simpa using (tables.forest.tops p).mp pTop
          exact Or.inl ((onlyBase r isTop').trans (onlyBase root isTop).symm)
        · refine Or.inr ⟨j, rest, isPath, ?_⟩
          rwa [(slots_of_entry (grown.baseSlots none j)).1] at isShared

/-- Mapping one page at a place without a leaf. -/
theorem mapPage_spec (tables : PageTables layout bound s base roots kind free) {root : Nat}
    (va pa perm : Nat) (isTop : kind root = .table []) (unbased : root = base → roots = [])
    (aligned : pa % pgSize = 0) (inside : pa < 2 ^ 64) (small : perm < 2 ^ 10)
    (vacant : leafAt s.mem root va = none)
    (allowed : va / pgSize % 2 ^ 27 < bound → pa < layout.ekernel ∨ kind pa = .other .held) :
    wp (mapPage root va pa perm) (fun mapped after => ∃ kind' free',
      PageTables layout bound after base roots kind' free' ∧
      Changed layout s after base roots kind kind' root
        (fun path k => path = upper va ∧ k = index 0 va) (fun page => page = pa) ∧
      KeepsDevices layout s after kind ∧ (∀ page, IsClient (kind page) → IsClient (kind' page)) ∧
      (∃ new, free = new ++ free') ∧
      free.length ≤ free'.length +
        (if (tableSlots s.mem).reach root (upper va) = none then 2 else 0) ∧
      ((mapped = false ∧ free' = [] ∧
          (∀ page, kind page = .other .held → kind' page = .other .held) ∧ ∀ path k, path.length = 2 →
          (tableSlots after.mem).lookup root path k = (tableSlots s.mem).lookup root path k) ∨
        (mapped = true ∧ (tableSlots after.mem).reach root (upper va) ≠ none ∧
          ∀ path k, path.length = 2 → (tableSlots after.mem).lookup root path k =
            if path = upper va ∧ k = index 0 va then some (leafEntry pa perm)
            else (tableSlots s.mem).lookup root path k))) s := by
  rw [mapPage]
  apply wp_seq (tables.walk_spec va isTop unbased)
  rintro got mid ⟨kind₁, free₁, midTables, grown, found, cost, cheap, -⟩
  have cost' : free.length ≤ free₁.length +
      (if (tableSlots s.mem).reach root (upper va) = none then 2 else 0) := by
    split
    · exact cost
    · rename_i some
      rw [(cheap some).2]
      exact Nat.le_refl _
  have changed := tables.changed_of_grown grown root
    (fun path k => path = upper va ∧ k = index 0 va) (fun page => page = pa)
  have clients : ∀ page, IsClient (kind page) → IsClient (kind₁ page) := by
    intro page isClient
    rwa [grown.used page (by rcases isClient with is | is <;> simp [is])]
  rcases found with ⟨rfl, rfl, -⟩ | ⟨l, rfl, reached⟩
  · rw [wp_pure]
    refine ⟨kind₁, [], midTables, changed, ?_, clients, grown.taken, cost',
      Or.inl ⟨rfl, rfl, fun page isHeld => by rw [grown.used page (by simp [isHeld]), isHeld],
        fun path k full => grown.lookup root path k isTop full⟩⟩
    intro r path k e isTop' full was _
    rw [grown.lookup r path k isTop' full, was]
  have stillTop : ∀ r, kind r = .table [] → kind₁ r = .table [] := by
    intro r wasTop
    rw [grown.used r (by simp [wasTop]), wasTop]
  have isTable : kind₁ l = .table (upper va) := by
    simpa using midTables.forest.reach_kind (upper va) (stillTop root isTop) (by simp [upper]) reached
  have noLeaf : (tableSlots mid.mem).leaf l (index 0 va) = none := by
    have same := grown.lookup root (upper va) (index 0 va) isTop rfl
    rw [Slots.lookup, reached] at same
    exact same.trans vacant
  have invalid : ¬ pteValid (entry mid.mem l (index 0 va)) := by
    intro valid
    rw [leaf_of_valid valid] at noLeaf
    cases noLeaf
  have target : pte2pa (leafEntry pa perm) = pa := pte2pa_leafEntry aligned inside small
  rw [wp_bind, wp_loadField]
  refine ⟨midTables.entryInRam isTable _, ?_⟩
  change wp (if pteValid (entry mid.mem l (index 0 va)) then _ else _) _ mid
  rw [if_neg invalid, show pa2pte pa ||| perm ||| pteV = leafEntry pa perm from rfl, wp_bind,
    wp_storeField]
  refine ⟨midTables.entryInRam isTable _, ?_⟩
  rw [wp_pure]
  have place : pageNumber (upper va) (index 0 va) < bound →
      pte2pa (leafEntry pa perm) < layout.ekernel ∨ kind₁ (pte2pa (leafEntry pa perm)) =
        .other .held := by
    rw [pageNumber_va, target]
    intro user
    rcases allowed user with isFixed | isHeld
    · exact Or.inl isFixed
    · exact Or.inr (by rw [grown.used pa (by simp [isHeld]), isHeld])
  obtain ⟨kind', afterTables, sameTables, otherKinds, targetKind, -⟩ :=
    midTables.setLeaf isTable rfl (leafEntry_valid pa perm) (leafEntry_lt inside small) place
  obtain ⟨sameBut, written⟩ := midTables.sameBut_store (index 0 va) isTable (leafEntry_lt inside small)
  have shown := midTables.forest.lookup_through (stillTop root isTop) rfl reached sameBut
  have elsewhere := fun r isTop' => midTables.forest.lookup_elsewhere (stillTop root isTop) rfl
    reached sameBut (stillTop r isTop')
  have newLeaf : (tableSlots (store mid.mem (l + 8 * (index 0 va).val) 8
      (leafEntry pa perm))).leaf l (index 0 va) = some (leafEntry pa perm) := by
    rw [leaf_of_valid (by rw [written]; exact leafEntry_valid pa perm), written]
  rw [target] at otherKinds targetKind
  have clients' : ∀ page, IsClient (kind page) → IsClient (kind' page) := by
    intro page isClient
    by_cases isTarget : page = pa
    · subst isTarget
      rcases targetKind with same | isFrame
      · exact same ▸ clients page isClient
      · exact Or.inr isFrame
    · exact otherKinds page isTarget ▸ clients page isClient
  have afterChanged := tables.changed_of_leaf midTables grown (index 0 va) isTop rfl isTable
    reached (leafEntry_lt inside small) otherKinds targetKind
  refine ⟨kind', free₁, afterTables, afterChanged, ?_, clients', grown.taken, cost',
    Or.inr ⟨rfl, ?_, ?_⟩⟩
  · intro r path k e isTop' full was _
    rw [← grown.lookup r path k isTop' full] at was
    rcases elsewhere r isTop' path k full with same | ⟨wasLeaf, -⟩
    · exact same.trans was
    · rw [wasLeaf, noLeaf] at was
      cases was
  · rw [withMem_mem, (midTables.forest.lookup_leaf isTable rfl sameBut (upper va) (index 0 va)
      (stillTop root isTop) rfl).1, reached]
    simp
  · intro path k full
    rw [withMem_mem, shown path k full, newLeaf, grown.lookup root path k isTop full]

/-- A place with a leaf is not mapped again. -/
theorem mapPage_remap (tables : PageTables layout bound s base roots kind free) {root : Nat}
    (va pa perm : Nat) (isTop : kind root = .table []) (unbased : root = base → roots = [])
    (present : leafAt s.mem root va ≠ none) {mapped : Bool} {after : Kernel} :
    Returns (mapPage root va pa perm) s mapped after → mapped = false ∧ ∃ kind' free',
      PageTables layout bound after base roots kind' free' ∧
      Grown layout s after base roots kind kind' free free' := by
  intro returned
  rw [mapPage, returns_bind] at returned
  obtain ⟨got, mid, walked, returned⟩ := returned
  obtain ⟨kind₁, free₁, midTables, grown, found, -, -, -⟩ :=
    (tables.walk_spec va isTop unbased).of_returns walked
  rcases found with ⟨rfl, rfl, -⟩ | ⟨l, rfl, reached⟩
  · obtain ⟨rfl, rfl⟩ := returns_pure.mp returned
    exact ⟨rfl, kind₁, [], midTables, grown⟩
  · obtain ⟨value, _, loaded, returned⟩ := returns_bind.mp returned
    obtain ⟨-, rfl, rfl⟩ := returns_loadField.mp loaded
    have same := grown.lookup root (upper va) (index 0 va) isTop rfl
    rw [Slots.lookup, reached] at same
    have valid : pteValid (entry mid.mem l (index 0 va)) := by
      by_contra invalid
      exact present (same.symm.trans (leaf_of_invalid invalid))
    change Returns (if pteValid (entry mid.mem l (index 0 va)) then _ else _) _ _ _ at returned
    rw [if_pos valid] at returned
    exact (returns_throw.mp returned).elim

/-- Clearing a leaf, after its frame may have been given back. -/
theorem clearLeaf (tables : PageTables layout bound s base roots kind free) {l : Nat}
    {path : List (Fin 512)} {k : Fin 512} (isTable : kind l = .table path) (full : path.length = 2)
    (wasSet : pteValid (entry s.mem l k)) {mid : Kernel} {kind' : Nat → PageKind} {free' : List Nat}
    (same : ∀ t more i, kind t = .table more → entry mid.mem t i = entry s.mem t i)
    (freeList : FreeList layout mid free')
    (isFree : ∀ page, page ∈ free' ↔ kind' page = .other .free)
    (pages : ∀ page, kind' page ≠ .other .outside → layout.IsPage page)
    (sameTables : SameTables kind kind')
    (frames : ∀ p, kind p = .frame → kind' p = .frame ∨ (p = pte2pa (entry s.mem l k) ∧
      pageNumber path k < bound ∧ ¬ p < layout.ekernel)) :
    PageTables layout bound (mid.withMem (store mid.mem (l + 8 * k.val) 8 0)) base roots kind' free' ∧
      (tableSlots s.mem).SameBut (tableSlots (store mid.mem (l + 8 * k.val) 8 0)) kind l k ∧
      (tableSlots (store mid.mem (l + 8 * k.val) 8 0)).leaf l k = none := by
  have lPage := tables.isPage isTable
  have written : ∀ t more i, kind t = .table more →
      entry (store mid.mem (l + 8 * k.val) 8 0) t i =
        if t = l ∧ i = k then 0 else entry mid.mem t i :=
    fun t more i isTable' => entry_store lPage.1 (tables.isPage isTable').1 k i (by decide)
  have others : ∀ t more i, kind t = .table more → ¬ (t = l ∧ i = k) →
      entry (store mid.mem (l + 8 * k.val) 8 0) t i = entry s.mem t i := by
    intro t more i isTable' notSlot
    rw [written t more i isTable', if_neg notSlot, same t more i isTable']
  have sameBut : (tableSlots s.mem).SameBut (tableSlots (store mid.mem (l + 8 * k.val) 8 0))
      kind l k :=
    fun t more i isTable' notSlot => slots_of_entry (others t more i isTable' notSlot)
  have cleared : (tableSlots (store mid.mem (l + 8 * k.val) 8 0)).leaf l k = none := by
    refine leaf_of_invalid ?_
    rw [written l path k isTable, if_pos ⟨rfl, rfl⟩]
    exact pteValid_zero
  have notFree : l ∉ free' := by
    rw [isFree, (sameTables l path).mpr isTable]
    simp
  refine ⟨tables.changeLeaf isTable full others ?_ isFree pages sameTables ?_, sameBut, cleared⟩
  · refine freeList.congr rfl fun page member => ?_
    have differs : page ≠ l := by
      rintro rfl
      exact notFree member
    exact (sameOn_entry lPage.1 (freeList.pages page member).1 differs k 0).sub (Nat.le_refl _)
      (by simp [pgSize])
  · exact tables.forest.clearLeaf isTable (by simpa using full) sameBut (leaf_of_valid wasSet)
      cleared sameTables frames

/-- Giving a mapped frame back leaves the tables as they are. -/
theorem pushFrame (tables : PageTables layout bound s base roots kind free) {page : Nat}
    (isFrame : kind page = .frame) :
    FreeList layout (s.pushPage page) (page :: free) ∧
      (∀ other, other ∈ page :: free ↔
        Function.update kind page (.other .free) other = .other .free) ∧
      SameTables kind (Function.update kind page (.other .free)) ∧
      ∀ t more i, kind t = .table more → entry (s.pushPage page).mem t i = entry s.mem t i := by
  have isPage := tables.framePage isFrame
  have fresh : page ∉ free := by
    rw [tables.isFree, isFrame]
    simp
  refine ⟨tables.freeList.push page isPage fresh tables.freeList.memlist_lt, ?_, ?_, ?_⟩
  · intro other
    by_cases isSame : other = page
    · subst isSame
      simp
    · rw [Function.update_of_ne isSame, ← tables.isFree, List.mem_cons]
      simp [isSame]
  · intro t path
    by_cases isSame : t = page
    · subst isSame
      rw [Function.update_self, isFrame]
      simp
    · rw [Function.update_of_ne isSame]
  · exact tables.pushPage_entries isPage (by simp [isFrame])

/-- Unmapping one page of a user address. With `release` its frame goes back, and
`kfree` refuses the leaves of device registers. -/
theorem unmapPage_spec (tables : PageTables layout bound s base roots kind free) {root : Nat}
    (va : Nat) (release : Bool) (isTop : kind root = .table [])
    (user : va / pgSize % 2 ^ 27 < bound) {after : Kernel}
    (returned : Returns (unmapPage layout root va release) s () after) :
    ∃ kind' free', PageTables layout bound after base roots kind' free' ∧
      after.kvmroot = s.kvmroot ∧ (∀ page, kind page = .other .held → kind' page = .other .held) ∧
      (release = true → KeepsDevices layout s after kind) ∧
      ((tableSlots s.mem).link base (index 2 va) = none → Isolated s after base root kind) := by
  have unchanged : after = s → ∃ kind' free',
      PageTables layout bound after base roots kind' free' ∧
      after.kvmroot = s.kvmroot ∧ (∀ page, kind page = .other .held → kind' page = .other .held) ∧
      (release = true → KeepsDevices layout s after kind) ∧
      ((tableSlots s.mem).link base (index 2 va) = none → Isolated s after base root kind) := by
    rintro rfl
    exact ⟨kind, free, tables, rfl, fun _ isHeld => isHeld, fun _ _ _ _ _ _ _ was _ => was,
      fun _ => ⟨fun _ => rfl, fun _ _ _ _ => rfl⟩⟩
  rw [unmapPage, returns_bind] at returned
  obtain ⟨got, _, walked, returned⟩ := returned
  obtain ⟨isS, isGot⟩ := (tables.walk_find va isTop).of_returns walked
  rw [isS, isGot] at returned
  cases reached : (tableSlots s.mem).reach root (upper va) with
  | none =>
    rw [reached] at returned
    obtain ⟨-, isAfter⟩ := returns_pure.mp returned
    exact unchanged isAfter.symm
  | some l =>
    rw [reached] at returned
    obtain ⟨value, _, loaded, returned⟩ := returns_bind.mp returned
    obtain ⟨-, isValue, isSame⟩ := returns_loadField.mp loaded
    rw [← isValue, ← isSame] at returned
    change Returns (onlyIf (pteValid (entry s.mem l (index 0 va))) _) s () after at returned
    have isTable : kind l = .table (upper va) := by
      simpa using tables.forest.reach_kind (upper va) isTop (by simp [upper]) reached
    by_cases valid : pteValid (entry s.mem l (index 0 va))
    · rw [onlyIf, if_pos valid, returns_bind] at returned
      obtain ⟨⟨⟩, mid, freed, stored⟩ := returned
      have guarded : pageNumber (upper va) (index 0 va) < bound := by
        rw [pageNumber_va]
        exact user
      -- The frame goes back, or stays a frame without a leaf.
      obtain ⟨kind', free', sameRoot, freeList, isFree, pages, sameTables, frames, same, stillHeld,
          refused⟩ : ∃ kind' free', mid.kvmroot = s.kvmroot ∧ FreeList layout mid free' ∧
          (∀ page, page ∈ free' ↔ kind' page = .other .free) ∧
          (∀ page, kind' page ≠ .other .outside → layout.IsPage page) ∧ SameTables kind kind' ∧
          (∀ p, kind p = .frame → kind' p = .frame ∨ (p = pte2pa (entry s.mem l (index 0 va)) ∧
            pageNumber (upper va) (index 0 va) < bound ∧ ¬ p < layout.ekernel)) ∧
          (∀ t more i, kind t = .table more → entry mid.mem t i = entry s.mem t i) ∧
          (∀ page, kind page = .other .held → kind' page = .other .held) ∧
          (release = true → ¬ pte2pa (entry s.mem l (index 0 va)) < layout.ekernel) := by
        cases release with
        | false =>
          rw [onlyIf, if_neg Bool.false_ne_true] at freed
          obtain ⟨-, rfl⟩ := returns_pure.mp freed
          exact ⟨kind, free, rfl, tables.freeList, tables.isFree, tables.pages, fun _ _ => Iff.rfl,
            fun _ isFrame => Or.inl isFrame, fun _ _ _ _ => rfl, fun _ isHeld => isHeld,
            fun no => by cases no⟩
        | true =>
          rw [onlyIf, if_pos rfl] at freed
          obtain ⟨isPage, rfl⟩ := returns_kfree freed
          change layout.IsPage (pte2pa (entry s.mem l (index 0 va))) at isPage
          have notFixed : ¬ pte2pa (entry s.mem l (index 0 va)) < layout.ekernel :=
            Nat.not_lt.mpr isPage.2.1
          have isFrame : kind (pte2pa (entry s.mem l (index 0 va))) = .frame :=
            (tables.forest.leaves l (upper va) (index 0 va) _ isTable rfl (leaf_of_valid valid)
              guarded).resolve_left notFixed
          obtain ⟨freeList, isFree, sameTables, same⟩ := tables.pushFrame isFrame
          refine ⟨_, _, rfl, freeList, isFree, ?_, sameTables, ?_, same, ?_, fun _ => notFixed⟩
          · intro page used
            by_cases isTarget : page = pte2pa (entry s.mem l (index 0 va))
            · exact isTarget ▸ isPage
            · rw [Function.update_of_ne isTarget] at used
              exact tables.pages page used
          · intro page wasFrame
            by_cases isTarget : page = pte2pa (entry s.mem l (index 0 va))
            · subst isTarget
              exact Or.inr ⟨rfl, guarded, notFixed⟩
            · rw [Function.update_of_ne isTarget]
              exact Or.inl wasFrame
          · intro page isHeld
            rw [Function.update_of_ne, isHeld]
            rintro rfl
            rw [isFrame] at isHeld
            cases isHeld
      obtain ⟨afterTables, sameBut, cleared⟩ :=
        tables.clearLeaf isTable rfl valid same freeList isFree pages sameTables frames
      have elsewhere := fun r isTop' =>
        tables.forest.lookup_elsewhere isTop rfl reached sameBut (r := r) isTop'
      rw [returns_storeField stored]
      refine ⟨kind', free', afterTables, sameRoot, stillHeld, ?_, fun vacant => ⟨fun i => ?_, ?_⟩⟩
      · intro isRelease r path k e isTop' full was device
        rcases elsewhere r isTop' path k full with kept | ⟨wasLeaf, -⟩
        · exact kept.trans was
        · rw [wasLeaf, leaf_of_valid valid] at was
          rw [← Option.some.inj was] at device
          exact absurd device (refused isRelease)
      · refine (sameBut base [] i tables.forest.baseTop ?_).1
        rintro ⟨rfl, -⟩
        rw [tables.forest.baseTop] at isTable
        simp [upper] at isTable
      · intro r va' isTop' differs
        rcases elsewhere r isTop' (upper va') (index 0 va') rfl with kept | ⟨-, ⟨samePath, -⟩, seen⟩
        · exact kept
        · rcases seen with isRoot | ⟨j, rest, isPath, isShared⟩
          · exact absurd isRoot differs
          · rw [samePath, upper, List.cons.injEq] at isPath
            rw [← isPath.1] at isShared
            exact absurd vacant isShared
    · rw [onlyIf, if_neg valid] at returned
      exact unchanged (returns_pure.mp returned).2.symm

end PageTables

end CuteCore
