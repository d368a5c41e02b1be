import CuteCore.Mm.HeapRuns
import CuteCore.Mm.Mapping

/-!
# A page table of its own

A tree of tables that shares nothing: every table is reached by one path, and no
table is on the free list. `vmmap` takes free pages for new tables and sets one
leaf for each page of its range.
-/

namespace CuteCore

open Hoare Bytes RadixForest

variable {layout : Layout}

/-- The tables a root leads to. -/
def IsTable (mem : ByteMap) (root t : Nat) : Prop :=
  ∃ path : List (Fin 512), path.length ≤ 2 ∧ (tableSlots mem).reach root path = some t

/-- Tables that keep their entries lead to the same tables. -/
theorem reach_of_entries {mem after : ByteMap} {root : Nat}
    (same : ∀ t i, IsTable mem root t → entry after t i = entry mem t i)
    (before path : List (Fin 512)) {t : Nat} (reached : (tableSlots mem).reach root before = some t)
    (short : before.length + path.length ≤ 2) :
    (tableSlots after).reach t path = (tableSlots mem).reach t path := by
  induction path generalizing t before with
  | nil => rfl
  | cons i rest inductionHypothesis =>
    rw [List.length_cons] at short
    have isTable : IsTable mem root t := ⟨before, by omega, reached⟩
    rw [Slots.reach, Slots.reach, (slots_of_entry (same t i isTable)).1]
    cases linked : (tableSlots mem).link t i with
    | none => rfl
    | some child =>
      refine inductionHypothesis (before ++ [i]) ?_ ?_
      · rw [Slots.reach_append, reached, Option.bind_some, Slots.reach, linked]
        rfl
      · rw [List.length_append, List.length_singleton]
        omega

theorem leafAt_of_entries {mem after : ByteMap} {root : Nat}
    (same : ∀ t i, IsTable mem root t → entry after t i = entry mem t i) (va : Nat) :
    leafAt after root va = leafAt mem root va := by
  rw [leafAt, leafAt, Slots.lookup, Slots.lookup,
    reach_of_entries same [] (upper va) rfl (by simp [upper])]
  cases reached : (tableSlots mem).reach root (upper va) with
  | none => rfl
  | some l => exact (slots_of_entry (same l _ ⟨upper va, by simp [upper], reached⟩)).2

/-- Tables that keep their contents keep their entries. -/
theorem reach_of_same {mem after : ByteMap} {root : Nat}
    (same : ∀ t, IsTable mem root t → SameOn after mem t pgSize) (before path : List (Fin 512))
    {t : Nat} (reached : (tableSlots mem).reach root before = some t)
    (short : before.length + path.length ≤ 2) :
    (tableSlots after).reach t path = (tableSlots mem).reach t path :=
  reach_of_entries (fun t i isTable => entry_congr (same t isTable) i) before path reached short

theorem leafAt_of_same {mem after : ByteMap} {root : Nat}
    (same : ∀ t, IsTable mem root t → SameOn after mem t pgSize) (va : Nat) :
    leafAt after root va = leafAt mem root va :=
  leafAt_of_entries (fun t i isTable => entry_congr (same t isTable) i) va

/-- Addresses of one page have one leaf. -/
theorem leafAt_page {mem : ByteMap} {root va va' : Nat} (samePage : va / pgSize = va' / pgSize) :
    leafAt mem root va = leafAt mem root va' := by
  have indices : ∀ level, index level va = index level va' := by
    intro level
    have split : ∀ a, a / 2 ^ (12 + 9 * level) = a / pgSize / 2 ^ (9 * level) := by
      intro a
      rw [Nat.pow_add, ← Nat.div_div_eq_div_mul]
      rfl
    rw [Fin.ext_iff]
    change va / 2 ^ (12 + 9 * level) % 512 = va' / 2 ^ (12 + 9 * level) % 512
    rw [split, split, samePage]
  simp only [leafAt, upper, indices]

/-- The addresses of the page at `va`. -/
theorem samePage_iff {va : Nat} (start : va % pgSize = 0) (v : Nat) :
    v / pgSize = va / pgSize ↔ va ≤ v ∧ v < va + pgSize := by
  simp only [pgSize] at *
  omega

/-- The page for `v` in a range that starts one page later. -/
theorem next_page {pa va v : Nat} (above : va + pgSize ≤ v) :
    ((pa + pgSize) % 2 ^ 64 + (v - (va + pgSize)) / pgSize * pgSize) % 2 ^ 64 =
      (pa + (v - va) / pgSize * pgSize) % 2 ^ 64 := by
  simp only [pgSize] at *
  omega

/-- A tree of page tables beside the free list. Upper entries are no leaves. -/
structure PrivateTree (layout : Layout) (s : Kernel) (root : Nat) (free : List Nat) : Prop where
  freeList : FreeList layout s free
  tables : ∀ t, IsTable s.mem root t → layout.IsPage t ∧ t ∉ free
  onePath : ∀ (path path' : List (Fin 512)) t, path.length ≤ 2 → path'.length ≤ 2 →
    (tableSlots s.mem).reach root path = some t → (tableSlots s.mem).reach root path' = some t →
    path = path'
  pointers : ∀ (path : List (Fin 512)) t i, path.length < 2 →
    (tableSlots s.mem).reach root path = some t → pteValid (entry s.mem t i) →
    ¬ pteLeaf (entry s.mem t i)

/-- The tree with the use of every page: all tables are reached from the root. -/
structure Tree (layout : Layout) (s : Kernel) (root : Nat) (kind : Nat → PageKind)
    (free : List Nat) : Prop where
  tables : PageTables layout 0 s root [] kind free
  rooted : ∀ t path, kind t = .table path → (tableSlots s.mem).reach root path = some t

/-- Every private tree has such a labelling. The other pages are held. -/
theorem PrivateTree.labelled {s : Kernel} {root : Nat} {free : List Nat}
    (tree : PrivateTree layout s root free) : ∃ kind, Tree layout s root kind free ∧
      ∀ page, layout.IsPage page → page ∉ free → ¬ IsTable s.mem root page →
        kind page = .other .held := by
  classical
  let kind : Nat → PageKind := fun t =>
    if isTable : IsTable s.mem root t then .table isTable.choose
    else if t ∈ free then .other .free
    else if layout.IsPage t then .other .held else .other .outside
  have isKind : ∀ t path, kind t = .table path ↔
      path.length ≤ 2 ∧ (tableSlots s.mem).reach root path = some t := by
    intro t path
    simp only [kind]
    by_cases isTable : IsTable s.mem root t
    · obtain ⟨short, reached⟩ := isTable.choose_spec
      rw [dif_pos isTable]
      constructor
      · intro same
        rw [← Kind.table.inj same]
        exact ⟨short, reached⟩
      · rintro ⟨short', reached'⟩
        rw [tree.onePath _ _ t short short' reached reached']
    · rw [dif_neg isTable]
      refine ⟨fun no => ?_, fun reached => absurd ⟨path, reached⟩ isTable⟩
      split at no
      · cases no
      · split at no <;> cases no
  have notGuarded : ∀ (path : List (Fin 512)) i, ¬ (sv39 layout 0).guarded path i :=
    fun path i => Nat.not_lt_zero _
  refine ⟨kind, ⟨⟨⟨?_, ?_, ?_, ?_, ?_, ?_, ?_⟩, tree.freeList, ?_, ?_, ?_⟩,
    fun t path isTable => ((isKind t path).mp isTable).2⟩, ?_⟩
  · intro r
    rw [isKind]
    simp [Slots.reach, eq_comm]
  · exact fun t path isTable => ((isKind t path).mp isTable).1
  · intro t path i child isTable short linked
    obtain ⟨-, reached⟩ := (isKind t path).mp isTable
    refine (isKind child _).mpr ⟨?_, ?_⟩
    · simpa using short
    · rw [Slots.reach_append, reached, Option.bind_some, Slots.reach, linked]
      rfl
  · exact fun t path i e _ _ _ isGuarded => absurd isGuarded (notGuarded path i)
  · exact fun r none => absurd none List.not_mem_nil
  · intro t t' path i child isTable isTable' _ _ _
    have reached := ((isKind t path).mp isTable).2
    have reached' := ((isKind t' path).mp isTable').2
    exact Or.inl (Option.some.inj (reached.symm.trans reached'))
  · exact fun t t' path path' i i' e e' _ _ _ _ _ _ isGuarded => absurd isGuarded (notGuarded path i)
  · intro page
    simp only [kind]
    by_cases isTable : IsTable s.mem root page
    · simp [isTable, (tree.tables page isTable).2]
    · rw [dif_neg isTable]
      by_cases listed : page ∈ free
      · simp [listed]
      · rw [if_neg listed]
        split <;> simp [listed]
  · intro page used
    simp only [kind] at used
    split at used
    · rename_i isTable
      exact (tree.tables page isTable).1
    · split at used
      · exact tree.freeList.pages page ‹_›
      · split at used
        · assumption
        · exact absurd rfl used
  · intro t path i isTable short valid
    exact tree.pointers path t i short ((isKind t path).mp isTable).2 valid
  · intro page isPage unlisted notTable
    simp only [kind, dif_neg notTable, if_neg unlisted, if_pos isPage]

namespace Tree

variable {s : Kernel} {root : Nat} {kind : Nat → PageKind} {free : List Nat}

theorem isTable_iff (tree : Tree layout s root kind free) (t : Nat) :
    IsTable s.mem root t ↔ ∃ path, kind t = .table path := by
  constructor
  · rintro ⟨path, short, reached⟩
    have isTable := tree.tables.forest.reach_kind path tree.tables.forest.baseTop
      (by simpa using short) reached
    exact ⟨path, by simpa using isTable⟩
  · rintro ⟨path, isTable⟩
    exact ⟨path, tree.tables.forest.bounded t path isTable, tree.rooted t path isTable⟩

/-- A tree whose tables have one path each shares nothing. -/
theorem isPrivate (tree : Tree layout s root kind free) : PrivateTree layout s root free := by
  have label : ∀ (path : List (Fin 512)) t, path.length ≤ 2 →
      (tableSlots s.mem).reach root path = some t → kind t = .table path := by
    intro path t short reached
    simpa using tree.tables.forest.reach_kind path tree.tables.forest.baseTop (by simpa using short)
      reached
  refine ⟨tree.tables.freeList, ?_, ?_, ?_⟩
  · rintro t ⟨path, short, reached⟩
    have isTable := label path t short reached
    refine ⟨tree.tables.isPage isTable, fun listed => ?_⟩
    rw [tree.tables.isFree, isTable] at listed
    cases listed
  · intro path path' t short short' reached reached'
    exact Kind.table.inj ((label path t short reached).symm.trans (label path' t short' reached'))
  · intro path t i short reached valid
    exact tree.tables.pointers t path i (label path t (by omega) reached) short valid

end Tree

/-- What happens to pages when a tree grows: free pages become tables, and no other
page that is no table is written. -/
structure Extended (layout : Layout) (s after : Kernel) (kind kind' : Nat → PageKind)
    (free free' : List Nat) : Prop where
  globals : SameGlobals s after
  used : ∀ page, kind page ≠ .other .free → kind' page = kind page
  spare : ∀ page, kind page = .other .free → kind' page = .other .free ∨ ∃ path, kind' page = .table path
  kept : ∀ page, layout.IsPage page → kind page ≠ .other .free → (∀ path, kind page ≠ .table path) →
    SameOn after.mem s.mem page pgSize
  taken : ∃ new, free = new ++ free'

namespace Extended

variable {s mid after : Kernel} {root : Nat} {kind kind' kind'' : Nat → PageKind}
  {free free' free'' : List Nat}

theorem refl : Extended layout s s kind kind free free :=
  ⟨rfl, fun _ _ => rfl, fun _ isFree => Or.inl isFree, fun _ _ _ _ _ _ _ => rfl, ⟨[], rfl⟩⟩

/-- Two extensions of a tree one after the other are one. -/
theorem trans (first : Extended layout s mid kind kind' free free')
    (second : Extended layout mid after kind' kind'' free' free'') :
    Extended layout s after kind kind'' free free'' := by
  refine ⟨first.globals.trans second.globals, ?_, ?_, ?_, ?_⟩
  · intro page used
    have same := first.used page used
    rw [second.used page (by rwa [same]), same]
  · intro page isFree
    rcases first.spare page isFree with still | ⟨path, isTable⟩
    · exact second.spare page still
    · exact Or.inr ⟨path, by rw [second.used page (by simp [isTable]), isTable]⟩
  · intro page isPage used notTable
    have same := first.used page used
    exact (second.kept page isPage (by rwa [same]) (by rwa [same])).trans
      (first.kept page isPage used notTable)
  · obtain ⟨new, rfl⟩ := first.taken
    obtain ⟨more, rfl⟩ := second.taken
    exact ⟨new ++ more, by rw [List.append_assoc]⟩

/-- The pages taken are the new tables. -/
theorem new_tables (extended : Extended layout s after kind kind' free free')
    (tree : Tree layout s root kind free) (afterTree : Tree layout after root kind' free') :
    ∃ new, free = new ++ free' ∧
      ∀ t, IsTable after.mem root t ↔ IsTable s.mem root t ∨ t ∈ new := by
  obtain ⟨new, isNew⟩ := extended.taken
  have distinct : (new ++ free').Nodup := isNew ▸ tree.tables.freeList.nodup
  have apart := (List.nodup_append.mp distinct).2.2
  refine ⟨new, isNew, fun t => ?_⟩
  rw [tree.isTable_iff, afterTree.isTable_iff]
  constructor
  · rintro ⟨path, isTable⟩
    by_cases isFree : kind t = .other .free
    · have listed := (tree.tables.isFree t).mpr isFree
      rw [isNew, List.mem_append] at listed
      refine Or.inr (listed.resolve_right fun still => ?_)
      rw [afterTree.tables.isFree, isTable] at still
      cases still
    · rw [extended.used t isFree] at isTable
      exact Or.inl ⟨path, isTable⟩
  · rintro (⟨path, isTable⟩ | member)
    · exact ⟨path, by rw [extended.used t (by simp [isTable]), isTable]⟩
    · have listed : t ∈ free := by
        rw [isNew]
        exact List.mem_append_left _ member
      refine (extended.spare t ((tree.tables.isFree t).mp listed)).resolve_left fun still => ?_
      exact apart t member t ((afterTree.tables.isFree t).mpr still) rfl

end Extended

/-- New tables are for addresses of the range, and the run fails only where no page is left
for a table of one of them. -/
structure ForRange (root : Nat) (after : Kernel) (kind kind' : Nat → PageKind) (free' : List Nat)
    (mapped : Bool) (range : Nat → Prop) : Prop where
  tables : ∀ t path, kind' t = .table path → kind t = .table path ∨ ∃ v, range v ∧ path <+: upper v
  failed : mapped = false → free' = [] ∧
    ∃ v, range v ∧ (tableSlots after.mem).reach root (upper v) = none

/-- A failed first part is the whole run. -/
theorem ForRange.mono {root : Nat} {after : Kernel} {kind kind' : Nat → PageKind}
    {free' : List Nat} {mapped : Bool} {range range' : Nat → Prop}
    (forRange : ForRange root after kind kind' free' mapped range)
    (wider : ∀ v, range v → range' v) : ForRange root after kind kind' free' mapped range' where
  tables t path isTable := (forRange.tables t path isTable).imp_right
    fun ⟨v, inside, isPrefix⟩ => ⟨v, wider v inside, isPrefix⟩
  failed unmapped := by
    obtain ⟨spent, v, inside, missing⟩ := forRange.failed unmapped
    exact ⟨spent, v, wider v inside, missing⟩

theorem ForRange.trans {root : Nat} {mid after : Kernel} {kind kind' kind'' : Nat → PageKind}
    {free' free'' : List Nat} {mapped mapped' : Bool} {range : Nat → Prop}
    (first : ForRange root mid kind kind' free' mapped range)
    (second : ForRange root after kind' kind'' free'' mapped' range) :
    ForRange root after kind kind'' free'' mapped' range where
  tables t path isTable := by
    rcases second.tables t path isTable with before | found
    · exact first.tables t path before
    · exact .inr found
  failed := second.failed

namespace Tree

variable {s : Kernel} {root : Nat} {kind : Nat → PageKind} {free : List Nat}

/-- One pass of `vmmap` at a page without a leaf. -/
theorem mapPage_spec (tree : Tree layout s root kind free) (va pa perm : Nat) (low : va < 2 ^ 39)
    (inside : pa < 2 ^ 64) (small : perm < 2 ^ 10)
    (vacant : leafAt s.mem root va = none) :
    wp (mapPage root va pa perm) (fun mapped after => ∃ kind' free',
      Tree layout after root kind' free' ∧ Extended layout s after kind kind' free free' ∧
      ForRange root after kind kind' free' mapped (fun v => v = va) ∧
      ∀ v < 2 ^ 39, leafAt after.mem root v =
        if mapped = true ∧ v / pgSize = va / pgSize then some (leafEntry pa perm)
        else leafAt s.mem root v) s := by
  have isTop := tree.tables.forest.baseTop
  rw [mapPage]
  apply wp_seq (tree.tables.walk_spec va isTop fun _ => rfl)
  rintro got mid ⟨kind₁, free₁, midTables, grown, found, -, -, fresh⟩
  have stillTop := midTables.forest.baseTop
  have rooted : ∀ t path, kind₁ t = .table path → (tableSlots mid.mem).reach root path = some t := by
    intro t path isTable
    rcases fresh t path isTable with before | ⟨-, reached⟩
    · exact grown.reach root path t isTop (tree.tables.forest.bounded t path before)
        (tree.rooted t path before)
    · exact reached
  have forVa : ∀ t path, kind₁ t = .table path →
      kind t = .table path ∨ ∃ v, v = va ∧ path <+: upper v :=
    fun t path isTable => (fresh t path isTable).imp_right fun found => ⟨va, rfl, found.1⟩
  have extended : Extended layout s mid kind kind₁ free free₁ :=
    ⟨grown.globals, grown.used, grown.spare, grown.kept, grown.taken⟩
  rcases found with ⟨rfl, rfl, missing⟩ | ⟨l, rfl, reached⟩
  · refine wp_pure.mpr ⟨kind₁, [], ⟨midTables, rooted⟩, extended,
      ⟨forVa, fun _ => ⟨rfl, va, rfl, missing⟩⟩, fun v _ => ?_⟩
    rw [if_neg (by simp)]
    exact grown.lookup root (upper v) (index 0 v) isTop rfl
  have isTable : kind₁ l = .table (upper va) := by
    simpa using midTables.forest.reach_kind (upper va) stillTop (by simp [upper]) reached
  have invalid : ¬ pteValid (entry mid.mem l (index 0 va)) := by
    intro valid
    have same := grown.lookup root (upper va) (index 0 va) isTop rfl
    rw [Slots.lookup, reached] at same
    have noLeaf := same.trans vacant
    change (tableSlots mid.mem).leaf l (index 0 va) = none at noLeaf
    rw [leaf_of_valid valid] at noLeaf
    cases noLeaf
  have fits := leafEntry_lt inside small
  rw [wp_bind, wp_loadField]
  refine ⟨midTables.entryInRam isTable _, ?_⟩
  change wp (if pteValid (entry mid.mem l (index 0 va)) then _ else _) _ mid
  rw [if_neg invalid, show pa2pte pa ||| perm ||| pteV = leafEntry pa perm from rfl, wp_bind,
    wp_storeField]
  refine ⟨midTables.entryInRam isTable _, wp_pure.mpr ?_⟩
  obtain ⟨kind', afterTables, -, -, -, sameKind⟩ :=
    midTables.setLeaf isTable rfl (leafEntry_valid pa perm) fits
      fun beyond => absurd beyond (Nat.not_lt_zero _)
  obtain rfl := sameKind (Nat.zero_le _)
  obtain ⟨sameBut, written⟩ := midTables.sameBut_store (index 0 va) isTable fits
  have shown := midTables.forest.lookup_through stillTop rfl reached sameBut
  have newLeaf : (tableSlots (store mid.mem (l + 8 * (index 0 va).val) 8
      (leafEntry pa perm))).leaf l (index 0 va) = some (leafEntry pa perm) := by
    rw [leaf_of_valid (by rw [written]; exact leafEntry_valid pa perm), written]
  refine ⟨kind', free₁, ⟨afterTables, fun t path isTable' => ?_⟩, ?_, ⟨forVa, by simp⟩,
    fun v lowV => ?_⟩
  · have short := midTables.forest.bounded t path isTable'
    rw [withMem_mem, midTables.forest.reach_sameBut isTable rfl sameBut path stillTop
      (by simpa using short)]
    exact rooted t path isTable'
  · refine extended.trans ⟨rfl, fun _ _ => rfl, fun _ isFree => Or.inl isFree, ?_,
      ⟨[], rfl⟩⟩
    intro page isPage _ notTable
    refine sameOn_entry (midTables.isPage isTable).1 isPage.1 ?_ _ _
    rintro rfl
    exact notTable _ isTable
  · rw [leafAt, withMem_mem, shown (upper v) (index 0 v) rfl, newLeaf]
    have place := same_place lowV low
    by_cases here : v / pgSize = va / pgSize
    · rw [if_pos (place.mpr here), if_pos ⟨rfl, here⟩]
    · rw [if_neg fun both => here (place.mp both), if_neg fun both => here both.2]
      exact grown.lookup root (upper v) (index 0 v) isTop rfl

/-- The loop of `vmmap` maps the first pages of the range. -/
theorem mapPages_spec (perm : Nat) (small : perm < 2 ^ 10) (passes va pa : Nat)
    (tree : Tree layout s root kind free) (start : va % pgSize = 0)
    (low : va + passes * pgSize ≤ 2 ^ 39) (inside : pa < 2 ^ 64)
    (vacant : ∀ v, va ≤ v → v < va + passes * pgSize → leafAt s.mem root v = none) :
    wp (mapPages root perm passes va pa) (fun mapped after => ∃ kind' free',
      Tree layout after root kind' free' ∧ Extended layout s after kind kind' free free' ∧
      ForRange root after kind kind' free' mapped (fun v => va ≤ v ∧ v < va + passes * pgSize) ∧
      ∃ n ≤ passes, (mapped = true ↔ n = passes) ∧ ∀ v < 2 ^ 39, leafAt after.mem root v =
        if va ≤ v ∧ v < va + n * pgSize then
          some (leafEntry ((pa + (v - va) / pgSize * pgSize) % 2 ^ 64) perm)
        else leafAt s.mem root v) s := by
  induction passes generalizing s kind free va pa with
  | zero =>
    refine wp_pure.mpr ⟨kind, free, tree, .refl, ⟨fun _ _ isTable => .inl isTable, by simp⟩, 0,
      Nat.le_refl _, by simp, fun v _ => ?_⟩
    rw [if_neg (by omega)]
  | succ passes inductionHypothesis =>
    have span : (passes + 1) * pgSize = passes * pgSize + pgSize := Nat.succ_mul ..
    have positive : 0 < pgSize := by decide
    rw [mapPages]
    refine wp_seq (tree.mapPage_spec va pa perm (by omega) inside small
      (vacant va (Nat.le_refl _) (by omega))) ?_
    rintro mapped mid ⟨kind₁, free₁, midTree, extended, forFirst, shown⟩
    have forRange : ForRange root mid kind kind₁ free₁ mapped
        (fun v => va ≤ v ∧ v < va + (passes + 1) * pgSize) :=
      forFirst.mono fun v isVa => by omega
    have here : ∀ v, v / pgSize = va / pgSize ↔ va ≤ v ∧ v < va + pgSize :=
      fun v => samePage_iff start v
    cases mapped with
    | false =>
      rw [if_neg Bool.false_ne_true]
      refine wp_pure.mpr ⟨kind₁, free₁, midTree, extended, forRange, 0, Nat.zero_le _, by simp,
        fun v lowV => ?_⟩
      rw [shown v lowV, if_neg (by simp), if_neg (by omega)]
    | true =>
      have next : (va + pgSize) % 2 ^ 64 = va + pgSize := Nat.mod_eq_of_lt (by omega)
      rw [if_pos rfl, next]
      refine wp_mono (inductionHypothesis (va + pgSize) ((pa + pgSize) % 2 ^ 64) midTree
        (by rw [Nat.add_mod_right, start]) (by omega) (Nat.mod_lt _ (by decide)) ?_) ?_
      · intro v above below
        rw [shown v (by omega), if_neg, vacant v (by omega) (by omega)]
        rintro ⟨-, samePage⟩
        have inPage := ((here v).mp samePage).2
        exact absurd above (Nat.not_le.mpr inPage)
      · rintro done after ⟨kind₂, free₂, afterTree, extended', forRest, n, upTo, isDone, shown'⟩
        have spanN : (n + 1) * pgSize = n * pgSize + pgSize := Nat.succ_mul ..
        have isDone' : done = true ↔ n + 1 = passes + 1 := by rw [isDone, Nat.add_right_cancel_iff]
        refine ⟨kind₂, free₂, afterTree, extended.trans extended',
          forRange.trans (forRest.mono fun v inside => by omega), n + 1, Nat.succ_le_succ upTo,
          isDone', fun v lowV => ?_⟩
        rw [shown' v lowV, shown v lowV]
        by_cases first : v / pgSize = va / pgSize
        · obtain ⟨above, below⟩ := (here v).mp first
          have notLater : ¬ (va + pgSize ≤ v ∧ v < va + pgSize + n * pgSize) := by omega
          have covered : va ≤ v ∧ v < va + (n + 1) * pgSize := by omega
          have offset : v - va < pgSize := by omega
          rw [if_neg notLater, if_pos ⟨rfl, first⟩, if_pos covered, Nat.div_eq_of_lt offset,
            Nat.zero_mul, Nat.add_zero, Nat.mod_eq_of_lt inside]
        · have beside : ¬ (va ≤ v ∧ v < va + pgSize) := fun inPage => first ((here v).mpr inPage)
          have notFirst : ¬ (true = true ∧ v / pgSize = va / pgSize) := fun both => first both.2
          rw [if_neg notFirst]
          by_cases later : va + pgSize ≤ v ∧ v < va + pgSize + n * pgSize
          · have covered : va ≤ v ∧ v < va + (n + 1) * pgSize := by omega
            rw [if_pos later, if_pos covered, next_page later.1]
          · have notCovered : ¬ (va ≤ v ∧ v < va + (n + 1) * pgSize) := by omega
            rw [if_neg later, if_neg notCovered]

end Tree

/-- The address and the flags that a virtual address is translated to. -/
def translate (mem : ByteMap) (root va : Nat) : Option (Nat × Nat) :=
  (leafAt mem root va).map fun e => ((pte2pa e + va % pgSize) % 2 ^ 64, e % 2 ^ 10)

theorem leafEntry_flags {pa perm : Nat} (small : perm < 2 ^ 10) :
    leafEntry pa perm % 2 ^ 10 = perm ||| pteV := by
  have high : pa2pte pa % 2 ^ 10 = 0 := Nat.mul_mod_left _ _
  rw [leafEntry, Nat.or_assoc, Nat.or_mod_two_pow, high, Nat.zero_or, Nat.mod_eq_of_lt (flags_lt small)]

/-- `vmmap` returns. It maps the first pages of its range, all of them if it succeeds,
and changes no other translation. New tables are the pages it took. -/
theorem vmmap_exact {s : Kernel} {root : Nat} {free : List Nat}
    (tree : PrivateTree layout s root free) {va size pa perm : Nat} (start : va % pgSize = 0)
    (aligned : pa % pgSize = 0) (whole : size % pgSize = 0) (positive : size ≠ 0)
    (low : va + size ≤ 2 ^ 39) (inside : pa < 2 ^ 64) (small : perm < 2 ^ 10)
    (vacant : ∀ v, va ≤ v → v < va + size → leafAt s.mem root v = none) :
    wp (vmmap root va size pa perm) (fun mapped after => ∃ free',
      PrivateTree layout after root free' ∧
      (∃ new, free = new ++ free' ∧
        ∀ t, IsTable after.mem root t ↔ IsTable s.mem root t ∨ t ∈ new) ∧
      (∀ page, layout.IsPage page → page ∉ free → ¬ IsTable s.mem root page →
        SameOn after.mem s.mem page pgSize) ∧
      ∃ n ≤ size / pgSize, (mapped = true ↔ n = size / pgSize) ∧
        (∀ v, va ≤ v → v < va + n * pgSize →
          translate after.mem root v = some ((pa + (v - va)) % 2 ^ 64, perm ||| pteV)) ∧
        ∀ v < 2 ^ 39, ¬ (va ≤ v ∧ v < va + n * pgSize) →
          leafAt after.mem root v = leafAt s.mem root v) s := by
  obtain ⟨kind, labelled, others⟩ := tree.labelled
  have span : size / pgSize * pgSize = size := Nat.div_mul_cancel (Nat.dvd_of_mod_eq_zero whole)
  rw [vmmap, if_neg (by omega)]
  refine wp_mono (Tree.mapPages_spec perm small (size / pgSize) va pa labelled start (by omega) inside
    (by rwa [span])) ?_
  rintro mapped after ⟨kind', free', afterTree, extended, -, n, upTo, isMapped, shown⟩
  refine ⟨free', afterTree.isPrivate, extended.new_tables labelled afterTree, ?_, n, upTo, isMapped, ?_,
    fun v lowV outside => by rw [shown v lowV, if_neg outside]⟩
  · intro page isPage unlisted notTable
    have isHeld := others page isPage unlisted notTable
    exact extended.kept page isPage (by simp [isHeld]) (by simp [isHeld])
  · intro v above below
    have part : n * pgSize ≤ size / pgSize * pgSize := Nat.mul_le_mul_right _ upTo
    have pageAligned : (pa + (v - va) / pgSize * pgSize) % 2 ^ 64 % pgSize = 0 := by
      simp only [pgSize] at *
      omega
    rw [translate, shown v (by omega), if_pos ⟨above, below⟩, Option.map_some,
      leafEntry_flags small, pte2pa_leafEntry pageAligned (Nat.mod_lt _ (by decide)) small]
    congr 2
    simp only [pgSize] at *
    omega

/-! ## Three tables -/

/-- Three tables for one user page: the root at `0x80400000` leads to the frame at
`0x80403000`. -/
def onePage : ByteMap :=
  store (store (store (fun _ => 0) 0x80400000 8 (pa2pte 0x80401000 ||| pteV))
    0x80401000 8 (pa2pte 0x80402000 ||| pteV))
    0x80402000 8 (leafEntry 0x80403000 (pteR ||| pteW ||| pteU))

theorem onePage_entry {t : Nat} (aligned : t % pgSize = 0) (i : Fin 512) :
    entry onePage t i =
      if t = 0x80402000 ∧ i = 0 then leafEntry 0x80403000 (pteR ||| pteW ||| pteU)
      else if t = 0x80401000 ∧ i = 0 then pa2pte 0x80402000 ||| pteV
      else if t = 0x80400000 ∧ i = 0 then pa2pte 0x80401000 ||| pteV else 0 := by
  have stored : ∀ (mem : ByteMap) (place value : Nat), place % pgSize = 0 → value < 2 ^ 64 →
      entry (store mem place 8 value) t i = if t = place ∧ i = 0 then value else entry mem t i :=
    fun mem place value isPlace fits => entry_store isPlace aligned 0 i fits
  have zero : entry (fun _ => 0) t i = 0 := load_zeros _ _
  rw [onePage, stored _ _ _ (by decide) (by decide), stored _ _ _ (by decide) (by decide),
    stored _ _ _ (by decide) (by decide), zero]

/-- Each table of the page leads to the next one. -/
theorem onePage_link {t child : Nat} {i : Fin 512} (aligned : t % pgSize = 0)
    (linked : (tableSlots onePage).link t i = some child) :
    (t = 0x80400000 ∧ child = 0x80401000 ∨ t = 0x80401000 ∧ child = 0x80402000 ∨
      t = 0x80402000) ∧ i = 0 := by
  obtain ⟨valid, isChild⟩ : pteValid (entry onePage t i) ∧ pte2pa (entry onePage t i) = child := by
    simpa [tableSlots] using linked
  rw [onePage_entry aligned] at valid isChild
  split at valid
  · rename_i here
    exact ⟨Or.inr (Or.inr here.1), here.2⟩
  · split at valid
    · rename_i other here
      rw [if_neg other, if_pos here] at isChild
      exact ⟨Or.inr (Or.inl ⟨here.1, isChild.symm.trans (by decide)⟩), here.2⟩
    · split at valid
      · rename_i last other here
        rw [if_neg last, if_neg other, if_pos here] at isChild
        exact ⟨Or.inl ⟨here.1, isChild.symm.trans (by decide)⟩, here.2⟩
      · exact absurd valid pteValid_zero

/-- The tables of the tree are one at each level, on the path of zeros. -/
theorem onePage_reach {path : List (Fin 512)} {t : Nat} (short : path.length ≤ 2)
    (reached : (tableSlots onePage).reach 0x80400000 path = some t) :
    (path = [] ∧ t = 0x80400000 ∨ path.length = 1 ∧ t = 0x80401000 ∨
      path.length = 2 ∧ t = 0x80402000) ∧ ∀ i ∈ path, i = 0 := by
  match path with
  | [] =>
    cases reached
    exact ⟨Or.inl ⟨rfl, rfl⟩, by simp⟩
  | [i] =>
    obtain ⟨child, linked, isT⟩ := Option.bind_eq_some_iff.mp reached
    cases isT
    obtain ⟨⟨-, isChild⟩ | ⟨no, -⟩ | no, isZero⟩ := onePage_link (by decide) linked
    · exact ⟨Or.inr (Or.inl ⟨rfl, isChild⟩), by simp [isZero]⟩
    · exact absurd no (by decide)
    · exact absurd no (by decide)
  | [i, j] =>
    obtain ⟨child, linked, rest⟩ := Option.bind_eq_some_iff.mp reached
    obtain ⟨last, linked', isT⟩ := Option.bind_eq_some_iff.mp rest
    cases isT
    obtain ⟨⟨-, rfl⟩ | ⟨no, -⟩ | no, isZero⟩ := onePage_link (by decide) linked
    · obtain ⟨⟨no, -⟩ | ⟨-, isChild⟩ | no, isZero'⟩ := onePage_link (by decide) linked'
      · exact absurd no (by decide)
      · exact ⟨Or.inr (Or.inr ⟨rfl, isChild⟩), by simp [isZero, isZero']⟩
      · exact absurd no (by decide)
    · exact absurd no (by decide)
    · exact absurd no (by decide)
  | i :: j :: k :: rest => simp at short

/-- The tree with one user page is private, with any free list that has none of its pages. -/
theorem onePage_private {s : Kernel} {free : List Nat} (isMem : s.mem = onePage)
    (list : FreeList smallImage s free)
    (apart : ∀ t ∈ [0x80400000, 0x80401000, 0x80402000], t ∉ free) :
    PrivateTree smallImage s 0x80400000 free := by
  refine ⟨list, ?_, ?_, ?_⟩
  · rintro t ⟨path, short, reached⟩
    rw [isMem] at reached
    obtain ⟨⟨-, rfl⟩ | ⟨-, rfl⟩ | ⟨-, rfl⟩, -⟩ := onePage_reach short reached <;>
      exact ⟨⟨by decide, by decide, by decide⟩, apart _ (by simp)⟩
  · intro path path' t short short' reached reached'
    rw [isMem] at reached reached'
    obtain ⟨place, zeros⟩ := onePage_reach short reached
    obtain ⟨place', zeros'⟩ := onePage_reach short' reached'
    have sameLength : path.length = path'.length := by
      rcases place with ⟨rfl, isT⟩ | ⟨isLength, isT⟩ | ⟨isLength, isT⟩ <;>
      rcases place' with ⟨rfl, isT'⟩ | ⟨isLength', isT'⟩ | ⟨isLength', isT'⟩ <;>
        first | rfl | omega
    refine List.ext_getElem sameLength fun n less less' => ?_
    rw [zeros _ (List.getElem_mem less), zeros' _ (List.getElem_mem less')]
  · intro path t i short reached valid
    rw [isMem] at reached valid ⊢
    obtain ⟨place, -⟩ := onePage_reach (by omega) reached
    have notLast : t ≠ 0x80402000 := by
      rintro rfl
      rcases place with ⟨-, no⟩ | ⟨-, no⟩ | ⟨isLength, -⟩
      · exact absurd no (by decide)
      · exact absurd no (by decide)
      · omega
    have aligned : t % pgSize = 0 := by
      rcases place with ⟨-, rfl⟩ | ⟨-, rfl⟩ | ⟨-, rfl⟩ <;> decide
    rw [onePage_entry aligned, if_neg fun both => notLast both.1] at valid ⊢
    split at valid
    · rename_i here
      rw [if_pos here]
      decide
    · rename_i other
      rw [if_neg other]
      split at valid
      · rename_i here
        rw [if_pos here]
        decide
      · exact absurd valid pteValid_zero

/-- Only the first address page has a leaf. -/
theorem onePage_vacant {v : Nat} (other : index 0 v ≠ 0) : leafAt onePage 0x80400000 v = none := by
  rw [leafAt, Slots.lookup]
  cases reached : (tableSlots onePage).reach 0x80400000 (upper v) with
  | none => rfl
  | some l =>
    obtain ⟨place, -⟩ := onePage_reach (by simp [upper]) reached
    have isL : l = 0x80402000 := by simpa [upper] using place
    apply leaf_of_invalid
    rw [onePage_entry (by rw [isL]; decide)]
    simp only [other, and_false, if_false]
    exact pteValid_zero

/-- The theorem for the page after the first one. -/
theorem onePage_mapped : ∃ mapped after free',
    Returns (vmmap 0x80400000 0x1000 0x1000 0x80404000 pteR)
      ⟨onePage, 0, fun _ => 0, 0, 0, fun _ => 0, 0⟩ mapped after ∧
    PrivateTree smallImage after 0x80400000 free' := by
  have vacant : ∀ v, 0x1000 ≤ v → v < 0x1000 + 0x1000 → leafAt onePage 0x80400000 v = none := by
    refine fun v above below => onePage_vacant fun isZero => ?_
    have isOne : v / 2 ^ 12 % 512 = 0 := congrArg Fin.val isZero
    omega
  obtain ⟨mapped, after, returned, free', afterTree, -⟩ :=
    vmmap_exact (@onePage_private ⟨onePage, 0, fun _ => 0, 0, 0, fun _ => 0, 0⟩ [] rfl
      ⟨rfl, List.nodup_nil, by simp⟩ (by simp))
      (by decide : 0x1000 % pgSize = 0) (by decide : 0x80404000 % pgSize = 0)
      (by decide : 0x1000 % pgSize = 0) (by decide) (by decide) (by decide)
      (by decide : pteR < 2 ^ 10) vacant
  exact ⟨mapped, after, free', returned, afterTree⟩

end CuteCore
