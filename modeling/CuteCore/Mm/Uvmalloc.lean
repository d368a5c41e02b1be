import CuteCore.Library.Frames
import CuteCore.Mm.PrivateTree

/-!
# User memory grows or stays

`uvmalloc` maps one zeroed frame for each page. When it runs out of pages it unmaps
what it has mapped, and the frames are free again.

The result is the new size or null, and with null the translations are those of before.
Pages of tables that were taken on the way stay in the tree: they are part of it, and
empty. The rollback uses the same loop as a shrinking heap.
-/

namespace CuteCore

open Hoare Bytes RadixForest

variable {layout : Layout} {root : Nat}

namespace Tree

variable {s : Kernel} {kind : Nat → PageKind} {free : List Nat}

/-- A step that keeps the entries of the tables. -/
theorem rearranged (tree : Tree layout s root kind free) {after : Kernel} {kind' : Nat → PageKind}
    {free' : List Nat} (tables : PageTables layout 0 after root [] kind' free')
    (sameTables : ∀ t path, kind' t = .table path → kind t = .table path)
    (entries : ∀ t path i, kind t = .table path → entry after.mem t i = entry s.mem t i) :
    Tree layout after root kind' free' ∧ ∀ va, leafAt after.mem root va = leafAt s.mem root va := by
  have same : ∀ t i, IsTable s.mem root t → entry after.mem t i = entry s.mem t i := by
    intro t i isTable
    obtain ⟨path, labelled⟩ := (tree.isTable_iff t).mp isTable
    exact entries t path i labelled
  refine ⟨⟨tables, fun t path isTable => ?_⟩, leafAt_of_entries same⟩
  have before := sameTables t path isTable
  have short := tree.tables.forest.bounded t path before
  rw [reach_of_entries same [] path rfl (by simpa using short)]
  exact tree.rooted t path before

/-- A page that is drawn and not hung into the tree. -/
theorem take {page : Nat} (tree : Tree layout s root kind (page :: free)) :
    Tree layout s.popPage root (Function.update kind page (.other .held)) free ∧
      ∀ va, leafAt s.popPage.mem root va = leafAt s.mem root va := by
  refine tree.rearranged tree.tables.take ?_ tree.tables.popPage_entries
  intro t path isTable
  by_cases isPage : t = page
  · subst isPage
    rw [Function.update_self] at isTable
    cases isTable
  · rwa [Function.update_of_ne isPage] at isTable

/-- A held page that goes back. -/
theorem give (tree : Tree layout s root kind free) {page : Nat}
    (isHeld : kind page = .other .held) :
    Tree layout (s.pushPage page) root (Function.update kind page (.other .free)) (page :: free) ∧
      ∀ va, leafAt (s.pushPage page).mem root va = leafAt s.mem root va := by
  have isPage : layout.IsPage page := tree.tables.pages page (by simp [isHeld])
  refine tree.rearranged (tree.tables.give page isHeld) ?_
    (tree.tables.pushPage_entries isPage (by simp [isHeld]))
  intro t path isTable
  by_cases same : t = page
  · subst same
    rw [Function.update_self] at isTable
    cases isTable
  · rwa [Function.update_of_ne same] at isTable

/-- `uvmunmap` at the page of a held frame gives the frame back and clears its leaf. -/
theorem unmapPage_spec (tree : Tree layout s root kind free) {va e : Nat} (low : va < 2 ^ 39)
    (mapped : leafAt s.mem root va = some e) (isHeld : kind (pte2pa e) = .other .held) :
    wp (unmapPage layout root va true) (fun _ after =>
      Tree layout after root (Function.update kind (pte2pa e) (.other .free)) (pte2pa e :: free) ∧
      SameGlobals s after ∧
      (∀ v < 2 ^ 39, leafAt after.mem root v =
        if v / pgSize = va / pgSize then none else leafAt s.mem root v) ∧
      ∀ page, layout.IsPage page → page ≠ pte2pa e → (∀ path, kind page ≠ .table path) →
        SameOn after.mem s.mem page pgSize) s := by
  have isTop := tree.tables.forest.baseTop
  have isPage : layout.IsPage (pte2pa e) := tree.tables.pages _ (by simp [isHeld])
  have fresh : pte2pa e ∉ free := by
    rw [tree.tables.isFree, isHeld]
    simp
  obtain ⟨l, reached, isLeaf⟩ := Option.bind_eq_some_iff.mp mapped
  have isTable : kind l = .table (upper va) := by
    simpa using tree.tables.forest.reach_kind (upper va) isTop (by simp [upper]) reached
  obtain ⟨valid, isEntry⟩ : pteValid (entry s.mem l (index 0 va)) ∧ entry s.mem l (index 0 va) = e := by
    simpa [tableSlots] using isLeaf
  have isLoad : load s.mem (l + 8 * (index 0 va).val) 8 = e := isEntry
  rw [isEntry] at valid
  obtain ⟨given, sameLeaves⟩ := tree.give isHeld
  have entries := tree.tables.pushPage_entries isPage (by simp [isHeld])
  rw [unmapPage]
  apply wp_seq (tree.tables.walk_find va isTop)
  intro got mid walked
  rw [walked.1, walked.2, reached, Option.map_some]
  change wp (loadField (l + 8 * (index 0 va).val) 8 >>= _) _ s
  rw [wp_bind, wp_loadField, isLoad]
  refine ⟨tree.tables.entryInRam isTable _, ?_⟩
  rw [onlyIf, if_pos valid, onlyIf, if_pos rfl]
  apply wp_seq (kfree_spec tree.tables.freeList _ isPage fresh)
  rintro - _ ⟨rfl, -⟩
  rw [wp_storeField]
  refine ⟨tree.tables.entryInRam isTable _, ?_⟩
  have sameTables : SameTables kind (Function.update kind (pte2pa e) (.other .free)) := by
    intro t path
    by_cases same : t = pte2pa e
    · subst same
      rw [Function.update_self, isHeld]
      simp
    · rw [Function.update_of_ne same]
  have frames : ∀ p, kind p = .frame →
      Function.update kind (pte2pa e) (.other .free) p = .frame := by
    intro p isFrame
    rw [Function.update_of_ne, isFrame]
    rintro rfl
    rw [isHeld] at isFrame
    cases isFrame
  obtain ⟨afterTables, sameBut, cleared⟩ := tree.tables.clearLeaf isTable rfl
    (by rw [isEntry]; exact valid) entries given.tables.freeList given.tables.isFree
    given.tables.pages sameTables fun p isFrame => Or.inl (frames p isFrame)
  refine ⟨⟨afterTables, ?_⟩, rfl, ?_, ?_⟩
  · intro t path isTable'
    have before := (sameTables t path).mp isTable'
    have short := tree.tables.forest.bounded t path before
    rw [withMem_mem, tree.tables.forest.reach_sameBut isTable rfl sameBut path isTop
      (by simpa using short)]
    exact tree.rooted t path before
  · intro v lowV
    have shown := tree.tables.forest.lookup_through isTop rfl reached sameBut
    rw [leafAt, withMem_mem, shown (upper v) (index 0 v) rfl, cleared]
    exact if_congr (same_place lowV low) rfl rfl
  · intro page isPage' differs notTable
    have notL : page ≠ l := by
      rintro rfl
      exact notTable _ isTable
    apply SameOn.trans (sameOn_entry (tree.tables.isPage isTable).1 isPage'.1 notL _ _)
    apply sameOn_store
    exact apart_pages isPage'.1 isPage.1 differs (by omega) (by simp [pgSize])

/-- `vmmap` of one page. -/
theorem vmmapPage_spec (tree : Tree layout s root kind free) (va pa perm : Nat)
    (start : va % pgSize = 0) (low : va < 2 ^ 39) (inside : pa < 2 ^ 64) (small : perm < 2 ^ 10)
    (vacant : leafAt s.mem root va = none) :
    wp (vmmap root va pgSize pa perm) (fun mapped after => ∃ kind' free',
      Tree layout after root kind' free' ∧ Extended layout s after kind kind' free free' ∧
      ∀ v < 2 ^ 39, leafAt after.mem root v =
        if mapped = true ∧ v / pgSize = va / pgSize then some (leafEntry pa perm)
        else leafAt s.mem root v) s := by
  have legal : ¬ (va % pgSize ≠ 0 ∨ pgSize % pgSize ≠ 0 ∨ pgSize = 0) := by
    simp only [pgSize] at *
    omega
  rw [vmmap, if_neg legal, show pgSize / pgSize = 0 + 1 from rfl, mapPages]
  apply wp_seq (tree.mapPage_spec va pa perm low inside small vacant)
  rintro mapped mid ⟨kind', free', afterTree, extended, -, shown⟩
  cases mapped with
  | false => exact wp_pure.mpr ⟨kind', free', afterTree, extended, shown⟩
  | true => exact wp_pure.mpr ⟨kind', free', afterTree, extended, shown⟩

end Tree

/-- Between `s₀` and `s` pages were taken from the free list. The `owned` ones are held
and zeroed, the others became tables. -/
structure Drawn (layout : Layout) (root : Nat) (s₀ s : Kernel) (kind₀ kind : Nat → PageKind)
    (free : List Nat) (owned : Nat → Prop) : Prop where
  tree : Tree layout s root kind free
  held : ∀ page, owned page → kind page = .other .held ∧ kind₀ page = .other .free
  zeroed : ∀ page, owned page → ∀ a, page ≤ a → a < page + pgSize → s.mem a = 0
  used : ∀ page, kind₀ page ≠ .other .free → kind page = kind₀ page
  spare : ∀ page, kind₀ page = .other .free →
    kind page = .other .free ∨ (∃ path, kind page = .table path) ∨ owned page
  kept : ∀ page, layout.IsPage page → kind₀ page ≠ .other .free → (∀ path, kind₀ page ≠ .table path) →
    SameOn s.mem s₀.mem page pgSize

namespace Drawn

variable {s₀ s : Kernel} {kind₀ kind : Nat → PageKind} {free : List Nat} {owned : Nat → Prop}

theorem start (tree : Tree layout s root kind free) :
    Drawn layout root s s kind kind free fun _ => False :=
  ⟨tree, fun _ no => no.elim, fun _ no => no.elim, fun _ _ => rfl, fun _ isFree => Or.inl isFree,
    fun _ _ _ _ _ _ _ => rfl⟩

theorem congr (drawn : Drawn layout root s₀ s kind₀ kind free owned) {owned' : Nat → Prop}
    (same : ∀ page, owned page ↔ owned' page) :
    Drawn layout root s₀ s kind₀ kind free owned' := by
  have isSame : owned = owned' := funext fun page => propext (same page)
  exact isSame ▸ drawn

/-- `kalloc` takes the head of the free list. -/
theorem take {page : Nat} (drawn : Drawn layout root s₀ s kind₀ kind (page :: free) owned) :
    Drawn layout root s₀ s.popPage kind₀ (Function.update kind page (.other .held)) free
      (fun other => owned other ∨ other = page) := by
  have isFree := (drawn.tree.tables.isFree page).mp (List.mem_cons_self ..)
  have same : ∀ other, layout.IsPage other → other ≠ page →
      SameOn s.popPage.mem s.mem other pgSize :=
    fun other isOther differs => drawn.tree.tables.freeList.popPage_other isOther differs
  have wasFree : kind₀ page = .other .free := by
    by_contra notFree
    exact notFree ((drawn.used page notFree).symm.trans isFree)
  have notOwned : ∀ other, owned other → other ≠ page := by
    rintro other isOwned rfl
    have isHeld := (drawn.held other isOwned).1
    rw [isFree] at isHeld
    cases isHeld
  refine ⟨drawn.tree.take.1, ?_, ?_, ?_, ?_, ?_⟩
  · rintro other (isOwned | rfl)
    · rw [Function.update_of_ne (notOwned other isOwned)]
      exact drawn.held other isOwned
    · exact ⟨Function.update_self .., wasFree⟩
  · rintro other (isOwned | rfl) a above below
    · have isOther : layout.IsPage other := by
        apply drawn.tree.tables.pages other
        simp [(drawn.held other isOwned).1]
      rw [same other isOther (notOwned other isOwned) a above below]
      exact drawn.zeroed other isOwned a above below
    · exact drawn.tree.tables.freeList.popPage_inside a above below
  · intro other notFree
    have differs : other ≠ page := by
      rintro rfl
      exact notFree wasFree
    rw [Function.update_of_ne differs]
    exact drawn.used other notFree
  · intro other isFree'
    by_cases isSame : other = page
    · exact Or.inr (Or.inr (Or.inr isSame))
    · rw [Function.update_of_ne isSame]
      exact (drawn.spare other isFree').imp_right (Or.imp_right Or.inl)
  · intro other isOther notFree notTable
    have differs : other ≠ page := by
      rintro rfl
      exact notFree wasFree
    exact (same other isOther differs).trans (drawn.kept other isOther notFree notTable)

/-- The tree takes free pages for tables. -/
theorem grow (drawn : Drawn layout root s₀ s kind₀ kind free owned) {after : Kernel}
    {kind' : Nat → PageKind} {free' : List Nat} (tree : Tree layout after root kind' free')
    (extended : Extended layout s after kind kind' free free') :
    Drawn layout root s₀ after kind₀ kind' free' owned := by
  refine ⟨tree, ?_, ?_, ?_, ?_, ?_⟩
  · intro page isOwned
    obtain ⟨isHeld, wasFree⟩ := drawn.held page isOwned
    exact ⟨by rw [extended.used page (by simp [isHeld]), isHeld], wasFree⟩
  · intro page isOwned a above below
    have isHeld := (drawn.held page isOwned).1
    have isPage : layout.IsPage page := drawn.tree.tables.pages page (by simp [isHeld])
    rw [extended.kept page isPage (by simp [isHeld]) (by simp [isHeld]) a above below]
    exact drawn.zeroed page isOwned a above below
  · intro page notFree
    have same := drawn.used page notFree
    rw [extended.used page (by rwa [same]), same]
  · intro page wasFree
    rcases drawn.spare page wasFree with still | ⟨path, isTable⟩ | isOwned
    · exact (extended.spare page still).imp_right Or.inl
    · exact Or.inr (Or.inl ⟨path, by rw [extended.used page (by simp [isTable]), isTable]⟩)
    · exact Or.inr (Or.inr isOwned)
  · intro page isPage notFree notTable
    have same := drawn.used page notFree
    exact (extended.kept page isPage (by rwa [same]) (by rwa [same])).trans
      (drawn.kept page isPage notFree notTable)

/-- An owned page goes back, and no other page that is no table is written. -/
theorem release (drawn : Drawn layout root s₀ s kind₀ kind free owned) {page : Nat}
    (isOwned : owned page) {after : Kernel}
    (tree : Tree layout after root (Function.update kind page (.other .free)) (page :: free))
    (same : ∀ other, layout.IsPage other → other ≠ page → (∀ path, kind other ≠ .table path) →
      SameOn after.mem s.mem other pgSize) :
    Drawn layout root s₀ after kind₀ (Function.update kind page (.other .free)) (page :: free)
      (fun other => owned other ∧ other ≠ page) := by
  have wasFree := (drawn.held page isOwned).2
  refine ⟨tree, ?_, ?_, ?_, ?_, ?_⟩
  · rintro other ⟨isOwned', differs⟩
    rw [Function.update_of_ne differs]
    exact drawn.held other isOwned'
  · rintro other ⟨isOwned', differs⟩ a above below
    have isHeld := (drawn.held other isOwned').1
    have isPage : layout.IsPage other := drawn.tree.tables.pages other (by simp [isHeld])
    rw [same other isPage differs (by simp [isHeld]) a above below]
    exact drawn.zeroed other isOwned' a above below
  · intro other notFree
    have differs : other ≠ page := by
      rintro rfl
      exact notFree wasFree
    rw [Function.update_of_ne differs]
    exact drawn.used other notFree
  · intro other isFree
    by_cases isSame : other = page
    · rw [isSame, Function.update_self]
      exact Or.inl rfl
    · rw [Function.update_of_ne isSame]
      exact (drawn.spare other isFree).imp_right (Or.imp_right fun isOwned' => ⟨isOwned', isSame⟩)
  · intro other isPage notFree notTable
    have differs : other ≠ page := by
      rintro rfl
      exact notFree wasFree
    have isKind := drawn.used other notFree
    exact (same other isPage differs (by rwa [isKind])).trans
      (drawn.kept other isPage notFree notTable)

end Drawn

/-- The leaves for `frames`, one page after the other from `start`. All others are as
they were in `s₀`. -/
def Shows (s₀ s : Kernel) (root flags start : Nat) (frames : List Nat) : Prop :=
  ∀ v < 2 ^ 39, leafAt s.mem root v =
    if start ≤ v ∧ v < start + frames.length * pgSize then
      (frames[(v - start) / pgSize]?).map (leafEntry · flags)
    else leafAt s₀.mem root v

theorem Shows.congr {s₀ s after : Kernel} {flags start : Nat} {frames : List Nat}
    (shows : Shows s₀ s root flags start frames)
    (same : ∀ v < 2 ^ 39, leafAt after.mem root v = leafAt s.mem root v) :
    Shows s₀ after root flags start frames :=
  fun v low => (same v low).trans (shows v low)

/-- One more page behind the others. -/
theorem Shows.append {s₀ s after : Kernel} {flags start page : Nat} {frames : List Nat}
    (shows : Shows s₀ s root flags start frames) (aligned : start % pgSize = 0)
    (more : ∀ v < 2 ^ 39, leafAt after.mem root v =
      if v / pgSize = (start + frames.length * pgSize) / pgSize then some (leafEntry page flags)
      else leafAt s.mem root v) :
    Shows s₀ after root flags start (frames ++ [page]) := by
  intro v low
  have isNext : (start + frames.length * pgSize) % pgSize = 0 := by
    rw [Nat.add_mul_mod_self_right, aligned]
  have here := samePage_iff isNext v
  have span : (frames ++ [page]).length * pgSize = frames.length * pgSize + pgSize := by
    rw [List.length_append, List.length_singleton, Nat.succ_mul]
  have positive : 0 < pgSize := by decide
  rw [more v low, span]
  by_cases isHere : v / pgSize = (start + frames.length * pgSize) / pgSize
  · obtain ⟨above, below⟩ := here.mp isHere
    have position : (v - start) / pgSize = frames.length := by
      have offset : v - start = v - (start + frames.length * pgSize) + frames.length * pgSize := by
        omega
      have small : v - (start + frames.length * pgSize) < pgSize := by omega
      rw [offset, Nat.add_mul_div_right _ _ positive, Nat.div_eq_of_lt small, Nat.zero_add]
    have covered : start ≤ v ∧ v < start + (frames.length * pgSize + pgSize) := by omega
    rw [if_pos isHere, if_pos covered, position, List.getElem?_concat_length, Option.map_some]
  · have beside : ¬ (start + frames.length * pgSize ≤ v ∧
        v < start + frames.length * pgSize + pgSize) := fun inside => isHere (here.mpr inside)
    rw [if_neg isHere, shows v low]
    by_cases before : start ≤ v ∧ v < start + frames.length * pgSize
    · have covered : start ≤ v ∧ v < start + (frames.length * pgSize + pgSize) := by omega
      have position : (v - start) / pgSize < frames.length := by
        rw [Nat.div_lt_iff_lt_mul positive]
        omega
      rw [if_pos before, if_pos covered, List.getElem?_append_left position]
    · have notCovered : ¬ (start ≤ v ∧ v < start + (frames.length * pgSize + pgSize)) := by omega
      rw [if_neg before, if_neg notCovered]

/-- Without the first page, which was vacant. -/
theorem Shows.tail {s₀ s after : Kernel} {flags start page : Nat} {frames : List Nat}
    (shows : Shows s₀ s root flags start (page :: frames)) (aligned : start % pgSize = 0)
    (vacant : ∀ v, start ≤ v → v < start + pgSize → leafAt s₀.mem root v = none)
    (less : ∀ v < 2 ^ 39, leafAt after.mem root v =
      if v / pgSize = start / pgSize then none else leafAt s.mem root v) :
    Shows s₀ after root flags (start + pgSize) frames := by
  intro v low
  have here := samePage_iff aligned v
  have span : (page :: frames).length * pgSize = frames.length * pgSize + pgSize := by
    rw [List.length_cons, Nat.succ_mul]
  have positive : 0 < pgSize := by decide
  rw [less v low]
  by_cases isHere : v / pgSize = start / pgSize
  · obtain ⟨above, below⟩ := here.mp isHere
    have notLater : ¬ (start + pgSize ≤ v ∧ v < start + pgSize + frames.length * pgSize) := by omega
    rw [if_pos isHere, if_neg notLater, vacant v above below]
  · have beside : ¬ (start ≤ v ∧ v < start + pgSize) := fun inside => isHere (here.mpr inside)
    rw [if_neg isHere, shows v low, span]
    by_cases later : start + pgSize ≤ v ∧ v < start + pgSize + frames.length * pgSize
    · have covered : start ≤ v ∧ v < start + (frames.length * pgSize + pgSize) := by omega
      have position : (v - start) / pgSize = (v - (start + pgSize)) / pgSize + 1 := by
        have offset : v - start = v - (start + pgSize) + pgSize := by omega
        rw [offset, Nat.add_div_right _ positive]
      rw [if_pos later, if_pos covered, position, List.getElem?_cons_succ]
    · have notCovered : ¬ (start ≤ v ∧ v < start + (frames.length * pgSize + pgSize)) := by omega
      rw [if_neg later, if_neg notCovered]

/-- `uvmunmap` takes the mapped frames back. -/
theorem Drawn.unmapPages_spec {s₀ s : Kernel} {kind₀ kind : Nat → PageKind} {free : List Nat}
    {flags start : Nat} {frames : List Nat}
    (drawn : Drawn layout root s₀ s kind₀ kind free (· ∈ frames)) (distinct : frames.Nodup)
    (shows : Shows s₀ s root flags start frames) (small : flags < 2 ^ 10)
    (aligned : start % pgSize = 0) (low : start + frames.length * pgSize ≤ 2 ^ 39)
    (vacant : ∀ v, start ≤ v → v < start + frames.length * pgSize → leafAt s₀.mem root v = none) :
    wp (unmapPages layout root true (start + frames.length * pgSize) start) (fun _ after =>
      ∃ kind' free', Drawn layout root s₀ after kind₀ kind' free' (fun _ => False) ∧
        ∀ v < 2 ^ 39, leafAt after.mem root v = leafAt s₀.mem root v) s := by
  have positive : 0 < pgSize := by decide
  induction frames generalizing s kind free start with
  | nil =>
    rw [unmapPages, if_neg (by simp)]
    refine wp_pure.mpr ⟨kind, free, drawn.congr fun page => by simp, fun v lowV => ?_⟩
    rw [shows v lowV, if_neg]
    rw [List.length_nil]
    omega
  | cons page frames inductionHypothesis =>
    have span : (page :: frames).length * pgSize = frames.length * pgSize + pgSize := by
      rw [List.length_cons, Nat.succ_mul]
    rw [span] at low vacant ⊢
    have isHeld := (drawn.held page (List.mem_cons_self ..)).1
    have isPage : layout.IsPage page := drawn.tree.tables.pages page (by simp [isHeld])
    have isTarget : pte2pa (leafEntry page flags) = page :=
      pte2pa_leafEntry isPage.1 isPage.lt small
    have mapped : leafAt s.mem root start = some (leafEntry page flags) := by
      rw [shows start (by omega), span, if_pos (by omega), Nat.sub_self, Nat.zero_div]
      rfl
    rw [unmapPages, if_pos (by omega)]
    apply wp_seq (drawn.tree.unmapPage_spec (by omega) mapped (by rw [isTarget, isHeld]))
    rw [isTarget]
    rintro - mid ⟨midTree, -, cleared, same⟩
    have stop : start + (frames.length * pgSize + pgSize) = start + pgSize + frames.length * pgSize := by
      omega
    have notAgain := (List.nodup_cons.mp distinct).1
    have released := drawn.release (List.mem_cons_self ..) midTree same
    have rest : Drawn layout root s₀ mid kind₀ (Function.update kind page (.other .free))
        (page :: free) (· ∈ frames) := released.congr fun other => by
      rw [List.mem_cons]
      constructor
      · rintro ⟨isPage | member, differs⟩
        · exact absurd isPage differs
        · exact member
      · intro member
        refine ⟨Or.inr member, ?_⟩
        rintro rfl
        exact notAgain member
    rw [stop]
    refine inductionHypothesis rest (List.nodup_cons.mp distinct).2
      (shows.tail aligned (fun v above below => vacant v above (by omega)) cleared)
      (by rw [Nat.add_mod_right, aligned]) (by omega) fun v above below => ?_
    exact vacant v (by omega) (by omega)

/-- Sizes below the last page are rounded up without a wrap. -/
theorem pgRoundUp_spec {a : Nat} (low : a < 2 ^ 39 - pgSize) :
    pgRoundUp a % pgSize = 0 ∧ a ≤ pgRoundUp a ∧ pgRoundUp a < a + pgSize := by
  simp only [pgRoundUp, pgSize] at *
  omega

theorem pgRoundUp_of_aligned {a : Nat} (aligned : a % pgSize = 0) (low : a ≤ 2 ^ 39) :
    pgRoundUp a = a := by
  simp only [pgRoundUp, pgSize] at *
  omega

/-- `uvmdealloc` from the size that the loop has reached. -/
theorem Drawn.uvmdealloc_spec {s₀ s : Kernel} {kind₀ kind : Nat → PageKind} {free : List Nat}
    {flags start : Nat} {frames : List Nat}
    (drawn : Drawn layout root s₀ s kind₀ kind free (· ∈ frames)) (distinct : frames.Nodup)
    (shows : Shows s₀ s root flags start frames) (small : flags < 2 ^ 10)
    (aligned : start % pgSize = 0) (low : start + frames.length * pgSize ≤ 2 ^ 39)
    (vacant : ∀ v, start ≤ v → v < start + frames.length * pgSize → leafAt s₀.mem root v = none) :
    wp (uvmdealloc layout root (start + frames.length * pgSize) start) (fun _ after =>
      ∃ kind' free', Drawn layout root s₀ after kind₀ kind' free' (fun _ => False) ∧
        ∀ v < 2 ^ 39, leafAt after.mem root v = leafAt s₀.mem root v) s := by
  have unmapped := drawn.unmapPages_spec distinct shows small aligned low vacant
  have roundedStop : pgRoundUp (start + frames.length * pgSize) = start + frames.length * pgSize :=
    pgRoundUp_of_aligned (by rw [Nat.add_mul_mod_self_right, aligned]) low
  have roundedStart : pgRoundUp start = start := pgRoundUp_of_aligned aligned (by omega)
  rw [uvmdealloc, roundedStop, roundedStart]
  split
  · rename_i none
    apply wp_pure.mpr
    rw [unmapPages, if_neg (Nat.not_lt.mpr none)] at unmapped
    exact wp_pure.mp unmapped
  · rename_i some
    have isCount : (start + frames.length * pgSize - start) / pgSize = frames.length := by
      rw [Nat.add_sub_cancel_left, Nat.mul_div_cancel _ (by decide)]
    have few : frames.length < 2 ^ 31 := by
      simp only [pgSize] at low
      omega
    have isI32 : toI32 frames.length = frames.length := by
      rw [toI32, Nat.mod_eq_of_lt (by omega), if_pos few]
    have inside : (start + frames.length * pgSize) % 2 ^ 64 = start + frames.length * pgSize :=
      Nat.mod_eq_of_lt (by omega)
    rw [isCount, isI32, onlyIf, if_pos (by omega), uvmunmap, if_neg (not_not.mpr aligned), inside]
    exact wp_seq unmapped fun _ _ is => wp_pure.mpr is

/-- How the loop of `uvmalloc` ends. -/
def Settled (layout : Layout) (root : Nat) (s₀ after : Kernel) (kind₀ : Nat → PageKind)
    (flags oldsz newsz size : Nat) : Prop :=
  ∃ kind' free', (size = newsz ∧ ∃ frames : List Nat,
      newsz ≤ oldsz + frames.length * pgSize ∧ oldsz + frames.length * pgSize < newsz + pgSize ∧
      frames.Nodup ∧ Drawn layout root s₀ after kind₀ kind' free' (· ∈ frames) ∧
      Shows s₀ after root flags oldsz frames) ∨
    (size = 0 ∧ Drawn layout root s₀ after kind₀ kind' free' (fun _ => False) ∧
      ∀ v < 2 ^ 39, leafAt after.mem root v = leafAt s₀.mem root v)

/-- The loop of `uvmalloc`, after a page for each of `frames`. -/
theorem Drawn.allocPages_spec {s₀ s : Kernel} {kind₀ kind : Nat → PageKind} {free : List Nat}
    {perm oldsz newsz : Nat} {frames : List Nat}
    (drawn : Drawn layout root s₀ s kind₀ kind free (· ∈ frames)) (distinct : frames.Nodup)
    (shows : Shows s₀ s root (pteR ||| pteV ||| perm) oldsz frames) (small : perm < 2 ^ 8)
    (aligned : oldsz % pgSize = 0) (low : newsz < 2 ^ 39 - pgSize)
    (upTo : oldsz + frames.length * pgSize < newsz + pgSize)
    (vacant : ∀ v, oldsz ≤ v → v < pgRoundUp newsz → leafAt s₀.mem root v = none) :
    wp (allocPages layout root oldsz newsz perm (oldsz + frames.length * pgSize))
      (fun size after => Settled layout root s₀ after kind₀ (pteR ||| pteV ||| perm) oldsz newsz size)
      s := by
  have flags : pteR ||| pteV ||| perm < 2 ^ 10 :=
    Nat.or_lt_two_pow (by decide) (Nat.lt_trans small (by decide))
  obtain ⟨roundAligned, roundUp, roundLess⟩ := pgRoundUp_spec low
  induction left : newsz - (oldsz + frames.length * pgSize) using Nat.strong_induction_on
    generalizing s kind free frames with
  | _ left' inductionHypothesis =>
    have sizeAligned : (oldsz + frames.length * pgSize) % pgSize = 0 := by
      rw [Nat.add_mul_mod_self_right, aligned]
    have span : (frames.length + 1) * pgSize = frames.length * pgSize + pgSize := Nat.succ_mul ..
    rw [allocPages]
    split
    · rename_i more
      -- The page of this pass is part of the rounded range.
      have fits : oldsz + frames.length * pgSize + pgSize ≤ pgRoundUp newsz := by
        simp only [pgSize] at *
        omega
      -- What the loop does when it gives up.
      have undo : ∀ mid kind₁ free₁, Drawn layout root s₀ mid kind₀ kind₁ free₁ (· ∈ frames) →
          Shows s₀ mid root (pteR ||| pteV ||| perm) oldsz frames →
          wp (do
              let _ ← uvmdealloc layout root (oldsz + frames.length * pgSize) oldsz
              return 0) (fun size after => Settled layout root s₀ after kind₀
                (pteR ||| pteV ||| perm) oldsz newsz size) mid := by
        intro mid kind₁ free₁ midDrawn midShows
        refine wp_seq (midDrawn.uvmdealloc_spec distinct midShows flags aligned (by omega)
          fun v above below => vacant v above (by omega)) ?_
        rintro - after ⟨kind', free', afterDrawn, same⟩
        exact wp_pure.mpr ⟨kind', free', Or.inr ⟨rfl, afterDrawn, same⟩⟩
      cases free with
      | nil =>
        apply wp_seq (kalloc_empty drawn.tree.tables.freeList)
        rintro _ _ ⟨rfl, rfl⟩
        rw [if_pos rfl]
        exact undo _ kind [] drawn shows
      | cons page free =>
        have isPage := drawn.tree.tables.freeList.pages page (List.mem_cons_self ..)
        have isFree := (drawn.tree.tables.isFree page).mp (List.mem_cons_self ..)
        have fresh : page ∉ frames := by
          intro member
          have isHeld := (drawn.held page member).1
          rw [isFree] at isHeld
          cases isHeld
        obtain ⟨takenTree, sameLeaves⟩ := drawn.tree.take
        have vacantHere : leafAt s.popPage.mem root (oldsz + frames.length * pgSize) = none := by
          rw [sameLeaves, shows _ (by omega), if_neg (by omega)]
          exact vacant _ (Nat.le_add_right ..) (by omega)
        apply wp_seq (kalloc_cons drawn.tree.tables.freeList)
        rintro got _ ⟨rfl, rfl, -⟩
        rw [if_neg isPage.ne_zero]
        refine wp_seq (takenTree.vmmapPage_spec _ got _ sizeAligned (by omega) isPage.lt flags
          vacantHere) ?_
        rintro mapped mid ⟨kind₁, free₁, midTree, extended, shown⟩
        have midDrawn := drawn.take.grow midTree extended
        cases mapped with
        | false =>
          have isHeld := (midDrawn.held got (Or.inr rfl)).1
          have notListed : got ∉ free₁ := by
            rw [midTree.tables.isFree, isHeld]
            simp
          obtain ⟨givenTree, givenLeaves⟩ := midTree.give isHeld
          rw [if_neg Bool.false_ne_true]
          refine wp_seq (kfree_spec midTree.tables.freeList got isPage notListed) ?_
          rintro - _ ⟨rfl, -⟩
          have released := midDrawn.release (Or.inr rfl) givenTree fun other isOther differs _ =>
            sameOn_store _ _ _ _ _ _ (apart_pages isOther.1 isPage.1 differs (by omega)
              (by simp [pgSize]))
          refine undo _ _ _ (released.congr fun other => ?_) (shows.congr fun v lowV => ?_)
          · constructor
            · rintro ⟨member | isGot, differs⟩
              · exact member
              · exact absurd isGot differs
            · intro member
              refine ⟨Or.inl member, ?_⟩
              rintro rfl
              exact fresh member
          · rw [givenLeaves, shown v lowV, if_neg (by simp), sameLeaves]
        | true =>
          have isLength : (frames ++ [got]).length = frames.length + 1 := by
            rw [List.length_append, List.length_singleton]
          have nextSize : oldsz + frames.length * pgSize + pgSize =
              oldsz + (frames ++ [got]).length * pgSize := by
            rw [isLength, span]
            omega
          rw [if_pos rfl, nextSize]
          refine inductionHypothesis _ ?_ (midDrawn.congr fun other => by simp) ?_ ?_ ?_ rfl
          · rw [← left, isLength, span]
            simp only [pgSize] at *
            omega
          · rw [List.nodup_append]
            refine ⟨distinct, List.nodup_singleton _, ?_⟩
            rintro other member other' member' rfl
            rw [List.mem_singleton] at member'
            exact fresh (member' ▸ member)
          · refine shows.append aligned fun v lowV => ?_
            rw [shown v lowV, sameLeaves]
            exact if_congr (by simp) rfl rfl
          · rw [isLength, span]
            omega
    · rename_i full
      exact wp_pure.mpr ⟨kind, free, Or.inl ⟨rfl, frames, Nat.not_lt.mp full, upTo, distinct, drawn,
        shows⟩⟩

/-- A page that is free now was free before. -/
theorem Drawn.free_before {s₀ s : Kernel} {kind₀ kind : Nat → PageKind} {free₀ free : List Nat}
    {owned : Nat → Prop} (drawn : Drawn layout root s₀ s kind₀ kind free owned)
    (tree : Tree layout s₀ root kind₀ free₀) {page : Nat}
    (listed : page ∈ free) : page ∈ free₀ := by
  rw [tree.tables.isFree]
  by_contra notFree
  rw [drawn.tree.tables.isFree, drawn.used page notFree] at listed
  exact notFree listed

/-- A page that was free is free, a table or owned. -/
theorem Drawn.free_after {s₀ s : Kernel} {kind₀ kind : Nat → PageKind} {free₀ free : List Nat}
    {owned : Nat → Prop} (drawn : Drawn layout root s₀ s kind₀ kind free owned)
    (tree : Tree layout s₀ root kind₀ free₀) {page : Nat} (listed : page ∈ free₀) :
    page ∈ free ∨ IsTable s.mem root page ∨ owned page := by
  rw [drawn.tree.tables.isFree, drawn.tree.isTable_iff]
  exact drawn.spare page ((tree.tables.isFree page).mp listed)

/-- `uvmalloc` returns. It maps each page of the range to a zeroed frame of its own that
was free, or it returns 0 and maps nothing: what was free is free again, but for new
tables. -/
theorem uvmalloc_all_or_nothing {s : Kernel} {free : List Nat}
    (tree : PrivateTree layout s root free) {oldsz newsz perm : Nat} (grows : oldsz ≤ newsz)
    (low : newsz < 2 ^ 39 - pgSize) (small : perm < 2 ^ 8)
    (vacant : ∀ v, pgRoundUp oldsz ≤ v → v < pgRoundUp newsz → leafAt s.mem root v = none) :
    wp (uvmalloc layout root oldsz newsz perm) (fun size after => ∃ free',
      PrivateTree layout after root free' ∧ (∀ page ∈ free', page ∈ free) ∧
      (∀ page, layout.IsPage page → page ∉ free → ¬ IsTable s.mem root page →
        SameOn after.mem s.mem page pgSize) ∧
      ((size = newsz ∧ ∃ frames : List Nat,
          frames.length * pgSize = pgRoundUp newsz - pgRoundUp oldsz ∧ frames.Nodup ∧
          (∀ page ∈ frames, page ∈ free ∧ page ∉ free' ∧ ¬ IsTable after.mem root page ∧
            ∀ a, page ≤ a → a < page + pgSize → after.mem a = 0) ∧
          (∀ page ∈ free, page ∈ free' ∨ IsTable after.mem root page ∨ page ∈ frames) ∧
          (∀ v, pgRoundUp oldsz ≤ v → v < pgRoundUp newsz → ∃ page,
            frames[(v - pgRoundUp oldsz) / pgSize]? = some page ∧
            translate after.mem root v = some (page + v % pgSize, pteR ||| pteV ||| perm)) ∧
          ∀ v < 2 ^ 39, ¬ (pgRoundUp oldsz ≤ v ∧ v < pgRoundUp newsz) →
            leafAt after.mem root v = leafAt s.mem root v) ∨
        (size = 0 ∧ (∀ v < 2 ^ 39, leafAt after.mem root v = leafAt s.mem root v) ∧
          ∀ page ∈ free, page ∈ free' ∨ IsTable after.mem root page))) s := by
  obtain ⟨kind, labelled, others⟩ := tree.labelled
  have flags : pteR ||| pteV ||| perm < 2 ^ 10 :=
    Nat.or_lt_two_pow (by decide) (Nat.lt_trans small (by decide))
  obtain ⟨aligned, roundUp, roundLess⟩ := pgRoundUp_spec (Nat.lt_of_le_of_lt grows low)
  obtain ⟨stopAligned, stopUp, stopLess⟩ := pgRoundUp_spec low
  have kept : ∀ {after kind' free' owned}, Drawn layout root s after kind kind' free' owned →
      ∀ page, layout.IsPage page → page ∉ free → ¬ IsTable s.mem root page →
        SameOn after.mem s.mem page pgSize := by
    intro after kind' free' owned drawn page isPage unlisted notTable
    have isHeld := others page isPage unlisted notTable
    exact drawn.kept page isPage (by simp [isHeld]) (by simp [isHeld])
  rw [uvmalloc, if_neg (Nat.not_lt.mpr grows)]
  have start : Drawn layout root s s kind kind free (· ∈ ([] : List Nat)) :=
    (Drawn.start labelled).congr fun page => by simp
  have shows : Shows s s root (pteR ||| pteV ||| perm) (pgRoundUp oldsz) [] :=
    fun v _ => by rw [if_neg (by simp)]
  have begun := start.allocPages_spec List.nodup_nil shows small aligned low
    (by rw [List.length_nil]; omega) vacant
  rw [List.length_nil, Nat.zero_mul, Nat.add_zero] at begun
  apply wp_mono begun
  rintro size after ⟨kind', free', ⟨rfl, frames, upTo, below, distinct, drawn, shows⟩ |
    ⟨rfl, drawn, same⟩⟩
  · have isSpan : pgRoundUp oldsz + frames.length * pgSize = pgRoundUp size := by
      simp only [pgSize] at *
      omega
    refine ⟨free', drawn.tree.isPrivate, fun page => drawn.free_before labelled, kept drawn,
      Or.inl ⟨rfl, frames, by omega, distinct, ?_, fun page => drawn.free_after labelled, ?_, ?_⟩⟩
    · intro page member
      obtain ⟨isHeld, wasFree⟩ := drawn.held page member
      refine ⟨(labelled.tables.isFree page).mpr wasFree, ?_, ?_, drawn.zeroed page member⟩
      · rw [drawn.tree.tables.isFree, isHeld]
        simp
      · rw [drawn.tree.isTable_iff, isHeld]
        simp
    · intro v above beneath
      have position : (v - pgRoundUp oldsz) / pgSize < frames.length := by
        rw [Nat.div_lt_iff_lt_mul (by decide)]
        omega
      have isFrame := List.getElem?_eq_getElem position
      have member := List.getElem_mem position
      generalize frames[(v - pgRoundUp oldsz) / pgSize] = page at isFrame member
      have isHeld := (drawn.held page member).1
      have isPage : layout.IsPage page := drawn.tree.tables.pages page (by simp [isHeld])
      have noWrap : page + v % pgSize < 2 ^ 64 := by
        have inside := isPage.2.2
        have offset : v % pgSize < pgSize := Nat.mod_lt _ (by decide)
        simp only [phyEnd, pgSize] at *
        omega
      have isPerm : pteR ||| pteV ||| perm ||| pteV = pteR ||| pteV ||| perm := by
        rw [Nat.or_assoc, Nat.or_comm perm, ← Nat.or_assoc, Nat.or_assoc pteR pteV pteV, Nat.or_self]
      refine ⟨page, isFrame, ?_⟩
      rw [translate, shows v (by omega), if_pos (by omega), isFrame, Option.map_some, Option.map_some,
        leafEntry_flags flags, pte2pa_leafEntry isPage.1 isPage.lt flags, Nat.mod_eq_of_lt noWrap,
        isPerm]
    · intro v lowV outside
      rw [shows v lowV, if_neg (by omega)]
  · refine ⟨free', drawn.tree.isPrivate, fun page => drawn.free_before labelled, kept drawn,
      Or.inr ⟨rfl, same, fun page listed => ?_⟩⟩
    exact (drawn.free_after labelled listed).imp_right fun is => is.resolve_right id

/-- The address space of `onePage`, with one free page. -/
def oneFree : Kernel := ⟨onePage, 0x80500000, fun _ => 0, 0, 0, fun _ => 0, 0⟩

/-- The free page serves one page of growth. For two pages it is given back again. -/
theorem onePage_grows : ∃ grown shrunk frame flags,
    Returns (uvmalloc smallImage 0x80400000 0x1000 0x2000 pteU) oneFree 0x2000 grown ∧
    translate grown.mem 0x80400000 0x1000 = some (frame, flags) ∧
    (∀ a, frame ≤ a → a < frame + pgSize → grown.mem a = 0) ∧
    Returns (uvmalloc smallImage 0x80400000 0x1000 0x3000 pteU) oneFree 0 shrunk ∧
    ∃ free, FreeList smallImage shrunk free ∧ 0x80500000 ∈ free ∧
      ∀ v < 2 ^ 39, leafAt shrunk.mem 0x80400000 v = leafAt onePage 0x80400000 v := by
  have tree : PrivateTree smallImage oneFree 0x80400000 [0x80500000] := by
    refine onePage_private rfl ⟨⟨rfl, by decide, ?_⟩, List.nodup_singleton _, ?_⟩ (by decide)
    · change load onePage 0x80500000 8 = 0
      decide +kernel
    · intro page member
      obtain rfl := List.mem_singleton.mp member
      exact ⟨by decide, by decide, by decide⟩
  have vacant : ∀ top ≤ 0x3000, ∀ v, pgRoundUp 0x1000 ≤ v → v < pgRoundUp top →
      leafAt oneFree.mem 0x80400000 v = none := by
    refine fun top low v above below => onePage_vacant fun isZero => ?_
    have isOne : v / 2 ^ 12 % 512 = 0 := congrArg Fin.val isZero
    simp only [pgRoundUp, pgSize] at above below
    omega
  have computed : (uvmalloc smallImage 0x80400000 0x1000 0x2000 pteU oneFree).toOption.map Prod.fst =
      some 0x2000 := by decide +kernel
  have computed' : (uvmalloc smallImage 0x80400000 0x1000 0x3000 pteU oneFree).toOption.map
      (fun result => (result.1, result.2.memlist)) = some (0, 0x80500000) := by decide +kernel
  obtain ⟨result, ran, isSize⟩ := Option.map_eq_some_iff.mp computed
  obtain ⟨result', ran', isSize'⟩ := Option.map_eq_some_iff.mp computed'
  have returned := returns_of_toOption ran
  have returned' := returns_of_toOption ran'
  obtain ⟨isZero, isHead⟩ := Prod.mk.inj isSize'
  obtain ⟨size, grown, grows, free, -, -, -, outcome⟩ :=
    uvmalloc_all_or_nothing tree (by decide : 0x1000 ≤ 0x2000) (by decide)
      (by decide : pteU < 2 ^ 8) (vacant 0x2000 (by decide))
  obtain ⟨size', shrunk, shrinks, free', treeShrunk, -, -, outcome'⟩ :=
    uvmalloc_all_or_nothing tree (by decide : 0x1000 ≤ 0x3000) (by decide)
      (by decide : pteU < 2 ^ 8) (vacant 0x3000 (Nat.le_refl _))
  obtain ⟨rfl, rfl⟩ := grows.unique returned
  obtain ⟨rfl, rfl⟩ := shrinks.unique returned'
  rw [isSize] at grows outcome
  rw [isZero] at shrinks outcome'
  obtain ⟨-, frames, -, -, zeros, -, maps, -⟩ := outcome.resolve_right fun failed =>
    absurd failed.1 (by decide)
  obtain ⟨-, same, -⟩ := outcome'.resolve_left fun done => absurd done.1 (by decide)
  obtain ⟨frame, isFrame, shown⟩ := maps 0x1000 (by decide) (by decide)
  have head : 0x80500000 ∈ free' := by
    have chain := treeShrunk.freeList.chain
    rw [isHead] at chain
    cases free' with
    | nil =>
      change 0x80500000 = 0 at chain
      exact absurd chain (by decide)
    | cons page rest =>
      rw [chain.1]
      exact List.mem_cons_self ..
  exact ⟨result.2, result'.2, frame, _, grows, shown,
    (zeros frame (List.mem_of_getElem? isFrame)).2.2.2, shrinks, free', treeShrunk.freeList, head,
    same⟩

end CuteCore
