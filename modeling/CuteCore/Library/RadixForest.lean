import Mathlib

/-!
# Radix trees that share subtrees

Tables of slots lead to tables down to a fixed depth, and the slots of the
tables at that depth hold leaves. The trees of several roots share what lies
behind the slots that a base root uses, and nothing else.

`Forest` is the invariant. It is kept by hanging an empty table into a free
slot, by setting and clearing leaves, and by adding a root. Two roots reach the
same table only through a shared slot, so a leaf set through an unshared slot
is seen through one root only.
-/

namespace RadixForest

variable {ρ ι ε κ : Type}

/-- What a page is used for. A table is labelled with the path that leads to it. -/
inductive Kind (ι κ : Type) where
  | table (path : List ι)
  | frame
  | other (use : κ)

/-- The contents of the tables. -/
structure Slots (ρ ι ε : Type) where
  link : ρ → ι → Option ρ
  leaf : ρ → ι → Option ε

/-- The table a path leads to. -/
def Slots.reach (slots : Slots ρ ι ε) : ρ → List ι → Option ρ
  | t, [] => some t
  | t, i :: rest => (slots.link t i).bind fun child => slots.reach child rest

def Slots.lookup (slots : Slots ρ ι ε) (root : ρ) (path : List ι) (i : ι) : Option ε :=
  (slots.reach root path).bind fun t => slots.leaf t i

theorem Slots.reach_append (slots : Slots ρ ι ε) (t : ρ) (path more : List ι) :
    slots.reach t (path ++ more) = (slots.reach t path).bind fun l => slots.reach l more := by
  induction path generalizing t with
  | nil => rfl
  | cons i rest inductionHypothesis =>
    rw [List.cons_append, Slots.reach, Slots.reach, Option.bind_assoc]
    congr 1
    funext child
    exact inductionHypothesis child

/-- The parameters of a forest. The leaves at guarded places refer to a frame of
their own, or to a fixed target that is no page. -/
structure Shape (ρ ι ε : Type) where
  depth : Nat
  positive : 0 < depth
  target : ε → ρ
  fixed : ρ → Prop
  guarded : List ι → ι → Prop

variable {shape : Shape ρ ι ε} {slots slots' : Slots ρ ι ε} {kind kind' : ρ → Kind ι κ} {base : ρ}
  {roots : List ρ}

structure Forest (shape : Shape ρ ι ε) (slots : Slots ρ ι ε) (kind : ρ → Kind ι κ) (base : ρ)
    (roots : List ρ) : Prop where
  tops : ∀ r, kind r = .table [] ↔ r = base ∨ r ∈ roots
  bounded : ∀ t path, kind t = .table path → path.length ≤ shape.depth
  links : ∀ t path i child, kind t = .table path → path.length < shape.depth →
    slots.link t i = some child → kind child = .table (path ++ [i])
  leaves : ∀ t path i e, kind t = .table path → path.length = shape.depth →
    slots.leaf t i = some e → shape.guarded path i →
    shape.fixed (shape.target e) ∨ kind (shape.target e) = .frame
  shared : ∀ r ∈ roots, ∀ i child, slots.link base i = some child → slots.link r i = some child
  onlyLink : ∀ t t' path i child, kind t = .table path → kind t' = .table path →
    path.length < shape.depth → slots.link t i = some child → slots.link t' i = some child →
    t = t' ∨ path = [] ∧ slots.link base i ≠ none
  onlyLeaf : ∀ t t' path path' i i' e e', kind t = .table path → kind t' = .table path' →
    path.length = shape.depth → path'.length = shape.depth → slots.leaf t i = some e →
    slots.leaf t' i' = some e' → shape.guarded path i → shape.guarded path' i' →
    ¬ shape.fixed (shape.target e) → shape.target e = shape.target e' → t = t' ∧ i = i'

/-- The tables hold the same, except for one slot. -/
def Slots.SameBut (slots slots' : Slots ρ ι ε) (kind : ρ → Kind ι κ) (t : ρ) (i : ι) : Prop :=
  ∀ t' path i', kind t' = .table path → ¬ (t' = t ∧ i' = i) →
    slots'.link t' i' = slots.link t' i' ∧ slots'.leaf t' i' = slots.leaf t' i'

/-- The tables hold the same. -/
def Slots.Same (slots slots' : Slots ρ ι ε) (kind : ρ → Kind ι κ) : Prop :=
  ∀ t path i, kind t = .table path →
    slots'.link t i = slots.link t i ∧ slots'.leaf t i = slots.leaf t i

/-- The same pages are tables, in the same places. -/
def SameTables (kind kind' : ρ → Kind ι κ) : Prop :=
  ∀ t path, kind' t = .table path ↔ kind t = .table path

namespace Forest

theorem baseTop (forest : Forest shape slots kind base roots) : kind base = .table [] :=
  (forest.tops base).mpr (Or.inl rfl)

theorem rootTop (forest : Forest shape slots kind base roots) (r : ρ) (member : r ∈ roots) :
    kind r = .table [] := (forest.tops r).mpr (Or.inr member)

/-- A path leads to the table of that path. -/
theorem reach_kind (forest : Forest shape slots kind base roots) (path : List ι) {t l : ρ}
    {before : List ι} (isTable : kind t = .table before)
    (short : before.length + path.length ≤ shape.depth) (reached : slots.reach t path = some l) :
    kind l = .table (before ++ path) := by
  induction path generalizing t before with
  | nil =>
    cases reached
    rw [isTable, List.append_nil]
  | cons i rest inductionHypothesis =>
    rw [List.length_cons] at short
    obtain ⟨child, linked, onward⟩ := Option.bind_eq_some_iff.mp reached
    have childTable := forest.links t before i child isTable (by omega) linked
    have shorter : (before ++ [i]).length + rest.length ≤ shape.depth := by
      rw [List.length_append, List.length_singleton]
      omega
    have found := inductionHypothesis childTable shorter onward
    rwa [List.append_assoc] at found

/-- Two tables of one place lead to a common table only through a shared slot. -/
theorem reach_unique (forest : Forest shape slots kind base roots) (path : List ι) {t t' l : ρ}
    {before : List ι} (isTable : kind t = .table before) (isTable' : kind t' = .table before)
    (short : before.length + path.length ≤ shape.depth) (reached : slots.reach t path = some l)
    (reached' : slots.reach t' path = some l) :
    t = t' ∨ before = [] ∧ ∃ i rest, path = i :: rest ∧ slots.link base i ≠ none := by
  induction path generalizing t t' before with
  | nil =>
    cases reached
    cases reached'
    exact Or.inl rfl
  | cons i rest inductionHypothesis =>
    rw [List.length_cons] at short
    obtain ⟨child, linked, onward⟩ := Option.bind_eq_some_iff.mp reached
    obtain ⟨child', linked', onward'⟩ := Option.bind_eq_some_iff.mp reached'
    have childTable := forest.links t before i child isTable (by omega) linked
    have childTable' := forest.links t' before i child' isTable' (by omega) linked'
    have shorter : (before ++ [i]).length + rest.length ≤ shape.depth := by
      rw [List.length_append, List.length_singleton]
      omega
    rcases inductionHypothesis childTable childTable' shorter onward onward' with
      rfl | ⟨empty, -⟩
    · rcases forest.onlyLink t t' before i child isTable isTable' (by omega) linked linked' with
        same | ⟨empty, isShared⟩
      · exact Or.inl same
      · exact Or.inr ⟨empty, i, rest, rfl, isShared⟩
    · exact absurd empty (List.append_ne_nil_of_right_ne_nil before (List.cons_ne_nil i []))

/-- Pages that are no tables and no frames may change their use. -/
theorem congr (forest : Forest shape slots kind base roots) (same : slots.Same slots' kind)
    (tables : SameTables kind kind') (frames : ∀ p, kind p = .frame → kind' p = .frame) :
    Forest shape slots' kind' base roots := by
  refine ⟨fun r => (tables r []).trans (forest.tops r),
    fun t path isTable => forest.bounded t path ((tables t path).mp isTable), ?_, ?_, ?_, ?_, ?_⟩
  · intro t path i child isTable short linked
    have before := (tables t path).mp isTable
    rw [(same t path i before).1] at linked
    exact (tables _ _).mpr (forest.links t path i child before short linked)
  · intro t path i e isTable full isLeaf isGuarded
    have before := (tables t path).mp isTable
    rw [(same t path i before).2] at isLeaf
    exact (forest.leaves t path i e before full isLeaf isGuarded).imp_right (frames _)
  · intro r member i child linked
    rw [(same base [] i forest.baseTop).1] at linked
    rw [(same r [] i (forest.rootTop r member)).1]
    exact forest.shared r member i child linked
  · intro t t' path i child isTable isTable' short linked linked'
    have before := (tables t path).mp isTable
    have before' := (tables t' path).mp isTable'
    rw [(same t path i before).1] at linked
    rw [(same t' path i before').1] at linked'
    rw [(same base [] i forest.baseTop).1]
    exact forest.onlyLink t t' path i child before before' short linked linked'
  · intro t t' path path' i i' e e' isTable isTable' full full' isLeaf isLeaf'
    have before := (tables t path).mp isTable
    have before' := (tables t' path').mp isTable'
    rw [(same t path i before).2] at isLeaf
    rw [(same t' path' i' before').2] at isLeaf'
    exact forest.onlyLeaf t t' path path' i i' e e' before before' full full' isLeaf isLeaf'

/-- The same contents of the tables lead to the same tables. -/
theorem reach_congr (forest : Forest shape slots kind base roots) (same : slots.Same slots' kind)
    (path : List ι) {t : ρ} {before : List ι} (isTable : kind t = .table before)
    (short : before.length + path.length ≤ shape.depth) :
    slots'.reach t path = slots.reach t path := by
  induction path generalizing t before with
  | nil => rfl
  | cons i rest inductionHypothesis =>
    rw [List.length_cons] at short
    rw [Slots.reach, Slots.reach, (same t before i isTable).1]
    cases linked : slots.link t i with
    | none => rfl
    | some child =>
      apply inductionHypothesis (forest.links t before i child isTable (by omega) linked)
      rw [List.length_append, List.length_singleton]
      omega

/-- The same contents of the tables give the same lookups. -/
theorem lookup_congr (forest : Forest shape slots kind base roots) (same : slots.Same slots' kind)
    (path : List ι) (k : ι) {t : ρ} {before : List ι} (isTable : kind t = .table before)
    (full : before.length + path.length = shape.depth) :
    slots'.lookup t path k = slots.lookup t path k := by
  rw [Slots.lookup, Slots.lookup, forest.reach_congr same path isTable (by omega)]
  cases reached : slots.reach t path with
  | none => rfl
  | some l => exact (same l _ k (forest.reach_kind path isTable (by omega) reached)).2

section attach

variable {t child : ρ} {path : List ι} {i : ι}

/-- A new empty table is hung into a free slot. -/
structure Attached (slots slots' : Slots ρ ι ε) (kind kind' : ρ → Kind ι κ) (t child : ρ)
    (path : List ι) (i : ι) : Prop where
  isTable : kind t = .table path
  vacant : slots.link t i = none
  isOther : ∃ use, kind child = .other use
  sameBut : slots.SameBut slots' kind t i
  linked : slots'.link t i = some child
  empty : ∀ j, slots'.link child j = none ∧ slots'.leaf child j = none
  tables : ∀ p more, kind' p = .table more ↔ kind p = .table more ∨ p = child ∧ more = path ++ [i]
  frames : ∀ p, kind p = .frame → kind' p = .frame

/-- The slots that lead somewhere afterwards. -/
theorem Attached.links (attached : Attached slots slots' kind kind' t child path i) {p next : ρ}
    {more : List ι} {j : ι} (isTable : kind' p = .table more)
    (leads : slots'.link p j = some next) :
    (kind p = .table more ∧ slots.link p j = some next) ∨
      (p = t ∧ j = i ∧ more = path ∧ next = child) := by
  rcases (attached.tables p more).mp isTable with was | ⟨rfl, -⟩
  · by_cases atSlot : p = t ∧ j = i
    · obtain ⟨rfl, rfl⟩ := atSlot
      have samePath := was.symm.trans attached.isTable
      have isChild := leads.symm.trans attached.linked
      exact Or.inr ⟨rfl, rfl, Kind.table.inj samePath, Option.some.inj isChild⟩
    · rw [(attached.sameBut p more j was atSlot).1] at leads
      exact Or.inl ⟨was, leads⟩
  · rw [(attached.empty j).1] at leads
    cases leads

/-- The leaves stay. -/
theorem Attached.leaves (attached : Attached slots slots' kind kind' t child path i)
    (short : path.length < shape.depth) {p : ρ} {more : List ι} {j : ι} {e : ε}
    (isTable : kind' p = .table more) (full : more.length = shape.depth)
    (isLeaf : slots'.leaf p j = some e) : kind p = .table more ∧ slots.leaf p j = some e := by
  rcases (attached.tables p more).mp isTable with was | ⟨rfl, -⟩
  · have notSlot : ¬ (p = t ∧ j = i) := by
      rintro ⟨rfl, rfl⟩
      have samePath := Kind.table.inj (was.symm.trans attached.isTable)
      rw [samePath] at full
      omega
    rw [(attached.sameBut p more j was notSlot).2] at isLeaf
    exact ⟨was, isLeaf⟩
  · rw [(attached.empty j).2] at isLeaf
    cases isLeaf

/-- A node that is attached at an empty entry leaves a forest. -/
theorem attach (forest : Forest shape slots kind base roots)
    (attached : Attached slots slots' kind kind' t child path i) (short : path.length < shape.depth)
    (unbased : t = base → roots = []) : Forest shape slots' kind' base roots := by
  have fresh : ∀ p more, kind p = .table more → p ≠ child := by
    rintro p more isTable rfl
    obtain ⟨use, isOther⟩ := attached.isOther
    rw [isOther] at isTable
    cases isTable
  have notOld : ∀ p more j, kind p = .table more → more.length < shape.depth →
      slots.link p j ≠ some child := by
    intro p more j isTable isShort leads
    exact fresh child _ (forest.links p more j child isTable isShort leads) rfl
  have baseSlot : ∀ j, slots.link base j ≠ none → slots'.link base j ≠ none := by
    intro j isUsed
    by_cases atSlot : base = t ∧ j = i
    · obtain ⟨rfl, rfl⟩ := atSlot
      exact absurd attached.vacant isUsed
    · rwa [(attached.sameBut base [] j forest.baseTop atSlot).1]
  refine ⟨?_, ?_, ?_, ?_, ?_, ?_, ?_⟩
  · intro r
    rw [attached.tables, ← forest.tops]
    constructor
    · rintro (was | ⟨-, isEmpty⟩)
      · exact was
      · exact absurd isEmpty.symm (List.append_ne_nil_of_right_ne_nil path (List.cons_ne_nil i []))
    · exact Or.inl
  · intro p more isTable
    rcases (attached.tables p more).mp isTable with was | ⟨-, rfl⟩
    · exact forest.bounded p more was
    · rw [List.length_append, List.length_singleton]
      omega
  · intro p more j next isTable isShort leads
    rcases attached.links isTable leads with ⟨was, led⟩ | ⟨rfl, rfl, rfl, rfl⟩
    · exact (attached.tables _ _).mpr (Or.inl (forest.links p more j next was isShort led))
    · exact (attached.tables _ _).mpr (Or.inr ⟨rfl, rfl⟩)
  · intro p more j e isTable full isLeaf isGuarded
    obtain ⟨was, wasLeaf⟩ := attached.leaves short isTable full isLeaf
    exact (forest.leaves p more j e was full wasLeaf isGuarded).imp_right (attached.frames _)
  · intro r member j next leads
    have notBase : base ≠ t := by
      rintro rfl
      rw [unbased rfl] at member
      exact absurd member List.not_mem_nil
    rw [(attached.sameBut base [] j forest.baseTop fun both => notBase both.1).1] at leads
    have isShared := forest.shared r member j next leads
    have notSlot : ¬ (r = t ∧ j = i) := by
      rintro ⟨rfl, rfl⟩
      rw [attached.vacant] at isShared
      cases isShared
    rwa [(attached.sameBut r [] j (forest.rootTop r member) notSlot).1]
  · intro p p' more j next isTable isTable' isShort leads leads'
    rcases attached.links isTable leads with ⟨was, led⟩ | ⟨rfl, rfl, rfl, rfl⟩
    · rcases attached.links isTable' leads' with ⟨was', led'⟩ | ⟨-, -, -, rfl⟩
      · apply (forest.onlyLink p p' more j next was was' isShort led led').imp_right
        rintro ⟨isEmpty, isShared⟩
        exact ⟨isEmpty, baseSlot j isShared⟩
      · exact absurd led (notOld p more j was isShort)
    · rcases attached.links isTable' leads' with ⟨was', led'⟩ | ⟨isT, -⟩
      · exact absurd led' (notOld p' _ _ was' isShort)
      · exact Or.inl isT.symm
  · intro p p' more more' j j' e e' isTable isTable' full full' isLeaf isLeaf'
    obtain ⟨was, wasLeaf⟩ := attached.leaves short isTable full isLeaf
    obtain ⟨was', wasLeaf'⟩ := attached.leaves short isTable' full' isLeaf'
    exact forest.onlyLeaf p p' more more' j j' e e' was was' full full' wasLeaf wasLeaf'

/-- Tables reached before stay reached. -/
theorem Attached.reach (attached : Attached slots slots' kind kind' t child path i)
    (forest : Forest shape slots kind base roots) (rest : List ι) {p l : ρ} {before : List ι}
    (isTable : kind p = .table before) (short : before.length + rest.length ≤ shape.depth)
    (reached : slots.reach p rest = some l) : slots'.reach p rest = some l := by
  induction rest generalizing p before with
  | nil => exact reached
  | cons j rest inductionHypothesis =>
    rw [List.length_cons] at short
    obtain ⟨next, leads, onward⟩ := Option.bind_eq_some_iff.mp reached
    have notSlot : ¬ (p = t ∧ j = i) := by
      rintro ⟨rfl, rfl⟩
      rw [attached.vacant] at leads
      cases leads
    have nextTable := forest.links p before j next isTable (by omega) leads
    have shorter : (before ++ [j]).length + rest.length ≤ shape.depth := by
      rw [List.length_append, List.length_singleton]
      omega
    rw [Slots.reach, (attached.sameBut p before j isTable notSlot).1, leads]
    exact inductionHypothesis nextTable shorter onward

/-- An empty table changes no lookup. -/
theorem Attached.lookup (attached : Attached slots slots' kind kind' t child path i)
    (forest : Forest shape slots kind base roots) (short : path.length < shape.depth)
    (rest : List ι) (k : ι) {p : ρ} {before : List ι} (isTable : kind p = .table before)
    (full : before.length + rest.length = shape.depth) :
    slots'.lookup p rest k = slots.lookup p rest k := by
  induction rest generalizing p before with
  | nil =>
    have notSlot : ¬ (p = t ∧ k = i) := by
      rintro ⟨rfl, rfl⟩
      have samePath := Kind.table.inj (isTable.symm.trans attached.isTable)
      rw [samePath, List.length_nil] at full
      omega
    exact (attached.sameBut p before k isTable notSlot).2
  | cons j rest inductionHypothesis =>
    rw [List.length_cons] at full
    by_cases atSlot : p = t ∧ j = i
    · obtain ⟨rfl, rfl⟩ := atSlot
      have nothing : slots'.lookup child rest k = none := by
        cases rest with
        | nil => exact (attached.empty k).2
        | cons j rest => rw [Slots.lookup, Slots.reach, (attached.empty j).1]; rfl
      rw [Slots.lookup, Slots.lookup, Slots.reach, Slots.reach, attached.linked, attached.vacant]
      exact nothing
    · rw [Slots.lookup, Slots.lookup, Slots.reach, Slots.reach,
        (attached.sameBut p before j isTable atSlot).1]
      cases leads : slots.link p j with
      | none => rfl
      | some next =>
        apply inductionHypothesis (forest.links p before j next isTable (by omega) leads)
        rw [List.length_append, List.length_singleton]
        omega

end attach

section leaf

variable {t : ρ} {path : List ι} {i : ι}

/-- When only the leaf of one slot changes, paths lead to the same tables. -/
theorem reach_sameBut (forest : Forest shape slots kind base roots) (isTable : kind t = .table path)
    (full : path.length = shape.depth) (sameBut : slots.SameBut slots' kind t i) (rest : List ι)
    {p : ρ} {before : List ι} (start : kind p = .table before)
    (short : before.length + rest.length ≤ shape.depth) :
    slots'.reach p rest = slots.reach p rest := by
  induction rest generalizing p before with
  | nil => rfl
  | cons j rest inductionHypothesis =>
    rw [List.length_cons] at short
    have notSlot : ¬ (p = t ∧ j = i) := by
      rintro ⟨rfl, rfl⟩
      have samePath := Kind.table.inj (start.symm.trans isTable)
      rw [samePath] at short
      omega
    rw [Slots.reach, Slots.reach, (sameBut p before j start notSlot).1]
    cases leads : slots.link p j with
    | none => rfl
    | some next =>
      apply inductionHypothesis (forest.links p before j next start (by omega) leads)
      rw [List.length_append, List.length_singleton]
      omega

/-- When only the leaf of one slot changes, the lookups through that slot change. -/
theorem lookup_leaf [DecidableEq ρ] [DecidableEq ι] (forest : Forest shape slots kind base roots)
    (isTable : kind t = .table path) (full : path.length = shape.depth)
    (sameBut : slots.SameBut slots' kind t i) (rest : List ι) (k : ι) {p : ρ} {before : List ι}
    (start : kind p = .table before) (total : before.length + rest.length = shape.depth) :
    slots'.reach p rest = slots.reach p rest ∧ slots'.lookup p rest k =
      if slots.reach p rest = some t ∧ k = i then slots'.leaf t i else slots.lookup p rest k := by
  have sameReach := forest.reach_sameBut isTable full sameBut rest start (Nat.le_of_eq total)
  refine ⟨sameReach, ?_⟩
  rw [Slots.lookup, sameReach]
  split
  · rename_i here
    obtain ⟨reached, rfl⟩ := here
    rw [reached]
    rfl
  · rename_i elsewhere
    rw [Slots.lookup]
    cases reached : slots.reach p rest with
    | none => rfl
    | some l =>
      have isTable' := forest.reach_kind rest start (by omega) reached
      refine (sameBut l _ k isTable' ?_).2
      rintro ⟨rfl, rfl⟩
      exact elsewhere ⟨reached, rfl⟩

/-- What a root shows after the leaf of one slot behind it changed. -/
theorem lookup_through [DecidableEq ρ] [DecidableEq ι] (forest : Forest shape slots kind base roots)
    {root : ρ} (isTop : kind root = .table []) (full : path.length = shape.depth)
    (reached : slots.reach root path = some t) (sameBut : slots.SameBut slots' kind t i)
    (path' : List ι) (k : ι) (full' : path'.length = shape.depth) :
    slots'.lookup root path' k =
      if path' = path ∧ k = i then slots'.leaf t i else slots.lookup root path' k := by
  have isTable := forest.reach_kind path isTop (by simp [full]) reached
  rw [(forest.lookup_leaf isTable (by simpa using full) sameBut path' k isTop (by simpa using full')).2]
  refine if_congr ?_ rfl rfl
  constructor
  · rintro ⟨reached', rfl⟩
    have also := forest.reach_kind path' isTop (by simp [full']) reached'
    rw [isTable] at also
    exact ⟨by simpa using also.symm, rfl⟩
  · rintro ⟨rfl, rfl⟩
    exact ⟨reached, rfl⟩

/-- Other roots show the change only in a shared slot, and at the same place. -/
theorem lookup_elsewhere [DecidableEq ρ] [DecidableEq ι]
    (forest : Forest shape slots kind base roots)
    {root : ρ} (isTop : kind root = .table []) (full : path.length = shape.depth)
    (reached : slots.reach root path = some t) (sameBut : slots.SameBut slots' kind t i) {r : ρ}
    (isTop' : kind r = .table []) (path' : List ι) (k : ι) (full' : path'.length = shape.depth) :
    slots'.lookup r path' k = slots.lookup r path' k ∨
      (slots.lookup r path' k = slots.leaf t i ∧ (path' = path ∧ k = i) ∧
        (r = root ∨ ∃ j rest, path' = j :: rest ∧ slots.link base j ≠ none)) := by
  have isTable := forest.reach_kind path isTop (by simp [full]) reached
  rw [(forest.lookup_leaf isTable (by simpa using full) sameBut path' k isTop'
    (by simpa using full')).2]
  by_cases here : slots.reach r path' = some t ∧ k = i
  · obtain ⟨reached', rfl⟩ := here
    have also := forest.reach_kind path' isTop' (by simp [full']) reached'
    rw [isTable] at also
    obtain rfl : path' = path := by simpa using also.symm
    refine Or.inr ⟨?_, ⟨rfl, rfl⟩, ?_⟩
    · rw [Slots.lookup, reached']
      rfl
    · rcases forest.reach_unique path' isTop' isTop (by simp [full']) reached' reached with
        same | ⟨-, j, rest, isPath, isShared⟩
      · exact Or.inl same
      · exact Or.inr ⟨j, rest, isPath, isShared⟩
  · rw [if_neg here]
    exact Or.inl rfl

/-- Setting the leaf of a free slot, to a fixed target or to a page that becomes a frame. -/
theorem setLeaf (forest : Forest shape slots kind base roots) (isTable : kind t = .table path)
    (full : path.length = shape.depth) (sameBut : slots.SameBut slots' kind t i) {e : ε}
    (set : slots'.leaf t i = some e) (tables : SameTables kind kind')
    (frames : ∀ p, kind p = .frame → kind' p = .frame)
    (allowed : shape.guarded path i → shape.fixed (shape.target e) ∨
      (kind (shape.target e) ≠ .frame ∧ kind' (shape.target e) = .frame)) :
    Forest shape slots' kind' base roots := by
  have link : ∀ p more j, kind p = .table more → more.length < shape.depth →
      slots'.link p j = slots.link p j := by
    intro p more j isTable' short
    refine (sameBut p more j isTable' ?_).1
    rintro ⟨rfl, rfl⟩
    have samePath := Kind.table.inj (isTable'.symm.trans isTable)
    rw [samePath] at short
    omega
  have leaf : ∀ p more j e', kind p = .table more → slots'.leaf p j = some e' →
      (slots.leaf p j = some e' ∨ (p = t ∧ j = i ∧ more = path ∧ e' = e)) := by
    intro p more j e' isTable' isLeaf
    by_cases atSlot : p = t ∧ j = i
    · obtain ⟨rfl, rfl⟩ := atSlot
      exact Or.inr ⟨rfl, rfl, Kind.table.inj (isTable'.symm.trans isTable),
        Option.some.inj (isLeaf.symm.trans set)⟩
    · rw [(sameBut p more j isTable' atSlot).2] at isLeaf
      exact Or.inl isLeaf
  -- An old guarded leaf with the new leaf's target would make the target a frame before.
  have newTarget : ∀ p more j e', kind p = .table more → more.length = shape.depth →
      slots.leaf p j = some e' → shape.guarded more j → shape.guarded path i →
      ¬ shape.fixed (shape.target e) → shape.target e' ≠ shape.target e := by
    intro p more j e' isTable' full' isLeaf isGuarded newGuarded notFixed same
    rcases allowed newGuarded with isFixed | ⟨notFrame, -⟩
    · exact notFixed isFixed
    · rcases forest.leaves p more j e' isTable' full' isLeaf isGuarded with isFixed | isFrame
      · exact notFixed (same ▸ isFixed)
      · exact notFrame (same ▸ isFrame)
  refine ⟨fun r => (tables r []).trans (forest.tops r),
    fun p more isNow => forest.bounded p more ((tables p more).mp isNow), ?_, ?_, ?_, ?_, ?_⟩
  · intro p more j next isNow short leads
    have was := (tables p more).mp isNow
    rw [link p more j was short] at leads
    exact (tables _ _).mpr (forest.links p more j next was short leads)
  · intro p more j e' isNow full' isLeaf isGuarded
    have was := (tables p more).mp isNow
    rcases leaf p more j e' was isLeaf with isOld | ⟨rfl, rfl, rfl, rfl⟩
    · exact (forest.leaves p more j e' was full' isOld isGuarded).imp_right (frames _)
    · exact (allowed isGuarded).imp_right And.right
  · intro r member j next leads
    rw [link base [] j forest.baseTop shape.positive] at leads
    rw [link r [] j (forest.rootTop r member) shape.positive]
    exact forest.shared r member j next leads
  · intro p p' more j next isNow isNow' short leads leads'
    have was := (tables p more).mp isNow
    have was' := (tables p' more).mp isNow'
    rw [link p more j was short] at leads
    rw [link p' more j was' short] at leads'
    rw [link base [] j forest.baseTop shape.positive]
    exact forest.onlyLink p p' more j next was was' short leads leads'
  · intro p p' more more' j j' e₁ e₂ isNow isNow' full₁ full₂ isLeaf isLeaf' guarded₁ guarded₂
      notFixed same
    have was := (tables p more).mp isNow
    have was' := (tables p' more').mp isNow'
    rcases leaf p more j e₁ was isLeaf with isOld | ⟨rfl, rfl, rfl, rfl⟩
    · rcases leaf p' more' j' e₂ was' isLeaf' with isOld' | ⟨rfl, rfl, rfl, rfl⟩
      · exact forest.onlyLeaf p p' more more' j j' e₁ e₂ was was' full₁ full₂ isOld isOld' guarded₁
          guarded₂ notFixed same
      · exact absurd same (newTarget p more j e₁ was full₁ isOld guarded₁ guarded₂ (same ▸ notFixed))
    · rcases leaf p' more' j' e₂ was' isLeaf' with isOld' | ⟨isT, isI, -, -⟩
      · exact absurd same.symm (newTarget p' more' j' e₂ was' full₂ isOld' guarded₂ guarded₁ notFixed)
      · exact ⟨isT.symm, isI.symm⟩

/-- Clearing a leaf. Its frame may get another use. -/
theorem clearLeaf (forest : Forest shape slots kind base roots) (isTable : kind t = .table path)
    (full : path.length = shape.depth) (sameBut : slots.SameBut slots' kind t i) {e : ε}
    (wasSet : slots.leaf t i = some e) (cleared : slots'.leaf t i = none)
    (tables : SameTables kind kind')
    (frames : ∀ p, kind p = .frame → kind' p = .frame ∨
      (p = shape.target e ∧ shape.guarded path i ∧ ¬ shape.fixed p)) :
    Forest shape slots' kind' base roots := by
  have link : ∀ p more j, kind p = .table more → more.length < shape.depth →
      slots'.link p j = slots.link p j := by
    intro p more j isTable' short
    refine (sameBut p more j isTable' ?_).1
    rintro ⟨rfl, rfl⟩
    have samePath := Kind.table.inj (isTable'.symm.trans isTable)
    rw [samePath] at short
    omega
  have leaf : ∀ p more j e', kind p = .table more → slots'.leaf p j = some e' →
      slots.leaf p j = some e' ∧ ¬ (p = t ∧ j = i) := by
    intro p more j e' isTable' isLeaf
    by_cases atSlot : p = t ∧ j = i
    · obtain ⟨rfl, rfl⟩ := atSlot
      rw [cleared] at isLeaf
      cases isLeaf
    · rw [(sameBut p more j isTable' atSlot).2] at isLeaf
      exact ⟨isLeaf, atSlot⟩
  refine ⟨fun r => (tables r []).trans (forest.tops r),
    fun p more isNow => forest.bounded p more ((tables p more).mp isNow), ?_, ?_, ?_, ?_, ?_⟩
  · intro p more j next isNow short leads
    have was := (tables p more).mp isNow
    rw [link p more j was short] at leads
    exact (tables _ _).mpr (forest.links p more j next was short leads)
  · intro p more j e' isNow full' isLeaf isGuarded
    have was := (tables p more).mp isNow
    obtain ⟨isOld, notSlot⟩ := leaf p more j e' was isLeaf
    rcases forest.leaves p more j e' was full' isOld isGuarded with isFixed | isFrame
    · exact Or.inl isFixed
    · rcases frames _ isFrame with isStill | ⟨same, newGuarded, notFixed⟩
      · exact Or.inr isStill
      · exact absurd (forest.onlyLeaf p t more path j i e' e was isTable full' full isOld wasSet
          isGuarded newGuarded notFixed same) notSlot
  · intro r member j next leads
    rw [link base [] j forest.baseTop shape.positive] at leads
    rw [link r [] j (forest.rootTop r member) shape.positive]
    exact forest.shared r member j next leads
  · intro p p' more j next isNow isNow' short leads leads'
    have was := (tables p more).mp isNow
    have was' := (tables p' more).mp isNow'
    rw [link p more j was short] at leads
    rw [link p' more j was' short] at leads'
    rw [link base [] j forest.baseTop shape.positive]
    exact forest.onlyLink p p' more j next was was' short leads leads'
  · intro p p' more more' j j' e₁ e₂ isNow isNow' full₁ full₂ isLeaf isLeaf'
    have was := (tables p more).mp isNow
    have was' := (tables p' more').mp isNow'
    exact forest.onlyLeaf p p' more more' j j' e₁ e₂ was was' full₁ full₂
      (leaf p more j e₁ was isLeaf).1 (leaf p' more' j' e₂ was' isLeaf').1

end leaf

/-- A page becomes a root with the slots of the base root. -/
theorem addRoot (forest : Forest shape slots kind base roots) {r : ρ}
    (isOther : ∃ use, kind r = .other use)
    (same : ∀ t path i, kind t = .table path →
      slots'.link t i = slots.link t i ∧ slots'.leaf t i = slots.leaf t i)
    (copied : ∀ i, slots'.link r i = slots.link base i)
    (tables : ∀ p more, kind' p = .table more ↔ kind p = .table more ∨ p = r ∧ more = [])
    (frames : ∀ p, kind p = .frame → kind' p = .frame) :
    Forest shape slots' kind' base (r :: roots) := by
  have positive := shape.positive
  have leaf : ∀ p more, kind' p = .table more → more.length = shape.depth →
      kind p = .table more := by
    intro p more isNow full
    rcases (tables p more).mp isNow with was | ⟨-, rfl⟩
    · exact was
    · rw [List.length_nil] at full
      omega
  have link : ∀ p more j, kind' p = .table more →
      (kind p = .table more ∧ slots'.link p j = slots.link p j) ∨
        (p = r ∧ more = [] ∧ slots'.link p j = slots.link base j) := by
    intro p more j isNow
    rcases (tables p more).mp isNow with was | ⟨rfl, rfl⟩
    · exact Or.inl ⟨was, (same p more j was).1⟩
    · exact Or.inr ⟨rfl, rfl, copied j⟩
  refine ⟨?_, ?_, ?_, ?_, ?_, ?_, ?_⟩
  · intro p
    rw [tables, forest.tops, List.mem_cons]
    simp only [and_true]
    tauto
  · intro p more isNow
    rcases (tables p more).mp isNow with was | ⟨-, rfl⟩
    · exact forest.bounded p more was
    · exact Nat.zero_le _
  · intro p more j next isNow short leads
    refine (tables _ _).mpr (Or.inl ?_)
    rcases link p more j isNow with ⟨was, sameLink⟩ | ⟨rfl, rfl, sameLink⟩
    · exact forest.links p more j next was short (sameLink ▸ leads)
    · exact forest.links base [] j next forest.baseTop positive (sameLink ▸ leads)
  · intro p more j e isNow full isLeaf isGuarded
    have was := leaf p more isNow full
    rw [(same p more j was).2] at isLeaf
    exact (forest.leaves p more j e was full isLeaf isGuarded).imp_right (frames _)
  · intro p member j next leads
    rw [(same base [] j forest.baseTop).1] at leads
    rcases List.mem_cons.mp member with rfl | member
    · rw [copied]
      exact leads
    · rw [(same p [] j (forest.rootTop p member)).1]
      exact forest.shared p member j next leads
  · intro p p' more j next isNow isNow' short leads leads'
    rw [(same base [] j forest.baseTop).1]
    rcases link p more j isNow with ⟨was, sameLink⟩ | ⟨rfl, rfl, sameLink⟩
    · rcases link p' more j isNow' with ⟨was', sameLink'⟩ | ⟨rfl, rfl, sameLink'⟩
      · exact forest.onlyLink p p' more j next was was' short (sameLink ▸ leads)
          (sameLink' ▸ leads')
      · refine Or.inr ⟨rfl, ?_⟩
        rw [← sameLink', leads']
        exact Option.some_ne_none _
    · refine Or.inr ⟨rfl, ?_⟩
      rw [← sameLink, leads]
      exact Option.some_ne_none _
  · intro p p' more more' j j' e₁ e₂ isNow isNow' full full' isLeaf isLeaf'
    have was := leaf p more isNow full
    have was' := leaf p' more' isNow' full'
    rw [(same p more j was).2] at isLeaf
    rw [(same p' more' j' was').2] at isLeaf'
    exact forest.onlyLeaf p p' more more' j j' e₁ e₂ was was' full full' isLeaf isLeaf'

end Forest

end RadixForest
