import CuteCore.Mm.Vm
import CuteCore.Mm.HeapRuns

/-!
# Releasing a tree of page tables

`freewalk` goes through the entries of a table in order, releases the table of each link
before it clears the link, and frees the table itself last. `kfree` writes into the
first word of a page, so what counts is that no table is used again after that. For this
the same program is written once more with a log of what it uses and what it frees.
-/

namespace CuteCore

open Hoare Bytes

variable {layout : Layout}

/-! ## The log -/

inductive WalkEvent where
  | used (page : Nat)
  | freed (page : Nat)

def WalkEvent.page : WalkEvent → Nat
  | .used page => page
  | .freed page => page

def WalkEvent.freedPage : WalkEvent → Option Nat
  | .used _ => none
  | .freed page => some page

/-- The later event is no use and no release of a page that the earlier one freed. -/
def WalkEvent.Orderly (first last : WalkEvent) : Prop := first.freedPage ≠ some last.page

abbrev LoggedProg (α : Type) := Prog (Kernel × List WalkEvent) Fault α

def logged {α : Type} (event : WalkEvent) (program : KernelProg α) : LoggedProg α := do
  let a ← onPart Prod.fst (fun s whole => (s, whole.2)) program
  modify fun whole => (whole.1, whole.2 ++ [event])
  return a

variable (layout) in
/-- `freeEntries` with a log. -/
def freeEntriesLogged (freeChild : Nat → LoggedProg Unit) (root : Nat) : Nat → Nat → LoggedProg Unit
  | 0, _ => return ()
  | passes + 1, i => do
    let pte ← logged (.used root) (loadField (root + 8 * i) 8)
    if pteValid pte ∧ ¬ pteLeaf pte then do
      freeChild (pte2pa pte)
      logged (.used root) (storeField (root + 8 * i) 8 0)
      freeEntriesLogged freeChild root passes (i + 1)
    else if pteValid pte then throw (.panic "freewalk: leaf")
    else freeEntriesLogged freeChild root passes (i + 1)

variable (layout) in
/-- `freewalk` with a log. -/
def freewalkLogged : Nat → Nat → LoggedProg Unit
  | 0, _ => throw .outOfFuel
  | depth + 1, root => do
    freeEntriesLogged (freewalkLogged depth) root 512 0
    logged (.freed root) (kfree layout root)

theorem wp_logged {α : Type} {event : WalkEvent} {program : KernelProg α}
    {post : α → Kernel × List WalkEvent → Prop} {s : Kernel} {log : List WalkEvent} :
    wp (logged event program) post (s, log) ↔
      wp program (fun a after => post a (after, log ++ [event])) s := by
  rw [logged, wp_bind, wp_onPart]
  simp only [wp_bind, wp_modify, wp_pure]

/-- Without the log the program is the other one. -/
def Erases {α : Type} (loggedProgram : LoggedProg α) (program : KernelProg α) : Prop :=
  ∀ s log, (loggedProgram (s, log)).map (fun result => (result.1, result.2.1)) = program s

theorem Erases.pure {α : Type} (a : α) : Erases (pure a) (pure a) := fun _ _ => rfl

theorem Erases.throw {α : Type} (fault : Fault) :
    Erases (throw fault : LoggedProg α) (throw fault) := fun _ _ => rfl

theorem Erases.logged {α : Type} (event : WalkEvent) (program : KernelProg α) :
    Erases (logged event program) program := by
  intro s log
  simp only [CuteCore.logged, bind, StateT.bind, onPart]
  cases program s with
  | error fault => rfl
  | ok result => rfl

theorem Erases.bind {α β : Type} {loggedProgram : LoggedProg α} {program : KernelProg α}
    {loggedRest : α → LoggedProg β} {rest : α → KernelProg β} (first : Erases loggedProgram program)
    (second : ∀ a, Erases (loggedRest a) (rest a)) :
    Erases (loggedProgram >>= loggedRest) (program >>= rest) := by
  intro s log
  simp only [Bind.bind, StateT.bind]
  rw [← first s log]
  cases loggedProgram (s, log) with
  | error fault => rfl
  | ok result => exact second result.1 result.2.1 result.2.2

theorem Erases.ite {α : Type} {c : Prop} [Decidable c] {loggedYes loggedNo : LoggedProg α}
    {yes no : KernelProg α} (isYes : Erases loggedYes yes) (isNo : Erases loggedNo no) :
    Erases (if c then loggedYes else loggedNo) (if c then yes else no) := by
  split
  · exact isYes
  · exact isNo

theorem Erases.returns {α : Type} {loggedProgram : LoggedProg α} {program : KernelProg α}
    (erases : Erases loggedProgram program) {s : Kernel} {log : List WalkEvent} {a : α}
    {after : Kernel × List WalkEvent} (returned : Returns loggedProgram (s, log) a after) :
    Returns program s a after.1 := by
  have same := erases s log
  rw [show loggedProgram (s, log) = .ok (a, after) from returned] at same
  exact same.symm

theorem Erases.stops {α : Type} {loggedProgram : LoggedProg α} {program : KernelProg α}
    (erases : Erases loggedProgram program) {s : Kernel} {log : List WalkEvent} {fault : Fault}
    (stopped : loggedProgram (s, log) = .error fault) : program s = .error fault := by
  rw [← erases s log, stopped]
  rfl

theorem freeEntries_erases {freeChildLogged : Nat → LoggedProg Unit}
    {freeChild : Nat → KernelProg Unit}
    (child : ∀ t, Erases (freeChildLogged t) (freeChild t)) (root passes i : Nat) :
    Erases (freeEntriesLogged freeChildLogged root passes i) (freeEntries freeChild root passes i) := by
  induction passes generalizing i with
  | zero => exact .pure ()
  | succ passes inductionHypothesis =>
    refine .bind (.logged _ _) fun pte => .ite ?_ (.ite (.throw _) (inductionHypothesis _))
    exact .bind (child _) fun _ => .bind (.logged _ _) fun _ => inductionHypothesis _

theorem freewalk_erases (depth root : Nat) :
    Erases (freewalkLogged layout depth root) (freewalk layout depth root) := by
  induction depth generalizing root with
  | zero => exact .throw _
  | succ depth inductionHypothesis =>
    exact .bind (freeEntries_erases inductionHypothesis root 512 0) fun _ => .logged _ _

/-! ## The tree -/

def pteAt (mem : ByteMap) (t i : Nat) : Nat := load mem (t + 8 * i) 8

def IsLink (pte : Nat) : Prop := pteValid pte ∧ ¬ pteLeaf pte
def IsLeaf (pte : Nat) : Prop := pteValid pte ∧ pteLeaf pte

instance (pte : Nat) : Decidable (IsLink pte) := inferInstanceAs (Decidable (_ ∧ _))
instance (pte : Nat) : Decidable (IsLeaf pte) := inferInstanceAs (Decidable (_ ∧ _))

/-- The tables behind the links of a table, from entry `i` on. -/
def childPages (mem : ByteMap) (sub : Nat → List Nat) (t : Nat) : Nat → Nat → List Nat
  | 0, _ => []
  | passes + 1, i =>
    (if IsLink (pteAt mem t i) then sub (pte2pa (pteAt mem t i)) else []) ++
      childPages mem sub t passes (i + 1)

/-- The tables of a tree, children first. -/
def treePages (mem : ByteMap) : Nat → Nat → List Nat
  | 0, _ => []
  | levels + 1, t => childPages mem (treePages mem levels) t 512 0 ++ [t]

/-- The tree has no more levels than this. -/
def AtMost (mem : ByteMap) : Nat → Nat → Prop
  | 0, _ => False
  | levels + 1, t => ∀ i < 512, IsLink (pteAt mem t i) → AtMost mem levels (pte2pa (pteAt mem t i))

/-- A tree whose tables are pages that nothing else refers to, next to the free list. -/
structure TableTree (layout : Layout) (s : Kernel) (free : List Nat) (levels root : Nat) : Prop where
  bounded : AtMost s.mem levels root
  pages : ∀ t ∈ treePages s.mem levels root, layout.IsPage t
  once : (treePages s.mem levels root).Nodup
  notFree : ∀ t ∈ treePages s.mem levels root, t ∉ free
  freeList : FreeList layout s free

/-- Some entry of one of these tables is a leaf. -/
def SomeLeaf (mem : ByteMap) (tables : List Nat) : Prop :=
  ∃ t ∈ tables, ∃ i < 512, IsLeaf (pteAt mem t i)

theorem childPages_link {mem : ByteMap} {sub : Nat → List Nat} {t passes i : Nat}
    (link : IsLink (pteAt mem t i)) : childPages mem sub t (passes + 1) i =
      sub (pte2pa (pteAt mem t i)) ++ childPages mem sub t passes (i + 1) := by
  rw [childPages, if_pos link]

/-- The pages below the entries of a range are those of the trees that its links lead to. -/
theorem mem_childPages {mem : ByteMap} {sub : Nat → List Nat} {t passes i page : Nat} :
    page ∈ childPages mem sub t passes i ↔ ∃ j, i ≤ j ∧ j < i + passes ∧ IsLink (pteAt mem t j) ∧
      page ∈ sub (pte2pa (pteAt mem t j)) := by
  induction passes generalizing i with
  | zero =>
    rw [childPages]
    constructor
    · intro member
      cases member
    · rintro ⟨j, low, high, -⟩
      omega
  | succ passes inductionHypothesis =>
    rw [childPages, List.mem_append, inductionHypothesis]
    constructor
    · rintro (here | ⟨j, low, high, link, member⟩)
      · split at here
        · exact ⟨i, Nat.le_refl i, by omega, ‹_›, here⟩
        · cases here
      · exact ⟨j, by omega, by omega, link, member⟩
    · rintro ⟨j, low, high, link, member⟩
      by_cases first : j = i
      · subst first
        rw [if_pos link]
        exact Or.inl member
      · exact Or.inr ⟨j, by omega, by omega, link, member⟩

theorem pteAt_congr {mem after : ByteMap} {t i : Nat} (same : SameOn after mem t pgSize)
    (inside : i < 512) : pteAt after t i = pteAt mem t i := by
  refine load_congr (same.sub (Nat.le_add_right ..) ?_)
  simp only [pgSize]
  omega

/-- The pages below a range of entries depend on these entries and on the trees that they link. -/
theorem childPages_congr {mem after : ByteMap} {sub sub' : Nat → List Nat} {t passes i : Nat}
    (entries : ∀ j, i ≤ j → j < i + passes → pteAt after t j = pteAt mem t j)
    (children : ∀ j, i ≤ j → j < i + passes → IsLink (pteAt mem t j) →
      sub' (pte2pa (pteAt mem t j)) = sub (pte2pa (pteAt mem t j))) :
    childPages after sub' t passes i = childPages mem sub t passes i := by
  induction passes generalizing i with
  | zero => rfl
  | succ passes inductionHypothesis =>
    rw [childPages, childPages, entries i (Nat.le_refl i) (by omega),
      inductionHypothesis (fun j low high => entries j (by omega) (by omega))
        fun j low high => children j (by omega) (by omega)]
    split
    · rw [children i (Nat.le_refl i) (by omega) ‹_›]
    · rfl

/-- The tree depends on its own tables only. -/
theorem treePages_congr {mem after : ByteMap} {levels root : Nat}
    (same : ∀ t ∈ treePages mem levels root, SameOn after mem t pgSize) :
    treePages after levels root = treePages mem levels root ∧
      (AtMost mem levels root → AtMost after levels root) := by
  induction levels generalizing root with
  | zero => exact ⟨rfl, id⟩
  | succ levels inductionHypothesis =>
    have entries : ∀ j, j < 512 → pteAt after root j = pteAt mem root j := fun j inside =>
      pteAt_congr (same root (List.mem_append_right _ (List.mem_singleton_self root))) inside
    have children : ∀ j, j < 512 → IsLink (pteAt mem root j) →
        treePages after levels (pte2pa (pteAt mem root j)) =
          treePages mem levels (pte2pa (pteAt mem root j)) ∧
        (AtMost mem levels (pte2pa (pteAt mem root j)) →
          AtMost after levels (pte2pa (pteAt mem root j))) := by
      intro j inside link
      apply inductionHypothesis
      intro t member
      exact same t (List.mem_append_left _ (mem_childPages.mpr ⟨j, by omega, by omega, link, member⟩))
    constructor
    · rw [treePages, treePages, childPages_congr (fun j _ high => entries j (by omega))
        fun j _ high link => (children j (by omega) link).1]
    · intro bounded i inside link
      rw [entries i inside] at link ⊢
      exact (children i inside link).2 (bounded i inside link)

/-! ## What a part of the walk does -/

/-- Between these states the walk touched only `pages` and freed only `freed`, the free list
being `free` before. -/
structure Walked (layout : Layout) (free pages freed : List Nat)
    (before after : Kernel × List WalkEvent) : Prop where
  freeList : FreeList layout after.1 (freed.reverse ++ free)
  globals : SameGlobals before.1 after.1
  frame : ∀ page, page % pgSize = 0 → page ∉ pages → SameOn after.1.mem before.1.mem page pgSize
  events : ∃ new, after.2 = before.2 ++ new ∧ new.filterMap WalkEvent.freedPage = freed ∧
    (∀ event ∈ new, event.page ∈ pages) ∧ new.Pairwise WalkEvent.Orderly

/-- Two walks one after the other use and free the pages of both. -/
theorem Walked.trans {free pages freed pages' freed' : List Nat}
    {first mid last : Kernel × List WalkEvent} (earlier : Walked layout free pages freed first mid)
    (later : Walked layout (freed.reverse ++ free) pages' freed' mid last)
    (apart : ∀ page ∈ pages', page ∉ freed) :
    Walked layout free (pages ++ pages') (freed ++ freed') first last := by
  refine ⟨?_, ?_, ?_, ?_⟩
  · rw [List.reverse_append, List.append_assoc]
    exact later.freeList
  · have before := earlier.globals
    have after := later.globals
    unfold SameGlobals at before after ⊢
    rw [after, before]
  · intro page aligned outside
    rw [List.mem_append, not_or] at outside
    exact (later.frame page aligned outside.2).trans (earlier.frame page aligned outside.1)
  · obtain ⟨new, extended, freedNew, inPages, ordered⟩ := earlier.events
    obtain ⟨new', extended', freedNew', inPages', ordered'⟩ := later.events
    refine ⟨new ++ new', ?_, ?_, ?_, ?_⟩
    · rw [extended', extended, List.append_assoc]
    · rw [List.filterMap_append, freedNew, freedNew']
    · intro event member
      rw [List.mem_append] at member ⊢
      exact member.imp (inPages event) (inPages' event)
    · refine List.pairwise_append.mpr ⟨ordered, ordered', ?_⟩
      intro event member event' member' same
      refine apart event'.page (inPages' event' member') ?_
      rw [← freedNew]
      exact List.mem_filterMap.mpr ⟨event, member, same⟩

theorem Walked.widen {free pages freed pages' : List Nat} {before after : Kernel × List WalkEvent}
    (walked : Walked layout free pages freed before after) (wider : pages ⊆ pages') :
    Walked layout free pages' freed before after := by
  refine ⟨walked.freeList, walked.globals, fun page aligned outside =>
    walked.frame page aligned fun member => outside (wider member), ?_⟩
  obtain ⟨new, extended, freedNew, inPages, ordered⟩ := walked.events
  exact ⟨new, extended, freedNew, fun event member => wider (inPages event member), ordered⟩

theorem Walked.load {s : Kernel} {free : List Nat} (freeList : FreeList layout s free)
    (log : List WalkEvent) (root : Nat) :
    Walked layout free [root] [] (s, log) (s, log ++ [.used root]) := by
  refine ⟨freeList, rfl, fun _ _ _ _ _ _ => rfl, [.used root], rfl, rfl, ?_, List.pairwise_singleton ..⟩
  intro event member
  rw [List.mem_singleton.mp member]
  exact List.mem_singleton_self root

/-- Writing an entry of a table that is not free. -/
theorem Walked.clear {s : Kernel} {free : List Nat} (freeList : FreeList layout s free)
    (log : List WalkEvent) {root i : Nat} (isPage : layout.IsPage root) (notFree : root ∉ free)
    (inside : i < 512) (value : Nat) : Walked layout free [root] [] (s, log)
      (s.withMem (store s.mem (root + 8 * i) 8 value), log ++ [.used root]) := by
  have frame : ∀ page, page % pgSize = 0 → page ∉ [root] →
      SameOn (store s.mem (root + 8 * i) 8 value) s.mem page pgSize := by
    intro page aligned outside
    have differs : page ≠ root := fun same => outside (List.mem_singleton.mpr same)
    refine sameOn_store _ _ _ _ _ _ ?_
    have rootAligned := isPage.1
    simp only [pgSize] at *
    omega
  refine ⟨?_, rfl, frame, [.used root], rfl, rfl, ?_, List.pairwise_singleton ..⟩
  · refine freeList.congr rfl fun page member => ?_
    refine (frame page (freeList.pages page member).1 ?_).sub (Nat.le_refl page) (by simp [pgSize])
    rintro here
    exact notFree (List.mem_singleton.mp here ▸ member)
  · intro event member
    rw [List.mem_singleton.mp member]
    exact List.mem_singleton_self root

/-- To free one table uses and frees this table. -/
theorem Walked.free {s after : Kernel} {free : List Nat} {root : Nat}
    (isPage : layout.IsPage root) (log : List WalkEvent) (pushed : after = s.pushPage root)
    (freeList : FreeList layout after (root :: free)) :
    Walked layout free [root] [root] (s, log) (after, log ++ [.freed root]) := by
  subst pushed
  refine ⟨freeList, rfl, ?_, [.freed root], rfl, rfl, ?_, List.pairwise_singleton ..⟩
  · intro page aligned outside
    have differs : page ≠ root := fun same => outside (List.mem_singleton.mpr same)
    refine sameOn_store _ _ _ _ _ _ ?_
    have rootAligned := isPage.1
    simp only [pgSize] at *
    omega
  · intro event member
    rw [List.mem_singleton.mp member]
    exact List.mem_singleton_self root

theorem Walked.refl {before : Kernel × List WalkEvent} {free : List Nat}
    (freeList : FreeList layout before.1 free) : Walked layout free [] [] before before := by
  refine ⟨freeList, rfl, fun _ _ _ _ _ _ => rfl, [], (List.append_nil _).symm, rfl, ?_, List.Pairwise.nil⟩
  intro event member
  cases member

/-! ## The entries that are left -/

/-- From entry `i` on there is a leaf in the table or below it. -/
def LeafAmong (mem : ByteMap) (levels t passes i : Nat) : Prop :=
  ∃ j, i ≤ j ∧ j < i + passes ∧ (IsLeaf (pteAt mem t j) ∨
    IsLink (pteAt mem t j) ∧ SomeLeaf mem (treePages mem levels (pte2pa (pteAt mem t j))))

/-- A tree has a leaf when there is one at or below an entry of its root. -/
theorem someLeaf_tree {mem : ByteMap} {levels t : Nat} :
    SomeLeaf mem (treePages mem (levels + 1) t) ↔ LeafAmong mem levels t 512 0 := by
  constructor
  · rintro ⟨page, member, k, inside, leaf⟩
    rw [treePages, List.mem_append, mem_childPages, List.mem_singleton] at member
    rcases member with ⟨j, low, high, link, below⟩ | rfl
    · exact ⟨j, low, high, Or.inr ⟨link, page, below, k, inside, leaf⟩⟩
    · exact ⟨k, by omega, by omega, Or.inl leaf⟩
  · rintro ⟨j, low, high, leaf | ⟨link, page, below, k, inside, leaf⟩⟩
    · exact ⟨t, List.mem_append_right _ (List.mem_singleton_self t), j, by omega, leaf⟩
    · have member := mem_childPages.mpr ⟨j, low, high, link, below⟩
      exact ⟨page, List.mem_append_left _ member, k, inside, leaf⟩

/-- A leaf among the trees of a range is at or below its first entry, or in the rest of the range.
-/
theorem leafAmong_step {mem : ByteMap} {levels t passes i : Nat} :
    LeafAmong mem levels t (passes + 1) i ↔ (IsLeaf (pteAt mem t i) ∨ IsLink (pteAt mem t i) ∧
      SomeLeaf mem (treePages mem levels (pte2pa (pteAt mem t i)))) ∨
      LeafAmong mem levels t passes (i + 1) := by
  constructor
  · rintro ⟨j, low, high, found⟩
    by_cases first : j = i
    · subst first
      exact Or.inl found
    · exact Or.inr ⟨j, by omega, by omega, found⟩
  · rintro (found | ⟨j, low, high, found⟩)
    · exact ⟨i, Nat.le_refl i, by omega, found⟩
    · exact ⟨j, by omega, by omega, found⟩

/-- The entries from `i` on and the tables below them are as before. -/
structure Unchanged (mem after : ByteMap) (levels root passes i : Nat) : Prop where
  entries : ∀ j, i ≤ j → j < i + passes → pteAt after root j = pteAt mem root j
  tables : ∀ t ∈ childPages mem (treePages mem levels) root passes i, SameOn after mem t pgSize

namespace Unchanged

variable {mem after : ByteMap} {levels root passes i : Nat}
  (unchanged : Unchanged mem after levels root passes i)
include unchanged

theorem below {j : Nat} (low : i ≤ j) (high : j < i + passes) (link : IsLink (pteAt mem root j)) :
    ∀ t ∈ treePages mem levels (pte2pa (pteAt mem root j)), SameOn after mem t pgSize :=
  fun t member => unchanged.tables t (mem_childPages.mpr ⟨j, low, high, link, member⟩)

theorem childPages_eq : childPages after (treePages after levels) root passes i =
    childPages mem (treePages mem levels) root passes i :=
  childPages_congr unchanged.entries fun _ low high link =>
    (treePages_congr (unchanged.below low high link)).1

theorem leafAmong_iff :
    LeafAmong after levels root passes i ↔ LeafAmong mem levels root passes i := by
  refine exists_congr fun j => and_congr_right fun low => and_congr_right fun high => ?_
  rw [unchanged.entries j low high]
  refine or_congr Iff.rfl (and_congr_right fun link => ?_)
  have same := unchanged.below low high link
  rw [(treePages_congr same).1]
  refine exists_congr fun t => and_congr_right fun member => exists_congr fun k =>
    and_congr_right fun inside => ?_
  rw [pteAt_congr (same t member) inside]

end Unchanged

/-- Before entry `i`, the tables below the entries from `i` on are private trees. -/
structure Remaining (layout : Layout) (s : Kernel) (free : List Nat) (levels root passes i : Nat) :
    Prop where
  inside : i + passes ≤ 512
  isPage : layout.IsPage root
  bounded : ∀ j, i ≤ j → j < i + passes → IsLink (pteAt s.mem root j) →
    AtMost s.mem levels (pte2pa (pteAt s.mem root j))
  pages : ∀ t ∈ childPages s.mem (treePages s.mem levels) root passes i, layout.IsPage t
  once : (childPages s.mem (treePages s.mem levels) root passes i ++ [root]).Nodup
  notFree : ∀ t ∈ childPages s.mem (treePages s.mem levels) root passes i ++ [root], t ∉ free
  freeList : FreeList layout s free

namespace Remaining

variable {s : Kernel} {free : List Nat} {levels root passes i : Nat}

theorem of_tree (tree : TableTree layout s free (levels + 1) root) :
    Remaining layout s free levels root 512 0 := by
  have member := List.mem_append_right (childPages s.mem (treePages s.mem levels) root 512 0)
    (List.mem_singleton_self root)
  exact ⟨Nat.le_refl _, tree.pages root member,
    fun j _ high link => tree.bounded j (by omega) link,
    fun t below => tree.pages t (List.mem_append_left _ below), tree.once, tree.notFree,
    tree.freeList⟩

variable (remaining : Remaining layout s free levels root (passes + 1) i)
include remaining

theorem rootNotFree : root ∉ free :=
  remaining.notFree root (List.mem_append_right _ (List.mem_singleton_self root))

/-- An entry that is no link has nothing below it. -/
theorem skip (noLink : ¬ IsLink (pteAt s.mem root i)) :
    Remaining layout s free levels root passes (i + 1) ∧
      childPages s.mem (treePages s.mem levels) root (passes + 1) i =
        childPages s.mem (treePages s.mem levels) root passes (i + 1) := by
  have same : childPages s.mem (treePages s.mem levels) root (passes + 1) i =
      childPages s.mem (treePages s.mem levels) root passes (i + 1) := by
    rw [childPages, if_neg noLink, List.nil_append]
  obtain ⟨inside, isPage, bounded, pages, once, notFree, freeList⟩ := remaining
  rw [same] at pages once notFree
  exact ⟨⟨by omega, isPage, fun j low high => bounded j (by omega) (by omega), pages, once,
    notFree, freeList⟩, same⟩

variable (link : IsLink (pteAt s.mem root i))
include link

/-- The tree below a link is a tree of its own. -/
theorem child : TableTree layout s free levels (pte2pa (pteAt s.mem root i)) := by
  have below : ∀ t ∈ treePages s.mem levels (pte2pa (pteAt s.mem root i)),
      t ∈ childPages s.mem (treePages s.mem levels) root (passes + 1) i := by
    intro t member
    rw [childPages_link link]
    exact List.mem_append_left _ member
  have once := remaining.once
  rw [childPages_link link, List.append_assoc] at once
  exact ⟨remaining.bounded i (Nat.le_refl i) (by omega) link,
    fun t member => remaining.pages t (below t member), (List.nodup_append.mp once).1,
    fun t member => remaining.notFree t (List.mem_append_left _ (below t member)),
    remaining.freeList⟩

/-- The tables of the child are neither the root nor below a later entry. -/
theorem child_apart {t : Nat}
    (member : t ∈ treePages s.mem levels (pte2pa (pteAt s.mem root i))) :
    t ∉ childPages s.mem (treePages s.mem levels) root passes (i + 1) ++ [root] := by
  have once := remaining.once
  rw [childPages_link link, List.append_assoc] at once
  intro later
  exact (List.nodup_append.mp once).2.2 t member t later rfl

/-- Releasing the child and clearing its entry leaves the later entries as they are. -/
theorem unchanged {before after : Kernel × List WalkEvent} (atStart : before.1.mem = s.mem)
    (walked : Walked layout free (treePages s.mem levels (pte2pa (pteAt s.mem root i)))
      (treePages s.mem levels (pte2pa (pteAt s.mem root i))) before after) :
    Unchanged s.mem (store after.1.mem (root + 8 * i) 8 0) levels root passes (i + 1) := by
  have frame : ∀ t, t % pgSize = 0 →
      t ∈ childPages s.mem (treePages s.mem levels) root passes (i + 1) ++ [root] →
      SameOn after.1.mem s.mem t pgSize := by
    intro t aligned member
    rw [← atStart]
    exact walked.frame t aligned fun below => remaining.child_apart link below member
  have rootAligned := remaining.isPage.1
  constructor
  · intro j low high
    have inside := remaining.inside
    have kept := frame root rootAligned (List.mem_append_right _ (List.mem_singleton_self root))
    have entry : pteAt after.1.mem root j = pteAt s.mem root j := pteAt_congr kept (by omega)
    rw [← entry]
    exact load_store_apart _ _ _ _ _ _ (by omega)
  · intro t member
    have later : t ∈ childPages s.mem (treePages s.mem levels) root (passes + 1) i := by
      rw [childPages_link link]
      exact List.mem_append_right _ member
    have isPage := remaining.pages t later
    have differs : t ≠ root := fun same => (List.nodup_append.mp remaining.once).2.2 t later root
      (List.mem_singleton_self root) same
    refine SameOn.trans (sameOn_store _ _ _ _ _ _ ?_)
      (frame t isPage.1 (List.mem_append_left _ member))
    have aligned := isPage.1
    have inside := remaining.inside
    simp only [pgSize] at *
    omega

/-- After the tree below one entry was freed and the entry cleared, the rest of the table is as it
was. -/
theorem next {before after : Kernel × List WalkEvent} (atStart : before.1.mem = s.mem)
    (walked : Walked layout free (treePages s.mem levels (pte2pa (pteAt s.mem root i)))
      (treePages s.mem levels (pte2pa (pteAt s.mem root i))) before after) :
    Remaining layout (after.1.withMem (store after.1.mem (root + 8 * i) 8 0))
      ((treePages s.mem levels (pte2pa (pteAt s.mem root i))).reverse ++ free) levels root passes
      (i + 1) := by
  have unchanged := remaining.unchanged link atStart walked
  have notBelow : root ∉ treePages s.mem levels (pte2pa (pteAt s.mem root i)) := fun below =>
    remaining.child_apart link below (List.mem_append_right _ (List.mem_singleton_self root))
  have rootNotFree : root ∉
      (treePages s.mem levels (pte2pa (pteAt s.mem root i))).reverse ++ free := by
    rw [List.mem_append, List.mem_reverse, not_or]
    exact ⟨notBelow, remaining.rootNotFree⟩
  have inside : i < 512 := by
    have := remaining.inside
    omega
  have cleared := Walked.clear walked.freeList after.2 remaining.isPage rootNotFree inside 0
  have once := remaining.once
  rw [childPages_link link, List.append_assoc] at once
  refine ⟨by have := remaining.inside; omega, remaining.isPage, ?_, ?_, ?_, ?_, cleared.freeList⟩
  · intro j low high
    rw [withMem_mem, unchanged.entries j low high]
    intro laterLink
    exact (treePages_congr (unchanged.below low high laterLink)).2
      (remaining.bounded j (by omega) (by omega) laterLink)
  · intro t member
    rw [withMem_mem, unchanged.childPages_eq] at member
    refine remaining.pages t ?_
    rw [childPages_link link]
    exact List.mem_append_right _ member
  · rw [withMem_mem, unchanged.childPages_eq]
    exact (List.nodup_append.mp once).2.1
  · intro t member
    rw [withMem_mem, unchanged.childPages_eq] at member
    rw [List.mem_append, List.mem_reverse, not_or]
    refine ⟨fun below => remaining.child_apart link below member, remaining.notFree t ?_⟩
    rw [childPages_link link, List.append_assoc]
    exact List.mem_append_right _ member

end Remaining

/-! ## The walk -/

/-- The children's walks and the later entries together. -/
theorem Walked.entry {free child later : List Nat} {root : Nat}
    {first loaded released cleared last : Kernel × List WalkEvent}
    (use : Walked layout free [root] [] first loaded)
    (release : Walked layout free child child loaded released)
    (clear : Walked layout (child.reverse ++ free) [root] [] released cleared)
    (rest : Walked layout (child.reverse ++ free) (later ++ [root]) later cleared last)
    (apart : ∀ page ∈ child, page ∉ later ++ [root]) :
    Walked layout free (child ++ later ++ [root]) (child ++ later) first last := by
  have tail : Walked layout (child.reverse ++ free) ([root] ++ (later ++ [root])) later
      released last := clear.trans rest fun page _ member => List.not_mem_nil member
  have below : Walked layout free (child ++ ([root] ++ (later ++ [root]))) (child ++ later)
      loaded last := by
    refine release.trans tail fun page member freed => apart page freed ?_
    rcases List.mem_append.mp member with atRoot | member
    · exact List.mem_append_right _ atRoot
    · exact member
  have whole : Walked layout free ([root] ++ (child ++ ([root] ++ (later ++ [root]))))
      (child ++ later) first last := use.trans below fun page _ member => List.not_mem_nil member
  refine whole.widen fun page member => ?_
  simp only [List.mem_append] at member ⊢
  tauto

theorem used_loaded {s : Kernel} {log : List WalkEvent} {root i : Nat}
    (isPage : layout.IsPage root) (inside : i < 512) :
    wp (logged (.used root) (loadField (root + 8 * i) 8))
      (fun pte mid => pte = pteAt s.mem root i ∧ mid = (s, log ++ [.used root])) (s, log) := by
  rw [wp_logged, wp_loadField]
  exact ⟨isPage.inRam (8 * i) 8 (by simp only [pgSize]; omega), rfl, rfl⟩

theorem used_cleared {s : Kernel} {log : List WalkEvent} {root i : Nat}
    (isPage : layout.IsPage root) (inside : i < 512) :
    wp (logged (.used root) (storeField (root + 8 * i) 8 0))
      (fun _ mid => mid = (s.withMem (store s.mem (root + 8 * i) 8 0), log ++ [.used root]))
      (s, log) := by
  rw [wp_logged, wp_storeField]
  exact ⟨isPage.inRam (8 * i) 8 (by simp only [pgSize]; omega), rfl⟩

theorem root_freed {s : Kernel} {log : List WalkEvent} {free : List Nat} {root : Nat}
    (freeList : FreeList layout s free) (isPage : layout.IsPage root) (fresh : root ∉ free) :
    wp (logged (.freed root) (kfree layout root))
      (fun _ last => Walked layout free [root] [root] (s, log) last) (s, log) := by
  rw [wp_logged]
  apply wp_mono (kfree_spec freeList root isPage fresh)
  rintro - after ⟨pushed, onList⟩
  exact Walked.free isPage log pushed onList

/-- What the walk of a private tree does: it stops at a leaf or frees the tree. -/
def ReleasesTrees (layout : Layout) (levels : Nat) (walk : Nat → LoggedProg Unit) : Prop :=
  ∀ (s : Kernel) (log : List WalkEvent) (free : List Nat) (t : Nat),
    TableTree layout s free levels t →
    StopsIf (walk t) (SomeLeaf s.mem (treePages s.mem levels t)) (.panic "freewalk: leaf")
      (fun _ after => Walked layout free (treePages s.mem levels t) (treePages s.mem levels t)
        (s, log) after) (s, log)

/-- The loop over the entries of one table frees the trees below its links in order and the table
last, or stops at the first leaf. -/
theorem freeEntries_releases {levels : Nat} {freeChild : Nat → LoggedProg Unit}
    (child : ReleasesTrees layout levels freeChild) {root passes i : Nat} {s : Kernel}
    (log : List WalkEvent) {free : List Nat}
    (remaining : Remaining layout s free levels root passes i) :
    StopsIf (freeEntriesLogged freeChild root passes i) (LeafAmong s.mem levels root passes i)
      (.panic "freewalk: leaf")
      (fun _ after => Walked layout free
        (childPages s.mem (treePages s.mem levels) root passes i ++ [root])
        (childPages s.mem (treePages s.mem levels) root passes i) (s, log) after) (s, log) := by
  induction passes generalizing s log free i with
  | zero =>
    refine ⟨?_, fun _ => ?_⟩
    · rintro ⟨j, low, high, -⟩
      omega
    · rw [freeEntriesLogged, wp_pure]
      exact (Walked.refl remaining.freeList).widen (List.nil_subset _)
  | succ passes inductionHypothesis =>
    have inside : i < 512 := by
      have := remaining.inside
      omega
    have use := Walked.load remaining.freeList log root
    rw [freeEntriesLogged]
    refine StopsIf.congr (false_or _).symm.to_iff
      (StopsIf.seq (.of_wp (used_loaded remaining.isPage inside)) ?_)
    rintro _ _ ⟨rfl, rfl⟩
    by_cases link : IsLink (pteAt s.mem root i)
    · -- the child first, then the entry is cleared, then the rest
      have noLeaf : ¬ IsLeaf (pteAt s.mem root i) := fun leaf => link.2 leaf.2
      have split : LeafAmong s.mem levels root (passes + 1) i ↔
          SomeLeaf s.mem (treePages s.mem levels (pte2pa (pteAt s.mem root i))) ∨ False ∨
            LeafAmong s.mem levels root passes (i + 1) := by
        rw [leafAmong_step, false_or]
        simp only [noLeaf, link, false_or, true_and]
      rw [if_pos (show pteValid _ ∧ ¬ pteLeaf _ from link), childPages_link link]
      refine StopsIf.congr split (StopsIf.seq (child s _ free _ (remaining.child link)) ?_)
      rintro - ⟨s₁, log₁⟩ release
      refine StopsIf.seq (.of_wp (used_cleared remaining.isPage inside)) ?_
      rintro - _ rfl
      have unchanged := remaining.unchanged link rfl release
      have next := remaining.next link rfl release
      have rest := inductionHypothesis (log₁ ++ [.used root]) next
      refine StopsIf.congr unchanged.leafAmong_iff.symm (rest.mono ?_)
      intro _ last walked
      rw [withMem_mem, unchanged.childPages_eq] at walked
      have rootNotFree : root ∉
          (treePages s.mem levels (pte2pa (pteAt s.mem root i))).reverse ++ free := by
        refine next.notFree root (List.mem_append_right _ (List.mem_singleton_self root))
      have clear := Walked.clear release.freeList log₁ remaining.isPage rootNotFree inside 0
      exact Walked.entry use release clear walked fun page => remaining.child_apart link
    · obtain ⟨skipped, same⟩ := remaining.skip link
      rw [if_neg (show ¬ (pteValid _ ∧ ¬ pteLeaf _) from link), same]
      by_cases valid : pteValid (pteAt s.mem root i)
      · have leaf : IsLeaf (pteAt s.mem root i) :=
          ⟨valid, Classical.byContradiction fun notLeaf => link ⟨valid, notLeaf⟩⟩
        rw [if_pos valid]
        exact .throw (leafAmong_step.mpr (Or.inl (Or.inl leaf)))
      · have noLeaf : ¬ IsLeaf (pteAt s.mem root i) := fun leaf => valid leaf.1
        rw [if_neg valid]
        refine StopsIf.congr ?_ ((inductionHypothesis _ skipped).mono ?_)
        · rw [leafAmong_step]
          simp only [noLeaf, link, false_or, false_and]
        · intro _ last walked
          refine (use.trans walked fun page _ member => List.not_mem_nil member).widen ?_
          intro page member
          simp only [List.mem_append] at member ⊢
          tauto

/-- `freewalk` frees every table of a tree once, the children before their parents, by induction on
the levels. -/
theorem freewalk_releases {levels depth : Nat} (deep : levels ≤ depth) :
    ReleasesTrees layout levels (freewalkLogged layout depth) := by
  induction depth generalizing levels with
  | zero =>
    obtain rfl : levels = 0 := by omega
    exact fun s log free t tree => tree.bounded.elim
  | succ depth inductionHypothesis =>
    intro s log free t tree
    cases levels with
    | zero => exact tree.bounded.elim
    | succ levels =>
      have remaining := Remaining.of_tree tree
      have below : levels ≤ depth := by omega
      have entries := freeEntries_releases (inductionHypothesis below) log remaining
      rw [freewalkLogged]
      refine StopsIf.congr (someLeaf_tree.trans (or_false _).symm.to_iff) (StopsIf.seq entries ?_)
      rintro - ⟨s₁, log₁⟩ walked
      have fresh : t ∉ (childPages s.mem (treePages s.mem levels) t 512 0).reverse ++ free := by
        have member := List.mem_append_right (childPages s.mem (treePages s.mem levels) t 512 0)
          (List.mem_singleton_self t)
        rw [List.mem_append, List.mem_reverse, not_or]
        refine ⟨fun below => ?_, remaining.notFree t member⟩
        exact (List.nodup_append.mp remaining.once).2.2 t below t (List.mem_singleton_self t) rfl
      refine StopsIf.mono (.of_wp (root_freed walked.freeList remaining.isPage fresh)) ?_
      intro _ last freed
      refine (walked.trans freed ?_).widen (List.append_subset.mpr ⟨List.Subset.refl _, ?_⟩)
      · intro page atRoot below
        rw [List.mem_singleton.mp atRoot] at below
        exact fresh (List.mem_append_left _ (List.mem_reverse.mpr below))
      · exact List.subset_append_right _ _

/-- `freewalk` puts exactly the tables of a private tree on the free list and uses none of them
after it freed it, unless an entry is a leaf: then it panics. -/
theorem freewalk_exact {s : Kernel} {free : List Nat} {levels depth root : Nat}
    (tree : TableTree layout s free levels root) (deep : levels ≤ depth) :
    ((∀ t ∈ treePages s.mem levels root, ∀ i < 512, ¬ IsLeaf (pteAt s.mem t i)) →
      ∃ after log, Returns (freewalk layout depth root) s () after ∧
        Returns (freewalkLogged layout depth root) (s, []) () (after, log) ∧
        FreeList layout after ((treePages s.mem levels root).reverse ++ free) ∧
        SameGlobals s after ∧ (∀ event ∈ log, event.page ∈ treePages s.mem levels root) ∧
        log.filterMap WalkEvent.freedPage = treePages s.mem levels root ∧
        log.Pairwise WalkEvent.Orderly) ∧
    ((∃ t ∈ treePages s.mem levels root, ∃ i < 512, IsLeaf (pteAt s.mem t i)) →
      freewalk layout depth root s = .error (.panic "freewalk: leaf")) := by
  have releases := freewalk_releases deep s [] free root tree
  have erases : Erases (freewalkLogged layout depth root) (freewalk layout depth root) :=
    freewalk_erases depth root
  constructor
  · intro noLeaf
    have none : ¬ SomeLeaf s.mem (treePages s.mem levels root) := by
      rintro ⟨t, member, i, inside, leaf⟩
      exact noLeaf t member i inside leaf
    obtain ⟨_, ⟨after, log⟩, returned, walked⟩ := releases.2 none
    obtain ⟨new, extended, freed, inPages, ordered⟩ := walked.events
    obtain rfl : log = new := extended
    exact ⟨after, log, erases.returns returned, returned, walked.freeList, walked.globals, inPages,
      freed, ordered⟩
  · intro someLeaf
    exact erases.stops (releases.1 someLeaf)

/-- One table at `0x80400000` with one link, to the table at `0x80401000`. -/
def twoTables : ByteMap := store (fun _ => 0) 0x80400000 8 (pa2pte 0x80401000 ||| pteV)

theorem twoTables_pages : treePages twoTables 2 0x80400000 = [0x80401000, 0x80400000] := by
  decide +kernel

/-- The two tables form a tree. -/
theorem twoTables_tree : TableTree smallImage (Kernel.boot twoTables) [] 2 0x80400000 := by
  have bounded : ∀ i < 512, IsLink (pteAt twoTables 0x80400000 i) →
      ∀ j < 512, ¬ IsLink (pteAt twoTables (pte2pa (pteAt twoTables 0x80400000 i)) j) := by
    decide +kernel
  refine ⟨fun i inside link j below deeper => bounded i inside link j below deeper, ?_, ?_, ?_,
    rfl, List.nodup_nil, by simp⟩
  · rw [show (Kernel.boot twoTables).mem = twoTables from rfl, twoTables_pages]
    simp [Layout.IsPage, smallImage, pgSize, phyEnd]
  · rw [show (Kernel.boot twoTables).mem = twoTables from rfl, twoTables_pages]
    decide
  · exact fun _ _ => List.not_mem_nil

theorem two_tables_released : 2 ≤ 3 ∧ ∃ after, Returns (freewalk smallImage 3 0x80400000)
    (Kernel.boot twoTables) () after ∧ FreeList smallImage after [0x80400000, 0x80401000] := by
  have noLeaf : ∀ t ∈ treePages twoTables 2 0x80400000, ∀ i < 512, ¬ IsLeaf (pteAt twoTables t i) := by
    rw [twoTables_pages]
    decide +kernel
  obtain ⟨after, -, returned, -, onList, -⟩ :=
    (freewalk_exact twoTables_tree (show 2 ≤ 3 by decide)).1 noLeaf
  rw [show (Kernel.boot twoTables).mem = twoTables from rfl, twoTables_pages] at onList
  exact ⟨by decide, after, returned, onList⟩

end CuteCore
