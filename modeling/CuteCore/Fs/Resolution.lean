import CuteCore.Fs.Creation
import CuteCore.Fs.InodeRuns

/-!
# Path resolution as component-wise lookup

A path is split at its slashes. `namex` looks the components up one after the
other, each cut off to fit its buffer, and keeps one reference at a time.

The abstract walk knows names, types and records, and nothing of buffers. A lookup is a
search through the blocks of a directory in their order. The two agree on every path and
every state, in what they return and in the reference they leave, so a walk returns
exactly when the code does.
-/

namespace CuteCore.Fs

open Hoare Bytes

/-! ## The components of a path -/

/-- The maximal parts of a path without a slash. -/
def components (path : List Byte) : List (List Byte) := (path.splitOn slash).filter (· ≠ [])

theorem splitOn_cons (b : Byte) (path : List Byte) : (b :: path).splitOn slash =
    if b = slash then [] :: path.splitOn slash
    else (path.splitOn slash).modifyHead (List.cons b) := by
  rw [List.splitOn, List.splitOnP_cons_eq_if_modifyHead]
  simp only [beq_iff_eq]
  rfl

/-- Splitting at the first slash. -/
theorem splitOn_first (path : List Byte) : path.splitOn slash =
    path.takeWhile (· ≠ slash) :: ((path.dropWhile (· ≠ slash)).splitOn slash).tail := by
  induction path with
  | nil => simp [List.splitOn_nil]
  | cons b path inductionHypothesis =>
    rw [splitOn_cons]
    by_cases isSlash : b = slash
    · rw [if_pos isSlash, List.takeWhile_cons, List.dropWhile_cons]
      simp only [isSlash, ne_eq, not_true_eq_false, decide_false, Bool.false_eq_true, if_false]
      rw [splitOn_cons, if_pos rfl, List.tail_cons]
    · rw [if_neg isSlash, inductionHypothesis, List.takeWhile_cons, List.dropWhile_cons]
      simp only [isSlash, ne_eq, not_false_eq_true, decide_true, if_true, List.modifyHead_cons]

theorem components_slash (path : List Byte) : components (slash :: path) = components path := by
  rw [components, splitOn_cons, if_pos rfl, components]
  simp

/-- Leading slashes do not count. -/
theorem components_skipSlash
    (path : List Byte) : components (skipSlash path) = components path := by
  induction path with
  | nil => rfl
  | cons b path inductionHypothesis =>
    rw [skipSlash, List.dropWhile_cons]
    split
    · rename_i isSlash
      rw [decide_eq_true_eq] at isSlash
      rw [isSlash, components_slash]
      exact inductionHypothesis
    · rfl

/-- What is left after a part without slashes starts with a slash. -/
theorem components_behind (path : List Byte) :
    components (path.dropWhile (· ≠ slash)) =
      (((path.dropWhile (· ≠ slash)).splitOn slash).tail).filter (· ≠ []) := by
  cases shape : path.dropWhile (· ≠ slash) with
  | nil => simp [components, List.splitOn_nil]
  | cons b rest =>
    have isSlash : b = slash := by
      have first := List.head_dropWhile_not (fun b => decide (b ≠ slash)) (by
        rw [shape]
        exact List.cons_ne_nil b rest)
      simpa only [shape, List.head_cons, decide_eq_false_iff_not, ne_eq, not_not] using first
    rw [isSlash, components_slash, splitOn_cons, if_pos rfl, List.tail_cons, components]

/-- A path that starts with a component. -/
theorem components_cut (b : Byte) (path : List Byte) (starts : b ≠ slash) :
    components (b :: path) = (b :: path).takeWhile (· ≠ slash) ::
      components ((b :: path).dropWhile (· ≠ slash)) := by
  have notEmpty : (b :: path).takeWhile (· ≠ slash) ≠ [] := by
    simp [starts]
  rw [components_behind, components, splitOn_first, List.filter_cons, if_pos (by simpa using notEmpty)]

theorem components_ne_nil (path : List Byte) : ∀ name ∈ components path, name ≠ [] := by
  intro name member
  simpa using (List.mem_filter.mp member).2

/-- A component as the buffer of `namex` holds it. -/
def cut (name : List Byte) : List Byte := name.take (maxPathLen - 1)

theorem cut_ne_nil {name : List Byte} (notEmpty : name ≠ []) : cut name ≠ [] := by
  cases name with
  | nil => exact absurd rfl notEmpty
  | cons b rest => exact List.cons_ne_nil b _

/-- The names that `namex` looks up. -/
def pathNames (path : List Byte) : List (List Byte) := (components path).map cut

/-! ## The walk -/

/-- Look the names up one after the other. -/
def walk (cur : Nat) : List (List Byte) → FsProg (Option Nat)
  | [] => return some cur
  | name :: names => do
    let inode ← derefInode cur
    if inode.type ≠ .dir then do
      iput cur
      return none
    else do
      let next ← ext2Lookup cur name
      iput cur
      match next with
      | none => return none
      | some next => walk next names

/-- Behind the slashes a path ends or goes on with another character. -/
theorem skipSlash_shape (path : List Byte) : skipSlash path = [] ∨
    ∃ b rest, skipSlash path = b :: rest ∧ b ≠ slash := by
  cases shape : skipSlash path with
  | nil => exact .inl rfl
  | cons b rest =>
    refine .inr ⟨b, rest, rfl, ?_⟩
    have dropped : path.dropWhile (fun b => decide (b = slash)) = b :: rest := shape
    have first := List.head_dropWhile_not (fun b => decide (b = slash)) (by
      rw [dropped]
      exact List.cons_ne_nil b rest)
    simpa only [dropped, List.head_cons, decide_eq_false_iff_not] using first

/-- Skipping slashes again changes nothing, so a pass starts at a component. -/
def AtName (path : List Byte) : Prop := path = [] ∨ ∃ b rest, path = b :: rest ∧ b ≠ slash

theorem pathNext_cons (b : Byte) (rest : List Byte) : pathNext (b :: rest) =
    some (cut ((b :: rest).takeWhile (· ≠ slash)), (b :: rest).dropWhile (· ≠ slash)) :=
  if_neg (List.cons_ne_nil b rest)

theorem pathNames_cons (b : Byte) (rest : List Byte) (starts : b ≠ slash) :
    pathNames (b :: rest) = cut ((b :: rest).takeWhile (· ≠ slash)) ::
      pathNames (skipSlash ((b :: rest).dropWhile (· ≠ slash))) := by
  rw [pathNames, components_cut b rest starts, List.map_cons, pathNames, components_skipSlash]

/-- A pass consumes a byte at least. -/
theorem skipSlash_shorter (b : Byte) (rest : List Byte) (starts : b ≠ slash) :
    (skipSlash ((b :: rest).dropWhile (· ≠ slash))).length ≤ rest.length := by
  rw [List.dropWhile_cons, if_pos (by simpa using starts)]
  exact ((List.dropWhile_suffix _).trans (List.dropWhile_suffix _)).length_le

/-- The loop looks up all components. -/
theorem namexFrom_walk (budget cur : Nat) (path : List Byte) (starts : AtName path)
    (enough : path.length < budget) : namexFrom false budget cur path = do
      let found ← walk cur (pathNames path)
      return found.map fun p => (p, []) := by
  induction budget generalizing cur path with
  | zero => exact absurd enough (Nat.not_lt_zero _)
  | succ budget inductionHypothesis =>
    obtain rfl | ⟨b, rest, rfl, notSlash⟩ := starts
    · simp [namexFrom, pathNext, pathNames, components, List.splitOn_nil, walk]
    · have shorter := skipSlash_shorter b rest notSlash
      rw [List.length_cons] at enough
      have tail := fun next => inductionHypothesis next _
        (skipSlash_shape ((b :: rest).dropWhile (· ≠ slash))) (by omega)
      rw [namexFrom, pathNext_cons, pathNames_cons b rest notSlash, walk]
      simp only [Bool.false_eq_true, false_and, if_false, bind_assoc]
      refine bind_congr fun inode => ?_
      split
      · simp only [bind_assoc, pure_bind, Option.map_none]
      · simp only [bind_assoc]
        refine bind_congr fun next => bind_congr fun _ => ?_
        cases next with
        | none => simp only [pure_bind, Option.map_none]
        | some next => exact tail next

/-- The loop in parent mode stops before the last component. -/
theorem namexFrom_parent (budget cur : Nat) (init : List (List Byte)) (last : List Byte)
    (path : List Byte) (starts : AtName path) (enough : path.length < budget)
    (names : pathNames path = init ++ [last]) : namexFrom true budget cur path = do
      let found ← walk cur init
      return found.map fun p => (p, last) := by
  induction budget generalizing cur path init with
  | zero => exact absurd enough (Nat.not_lt_zero _)
  | succ budget inductionHypothesis =>
    obtain rfl | ⟨b, rest, rfl, notSlash⟩ := starts
    · simp [pathNames, components, List.splitOn_nil] at names
    · have shorter := skipSlash_shorter b rest notSlash
      have shape := skipSlash_shape ((b :: rest).dropWhile (· ≠ slash))
      rw [List.length_cons] at enough
      rw [pathNames_cons b rest notSlash] at names
      rw [namexFrom, pathNext_cons]
      cases init with
      | nil =>
        -- nothing but slashes is left
        obtain ⟨isLast, noMore⟩ := List.cons.inj names
        obtain atEnd | ⟨c, more, isMore, isName⟩ := shape
        · simp only [atEnd, isLast, true_and, if_true, walk, pure_bind, Option.map_some]
        · rw [isMore, pathNames_cons c more isName] at noMore
          cases noMore
      | cons name init =>
        obtain ⟨isFirst, rest'⟩ := List.cons.inj names
        have moreLeft : skipSlash ((b :: rest).dropWhile (· ≠ slash)) ≠ [] := by
          intro atEnd
          rw [atEnd] at rest'
          simp [pathNames, components, List.splitOn_nil] at rest'
        have tail := fun next => inductionHypothesis next init _ shape (by omega) rest'
        simp only [moreLeft, and_false, if_false, walk, bind_assoc, isFirst]
        refine bind_congr fun inode => ?_
        split
        · simp only [bind_assoc, pure_bind, Option.map_none]
        · simp only [bind_assoc]
          refine bind_congr fun next => bind_congr fun _ => ?_
          cases next with
          | none => simp only [pure_bind, Option.map_none]
          | some next => exact tail next

/-- An inode is read where its object exists. -/
theorem returns_derefInode {p : Nat} {s mid : Vfs} {inode : Inode} :
    Returns (derefInode p) s inode mid ↔ s.inodes p = some inode ∧ s = mid := by
  rw [derefInode, returns_bind]
  constructor
  · rintro ⟨_, _, got, returned⟩
    obtain ⟨rfl, rfl⟩ := returns_get.mp got
    cases found : s.inodes p with
    | none => simp [found] at returned
    | some object =>
      simp only [found, returns_pure] at returned
      exact ⟨congrArg some returned.1, returned.2⟩
  · rintro ⟨found, rfl⟩
    refine ⟨s, s, returns_get.mpr ⟨rfl, rfl⟩, ?_⟩
    simp only [found, returns_pure, and_self]

/-- The blocks of a directory are read one after the other, from block `lbk` on, until one has a
live record with the name, and the first such record gives the number. None is given where no
block that can be read has such a record. Every `memcmp` on the way ends inside the buffer. -/
inductive Searches (cur : Nat) (name : List Byte) : Vfs → Nat → Nat → Option Nat → Vfs → Prop where
  | ended {s : Vfs} {lbk : Nat} : Searches cur name s 0 lbk none s
  | unreadable {s mid after : Vfs} {remaining lbk : Nat} {r : Option Nat}
      (read : Returns (ext2ReadBlock cur lbk s.uninitialized) s none mid)
      (rest : Searches cur name mid remaining (lbk + 1) r after) :
      Searches cur name s (remaining + 1) lbk r after
  | passed {s mid after : Vfs} {remaining lbk : Nat} {buf : ByteMap} {r : Option Nat}
      (read : Returns (ext2ReadBlock cur lbk s.uninitialized) s (some buf) mid)
      (inside : ComparesInside buf s.blockSize name 0) (none : NoneNamed buf s.blockSize name 0)
      (rest : Searches cur name mid remaining (lbk + 1) r after) :
      Searches cur name s (remaining + 1) lbk r after
  | found {s mid : Vfs} {remaining lbk pos : Nat} {buf : ByteMap}
      (read : Returns (ext2ReadBlock cur lbk s.uninitialized) s (some buf) mid)
      (inside : ComparesInside buf s.blockSize name 0)
      (first : FirstNamed buf s.blockSize name 0 pos) :
      Searches cur name s (remaining + 1) lbk (some (deInode buf pos)) mid

/-- The block loop of `ext2_lookup` is the search of the records. -/
theorem returns_lookupFrom {cur : Nat} {name : List Byte} {s after : Vfs} {remaining lbk : Nat}
    {r : Option Nat} : Returns (lookupFrom cur name remaining lbk) s r after ↔
      Searches cur name s remaining lbk r after := by
  constructor
  · intro returned
    induction remaining generalizing s lbk with
    | zero =>
      obtain ⟨rfl, rfl⟩ := returns_pure.mp returned
      exact .ended
    | succ remaining inductionHypothesis =>
      rw [lookupFrom, returns_bind] at returned
      obtain ⟨_, _, got, returned⟩ := returned
      obtain ⟨rfl, rfl⟩ := returns_get.mp got
      obtain ⟨block, mid, read, returned⟩ := returns_bind.mp returned
      cases block with
      | none => exact .unreadable read (inductionHypothesis returned)
      | some buf =>
        simp only at returned
        cases scanned : scanFrom buf s.blockSize name s.blockSize none 0 with
        | absent =>
          rw [scanned] at returned
          obtain ⟨inside, none⟩ := scanFrom_absent_iff.mp scanned
          exact .passed read inside none (inductionHypothesis returned)
        | outOfBounds =>
          rw [scanned] at returned
          cases returns_throw.mp returned
        | found before pos =>
          rw [scanned] at returned
          obtain ⟨rfl, rfl⟩ := returns_pure.mp returned
          obtain ⟨inside, first⟩ := scanFrom_found_iff.mp ⟨before, scanned⟩
          exact .found read inside first
  · intro searched
    induction searched with
    | ended => exact returns_pure.mpr ⟨rfl, rfl⟩
    | unreadable read rest inductionHypothesis =>
      rw [lookupFrom, returns_bind]
      exact ⟨_, _, returns_get.mpr ⟨rfl, rfl⟩, returns_bind.mpr ⟨none, _, read, inductionHypothesis⟩⟩
    | @passed s mid after remaining lbk buf r read inside none rest inductionHypothesis =>
      rw [lookupFrom, returns_bind]
      refine ⟨_, _, returns_get.mpr ⟨rfl, rfl⟩, returns_bind.mpr ⟨some buf, _, read, ?_⟩⟩
      simp only [scanFrom_absent_iff.mpr ⟨inside, none⟩]
      exact inductionHypothesis
    | @found s mid remaining lbk pos buf read inside first =>
      rw [lookupFrom, returns_bind]
      refine ⟨_, _, returns_get.mpr ⟨rfl, rfl⟩, returns_bind.mpr ⟨some buf, _, read, ?_⟩⟩
      obtain ⟨before, scanned⟩ := scanFrom_found_iff.mpr ⟨inside, first⟩
      simp only [scanned]
      exact returns_pure.mpr ⟨rfl, rfl⟩

/-- Starting at an inode whose reference is held, the names lead to an inode or to none: a name
is looked up in something other than a directory, no record of the directory has it, or
`ext2_iget` fails. The
reference is exchanged for one to the next inode in each step. -/
inductive Resolves : Vfs → Nat → List (List Byte) → Option Nat → Vfs → Prop where
  | here {s : Vfs} {cur : Nat} : Resolves s cur [] (some cur) s
  | notDir {s after : Vfs} {cur : Nat} {name : List Byte} {names : List (List Byte)} {inode : Inode}
      (object : s.inodes cur = some inode) (kind : inode.type ≠ .dir)
      (put : Returns (iput cur) s () after) : Resolves s cur (name :: names) none after
  | absent {s scanned after : Vfs} {cur : Nat} {name : List Byte} {names : List (List Byte)}
      {inode : Inode} (object : s.inodes cur = some inode) (kind : inode.type = .dir)
      (search : Searches cur name s (dirBlocks s.blockSize inode.size) 0 none scanned)
      (put : Returns (iput cur) scanned () after) : Resolves s cur (name :: names) none after
  | refused {s scanned opened after : Vfs} {cur ino : Nat} {name : List Byte}
      {names : List (List Byte)} {inode : Inode} (object : s.inodes cur = some inode)
      (kind : inode.type = .dir)
      (search : Searches cur name s (dirBlocks s.blockSize inode.size) 0 (some ino) scanned)
      (iget : Returns (ext2Iget ino) scanned none opened)
      (put : Returns (iput cur) opened () after) : Resolves s cur (name :: names) none after
  | found {s scanned opened moved after : Vfs} {cur ino next : Nat} {name : List Byte}
      {names : List (List Byte)} {inode : Inode} {r : Option Nat}
      (object : s.inodes cur = some inode) (kind : inode.type = .dir)
      (search : Searches cur name s (dirBlocks s.blockSize inode.size) 0 (some ino) scanned)
      (iget : Returns (ext2Iget ino) scanned (some next) opened)
      (put : Returns (iput cur) opened () moved) (rest : Resolves moved next names r after) :
      Resolves s cur (name :: names) r after

/-- A lookup in a directory is the scan of its records and `ext2_iget`. -/
theorem returns_ext2Lookup {s after : Vfs} {cur : Nat} {name : List Byte} {inode : Inode}
    {r : Option Nat} (object : s.inodes cur = some inode) (kind : inode.type = .dir)
    (notEmpty : name ≠ []) : Returns (ext2Lookup cur name) s r after ↔
      ∃ found scanned, Searches cur name s (dirBlocks s.blockSize inode.size) 0 found scanned ∧
        match found with
        | none => r = none ∧ scanned = after
        | some ino => Returns (ext2Iget ino) scanned r after := by
  rw [ext2Lookup, returns_bind]
  constructor
  · rintro ⟨_, _, deref, returned⟩
    obtain ⟨isObject, rfl⟩ := returns_derefInode.mp deref
    obtain rfl := Option.some.inj (object.symm.trans isObject)
    rw [if_neg (by simp [kind, notEmpty]), returns_bind] at returned
    obtain ⟨_, _, got, returned⟩ := returned
    obtain ⟨rfl, rfl⟩ := returns_get.mp got
    obtain ⟨found, scanned, scan, returned⟩ := returns_bind.mp returned
    refine ⟨found, scanned, returns_lookupFrom.mp scan, ?_⟩
    cases found with
    | none => exact ⟨(returns_pure.mp returned).1.symm, (returns_pure.mp returned).2⟩
    | some ino => exact returned
  · rintro ⟨found, scanned, search, returned⟩
    have scan := returns_lookupFrom.mpr search
    refine ⟨inode, s, returns_derefInode.mpr ⟨object, rfl⟩, ?_⟩
    rw [if_neg (by simp [kind, notEmpty]), returns_bind]
    refine ⟨s, s, returns_get.mpr ⟨rfl, rfl⟩, returns_bind.mpr ⟨found, scanned, scan, ?_⟩⟩
    cases found with
    | none => exact returns_pure.mpr ⟨returned.1.symm, returned.2⟩
    | some ino => exact returned

/-- The walk resolves the names, and every resolution is a run of it. -/
theorem returns_walk {s after : Vfs} {cur : Nat} {names : List (List Byte)} {r : Option Nat}
    (notEmpty : ∀ name ∈ names, name ≠ []) :
    Returns (walk cur names) s r after ↔ Resolves s cur names r after := by
  constructor
  · intro returned
    induction names generalizing s cur with
    | nil =>
      obtain ⟨rfl, rfl⟩ := returns_pure.mp returned
      exact .here
    | cons name names inductionHypothesis =>
      rw [walk, returns_bind] at returned
      obtain ⟨inode, _, deref, returned⟩ := returned
      obtain ⟨object, rfl⟩ := returns_derefInode.mp deref
      split at returned
      · rename_i kind
        obtain ⟨_, _, put, returned⟩ := returns_bind.mp returned
        obtain ⟨rfl, rfl⟩ := returns_pure.mp returned
        exact .notDir object kind put
      · rename_i kind
        rw [not_not] at kind
        obtain ⟨next, opened, lookup, continued⟩ := returns_bind.mp returned
        obtain ⟨_, moved, put, tail⟩ := returns_bind.mp continued
        obtain ⟨found, scanned, scan, outcome⟩ := (returns_ext2Lookup object kind
          (notEmpty name (List.mem_cons_self ..))).mp lookup
        clear returned continued lookup
        cases found with
        | none =>
          obtain ⟨rfl, rfl⟩ := outcome
          obtain ⟨rfl, rfl⟩ := returns_pure.mp tail
          exact .absent object kind scan put
        | some ino =>
          cases next with
          | none =>
            obtain ⟨rfl, rfl⟩ := returns_pure.mp tail
            exact .refused object kind scan outcome put
          | some next =>
            exact .found object kind scan outcome put (inductionHypothesis
              (fun name member => notEmpty name (List.mem_cons_of_mem _ member)) tail)
  · intro resolved
    induction resolved with
    | here => exact returns_pure.mpr ⟨rfl, rfl⟩
    | notDir object kind put =>
      rw [walk, returns_bind]
      refine ⟨_, _, returns_derefInode.mpr ⟨object, rfl⟩, ?_⟩
      rw [if_pos kind]
      exact returns_bind.mpr ⟨_, _, put, returns_pure.mpr ⟨rfl, rfl⟩⟩
    | absent object kind scan put =>
      rw [walk, returns_bind]
      refine ⟨_, _, returns_derefInode.mpr ⟨object, rfl⟩, ?_⟩
      rw [if_neg (not_not.mpr kind)]
      have lookup := (returns_ext2Lookup object kind (notEmpty _ (List.mem_cons_self ..))).mpr
        ⟨_, _, scan, rfl, rfl⟩
      exact returns_bind.mpr ⟨_, _, lookup, returns_bind.mpr ⟨_, _, put,
        returns_pure.mpr ⟨rfl, rfl⟩⟩⟩
    | refused object kind scan iget put =>
      rw [walk, returns_bind]
      refine ⟨_, _, returns_derefInode.mpr ⟨object, rfl⟩, ?_⟩
      rw [if_neg (not_not.mpr kind)]
      have lookup := (returns_ext2Lookup object kind (notEmpty _ (List.mem_cons_self ..))).mpr
        ⟨_, _, scan, iget⟩
      exact returns_bind.mpr ⟨_, _, lookup, returns_bind.mpr ⟨_, _, put,
        returns_pure.mpr ⟨rfl, rfl⟩⟩⟩
    | found object kind scan iget put rest inductionHypothesis =>
      rw [walk, returns_bind]
      refine ⟨_, _, returns_derefInode.mpr ⟨object, rfl⟩, ?_⟩
      rw [if_neg (not_not.mpr kind)]
      have lookup := (returns_ext2Lookup object kind (notEmpty _ (List.mem_cons_self ..))).mpr
        ⟨_, _, scan, iget⟩
      exact returns_bind.mpr ⟨_, _, lookup, returns_bind.mpr ⟨_, _, put, inductionHypothesis
        fun name member => notEmpty name (List.mem_cons_of_mem _ member)⟩⟩

theorem pathNames_ne_nil (path : List Byte) : ∀ name ∈ pathNames path, name ≠ [] := by
  intro name member
  obtain ⟨component, isComponent, rfl⟩ := List.mem_map.mp member
  exact cut_ne_nil (components_ne_nil path component isComponent)

theorem pathNames_slash (path : List Byte) :
    pathNames (slash :: path) = pathNames (skipSlash path) := by
  rw [pathNames, pathNames, components_slash, components_skipSlash]

theorem namex_walk (path : List Byte) : namex (slash :: path) false = do
    let s ← get
    addRef s.root
    let found ← walk s.root (pathNames (slash :: path))
    return found.map fun p => (p, []) := by
  have enough : (skipSlash path).length < path.length + 1 :=
    Nat.lt_succ_of_le (List.dropWhile_suffix _).length_le
  rw [namex, if_neg (not_not.mpr rfl), pathNames_slash]
  refine bind_congr fun s => bind_congr fun _ => ?_
  exact namexFrom_walk _ _ _ (skipSlash_shape path) enough

/-- The run of a path without components in parent mode. -/
theorem namex_root (path : List Byte) (none' : pathNames (slash :: path) = []) :
    namex (slash :: path) true = do
      let s ← get
      addRef s.root
      iput s.root
      return none := by
  rw [pathNames_slash] at none'
  rw [namex, if_neg (not_not.mpr rfl)]
  refine bind_congr fun s => bind_congr fun _ => ?_
  obtain atEnd | ⟨b, rest, isMore, isName⟩ := skipSlash_shape path
  · rw [atEnd]
    rfl
  · rw [isMore, pathNames_cons b rest isName] at none'
    cases none'

/-- The parent of a path is walked by all components but the last one. -/
theorem namex_parent (path : List Byte) (init : List (List Byte)) (last : List Byte)
    (names : pathNames (slash :: path) = init ++ [last]) : namex (slash :: path) true = do
      let s ← get
      addRef s.root
      let found ← walk s.root init
      return found.map fun p => (p, last) := by
  have enough : (skipSlash path).length < path.length + 1 :=
    Nat.lt_succ_of_le (List.dropWhile_suffix _).length_le
  rw [pathNames_slash] at names
  rw [namex, if_neg (not_not.mpr rfl)]
  refine bind_congr fun s => bind_congr fun _ => ?_
  exact namexFrom_parent _ _ init last _ (skipSlash_shape path) enough names

/-- The names lead from the root to the inode, or to none. -/
def FromRoot (s : Vfs) (names : List (List Byte)) (r : Option Nat) (after : Vfs) : Prop :=
  ∃ started, Returns (addRef s.root) s () started ∧ Resolves started s.root names r after

/-- A path is walked from the root, to which a reference is taken first. -/
theorem returns_fromRoot {α : Type} {s after : Vfs} {names : List (List Byte)} {a : α}
    (give : Option Nat → α) (notEmpty : ∀ name ∈ names, name ≠ []) :
    Returns (do
      let s ← get
      addRef s.root
      let found ← walk s.root names
      return give found : FsProg α) s a after ↔
        ∃ r, FromRoot s names r after ∧ give r = a := by
  simp only [returns_bind]
  constructor
  · rintro ⟨_, _, got, _, started, start, r, _, walked, returned⟩
    obtain ⟨rfl, rfl⟩ := returns_get.mp got
    obtain ⟨rfl, rfl⟩ := returns_pure.mp returned
    exact ⟨r, ⟨started, start, (returns_walk notEmpty).mp walked⟩, rfl⟩
  · rintro ⟨r, ⟨started, start, resolved⟩, rfl⟩
    exact ⟨s, s, returns_get.mpr ⟨rfl, rfl⟩, (), started, start, r, after,
      (returns_walk notEmpty).mpr resolved, returns_pure.mpr ⟨rfl, rfl⟩⟩

/-- `namei` is the walk over all components from the root. -/
theorem returns_namei {s after : Vfs} {path : List Byte} {r : Option Nat} :
    Returns (namei (slash :: path)) s r after ↔ FromRoot s (pathNames (slash :: path)) r after := by
  have run : namei (slash :: path) = (do
      let s ← get
      addRef s.root
      let found ← walk s.root (pathNames (slash :: path))
      return (found.map fun p => (p, ([] : List Byte))).map Prod.fst) := by
    rw [namei, namex_walk]
    simp only [bind_assoc, pure_bind]
  rw [run, returns_fromRoot _ (pathNames_ne_nil _)]
  simp [Function.comp_def]

theorem returns_nameiparent {s after : Vfs} {path : List Byte} {init : List (List Byte)}
    {last : List Byte} {r : Option (Nat × List Byte)}
    (names : pathNames (slash :: path) = init ++ [last]) :
    Returns (nameiparent (slash :: path)) s r after ↔
      ∃ found, FromRoot s init found after ∧ found.map (fun p => (p, last)) = r := by
  rw [nameiparent, namex_parent path init last names]
  refine returns_fromRoot _ fun name member => ?_
  refine pathNames_ne_nil (slash :: path) name ?_
  rw [names]
  exact List.mem_append_left _ member

/-- A path without a component has no parent, and the reference to the root is given back. -/
theorem returns_nameiparent_root {s after : Vfs} {path : List Byte} {r : Option (Nat × List Byte)}
    (noName : pathNames (slash :: path) = []) :
    Returns (nameiparent (slash :: path)) s r after ↔ r = none ∧
      ∃ started, Returns (addRef s.root) s () started ∧ Returns (iput s.root) started () after := by
  rw [nameiparent, namex_root path noName]
  simp only [returns_bind]
  constructor
  · rintro ⟨_, _, got, _, started, start, _, _, put, returned⟩
    obtain ⟨rfl, rfl⟩ := returns_get.mp got
    obtain ⟨rfl, rfl⟩ := returns_pure.mp returned
    exact ⟨rfl, started, start, put⟩
  · rintro ⟨rfl, started, start, put⟩
    exact ⟨s, s, returns_get.mpr ⟨rfl, rfl⟩, (), started, start, (), after, put,
      returns_pure.mpr ⟨rfl, rfl⟩⟩

/-- `nameiparent` returns exactly when the walk over all components but the last one does, and it
stores the last one. -/
theorem returns_nameiparent_components {s after : Vfs} {path : List Byte}
    {r : Option (Nat × List Byte)} : Returns (nameiparent (slash :: path)) s r after ↔
      (components (slash :: path) = [] ∧ r = none ∧ ∃ started,
        Returns (addRef s.root) s () started ∧ Returns (iput s.root) started () after) ∨
      (∃ init last, components (slash :: path) = init ++ [last] ∧ ∃ found,
        FromRoot s (init.map cut) found after ∧ found.map (fun p => (p, cut last)) = r) := by
  obtain noName | ⟨init, last, names⟩ := List.eq_nil_or_concat' (components (slash :: path))
  · have noCut : pathNames (slash :: path) = [] := by rw [pathNames, noName, List.map_nil]
    rw [returns_nameiparent_root noCut]
    constructor
    · exact fun returned => .inl ⟨noName, returned⟩
    · rintro (⟨-, returned⟩ | ⟨init, last, names, -⟩)
      · exact returned
      · simp [noName] at names
  · have cuts : pathNames (slash :: path) = init.map cut ++ [cut last] := by
      rw [pathNames, names, List.map_append, List.map_singleton]
    rw [returns_nameiparent cuts]
    constructor
    · exact fun returned => .inr ⟨init, last, names, returned⟩
    · rintro (⟨noName, -⟩ | ⟨init', last', names', returned⟩)
      · simp [names] at noName
      · obtain ⟨rfl, isLast⟩ := List.append_inj' (names.symm.trans names') rfl
        obtain rfl := List.singleton_inj.mp isLast
        exact returned

/-- `namei` looks up the components of the path, each cut off to 255 bytes, and `nameiparent` all
but the last one. -/
theorem path_resolution (s after : Vfs) (path : List Byte) :
    (∀ r, Returns (namei (slash :: path)) s r after ↔
      FromRoot s ((components (slash :: path)).map cut) r after) ∧
    (∀ r, Returns (nameiparent (slash :: path)) s r after ↔
      (components (slash :: path) = [] ∧ r = none ∧ ∃ started,
        Returns (addRef s.root) s () started ∧ Returns (iput s.root) started () after) ∨
      (∃ init last, components (slash :: path) = init ++ [last] ∧ ∃ found,
        FromRoot s (init.map cut) found after ∧ found.map (fun p => (p, cut last)) = r)) :=
  ⟨fun _ => returns_namei, fun _ => returns_nameiparent_components⟩

/-- The block of the root directory with a record more, for a name of 255 letters. -/
def longDisk : Nat → ByteMap := Function.update smallDisk 5 (copy (blockOf [(0, 4, 2), (4, 2, 12),
  (6, 1, 1), (7, 1, 2), (8, 1, 0x2E), (12, 4, 2), (16, 2, 12), (18, 1, 2), (19, 1, 2),
  (20, 2, 0x2E2E), (24, 4, 2), (28, 2, 4072), (30, 1, 255), (31, 1, 2)]) 32 255 fun _ => 0x61)

/-- A run that was computed from the unmounted state. -/
theorem returns_of_mount {α : Type} {disk : Nat → ByteMap} {program : FsProg α} {a : α}
    (computed : ((do
      let _ ← ext2FsInit
      program) (unmounted disk)).toOption.map Prod.fst = some a) :
    ∃ status s after, Returns ext2FsInit (unmounted disk) status s ∧ Returns program s a after := by
  obtain ⟨⟨got, after⟩, ran, rfl⟩ := Option.map_eq_some_iff.mp computed
  obtain ⟨status, s, mounted, returned⟩ := returns_bind.mp (returns_of_toOption ran)
  exact ⟨status, s, after, mounted, returned⟩

theorem longName_components : components (slash :: longName) = [longName] := by decide +kernel

/-- A name of 256 letters leads to the record for its first 255. -/
theorem long_component_cut : ¬ ∀ s after path r, Returns (namei (slash :: path)) s r after →
    FromRoot s (components (slash :: path)) r after := by
  intro resolves
  obtain ⟨status, s, scanned, mounted, scan⟩ := @returns_of_mount (Option Nat) longDisk (do
    let s ← get
    addRef s.root
    let inode ← derefInode s.root
    let started ← get
    lookupFrom s.root longName (dirBlocks started.blockSize inode.size) 0) none (by decide +kernel)
  obtain ⟨status', s', after, mounted', run⟩ := @returns_of_mount (Option Nat) longDisk
    (namei (slash :: longName)) (some 1) (by decide +kernel)
  obtain ⟨rfl, rfl⟩ := mounted.unique mounted'
  obtain ⟨started, start, resolved⟩ := resolves _ _ _ _ run
  rw [longName_components] at resolved
  obtain ⟨_, _, got, scan⟩ := returns_bind.mp scan
  obtain ⟨rfl, rfl⟩ := returns_get.mp got
  obtain ⟨_, _, start', scan⟩ := returns_bind.mp scan
  obtain ⟨-, rfl⟩ := start.unique start'
  obtain ⟨inode, _, deref, scan⟩ := returns_bind.mp scan
  obtain ⟨object, rfl⟩ := returns_derefInode.mp deref
  obtain ⟨_, _, got, scan⟩ := returns_bind.mp scan
  obtain ⟨rfl, rfl⟩ := returns_get.mp got
  cases resolved with
  | found isObject kind found iget put rest =>
    obtain rfl := Option.some.inj (object.symm.trans isObject)
    cases (scan.unique (returns_lookupFrom.mpr found)).1

end CuteCore.Fs
