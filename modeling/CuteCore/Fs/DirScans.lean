import CuteCore.Fs.Dir

/-!
# Scans of directory blocks

The scans of `ext2_lookup`, `ext2_unlink` and `ext2_dir_add_entry` over one block of
arbitrary bytes, with the ranges of the buffer that they touch. Headers are checked
against the end of the block, names and the place of a new record are not.

What a scan touches is listed as it goes: the header of each record, the bytes of a name
up to the first difference, and the header that an insertion or removal writes. The links
between the two say that a scan faults exactly where its list leaves the buffer, and that
it depends on nothing outside of the list.
-/

namespace CuteCore.Fs

open Hoare Bytes

/-- How many bytes `memcmp` looks at: it stops behind the first difference. -/
def compared (buf : ByteMap) (pos : Nat) : List Byte → Nat
  | [] => 0
  | b :: rest => if buf pos = b then compared buf (pos + 1) rest + 1 else 1

/-- A live record whose `name_len` is the length looked for. -/
def Candidate (buf : ByteMap) (name : List Byte) (pos : Nat) : Prop :=
  deInode buf pos ≠ 0 ∧ deNameLen buf pos = name.length % 256

/-- A live record with this name. -/
def Matches (buf : ByteMap) (name : List Byte) (pos : Nat) : Prop :=
  Candidate buf name pos ∧ (List.range name.length).map (fun i => buf (pos + 8 + i)) = name

instance (buf : ByteMap) (name : List Byte) (pos : Nat) : Decidable (Candidate buf name pos) :=
  inferInstanceAs (Decidable (_ ∧ _))

instance (buf : ByteMap) (name : List Byte) (pos : Nat) : Decidable (Matches buf name pos) :=
  inferInstanceAs (Decidable (_ ∧ _))

/-- The ranges, as start and length, that the scan of `ext2_lookup` and `ext2_unlink` reads
at one record. -/
def readsAt (buf : ByteMap) (name : List Byte) (pos : Nat) : List (Nat × Nat) :=
  if deRecLen buf pos ≠ 0 ∧ Candidate buf name pos then
    [(pos, 8), (pos + 8, compared buf (pos + 8) name)]
  else [(pos, 8)]

/-- The ranges that this scan reads. -/
def scanReads (buf : ByteMap) (blockSize : Nat) (name : List Byte) : Nat → Nat → List (Nat × Nat)
  | 0, _ => []
  | budget + 1, pos =>
    if blockSize < pos + 8 then []
    else if deRecLen buf pos = 0 ∨ Matches buf name pos then readsAt buf name pos
    else readsAt buf name pos ++ scanReads buf blockSize name budget (pos + deRecLen buf pos)

/-- The record at which this scan stops, with the one before it. -/
def scanFound (buf : ByteMap) (blockSize : Nat) (name : List Byte) :
    Nat → Option Nat → Nat → Option (Option Nat × Nat)
  | 0, _, _ => none
  | budget + 1, prev, pos =>
    if blockSize < pos + 8 then none
    else if deRecLen buf pos = 0 then none
    else if Matches buf name pos then some (prev, pos)
    else scanFound buf blockSize name budget (some pos) (pos + deRecLen buf pos)

/-- The range that `ext2_unlink` writes. -/
def unlinkWrites : Option (Option Nat × Nat) → List (Nat × Nat)
  | none => []
  | some (none, pos) => [(pos, 4)]
  | some (some before, _) => [(before + 4, 2)]

/-- The ranges that `ext2_dir_add_entry` writes for a record split off the one at `pos`. -/
def addWrites (buf : ByteMap) (name : List Byte) (pos : Nat) : List (Nat × Nat) :=
  [(pos + 4, 2), (pos + actualLen (deNameLen buf pos), 8 + name.length)]

/-- The ranges that the scan of `ext2_dir_add_entry` reads. -/
def slackReads (buf : ByteMap) (blockSize needed : Nat) : Nat → Nat → List (Nat × Nat)
  | 0, _ => []
  | budget + 1, pos =>
    if blockSize < pos + 8 then []
    else if deRecLen buf pos = 0 ∨ needed ≤ slackOf buf pos then [(pos, 8)]
    else (pos, 8) :: slackReads buf blockSize needed budget (pos + deRecLen buf pos)

/-- The positions that a walk along `rec_len` gets to. It goes on behind a record only if
`goes` holds there. -/
inductive Walk (buf : ByteMap) (blockSize : Nat) (goes : Nat → Prop) : Nat → Nat → Prop where
  | here (pos : Nat) : Walk buf blockSize goes pos pos
  | next {pos last : Nat} (inside : pos + 8 ≤ blockSize) (positive : deRecLen buf pos ≠ 0)
      (onwards : goes pos) (rest : Walk buf blockSize goes (pos + deRecLen buf pos) last) :
      Walk buf blockSize goes pos last

/-- A record of the block that is in use. -/
structure LiveRecord (buf : ByteMap) (blockSize pos : Nat) : Prop where
  reached : Walk buf blockSize (fun _ => True) 0 pos
  inside : pos + 8 ≤ blockSize
  positive : deRecLen buf pos ≠ 0
  used : deInode buf pos ≠ 0

/-- The range `[a, a + n)` and the header and name of the record at `pos` do not meet. -/
def ApartFrom (buf : ByteMap) (pos : Nat) (range : Nat × Nat) : Prop :=
  range.1 + range.2 ≤ pos ∨ pos + 8 + deNameLen buf pos ≤ range.1

/-- The record that `ext2_dir_add_entry` splits. -/
def taken (buf : ByteMap) (blockSize : Nat) (name : List Byte) : Option Nat :=
  findSlack buf blockSize (actualLen name.length) blockSize 0

/-- The three scans end, touch bytes of the block only, and a new record meets no live one
but the one it is split off, behind that one's header and name. -/
structure ScansSafely (buf : ByteMap) (blockSize : Nat) (name : List Byte) : Prop where
  ends : ∀ more, scanReads buf blockSize name (blockSize + more) 0 =
      scanReads buf blockSize name blockSize 0 ∧
    scanFound buf blockSize name (blockSize + more) none 0 =
      scanFound buf blockSize name blockSize none 0 ∧
    slackReads buf blockSize (actualLen name.length) (blockSize + more) 0 =
      slackReads buf blockSize (actualLen name.length) blockSize 0 ∧
    findSlack buf blockSize (actualLen name.length) (blockSize + more) 0 = taken buf blockSize name
  lookup : ∀ range ∈ scanReads buf blockSize name blockSize 0, range.1 + range.2 ≤ blockSize
  unlink : ∀ range ∈ unlinkWrites (scanFound buf blockSize name blockSize none 0),
    range.1 + range.2 ≤ blockSize
  add : ∀ range ∈ slackReads buf blockSize (actualLen name.length) blockSize 0,
    range.1 + range.2 ≤ blockSize
  split : ∀ pos, taken buf blockSize name = some pos → ∀ range ∈ addWrites buf name pos,
    range.1 + range.2 ≤ blockSize ∧ ∀ live, LiveRecord buf blockSize live → live ≠ pos →
      ApartFrom buf live range
  keepsName : ∀ pos, taken buf blockSize name = some pos →
    pos + 8 + deNameLen buf pos ≤ pos + actualLen (deNameLen buf pos)

/-- Candidates that the scan gets to can be compared inside the block. The new record ends
inside the block, and where the record it is split off is shorter than its own header and
name, no live record behind that one lies in the way. -/
structure WellPlaced (buf : ByteMap) (blockSize : Nat) (name : List Byte) : Prop where
  names : ∀ pos, Walk buf blockSize (fun p => ¬ Matches buf name p) 0 pos →
    pos + 8 ≤ blockSize → deRecLen buf pos ≠ 0 → Candidate buf name pos →
    pos + 8 + compared buf (pos + 8) name ≤ blockSize
  room : ∀ pos, taken buf blockSize name = some pos →
    pos + actualLen (deNameLen buf pos) + 8 + name.length ≤ blockSize
  inTheWay : ∀ pos, taken buf blockSize name = some pos →
    deRecLen buf pos < actualLen (deNameLen buf pos) →
    ∀ live, LiveRecord buf blockSize live → pos < live →
      ∀ range ∈ addWrites buf name pos, ApartFrom buf live range

theorem deNameLen_lt (buf : ByteMap)
    (pos : Nat) : deNameLen buf pos < 256 := load_lt buf (pos + 6) 1

theorem deRecLen_lt (buf : ByteMap)
    (pos : Nat) : deRecLen buf pos < 65536 := load_lt buf (pos + 4) 2

theorem actualLen_of_small {n : Nat} (small : n < 256) : actualLen n = (n + 11) / 4 * 4 := by
  unfold actualLen u32
  omega

/-- A record that is passed over covers its own header and name. -/
theorem passed_over {buf : ByteMap} {pos needed : Nat} (small : needed ≤ 264)
    (passed : ¬ needed ≤ slackOf buf pos) :
    actualLen (deNameLen buf pos) ≤ deRecLen buf pos := by
  have nameSmall := deNameLen_lt buf pos
  have recSmall := deRecLen_lt buf pos
  have actual := actualLen_of_small nameSmall
  unfold slackOf sub32 u32 at passed
  omega

/-- A record that covers its header and name has the room that is split off. -/
theorem slack_covers {buf : ByteMap} {pos needed : Nat} (enough : needed ≤ slackOf buf pos)
    (covers : actualLen (deNameLen buf pos) ≤ deRecLen buf pos) :
    actualLen (deNameLen buf pos) + needed ≤ deRecLen buf pos := by
  have recSmall := deRecLen_lt buf pos
  unfold slackOf sub32 u32 at enough
  omega

section

variable {buf : ByteMap} {blockSize : Nat} {name : List Byte}

/-- The block size bounds the passes of a scan. -/
theorem scanReads_more (budget more pos : Nat) (enough : blockSize ≤ budget + pos) :
    scanReads buf blockSize name (budget + more) pos = scanReads buf blockSize name budget pos := by
  induction budget generalizing pos with
  | zero =>
    cases more with
    | zero => rfl
    | succ more =>
      rw [Nat.zero_add, scanReads, scanReads, if_pos (by omega)]
  | succ budget inductionHypothesis =>
    rw [Nat.succ_add, scanReads, scanReads]
    split
    · rfl
    · split
      · rfl
      · rename_i onwards
        rw [not_or] at onwards
        rw [inductionHypothesis _ (by omega)]

/-- A budget that reaches to the end of the block is enough for the scan: more of it changes
nothing. -/
theorem scanFound_more (budget more : Nat) (prev : Option Nat) (pos : Nat)
    (enough : blockSize ≤ budget + pos) : scanFound buf blockSize name (budget + more) prev pos =
      scanFound buf blockSize name budget prev pos := by
  induction budget generalizing prev pos with
  | zero =>
    cases more with
    | zero => rfl
    | succ more =>
      rw [Nat.zero_add, scanFound, scanFound, if_pos (by omega)]
  | succ budget inductionHypothesis =>
    rw [Nat.succ_add, scanFound, scanFound]
    split
    · rfl
    · split
      · rfl
      · split
        · rfl
        · exact inductionHypothesis _ _ (by omega)

/-- A budget that reaches to the end of the block is enough for the list of accesses. -/
theorem slackReads_more {needed : Nat} (budget more pos : Nat) (enough : blockSize ≤ budget + pos) :
    slackReads buf blockSize needed (budget + more) pos =
      slackReads buf blockSize needed budget pos := by
  induction budget generalizing pos with
  | zero =>
    cases more with
    | zero => rfl
    | succ more =>
      rw [Nat.zero_add, slackReads, slackReads, if_pos (by omega)]
  | succ budget inductionHypothesis =>
    rw [Nat.succ_add, slackReads, slackReads]
    split
    · rfl
    · split
      · rfl
      · rename_i onwards
        rw [not_or] at onwards
        rw [inductionHypothesis _ (by omega)]

/-- A budget that reaches to the end of the block is enough for the search for room. -/
theorem findSlack_more {needed : Nat} (budget more pos : Nat) (enough : blockSize ≤ budget + pos) :
    findSlack buf blockSize needed (budget + more) pos =
      findSlack buf blockSize needed budget pos := by
  induction budget generalizing pos with
  | zero =>
    cases more with
    | zero => rfl
    | succ more =>
      rw [Nat.zero_add, findSlack, findSlack, if_pos (by omega)]
  | succ budget inductionHypothesis =>
    rw [Nat.succ_add, findSlack, findSlack]
    split
    · rfl
    · split
      · rfl
      · split
        · rfl
        · exact inductionHypothesis _ (by omega)

/-- `memcmp` has a result exactly when the bytes it looks at are bytes of the buffer. -/
theorem sameBytes_eq (pos : Nat) : sameBytes buf pos name =
    if compared buf pos name = 0 ∨ pos + compared buf pos name ≤ blkSz then
      some (decide ((List.range name.length).map (fun i => buf (pos + i)) = name))
    else none := by
  induction name generalizing pos with
  | nil => rfl
  | cons c rest inductionHypothesis =>
    have tail : (List.range rest.length).map (fun i => buf (pos + (i + 1))) =
        (List.range rest.length).map (fun i => buf (pos + 1 + i)) := by
      refine List.map_congr_left fun i _ => ?_
      rw [Nat.add_assoc, Nat.add_comm 1 i]
    have names : (List.range (c :: rest).length).map (fun i => buf (pos + i)) =
        buf pos :: (List.range rest.length).map (fun i => buf (pos + 1 + i)) := by
      rw [List.length_cons, List.range_succ_eq_map, List.map_cons, List.map_map, Nat.add_zero,
        Function.comp_def, tail]
    rw [sameBytes, compared, names, inductionHypothesis]
    by_cases outside : blkSz ≤ pos
    · have beyond : ¬ ((if buf pos = c then compared buf (pos + 1) rest + 1 else 1) = 0 ∨
          pos + (if buf pos = c then compared buf (pos + 1) rest + 1 else 1) ≤ blkSz) := by
        split <;> omega
      rw [if_pos outside, if_neg beyond]
    · rw [if_neg outside]
      by_cases same : buf pos = c
      · rw [if_pos same, if_pos same]
        have bound : (compared buf (pos + 1) rest = 0 ∨ pos + 1 + compared buf (pos + 1) rest ≤ blkSz) ↔
            (compared buf (pos + 1) rest + 1 = 0 ∨ pos + (compared buf (pos + 1) rest + 1) ≤ blkSz) := by
          omega
        rw [if_congr bound rfl rfl]
        simp [same]
      · rw [if_neg same, if_neg same, if_pos (by omega)]
        simp [same]

/-- The scan of the file system's functions ends where `scanFound` does as long as its reads
stay in the buffer. -/
theorem scanFrom_found (budget : Nat) (prev : Option Nat) (pos : Nat)
    (inside : ∀ range ∈ scanReads buf blockSize name budget pos, range.1 + range.2 ≤ blkSz) :
    scanFrom buf blockSize name budget prev pos =
      (scanFound buf blockSize name budget prev pos).elim .absent fun at' =>
        .found at'.1 at'.2 := by
  induction budget generalizing prev pos with
  | zero => rfl
  | succ budget inductionHypothesis =>
    rw [scanFrom, scanFound]
    rw [scanReads] at inside
    by_cases beyond : blockSize < pos + 8
    · rw [if_pos beyond, if_pos beyond]
      rfl
    rw [if_neg beyond, if_neg beyond]
    rw [if_neg beyond] at inside
    by_cases stops : deRecLen buf pos = 0
    · rw [if_pos stops, if_pos stops]
      rfl
    rw [if_neg stops, if_neg stops]
    by_cases matched : Matches buf name pos
    · have read : ∀ range ∈ readsAt buf name pos, range.1 + range.2 ≤ blkSz := by
        rwa [if_pos (Or.inr matched)] at inside
      rw [readsAt, if_pos ⟨stops, matched.1⟩] at read
      have compare := read (pos + 8, compared buf (pos + 8) name) (by simp)
      rw [if_pos (show deInode buf pos ≠ 0 ∧ _ from matched.1), if_pos matched, sameBytes_eq,
        if_pos (Or.inr compare), decide_eq_true matched.2]
      rfl
    · have read : ∀ range ∈ readsAt buf name pos ++
          scanReads buf blockSize name budget (pos + deRecLen buf pos),
          range.1 + range.2 ≤ blkSz := by
        rwa [if_neg (not_or.mpr ⟨stops, matched⟩)] at inside
      have later := inductionHypothesis (some pos) _ fun range member =>
        read range (List.mem_append_right _ member)
      rw [if_neg matched]
      by_cases candidate : Candidate buf name pos
      · have compare := read (pos + 8, compared buf (pos + 8) name) (by
          rw [readsAt, if_pos ⟨stops, candidate⟩]
          simp)
        rw [if_pos (show deInode buf pos ≠ 0 ∧ _ from candidate), sameBytes_eq,
          if_pos (Or.inr compare), decide_eq_false fun same => matched ⟨candidate, same⟩]
        exact later
      · rw [if_neg (show ¬ (deInode buf pos ≠ 0 ∧ _) from candidate)]
        exact later

/-- `memcmp` depends on the bytes it looks at. -/
theorem compared_congr {other : ByteMap} (pos : Nat)
    (same : SameOn buf other pos (compared buf pos name)) :
    compared buf pos name = compared other pos name ∧
      sameBytes buf pos name = sameBytes other pos name := by
  induction name generalizing pos with
  | nil => exact ⟨rfl, rfl⟩
  | cons c rest inductionHypothesis =>
    rw [compared] at same
    have first : buf pos = other pos := same pos (Nat.le_refl _) (by split <;> omega)
    rw [compared, compared, sameBytes, sameBytes, ← first]
    by_cases isByte : buf pos = c
    · rw [if_pos isByte] at same
      obtain ⟨sameLength, sameResult⟩ :=
        inductionHypothesis (pos + 1) (same.sub (Nat.le_succ _) (by omega))
      rw [if_pos isByte, if_pos isByte, if_pos isByte, if_pos isByte, sameLength, sameResult]
      exact ⟨rfl, rfl⟩
    · rw [if_neg isByte, if_neg isByte, if_neg isByte, if_neg isByte]
      exact ⟨rfl, rfl⟩

/-- A header is eight bytes. -/
theorem header_congr {other : ByteMap} {pos : Nat} (same : SameOn buf other pos 8) :
    deInode buf pos = deInode other pos ∧ deRecLen buf pos = deRecLen other pos ∧
      deNameLen buf pos = deNameLen other pos :=
  ⟨load_congr (same.sub (Nat.le_refl _) (by omega)),
    load_congr (same.sub (by omega) (by omega)), load_congr (same.sub (by omega) (by omega))⟩

/-- The scan of `ext2_lookup` and `ext2_unlink` depends on the bytes of `scanReads` only. -/
theorem scanFrom_reads {other : ByteMap} (budget : Nat) (prev : Option Nat) (pos : Nat)
    (same : ∀ range ∈ scanReads buf blockSize name budget pos, SameOn buf other range.1 range.2) :
    scanFrom buf blockSize name budget prev pos = scanFrom other blockSize name budget prev pos := by
  induction budget generalizing prev pos with
  | zero => rfl
  | succ budget inductionHypothesis =>
    rw [scanFrom, scanFrom]
    rw [scanReads] at same
    by_cases beyond : blockSize < pos + 8
    · rw [if_pos beyond, if_pos beyond]
    rw [if_neg beyond] at same
    have here : ∀ range ∈ readsAt buf name pos, SameOn buf other range.1 range.2 := by
      intro range member
      split at same
      · exact same range member
      · exact same range (List.mem_append_left _ member)
    have header : SameOn buf other pos 8 := here (pos, 8) (by rw [readsAt]; split <;> simp)
    obtain ⟨sameInode, sameRecLen, sameNameLen⟩ := header_congr header
    rw [if_neg beyond, if_neg beyond, ← sameInode, ← sameRecLen, ← sameNameLen]
    by_cases stops : deRecLen buf pos = 0
    · rw [if_pos stops, if_pos stops]
    rw [if_neg stops, if_neg stops]
    have later : ¬ Matches buf name pos →
        scanFrom buf blockSize name budget (some pos) (pos + deRecLen buf pos) =
          scanFrom other blockSize name budget (some pos) (pos + deRecLen buf pos) := by
      intro other
      rw [if_neg (not_or.mpr ⟨stops, other⟩)] at same
      exact inductionHypothesis (some pos) _ fun range member =>
        same range (List.mem_append_right _ member)
    by_cases candidate : Candidate buf name pos
    · have bytes : SameOn buf other (pos + 8) (compared buf (pos + 8) name) :=
        here (pos + 8, compared buf (pos + 8) name) (by
          rw [readsAt, if_pos ⟨stops, candidate⟩]
          simp)
      rw [if_pos (show deInode buf pos ≠ 0 ∧ _ from candidate),
        if_pos (show deInode buf pos ≠ 0 ∧ _ from candidate), ← (compared_congr _ bytes).2]
      cases result : sameBytes buf (pos + 8) name with
      | none => rfl
      | some isName =>
        cases isName with
        | true => rfl
        | false =>
          refine later fun isMatch => ?_
          rw [sameBytes_eq] at result
          split at result
          · exact of_decide_eq_false (Option.some.inj result) isMatch.2
          · cases result
    · rw [if_neg (show ¬ (deInode buf pos ≠ 0 ∧ _) from candidate),
        if_neg (show ¬ (deInode buf pos ≠ 0 ∧ _) from candidate)]
      exact later fun isMatch => candidate isMatch.1

/-- The scan of `ext2_dir_add_entry` depends on the bytes of `slackReads` only. -/
theorem findSlack_reads {other : ByteMap} {needed : Nat} (budget pos : Nat)
    (same : ∀ range ∈ slackReads buf blockSize needed budget pos,
      SameOn buf other range.1 range.2) :
    findSlack buf blockSize needed budget pos = findSlack other blockSize needed budget pos := by
  induction budget generalizing pos with
  | zero => rfl
  | succ budget inductionHypothesis =>
    rw [findSlack, findSlack]
    rw [slackReads] at same
    by_cases beyond : blockSize < pos + 8
    · rw [if_pos beyond, if_pos beyond]
    rw [if_neg beyond] at same
    have header : SameOn buf other pos 8 := by
      split at same
      · exact same (pos, 8) (List.mem_singleton_self _)
      · exact same (pos, 8) List.mem_cons_self
    obtain ⟨-, sameRecLen, sameNameLen⟩ := header_congr header
    have sameSlack : slackOf buf pos = slackOf other pos := by
      rw [slackOf, slackOf, sameRecLen, sameNameLen]
    rw [if_neg beyond, if_neg beyond, ← sameRecLen, ← sameSlack]
    by_cases stops : deRecLen buf pos = 0
    · rw [if_pos stops, if_pos stops]
    rw [if_neg stops, if_neg stops]
    by_cases enough : needed ≤ slackOf buf pos
    · rw [if_pos enough, if_pos enough]
    · rw [if_neg (not_or.mpr ⟨stops, enough⟩)] at same
      rw [if_neg enough, if_neg enough]
      exact inductionHypothesis _ fun range member => same range (List.mem_cons_of_mem _ member)

/-- A record at which a scan looks: its header is in the block and its length is not 0. -/
structure Header (buf : ByteMap) (blockSize pos : Nat) : Prop where
  inside : pos + 8 ≤ blockSize
  positive : deRecLen buf pos ≠ 0

/-- From `pos` on every `memcmp` of the scan ends inside the buffer. -/
def ComparesInside (buf : ByteMap) (blockSize : Nat) (name : List Byte) (pos : Nat) : Prop :=
  ∀ q, Walk buf blockSize (fun p => ¬ Matches buf name p) pos q → Header buf blockSize q →
    Candidate buf name q → sameBytes buf (q + 8) name ≠ none

/-- No record from `pos` on is live and has the name. -/
def NoneNamed (buf : ByteMap) (blockSize : Nat) (name : List Byte) (pos : Nat) : Prop :=
  ∀ q, Walk buf blockSize (fun _ => True) pos q → Header buf blockSize q → ¬ Matches buf name q

/-- The first live record from `pos` on that has the name. -/
structure FirstNamed (buf : ByteMap) (blockSize : Nat) (name : List Byte) (pos q : Nat) : Prop where
  earlier : Walk buf blockSize (fun p => ¬ Matches buf name p) pos q
  header : Header buf blockSize q
  isMatch : Matches buf name q

/-- What the outcome of a scan from `pos` on says about the records of the block. -/
def ScanMeans (buf : ByteMap) (blockSize : Nat) (name : List Byte) (pos : Nat) : Scan → Prop
  | .found _ q => ComparesInside buf blockSize name pos ∧ FirstNamed buf blockSize name pos q
  | .absent => ComparesInside buf blockSize name pos ∧ NoneNamed buf blockSize name pos
  | .outOfBounds => ¬ ComparesInside buf blockSize name pos

theorem sameBytes_matches {pos : Nat} {same : Bool} (candidate : Candidate buf name pos)
    (compared : sameBytes buf (pos + 8) name = some same) :
    Matches buf name pos ↔ same = true := by
  rw [sameBytes_eq] at compared
  split at compared
  · obtain rfl := Option.some.inj compared
    rw [decide_eq_true_eq]
    exact ⟨fun isMatch => isMatch.2, fun named => ⟨candidate, named⟩⟩
  · cases compared

/-- Without a header the scan ends. -/
theorem scan_ends {pos : Nat} (none : ¬ Header buf blockSize pos) :
    ComparesInside buf blockSize name pos ∧ NoneNamed buf blockSize name pos := by
  have only : ∀ {goes : Nat → Prop} {q : Nat}, Walk buf blockSize goes pos q →
      Header buf blockSize q → False := by
    intro goes q walk header
    cases walk with
    | here => exact none header
    | next inside positive => exact none ⟨inside, positive⟩
  exact ⟨fun q walk header => (only walk header).elim, fun q walk header => (only walk header).elim⟩

/-- Behind a record without the name the scan goes on. -/
theorem scan_passes {pos : Nat} (header : Header buf blockSize pos) (other : ¬ Matches buf name pos)
    (ends : Candidate buf name pos → sameBytes buf (pos + 8) name ≠ none) {outcome : Scan}
    (later : ScanMeans buf blockSize name (pos + deRecLen buf pos) outcome) :
    ScanMeans buf blockSize name pos outcome := by
  have compares : ComparesInside buf blockSize name pos ↔
      ComparesInside buf blockSize name (pos + deRecLen buf pos) := by
    constructor
    · exact fun inside q walk => inside q (.next header.inside header.positive other walk)
    · intro inside q walk
      cases walk with
      | here => exact fun _ => ends
      | next _ _ _ rest => exact inside q rest
  cases outcome with
  | found before q =>
    obtain ⟨inside, first⟩ := later
    exact ⟨compares.mpr inside, .next header.inside header.positive other first.earlier,
      first.header, first.isMatch⟩
  | absent =>
    obtain ⟨inside, none⟩ := later
    refine ⟨compares.mpr inside, fun q walk => ?_⟩
    cases walk with
    | here => exact fun _ => other
    | next _ _ _ rest => exact none q rest
  | outOfBounds => exact fun inside => later (compares.mp inside)

/-- The scan finds the first live record with the name where there is one, as long as each
`memcmp` ends inside the buffer. -/
theorem scanFrom_means (budget : Nat) (prev : Option Nat) (pos : Nat)
    (enough : blockSize ≤ budget + pos) :
    ScanMeans buf blockSize name pos (scanFrom buf blockSize name budget prev pos) := by
  induction budget generalizing prev pos with
  | zero => exact scan_ends fun header => absurd header.inside (by omega)
  | succ budget inductionHypothesis =>
    rw [scanFrom]
    by_cases beyond : blockSize < pos + 8
    · rw [if_pos beyond]
      exact scan_ends fun header => absurd header.inside (Nat.not_le.mpr beyond)
    by_cases stops : deRecLen buf pos = 0
    · rw [if_neg beyond, if_pos stops]
      exact scan_ends fun header => header.positive stops
    have header : Header buf blockSize pos := ⟨Nat.not_lt.mp beyond, stops⟩
    have later := inductionHypothesis (some pos) (pos + deRecLen buf pos) (by omega)
    rw [if_neg beyond, if_neg stops]
    by_cases candidate : Candidate buf name pos
    · rw [if_pos (show deInode buf pos ≠ 0 ∧ _ from candidate)]
      cases compared : sameBytes buf (pos + 8) name with
      | none => exact fun inside => inside pos (.here pos) header candidate compared
      | some same =>
        have isMatch := sameBytes_matches candidate compared
        cases same with
        | true =>
          refine ⟨fun q walk _ _ => ?_, .here pos, header, isMatch.mpr rfl⟩
          cases walk with
          | here => rw [compared]; exact Option.some_ne_none true
          | next _ _ onwards => exact absurd (isMatch.mpr rfl) onwards
        | false =>
          exact scan_passes header (fun named => Bool.false_ne_true (isMatch.mp named))
            (fun _ => by rw [compared]; exact Option.some_ne_none false) later
    · rw [if_neg (show ¬ (deInode buf pos ≠ 0 ∧ _) from candidate)]
      exact scan_passes header (fun named => candidate named.1) (fun isOne => absurd isOne candidate)
        later

/-- There is one first record with a name. -/
theorem FirstNamed.unique {pos q other : Nat} (first : FirstNamed buf blockSize name pos q)
    (first' : FirstNamed buf blockSize name pos other) : q = other := by
  obtain ⟨earlier, header, isMatch⟩ := first
  induction earlier with
  | here at' =>
    cases first'.earlier with
    | here => rfl
    | next _ _ onwards => exact absurd isMatch onwards
  | next _ _ onwards _ inductionHypothesis =>
    cases first'.earlier with
    | here => exact absurd first'.isMatch onwards
    | next _ _ _ rest => exact inductionHypothesis ⟨rest, first'.header, first'.isMatch⟩ header isMatch

theorem Walk.anywhere {goes : Nat → Prop} {pos last : Nat}
    (walk : Walk buf blockSize goes pos last) :
    Walk buf blockSize (fun _ => True) pos last := by
  induction walk with
  | here => exact .here _
  | next inside positive _ _ inductionHypothesis =>
    exact .next inside positive trivial inductionHypothesis

/-- A scan that found none is one of a block without such a record. -/
theorem scanFrom_absent_iff : scanFrom buf blockSize name blockSize none 0 = .absent ↔
    ComparesInside buf blockSize name 0 ∧ NoneNamed buf blockSize name 0 := by
  have means := @scanFrom_means buf blockSize name blockSize none 0 (Nat.le_refl _)
  constructor
  · intro absent
    rwa [absent] at means
  · rintro ⟨inside, none⟩
    cases scanned : scanFrom buf blockSize name blockSize .none 0 with
    | absent => rfl
    | found before q =>
      rw [scanned] at means
      exact absurd means.2.isMatch (none q means.2.earlier.anywhere means.2.header)
    | outOfBounds =>
      rw [scanned] at means
      exact absurd inside means

/-- A scan that found a record stopped at the first one. -/
theorem scanFrom_found_iff {q : Nat} :
    (∃ before, scanFrom buf blockSize name blockSize none 0 = .found before q) ↔
      ComparesInside buf blockSize name 0 ∧ FirstNamed buf blockSize name 0 q := by
  have means := @scanFrom_means buf blockSize name blockSize none 0 (Nat.le_refl _)
  constructor
  · rintro ⟨before, found⟩
    rwa [found] at means
  · rintro ⟨inside, first⟩
    cases scanned : scanFrom buf blockSize name blockSize none 0 with
    | absent =>
      rw [scanned] at means
      exact absurd first.isMatch (means.2 q first.earlier.anywhere first.header)
    | found before other =>
      rw [scanned] at means
      exact ⟨before, by rw [means.2.unique first]⟩
    | outOfBounds =>
      rw [scanned] at means
      exact absurd inside means

/-- The reads stay inside exactly when the candidates on the way do. -/
theorem scanReads_inside_iff (budget pos : Nat) (enough : blockSize ≤ budget + pos) :
    (∀ range ∈ scanReads buf blockSize name budget pos, range.1 + range.2 ≤ blockSize) ↔
      ∀ last, Walk buf blockSize (fun p => ¬ Matches buf name p) pos last →
        last + 8 ≤ blockSize → deRecLen buf last ≠ 0 → Candidate buf name last →
        last + 8 + compared buf (last + 8) name ≤ blockSize := by
  induction budget generalizing pos with
  | zero =>
    rw [scanReads]
    refine ⟨fun _ last walk inside => ?_, fun _ range none => absurd none List.not_mem_nil⟩
    cases walk with
    | here => omega
    | next within => omega
  | succ budget inductionHypothesis =>
    rw [scanReads]
    split
    · rename_i beyond
      refine ⟨fun _ last walk inside => ?_, fun _ range none => absurd none List.not_mem_nil⟩
      cases walk with
      | here => omega
      | next within => omega
    · rename_i within
      have inside : pos + 8 ≤ blockSize := Nat.not_lt.mp within
      have here : (∀ range ∈ readsAt buf name pos, range.1 + range.2 ≤ blockSize) ↔
          (deRecLen buf pos ≠ 0 → Candidate buf name pos →
            pos + 8 + compared buf (pos + 8) name ≤ blockSize) := by
        rw [readsAt]
        split
        · rename_i both
          simp [inside, both.1, both.2]
        · rename_i neither
          simp only [List.mem_singleton, forall_eq, inside, true_iff]
          exact fun positive candidate => absurd ⟨positive, candidate⟩ neither
      split
      · rename_i stops
        rw [here]
        refine ⟨fun holds last walk _ => ?_, fun holds => holds pos (.here pos) inside⟩
        cases walk with
        | here => exact holds
        | next _ positive onwards => exact (stops.elim positive onwards).elim
      · rename_i goes
        rw [not_or] at goes
        simp only [List.forall_mem_append]
        rw [here, inductionHypothesis _ (by omega)]
        constructor
        · rintro ⟨first, later⟩ last walk
          cases walk with
          | here => exact fun _ => first
          | next _ _ _ rest => exact later last rest
        · intro holds
          exact ⟨holds pos (.here pos) inside,
            fun last walk => holds last (.next inside goes.1 goes.2 walk)⟩

/-- Both records named by the scan have their headers inside the block. -/
theorem scanFound_inside (budget : Nat) {prev : Option Nat} {pos : Nat}
    (before : ∀ p, prev = some p → p + 8 ≤ blockSize) :
    ∀ range ∈ unlinkWrites (scanFound buf blockSize name budget prev pos),
      range.1 + range.2 ≤ blockSize := by
  induction budget generalizing prev pos with
  | zero => exact fun range none => absurd none List.not_mem_nil
  | succ budget inductionHypothesis =>
    rw [scanFound]
    split
    · exact fun range none => absurd none List.not_mem_nil
    · split
      · exact fun range none => absurd none List.not_mem_nil
      · split
        · cases prev with
          | none =>
            simp only [unlinkWrites, List.mem_singleton, forall_eq]
            omega
          | some p =>
            have inside := before p rfl
            simp only [unlinkWrites, List.mem_singleton, forall_eq]
            omega
        · apply inductionHypothesis
          rintro p ⟨rfl⟩
          omega

/-- The search for room reads headers that lie in the block, and nothing else. -/
theorem slackReads_inside {needed : Nat} (budget pos : Nat) :
    ∀ range ∈ slackReads buf blockSize needed budget pos, range.1 + range.2 ≤ blockSize := by
  induction budget generalizing pos with
  | zero => exact fun range none => absurd none List.not_mem_nil
  | succ budget inductionHypothesis =>
    rw [slackReads]
    split
    · exact fun range none => absurd none List.not_mem_nil
    · rename_i within
      have inside : pos + 8 ≤ blockSize := Nat.not_lt.mp within
      split
      · simpa using inside
      · intro range member
        rcases List.mem_cons.mp member with isHere | later
        · rw [isHere]
          exact inside
        · exact inductionHypothesis _ range later

theorem Walk.le {goes : Nat → Prop} {pos last : Nat} (walk : Walk buf blockSize goes pos last) :
    pos ≤ last := by
  induction walk with
  | here => exact Nat.le_refl _
  | next _ _ _ _ inductionHypothesis => omega

/-- The record taken has enough room, and every other record of the chain lies in front of
it with its header and name, or behind its end. -/
theorem findSlack_spec {needed : Nat} (small : needed ≤ 264) (budget pos : Nat) {found : Nat}
    (isFound : findSlack buf blockSize needed budget pos = some found) :
    pos ≤ found ∧ found + 8 ≤ blockSize ∧ needed ≤ slackOf buf found ∧
      ∀ other, Walk buf blockSize (fun _ => True) pos other →
        other + actualLen (deNameLen buf other) ≤ found ∨ other = found ∨
          found + deRecLen buf found ≤ other := by
  induction budget generalizing pos with
  | zero => cases isFound
  | succ budget inductionHypothesis =>
    rw [findSlack] at isFound
    split at isFound
    · cases isFound
    · rename_i within
      split at isFound
      · cases isFound
      · split at isFound
        · rename_i enough
          cases isFound
          refine ⟨Nat.le_refl _, Nat.not_lt.mp within, enough, fun other walk => ?_⟩
          cases walk with
          | here => exact Or.inr (Or.inl rfl)
          | next _ _ _ rest => exact Or.inr (Or.inr rest.le)
        · rename_i passed
          obtain ⟨later, inside, enough, others⟩ := inductionHypothesis _ isFound
          have covers := passed_over small passed
          refine ⟨by omega, inside, enough, fun other walk => ?_⟩
          cases walk with
          | here => exact Or.inl (by omega)
          | next _ _ _ rest => exact others other rest

/-- The scans are safe on a block exactly when its records are well placed for the name. -/
theorem scans_safe_iff (some : 1 ≤ name.length) (short : name.length ≤ 255) :
    ScansSafely buf blockSize name ↔ WellPlaced buf blockSize name := by
  have needed : actualLen name.length = (name.length + 11) / 4 * 4 := actualLen_of_small (by omega)
  have spec : ∀ pos, taken buf blockSize name = Option.some pos → pos + 8 ≤ blockSize ∧
      actualLen name.length ≤ slackOf buf pos ∧ ∀ other, Walk buf blockSize (fun _ => True) 0 other →
        other + actualLen (deNameLen buf other) ≤ pos ∨ other = pos ∨
          pos + deRecLen buf pos ≤ other :=
    fun pos isTaken => (findSlack_spec (by omega) _ _ isTaken).2
  constructor
  · intro safe
    constructor
    · exact (scanReads_inside_iff blockSize 0 (Nat.le_refl _)).mp safe.lookup
    · intro pos isTaken
      have inside := (safe.split pos isTaken (pos + actualLen (deNameLen buf pos), 8 + name.length)
        (List.mem_cons_of_mem _ (List.mem_singleton_self _))).1
      simp only at inside
      omega
    · intro pos isTaken _ live isLive behind range member
      exact (safe.split pos isTaken range member).2 live isLive (by omega)
  · intro placed
    constructor
    · intro more
      exact ⟨scanReads_more _ _ _ (Nat.le_refl _), scanFound_more _ _ _ _ (Nat.le_refl _),
        slackReads_more _ _ _ (Nat.le_refl _), findSlack_more _ _ _ (Nat.le_refl _)⟩
    · exact (scanReads_inside_iff blockSize 0 (Nat.le_refl _)).mpr placed.names
    · exact scanFound_inside blockSize fun p none => by cases none
    · exact slackReads_inside blockSize 0
    · intro pos isTaken range member
      obtain ⟨header, enough, others⟩ := spec pos isTaken
      have room := placed.room pos isTaken
      have actual := actualLen_of_small (deNameLen_lt buf pos)
      have either : range = (pos + 4, 2) ∨
          range = (pos + actualLen (deNameLen buf pos), 8 + name.length) := by
        simpa [addWrites] using member
      constructor
      · rcases either with rfl | rfl <;> simp only <;> omega
      · intro live isLive differs
        have liveActual := actualLen_of_small (deNameLen_lt buf live)
        rcases others live isLive.reached with front | same | behind
        · right
          rcases either with rfl | rfl <;> simp only <;> omega
        · exact absurd same differs
        · by_cases covers : actualLen (deNameLen buf pos) ≤ deRecLen buf pos
          · have whole := slack_covers enough covers
            left
            rcases either with rfl | rfl <;> simp only <;> omega
          · have positive := isLive.positive
            exact placed.inTheWay pos isTaken (by omega) live isLive (by omega) range member
    · intro pos _
      have actual := actualLen_of_small (deNameLen_lt buf pos)
      omega

/-- Where the scans are safe on a block, those of the file system's functions end inside their
buffer and find what `scanFound` says, they depend on the bytes of their reads only, and the
block that is written back differs from it in the ranges of the writes only. -/
theorem ScansSafely.accesses (safe : ScansSafely buf blockSize name) (fits : blockSize ≤ blkSz) :
    (scanFrom buf blockSize name blockSize none 0 =
      (scanFound buf blockSize name blockSize none 0).elim .absent fun found =>
        .found found.1 found.2) ∧
    (∀ other : ByteMap, (∀ range ∈ scanReads buf blockSize name blockSize 0 ++
        slackReads buf blockSize (actualLen name.length) blockSize 0,
        SameOn buf other range.1 range.2) →
      scanFrom other blockSize name blockSize none 0 =
        scanFrom buf blockSize name blockSize none 0 ∧
      taken other blockSize name = taken buf blockSize name) ∧
    (∀ found, scanFound buf blockSize name blockSize none 0 = some found → ∀ x,
      (∀ range ∈ unlinkWrites (some found), x < range.1 ∨ range.1 + range.2 ≤ x) →
      removeEntry buf found.1 found.2 x = buf x) ∧
    ∀ pos, taken buf blockSize name = some pos →
      pos + actualLen (deNameLen buf pos) + 8 + name.length ≤ blkSz ∧
      ∀ ino fileType x, (∀ range ∈ addWrites buf name pos, x < range.1 ∨ range.1 + range.2 ≤ x) →
        splitEntry buf pos ino fileType name x = buf x := by
  refine ⟨?_, ?_, ?_, ?_⟩
  · exact scanFrom_found blockSize none 0 fun range member =>
      Nat.le_trans (safe.lookup range member) fits
  · intro other same
    have scanned := scanFrom_reads blockSize none 0 fun range member =>
      same range (List.mem_append_left _ member)
    have split := findSlack_reads blockSize 0 fun range member =>
      same range (List.mem_append_right _ member)
    exact ⟨scanned.symm, split.symm⟩
  · rintro ⟨before, pos⟩ - x outside
    cases before with
    | none =>
      exact copy_outside _ _ _ _ _ (outside (pos, 4) (List.mem_singleton_self _))
    | some before =>
      exact copy_outside _ _ _ _ _ (outside (before + 4, 2) (List.mem_singleton_self _))
  · intro pos isTaken
    have inside := (safe.split pos isTaken (pos + actualLen (deNameLen buf pos), 8 + name.length)
      (List.mem_cons_of_mem _ (List.mem_singleton_self _))).1
    simp only at inside
    refine ⟨by omega, fun ino fileType x outside => ?_⟩
    have length := outside (pos + 4, 2) List.mem_cons_self
    have record := outside (pos + actualLen (deNameLen buf pos), 8 + name.length)
      (List.mem_cons_of_mem _ (List.mem_singleton_self _))
    simp only at length record
    simp (disch := omega) only [splitEntry, putEntry, store, copy_outside]

end

/-- A block whose second record has its header at the very end. -/
def crampedBlock : ByteMap :=
  store (store (store (store (store (fun _ => 0) 0 4 11) 4 2 4088) 4088 4 12) 4092 2 8) 4094 1 1

/-- Two records of a usual block, and a name of one byte. -/
def tidyBlock : ByteMap :=
  store (store (store (store (store (store (fun _ => 0) 0 4 2) 4 2 12) 6 1 1) 12 4 2) 16 2 4084) 18 1 2

/-- The block with one tidy record meets the condition for its name. -/
theorem tidyBlock_wellPlaced : WellPlaced tidyBlock 4096 [0x61] := by
  have isTaken : taken tidyBlock 4096 [0x61] = some 12 := by decide +kernel
  constructor
  · apply (scanReads_inside_iff 4096 0 (Nat.le_refl _)).mp
    decide +kernel
  · intro pos found
    cases isTaken.symm.trans found
    decide +kernel
  · intro pos found less
    cases isTaken.symm.trans found
    exact absurd less (by decide +kernel)

/-- The theorem for a usual block. -/
theorem tidyBlock_scanned : ScansSafely tidyBlock 4096 [0x61] :=
  (scans_safe_iff (by decide) (by decide)).mpr tidyBlock_wellPlaced

/-- A lookup reads behind the block where the last record has no room for a name. -/
theorem scans_leave_block : ¬ ∀ (buf : ByteMap) (blockSize : Nat) (name : List Byte),
    blockSize = 1024 ∨ blockSize = 2048 ∨ blockSize = 4096 → 1 ≤ name.length →
    name.length ≤ 255 → ScansSafely buf blockSize name := by
  intro always
  have safe := always crampedBlock 4096 [0x61] (Or.inr (Or.inr rfl)) (by decide) (by decide)
  have read : ((4096, 1) : Nat × Nat) ∈ scanReads crampedBlock 4096 [0x61] 4096 0 := by
    decide +kernel
  exact absurd (safe.lookup _ read) (by decide)

end CuteCore.Fs
