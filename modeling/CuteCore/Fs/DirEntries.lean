import CuteCore.Fs.DirScans

/-!
# Chains of directory entries

A well-formed directory block is a chain of records up to its end, each of which covers its
header and name. An insertion splits one record and keeps the others, whatever their names.
A new record keeps 8 bits of the length of its name.
-/

namespace CuteCore.Fs

open Hoare Bytes

/-- The records from a position to the end of the block. -/
inductive Chain (buf : ByteMap) (size : Nat) : Nat → List Nat → Prop where
  | done : Chain buf size size []
  | record {pos : Nat} {rest : List Nat}
      (covers : actualLen (deNameLen buf pos) ≤ deRecLen buf pos)
      (next : Chain buf size (pos + deRecLen buf pos) rest) : Chain buf size pos (pos :: rest)

theorem actualLen_covers (buf : ByteMap) (pos : Nat) :
    8 + deNameLen buf pos ≤ actualLen (deNameLen buf pos) := by
  rw [actualLen_of_small (deNameLen_lt buf pos)]
  omega

namespace Chain

variable {buf buf' : ByteMap} {size start : Nat} {recs : List Nat}

theorem le (chain : Chain buf size start recs) : start ≤ size := by
  induction chain with
  | done => exact Nat.le_refl size
  | record covers next inductionHypothesis => omega

/-- Each record of a chain lies inside the block and covers its header and name. -/
theorem bounds (chain : Chain buf size start recs) {pos : Nat} (member : pos ∈ recs) :
    start ≤ pos ∧ pos + deRecLen buf pos ≤ size ∧
      actualLen (deNameLen buf pos) ≤ deRecLen buf pos := by
  induction chain with
  | done => cases member
  | record covers next inductionHypothesis =>
    rcases List.mem_cons.mp member with isFirst | later
    · subst isFirst
      exact ⟨Nat.le_refl _, next.le, covers⟩
    · obtain ⟨low, high, itsCovers⟩ := inductionHypothesis later
      exact ⟨by omega, high, itsCovers⟩

/-- Records do not overlap. -/
theorem apart (chain : Chain buf size start recs) {pos other : Nat} (member : pos ∈ recs)
    (member' : other ∈ recs) : pos = other ∨ pos + deRecLen buf pos ≤ other ∨
      other + deRecLen buf other ≤ pos := by
  induction chain with
  | done => cases member
  | record covers next inductionHypothesis =>
    rcases List.mem_cons.mp member with isFirst | later
    · subst isFirst
      rcases List.mem_cons.mp member' with isFirst' | later'
      · exact Or.inl isFirst'.symm
      · exact Or.inr (Or.inl (next.bounds later').1)
    · rcases List.mem_cons.mp member' with isFirst' | later'
      · subst isFirst'
        exact Or.inr (Or.inr (next.bounds later).1)
      · exact inductionHypothesis later later'

/-- The chain depends on the headers of its records. -/
theorem congr (chain : Chain buf size start recs) (same : ∀ pos ∈ recs,
    deRecLen buf' pos = deRecLen buf pos ∧ deNameLen buf' pos = deNameLen buf pos) :
    Chain buf' size start recs := by
  induction chain with
  | done => exact .done
  | record covers next inductionHypothesis =>
    obtain ⟨recLen, nameLen⟩ := same _ (List.mem_cons_self ..)
    apply Chain.record
    · rw [recLen, nameLen]
      exact covers
    · rw [recLen]
      exact inductionHypothesis fun pos member => same pos (List.mem_cons_of_mem _ member)

/-- The scan for room stops at a record of the chain. -/
theorem findSlack_mem (chain : Chain buf size start recs) {needed budget pos : Nat}
    (found : findSlack buf size needed budget start = some pos) :
    pos ∈ recs ∧ needed ≤ slackOf buf pos := by
  induction chain generalizing budget with
  | done =>
    cases budget with
    | zero => cases found
    | succ budget =>
      rw [findSlack, if_pos (by omega)] at found
      cases found
  | record covers next inductionHypothesis =>
    cases budget with
    | zero => cases found
    | succ budget =>
      rw [findSlack] at found
      split at found
      · cases found
      · split at found
        · cases found
        · split at found
          · rename_i enough
            obtain rfl := Option.some.inj found
            exact ⟨List.mem_cons_self .., enough⟩
          · obtain ⟨later, enough⟩ := inductionHypothesis found
            exact ⟨List.mem_cons_of_mem _ later, enough⟩

end Chain

section

variable {size : Nat} {buf : ByteMap} {pos ino recLen fileType : Nat} {name : List Byte}

theorem putEntry_outside {x : Nat} (outside : x < pos ∨ pos + 8 + name.length ≤ x) :
    putEntry buf pos ino recLen fileType name x = buf x := by
  rw [putEntry, copy_outside _ _ _ _ _ (by omega), store, copy_outside _ _ _ _ _ (by omega),
    store, copy_outside _ _ _ _ _ (by omega), store, copy_outside _ _ _ _ _ (by omega), store,
    copy_outside _ _ _ _ _ (by omega)]

theorem putEntry_inode : deInode (putEntry buf pos ino recLen fileType name) pos = ino % 256 ^ 4 := by
  rw [deInode, putEntry, load_copy_apart _ _ _ _ _ _ (by omega),
    load_store_apart _ _ _ _ _ _ (by omega), load_store_apart _ _ _ _ _ _ (by omega),
    load_store_apart _ _ _ _ _ _ (by omega), load_store_same]

theorem putEntry_recLen :
    deRecLen (putEntry buf pos ino recLen fileType name) pos = recLen % 256 ^ 2 := by
  rw [deRecLen, putEntry, load_copy_apart _ _ _ _ _ _ (by omega),
    load_store_apart _ _ _ _ _ _ (by omega), load_store_apart _ _ _ _ _ _ (by omega),
    load_store_same]

theorem putEntry_nameLen :
    deNameLen (putEntry buf pos ino recLen fileType name) pos = name.length % 256 := by
  rw [deNameLen, putEntry, load_copy_apart _ _ _ _ _ _ (by omega),
    load_store_apart _ _ _ _ _ _ (by omega), load_store_same]
  rfl

theorem putEntry_name {i : Nat} (inside : i < name.length) :
    putEntry buf pos ino recLen fileType name (pos + 8 + i) = name.getD i 0 := by
  rw [putEntry, copy_inside _ _ _ _ _ (by omega) (by omega), Nat.add_sub_cancel_left]

/-- Only the record length of the split record and the place of the new one change. -/
theorem splitEntry_outside {x : Nat} (notLength : x < pos + 4 ∨ pos + 6 ≤ x)
    (notNew : x < pos + actualLen (deNameLen buf pos) ∨
      pos + actualLen (deNameLen buf pos) + 8 + name.length ≤ x) :
    splitEntry buf pos ino fileType name x = buf x := by
  rw [splitEntry, putEntry_outside notNew, store, copy_outside _ _ _ _ _ (by omega)]

/-- Where the room of a record goes when it is split. -/
theorem slack_exact (enough : actualLen name.length ≤ slackOf buf pos)
    (covers : actualLen (deNameLen buf pos) ≤ deRecLen buf pos) (short : name.length < 2 ^ 31) :
    actualLen (deNameLen buf pos) + slackOf buf pos = deRecLen buf pos ∧
      8 + name.length ≤ slackOf buf pos ∧ actualLen (name.length % 256) ≤ slackOf buf pos := by
  have recSmall := deRecLen_lt buf pos
  have part := actualLen_of_small (Nat.mod_lt name.length (by decide : 0 < 256))
  have least := Nat.mod_le name.length 256
  have whole : actualLen name.length = (name.length + 11) / 4 * 4 := by
    unfold actualLen u32
    omega
  have slack : slackOf buf pos = deRecLen buf pos - actualLen (deNameLen buf pos) := by
    unfold slackOf sub32 u32
    omega
  omega

/-- A record with its name as it is stored. -/
structure NameAt (buf : ByteMap) (pos : Nat) (name : List Byte) : Prop where
  length : deNameLen buf pos = name.length
  bytes : ∀ i < name.length, buf (pos + 8 + i) = name.getD i 0

/-- What a new record has, whatever the length of its name. -/
structure NewRecord (size : Nat) (buf : ByteMap) (pos ino : Nat) (name : List Byte) : Prop where
  chain : ∃ recs, Chain buf size 0 recs ∧ pos ∈ recs
  number : deInode buf pos = ino
  covers : 8 + name.length ≤ deRecLen buf pos
  length : deNameLen buf pos = name.length % 256
  bytes : ∀ i < name.length, buf (pos + 8 + i) = name.getD i 0

/-- An insertion of `ext2_dir_add_entry` into a block with room. -/
def Insertion (size : Nat) (buf buf' : ByteMap) : Prop :=
  ∃ found ino fileType name, name.length < 2 ^ 31 ∧
    findSlack buf size (actualLen name.length) size 0 = some found ∧
    buf' = splitEntry buf found ino fileType name

/-- The name is stored intact: the block is a chain, the record has the name and covers it,
and no later insertions change that. -/
structure StoredName (size : Nat) (buf : ByteMap) (pos ino : Nat) (name : List Byte) : Prop where
  chain : ∃ recs, Chain buf size 0 recs ∧ pos ∈ recs
  number : deInode buf pos = ino
  covers : 8 + name.length ≤ deRecLen buf pos
  named : NameAt buf pos name
  later : ∀ buf', Relation.ReflTransGen (Insertion size) buf buf' → NameAt buf' pos name

/-- The header of a record other than the new one, after a split. -/
theorem splitEntry_header {recs : List Nat} {size start : Nat} (chain : Chain buf size start recs)
    (member : pos ∈ recs) (enough : actualLen name.length ≤ slackOf buf pos)
    (short : name.length < 2 ^ 31) {other : Nat} (member' : other ∈ recs) (differs : other ≠ pos) :
    deRecLen (splitEntry buf pos ino fileType name) other = deRecLen buf other ∧
      deNameLen (splitEntry buf pos ino fileType name) other = deNameLen buf other := by
  obtain ⟨-, -, covers⟩ := chain.bounds member
  obtain ⟨-, -, covers'⟩ := chain.bounds member'
  obtain ⟨exact, fits, -⟩ := slack_exact enough covers short
  have itself := actualLen_covers buf pos
  have its := actualLen_covers buf other
  have places := chain.apart member member'
  constructor
  · apply load_congr
    intro x low high
    exact splitEntry_outside (by omega) (by omega)
  · apply load_congr
    intro x low high
    exact splitEntry_outside (by omega) (by omega)

/-- A split leaves a chain with the old records and the new one. -/
theorem Chain.split {recs : List Nat} {size start : Nat} (chain : Chain buf size start recs)
    (member : pos ∈ recs) (enough : actualLen name.length ≤ slackOf buf pos)
    (short : name.length < 2 ^ 31) : ∃ recs',
      Chain (splitEntry buf pos ino fileType name) size start recs' ∧ (∀ q ∈ recs, q ∈ recs') ∧
      pos + actualLen (deNameLen buf pos) ∈ recs' := by
  have headers := fun other => @splitEntry_header buf pos ino fileType name recs size start chain
    member enough short other
  induction chain with
  | done => cases member
  | @record first rest covers next inductionHypothesis =>
    by_cases isFirst : pos = first
    · subst isFirst
      obtain ⟨exact, fits, atLeast⟩ := slack_exact enough covers short
      have itself := actualLen_covers buf pos
      have recSmall := deRecLen_lt buf pos
      have behind : Chain (splitEntry buf pos ino fileType name) size
          (pos + deRecLen buf pos) rest := by
        apply next.congr
        intro other later
        have low := (next.bounds later).1
        exact headers other (List.mem_cons_of_mem _ later) (by omega)
      refine ⟨pos :: (pos + actualLen (deNameLen buf pos)) :: rest, ?_, ?_, ?_⟩
      · have recLen : deRecLen (splitEntry buf pos ino fileType name) pos =
            actualLen (deNameLen buf pos) := by
          rw [deRecLen, splitEntry]
          have apartNew : load (putEntry (store buf (pos + 4) 2 (actualLen (deNameLen buf pos)))
              (pos + actualLen (deNameLen buf pos)) ino (slackOf buf pos) fileType name) (pos + 4) 2 =
              load (store buf (pos + 4) 2 (actualLen (deNameLen buf pos))) (pos + 4) 2 :=
            load_congr fun x low high => putEntry_outside (by omega)
          rw [apartNew, load_store_same]
          exact Nat.mod_eq_of_lt (by omega)
        have nameLen : deNameLen (splitEntry buf pos ino fileType name) pos = deNameLen buf pos :=
          load_congr fun x low high => splitEntry_outside (by omega) (by omega)
        have newRecLen : deRecLen (splitEntry buf pos ino fileType name)
            (pos + actualLen (deNameLen buf pos)) = slackOf buf pos := by
          rw [splitEntry, putEntry_recLen]
          exact Nat.mod_eq_of_lt (by omega)
        have newNameLen : deNameLen (splitEntry buf pos ino fileType name)
            (pos + actualLen (deNameLen buf pos)) = name.length % 256 := by
          rw [splitEntry, putEntry_nameLen]
        apply Chain.record
        · rw [recLen, nameLen]
        · rw [recLen]
          apply Chain.record
          · rw [newRecLen, newNameLen]
            exact atLeast
          · rw [newRecLen, Nat.add_assoc, exact]
            exact behind
      · intro q old
        rcases List.mem_cons.mp old with isFirst | later
        · exact isFirst ▸ List.mem_cons_self ..
        · exact List.mem_cons_of_mem _ (List.mem_cons_of_mem _ later)
      · exact List.mem_cons_of_mem _ (List.mem_cons_self ..)
    · have later : pos ∈ rest := (List.mem_cons.mp member).resolve_left isFirst
      obtain ⟨recLen, nameLen⟩ := headers first (List.mem_cons_self ..) fun same => isFirst same.symm
      obtain ⟨recs', chain', old, new⟩ := inductionHypothesis later
        fun other member' => headers other (List.mem_cons_of_mem _ member')
      refine ⟨first :: recs', ?_, ?_, List.mem_cons_of_mem _ new⟩
      · apply Chain.record
        · rw [recLen, nameLen]
          exact covers
        · rw [recLen]
          exact chain'
      · intro q member'
        rcases List.mem_cons.mp member' with same | more
        · exact same ▸ List.mem_cons_self ..
        · exact List.mem_cons_of_mem _ (old q more)

/-- An insertion keeps the chain and every stored name. -/
theorem Insertion.keeps {buf' : ByteMap} {recs : List Nat} {old : List Byte}
    (inserted : Insertion size buf buf') (chain : Chain buf size 0 recs) (member : pos ∈ recs)
    (named : NameAt buf pos old) :
    (∃ recs', Chain buf' size 0 recs' ∧ pos ∈ recs') ∧ NameAt buf' pos old := by
  obtain ⟨found, ino, fileType, name, short, isFound, rfl⟩ := inserted
  obtain ⟨inChain, enough⟩ := chain.findSlack_mem isFound
  obtain ⟨recs', chain', kept, -⟩ := @Chain.split buf found ino fileType name recs size 0 chain
    inChain enough short
  refine ⟨⟨recs', chain', kept pos member⟩, ?_⟩
  obtain ⟨-, -, covers⟩ := chain.bounds inChain
  obtain ⟨-, -, covers'⟩ := chain.bounds member
  obtain ⟨exact, fits, -⟩ := slack_exact enough covers short
  have itself := actualLen_covers buf found
  have its := actualLen_covers buf pos
  have places := chain.apart inChain member
  have length := named.length
  have nameLen : deNameLen (splitEntry buf found ino fileType name) pos = deNameLen buf pos :=
    load_congr fun x low high => by
      by_cases same : found = pos
      · subst same
        exact splitEntry_outside (by omega) (by omega)
      · exact splitEntry_outside (by omega) (by omega)
  constructor
  · rw [nameLen, length]
  · intro i inside
    rw [← named.bytes i inside]
    by_cases same : found = pos
    · subst same
      exact splitEntry_outside (by omega) (by omega)
    · exact splitEntry_outside (by omega) (by omega)

/-- Any number of insertions. -/
theorem insertions_keep {buf' : ByteMap}
    (inserted : Relation.ReflTransGen (Insertion size) buf buf')
    (chain : ∃ recs, Chain buf size 0 recs ∧ pos ∈ recs) (named : NameAt buf pos name) :
    (∃ recs, Chain buf' size 0 recs ∧ pos ∈ recs) ∧ NameAt buf' pos name := by
  induction inserted with
  | refl => exact ⟨chain, named⟩
  | tail _ last inductionHypothesis =>
    obtain ⟨⟨recs, chain', member⟩, named'⟩ := inductionHypothesis
    exact last.keeps chain' member named'

/-- A new record is intact exactly when its name length fits the 8-bit field. -/
theorem NewRecord.stored_iff (record : NewRecord size buf pos ino name) :
    StoredName size buf pos ino name ↔ name.length ≤ 255 := by
  constructor
  · intro stored
    have small := deNameLen_lt buf pos
    rw [stored.named.length] at small
    omega
  · intro fits
    have named : NameAt buf pos name := by
      refine ⟨?_, record.bytes⟩
      rw [record.length]
      exact Nat.mod_eq_of_lt (by omega)
    constructor
    · exact record.chain
    · exact record.number
    · exact record.covers
    · exact named
    · exact fun buf' inserted => (insertions_keep inserted record.chain named).2

/-- The record that is split off. -/
theorem splitEntry_newRecord {recs : List Nat} (chain : Chain buf size 0 recs) (member : pos ∈ recs)
    (enough : actualLen name.length ≤ slackOf buf pos) (short : name.length < 2 ^ 31)
    (small : ino < 2 ^ 32) : NewRecord size (splitEntry buf pos ino fileType name)
      (pos + actualLen (deNameLen buf pos)) ino name := by
  obtain ⟨recs', chain', -, new⟩ := @Chain.split buf pos ino fileType name recs size 0 chain member
    enough short
  obtain ⟨-, -, covers⟩ := chain.bounds member
  obtain ⟨exact, fits, -⟩ := slack_exact enough covers short
  have recSmall := deRecLen_lt buf pos
  constructor
  · exact ⟨recs', chain', new⟩
  · rw [splitEntry, putEntry_inode]
    exact Nat.mod_eq_of_lt small
  · rw [splitEntry, putEntry_recLen, Nat.mod_eq_of_lt (by omega)]
    exact fits
  · rw [splitEntry, putEntry_nameLen]
  · intro i inside
    rw [splitEntry]
    exact putEntry_name inside

/-- The record that fills a new block. -/
theorem freshEntry_newRecord (fits : 8 + name.length ≤ size) (whole : MountedSize size)
    (small : ino < 2 ^ 32) : NewRecord size (putEntry buf 0 ino size fileType name) 0 ino name := by
  have part := actualLen_of_small (Nat.mod_lt name.length (by decide : 0 < 256))
  have recLen : deRecLen (putEntry buf 0 ino size fileType name) 0 = size := by
    rw [putEntry_recLen]
    exact Nat.mod_eq_of_lt (Nat.lt_of_le_of_lt whole.small.2 (by decide))
  have nameLen : deNameLen (putEntry buf 0 ino size fileType name) 0 = name.length % 256 :=
    putEntry_nameLen
  have aligned : size % 4 = 0 := by
    have parts := whole.whole.1
    omega
  constructor
  · refine ⟨[0], ?_, List.mem_singleton_self 0⟩
    apply Chain.record
    · rw [recLen, nameLen, part]
      omega
    · rw [recLen, Nat.zero_add]
      exact .done
  · rw [putEntry_inode]
    exact Nat.mod_eq_of_lt small
  · rw [recLen]
    exact fits
  · exact nameLen
  · exact fun i inside => putEntry_name inside

/-- A record depends on the bytes of its block only. -/
theorem NewRecord.congr {buf' : ByteMap} (record : NewRecord size buf pos ino name)
    (same : SameOn buf' buf 0 size) : NewRecord size buf' pos ino name := by
  obtain ⟨recs, chain, member⟩ := record.chain
  have header : ∀ q ∈ recs, q + 8 ≤ size := by
    intro q isRecord
    obtain ⟨-, high, covers⟩ := chain.bounds isRecord
    have its := actualLen_covers buf q
    omega
  have fields : ∀ q ∈ recs, ∀ off n, off + n ≤ 8 → load buf' (q + off) n = load buf (q + off) n := by
    intro q isRecord off n inside
    have itsHeader := header q isRecord
    exact load_congr fun x low high => same x (Nat.zero_le x) (by omega)
  have recLen : deRecLen buf' pos = deRecLen buf pos := fields pos member 4 2 (by decide)
  have nameLen : deNameLen buf' pos = deNameLen buf pos := fields pos member 6 1 (by decide)
  constructor
  · refine ⟨recs, chain.congr fun q isRecord => ?_, member⟩
    exact ⟨fields q isRecord 4 2 (by decide), fields q isRecord 6 1 (by decide)⟩
  · rw [← record.number]
    exact fields pos member 0 4 (by decide)
  · rw [recLen]
    exact record.covers
  · rw [nameLen]
    exact record.length
  · intro i inside
    obtain ⟨-, high, -⟩ := chain.bounds member
    have covers := record.covers
    rw [same _ (Nat.zero_le _) (by omega)]
    exact record.bytes i inside

end

end CuteCore.Fs
