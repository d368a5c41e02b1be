import CuteCore.Fs.Creation

/-!
# Removal of directory entries

`ext2_unlink` takes the first live record with a name out of its block: the record before it
grows over it, or, at the start of the block, its inode number is cleared. The other records
keep their numbers and names. The block is there already, so none is allocated.
-/

namespace CuteCore.Fs

open Hoare Bytes BlkCache

/-- A live record of a well-formed block. -/
structure Record (size : Nat) (buf : ByteMap) (pos ino : Nat) (name : List Byte) : Prop where
  chain : ∃ recs, Chain buf size 0 recs ∧ pos ∈ recs
  number : deInode buf pos = ino
  used : ino ≠ 0
  named : NameAt buf pos name

namespace Chain

variable {buf buf' : ByteMap} {size start : Nat} {recs : List Nat} {name : List Byte}

/-- The records of a chain are given by the bytes of the block. -/
theorem unique {recs' : List Nat} (chain : Chain buf size start recs)
    (chain' : Chain buf size start recs') : recs' = recs := by
  induction chain generalizing recs' with
  | done =>
    cases chain' with
    | done => rfl
    | record covers next =>
      have least := actualLen_covers buf size
      have end' := next.le
      omega
  | record covers next inductionHypothesis =>
    cases chain' with
    | done =>
      have least := actualLen_covers buf size
      have end' := next.le
      omega
    | record covers' next' => rw [inductionHypothesis next']

theorem nameInside (chain : Chain buf size start recs) {pos : Nat} (member : pos ∈ recs) :
    pos + 8 + deNameLen buf pos ≤ size ∧ deRecLen buf pos ≠ 0 := by
  obtain ⟨-, high, covers⟩ := chain.bounds member
  have least := actualLen_covers buf pos
  omega

/-- The scan passes over records without the name. -/
theorem scan_absent (chain : Chain buf size start recs) (small : size ≤ blkSz)
    (short : name.length ≤ 255)
    (none : ∀ pos ∈ recs, ¬ Matches buf name pos) (prev : Option Nat) (budget : Nat) :
    scanFrom buf size name budget prev start = .absent := by
  induction chain generalizing prev budget with
  | done =>
    cases budget with
    | zero => rfl
    | succ budget => rw [scanFrom, if_pos (by omega)]
  | @record pos rest covers next inductionHypothesis =>
    cases budget with
    | zero => rfl
    | succ budget =>
      have itself := List.mem_cons_self (a := pos) (l := rest)
      obtain ⟨nameInside, positive⟩ := (Chain.record covers next).nameInside itself
      have later := inductionHypothesis (fun q member => none q (List.mem_cons_of_mem _ member))
        (some pos) budget
      rw [scanFrom, if_neg (by omega), if_neg positive]
      split
      · rename_i candidate
        have length : deNameLen buf pos = name.length := by
          rw [candidate.2]
          exact Nat.mod_eq_of_lt (by omega)
        have inside : pos + 8 + name.length ≤ blkSz := by omega
        rw [sameBytes_inside buf name _ inside,
          decide_eq_false fun same => none pos itself ⟨candidate, same⟩]
        exact later
      · exact later

/-- It stops at the first one that has the name, with the record in front of it. -/
theorem scan_first (chain : Chain buf size start recs) (small : size ≤ blkSz)
    (short : name.length ≤ 255) {pos : Nat}
    (member : pos ∈ recs) (isMatch : Matches buf name pos)
    (first : ∀ q ∈ recs, Matches buf name q → pos ≤ q) (prev : Option Nat) (budget : Nat)
    (enough : size ≤ budget + start) :
    ∃ before, scanFrom buf size name budget prev start = .found before pos ∧
      (pos = start ∧ before = prev ∨
        ∃ b ∈ recs, before = some b ∧ b + deRecLen buf b = pos ∧ pos ≠ start) := by
  induction chain generalizing prev budget with
  | done => cases member
  | @record head rest covers next inductionHypothesis =>
    have itself := List.mem_cons_self (a := head) (l := rest)
    obtain ⟨nameInside, positive⟩ := (Chain.record covers next).nameInside itself
    have least := actualLen_covers buf head
    cases budget with
    | zero => omega
    | succ budget =>
      rw [scanFrom, if_neg (by omega), if_neg positive]
      rcases List.mem_cons.mp member with isHead | later
      · subst isHead
        obtain ⟨⟨used, nameLen⟩, same⟩ := isMatch
        have length : deNameLen buf pos = name.length := by
          rw [nameLen]
          exact Nat.mod_eq_of_lt (by omega)
        have inside : pos + 8 + name.length ≤ blkSz := by omega
        rw [if_pos ⟨used, nameLen⟩, sameBytes_inside buf name _ inside, decide_eq_true same]
        exact ⟨prev, rfl, Or.inl ⟨rfl, rfl⟩⟩
      · have low := (next.bounds later).1
        have notHead : ¬ Matches buf name head := by
          intro headMatch
          have order := first head itself headMatch
          omega
        obtain ⟨before, found, place⟩ := inductionHypothesis later
          (fun q inRest => first q (List.mem_cons_of_mem _ inRest)) (some head) budget (by omega)
        have placed : pos = head ∧ before = prev ∨ ∃ b ∈ head :: rest, before = some b ∧
            b + deRecLen buf b = pos ∧ pos ≠ head := by
          rcases place with ⟨isNext, isHead⟩ | ⟨b, inRest, isB, isPos, -⟩
          · exact Or.inr ⟨head, itself, isHead, isNext.symm, by omega⟩
          · exact Or.inr ⟨b, List.mem_cons_of_mem _ inRest, isB, isPos, by omega⟩
        refine ⟨before, ?_, placed⟩
        rw [← found]
        split
        · rename_i candidate
          have length : deNameLen buf head = name.length := by
            rw [candidate.2]
            exact Nat.mod_eq_of_lt (by omega)
          have inside : head + 8 + name.length ≤ blkSz := by omega
          rw [sameBytes_inside buf name _ inside,
            decide_eq_false fun same => notHead ⟨candidate, same⟩]
        · rfl

end Chain

/-- A live record has the name exactly when the compare of the scan says so. -/
theorem matches_iff {buf : ByteMap} {pos : Nat} {name : List Byte} (short : name.length ≤ 255) :
    Matches buf name pos ↔ deInode buf pos ≠ 0 ∧ NameAt buf pos name := by
  have whole : name.length % 256 = name.length := Nat.mod_eq_of_lt (by omega)
  constructor
  · rintro ⟨⟨used, length⟩, same⟩
    refine ⟨used, length.trans whole, fun i inside => ?_⟩
    have at' := congrArg (fun bytes => bytes.getD i 0) same
    simpa [List.getD, inside] using at'
  · rintro ⟨used, length, bytes⟩
    refine ⟨⟨used, length.trans whole.symm⟩, List.ext_getElem (by simp) fun i inside inside' => ?_⟩
    rw [List.getElem_map, List.getElem_range, bytes i inside']
    exact List.getD_eq_getElem _ _ inside'

/-- Where the scan finds the record, seen from the whole block. -/
def Place (buf : ByteMap) (recs : List Nat) (before : Option Nat) (pos : Nat) : Prop :=
  pos = 0 ∧ before = none ∨ ∃ b ∈ recs, before = some b ∧ b + deRecLen buf b = pos ∧ pos ≠ 0

section

variable {size : Nat} {buf : ByteMap} {recs : List Nat} {before : Option Nat} {pos : Nat}

/-- The number and the name of another record, and its length unless it grows. -/
theorem removeEntry_others (chain : Chain buf size 0 recs) (member : pos ∈ recs)
    (place : Place buf recs before pos) {q : Nat} (member' : q ∈ recs) (differs : q ≠ pos) :
    SameOn (removeEntry buf before pos) buf q 4 ∧
      SameOn (removeEntry buf before pos) buf (q + 6) (2 + deNameLen buf q) ∧
      (before ≠ some q → deRecLen (removeEntry buf before pos) q = deRecLen buf q) := by
  obtain ⟨-, -, covers⟩ := chain.bounds member
  obtain ⟨-, -, covers'⟩ := chain.bounds member'
  have least := actualLen_covers buf pos
  have least' := actualLen_covers buf q
  rcases place with ⟨isStart, isNone⟩ | ⟨b, isRecord, isSome, isNext, -⟩
  · have apart := chain.apart member member'
    subst isNone
    have outside : ∀ x, q ≤ x → x < q + 8 + deNameLen buf q →
        removeEntry buf none pos x = buf x := by
      intro x low high
      exact copy_outside _ _ _ _ _ (by omega)
    refine ⟨fun x low high => outside x low (by omega), fun x low high => outside x (by omega)
      (by omega), fun _ => ?_⟩
    exact load_congr fun x low high => outside x (by omega) (by omega)
  · have apart := chain.apart isRecord member'
    obtain ⟨-, -, coversB⟩ := chain.bounds isRecord
    have leastB := actualLen_covers buf b
    subst isSome
    have outside : ∀ x, x < b + 4 ∨ b + 6 ≤ x → removeEntry buf (some b) pos x = buf x := by
      intro x notLength
      exact copy_outside _ _ _ _ _ (by omega)
    refine ⟨fun x low high => outside x (by omega), fun x low high => outside x (by omega),
      fun other => ?_⟩
    have notB : b ≠ q := fun same => other (congrArg some same)
    exact load_congr fun x low high => outside x (by omega)

/-- The record that grows ends where the removed one ended. -/
theorem removeEntry_grown (chain : Chain buf size 0 recs) (small : size ≤ blkSz)
    (member : pos ∈ recs) {b : Nat}
    (isNext : b + deRecLen buf b = pos) :
    deRecLen (removeEntry buf (some b) pos) b = deRecLen buf b + deRecLen buf pos := by
  have high := (chain.bounds member).2.1
  have blkSize : blkSz = 4096 := rfl
  rw [deRecLen, removeEntry, load_store_same]
  exact Nat.mod_eq_of_lt (by omega)

/-- Behind the removed record nothing changes. -/
theorem removeEntry_behind (chain : Chain buf size 0 recs) (member : pos ∈ recs) {b start : Nat}
    {rest : List Nat} (isRecord : b ∈ recs) (isNext : b + deRecLen buf b = pos)
    (later : pos < start)
    (inside : ∀ q ∈ rest, q ∈ recs) (behind : Chain buf size start rest) :
    Chain (removeEntry buf (some b) pos) size start rest := by
  apply behind.congr
  intro q inRest
  have low := (behind.bounds inRest).1
  have place : Place buf recs (some b) pos := by
    have covers := (chain.bounds isRecord).2.2
    have least := actualLen_covers buf b
    exact Or.inr ⟨b, isRecord, rfl, isNext, by omega⟩
  obtain ⟨-, names, lengths⟩ := removeEntry_others chain member place (inside q inRest) (by omega)
  refine ⟨lengths fun same => ?_, load_congr fun x low' high' => names x low' (by omega)⟩
  have isB := Option.some.inj same
  omega

/-- The records of the block without the removed one. -/
theorem Chain.merged (chain : Chain buf size 0 recs) (small : size ≤ blkSz) (member : pos ∈ recs)
    {b : Nat}
    (isRecord : b ∈ recs) (isNext : b + deRecLen buf b = pos) {start : Nat} {part : List Nat}
    (inside : ∀ q ∈ part, q ∈ recs) (isPart : Chain buf size start part) (hasB : b ∈ part) :
    ∃ recs', Chain (removeEntry buf (some b) pos) size start recs' ∧
      ∀ q, q ∈ recs' ↔ q ∈ part ∧ q ≠ pos := by
  have coversB := (chain.bounds isRecord).2.2
  have leastB := actualLen_covers buf b
  have place : Place buf recs (some b) pos := Or.inr ⟨b, isRecord, rfl, isNext, by omega⟩
  induction isPart with
  | done => cases hasB
  | @record head rest covers next inductionHypothesis =>
    by_cases isHead : b = head
    · subst isHead
      rw [isNext] at next
      have covers' := (chain.bounds member).2.2
      have least' := actualLen_covers buf pos
      -- The removed record comes next: it is in the chain and ends inside the block.
      cases next with
      | done =>
        have high := (chain.bounds member).2.1
        omega
      | @record _ others coversPos nextPos =>
        have grown := removeEntry_grown chain small member isNext
        have named := (removeEntry_others chain member place isRecord (by omega)).2.1
        have nameLen : deNameLen (removeEntry buf (some b) pos) b = deNameLen buf b :=
          load_congr fun x low high => named x low (by omega)
        have behind := removeEntry_behind chain member isRecord isNext (by omega)
          (fun q inOthers => inside q (List.mem_cons_of_mem _ (List.mem_cons_of_mem _ inOthers)))
          nextPos
        refine ⟨b :: others, Chain.record ?_ ?_, fun q => ?_⟩
        · rw [grown, nameLen]
          omega
        · rw [grown, ← Nat.add_assoc, isNext]
          exact behind
        · constructor
          · intro inside'
            rcases List.mem_cons.mp inside' with isB | later
            · exact ⟨isB ▸ List.mem_cons_self .., by omega⟩
            · have low := (nextPos.bounds later).1
              exact ⟨List.mem_cons_of_mem _ (List.mem_cons_of_mem _ later), by omega⟩
          · rintro ⟨inPart, notPos⟩
            rcases List.mem_cons.mp inPart with isB | later
            · exact isB ▸ List.mem_cons_self ..
            · exact List.mem_cons_of_mem _ ((List.mem_cons.mp later).resolve_left notPos)
    · have inRest : b ∈ rest := (List.mem_cons.mp hasB).resolve_left isHead
      have low := (next.bounds inRest).1
      have headInside := inside head (List.mem_cons_self ..)
      have notPos : head ≠ pos := by
        have least := actualLen_covers buf head
        omega
      obtain ⟨-, named, lengths⟩ := removeEntry_others chain member place headInside notPos
      have recLen := lengths fun same => isHead (Option.some.inj same)
      have nameLen : deNameLen (removeEntry buf (some b) pos) head = deNameLen buf head :=
        load_congr fun x low' high' => named x low' (by omega)
      obtain ⟨recs', chain', members⟩ := inductionHypothesis
        (fun q inRest => inside q (List.mem_cons_of_mem _ inRest)) inRest
      refine ⟨head :: recs', Chain.record ?_ ?_, fun q => ?_⟩
      · rw [recLen, nameLen]
        exact covers
      · rw [recLen]
        exact chain'
      · rw [List.mem_cons, List.mem_cons, members]
        constructor
        · rintro (isHead' | ⟨later, differs⟩)
          · exact ⟨Or.inl isHead', isHead' ▸ notPos⟩
          · exact ⟨Or.inr later, differs⟩
        · rintro ⟨isHead' | later, differs⟩
          · exact Or.inl isHead'
          · exact Or.inr ⟨later, differs⟩

/-- Exactly the record at `pos` is gone. -/
theorem removeEntry_record (chain : Chain buf size 0 recs) (small : size ≤ blkSz)
    (member : pos ∈ recs)
    (place : Place buf recs before pos) (q ino : Nat) (name : List Byte) :
    Record size (removeEntry buf before pos) q ino name ↔ Record size buf q ino name ∧ q ≠ pos := by
  have others := fun q => @removeEntry_others size buf recs before pos chain member place q
  -- The new chain has the records that are still there, and at most a dead one more.
  obtain ⟨recs', chain', members⟩ : ∃ recs', Chain (removeEntry buf before pos) size 0 recs' ∧
      ∀ q, q ∈ recs' ∧ deInode (removeEntry buf before pos) q ≠ 0 ↔
        q ∈ recs ∧ q ≠ pos ∧ deInode (removeEntry buf before pos) q ≠ 0 := by
    rcases place with ⟨isStart, isNone⟩ | ⟨b, isRecord, isSome, isNext, -⟩
    · have dead : deInode (removeEntry buf before pos) pos = 0 := by
        rw [isNone, deInode, removeEntry, load_store_same]
        exact Nat.zero_mod _
      refine ⟨recs, chain.congr fun q isRecord => ?_, fun q => ?_⟩
      · by_cases isPos : q = pos
        · subst isPos
          rw [isNone]
          exact ⟨load_store_apart _ _ _ _ _ _ (by omega), load_store_apart _ _ _ _ _ _ (by omega)⟩
        · obtain ⟨-, named, lengths⟩ := others q isRecord isPos
          refine ⟨lengths fun same => ?_, load_congr fun x low high => named x low (by omega)⟩
          rw [isNone] at same
          cases same
      · constructor
        · rintro ⟨isRecord, used⟩
          refine ⟨isRecord, ?_, used⟩
          rintro rfl
          exact used dead
        · rintro ⟨isRecord, -, used⟩
          exact ⟨isRecord, used⟩
    · subst isSome
      obtain ⟨recs', chain', members⟩ := chain.merged small member isRecord isNext (fun _ => id) chain
        isRecord
      refine ⟨recs', chain', fun q => ?_⟩
      rw [members, and_assoc]
  have sameRecord : ∀ q ∈ recs, q ≠ pos →
      (deInode (removeEntry buf before pos) q = deInode buf q ∧
        (NameAt (removeEntry buf before pos) q name ↔ NameAt buf q name)) := by
    intro q isRecord differs
    obtain ⟨number, named, -⟩ := others q isRecord differs
    have nameLen : deNameLen (removeEntry buf before pos) q = deNameLen buf q :=
      load_congr fun x low high => named x low (by omega)
    refine ⟨load_congr number, ?_, ?_⟩
    · rintro ⟨length, bytes⟩
      rw [nameLen] at length
      exact ⟨length, fun i inside => by rw [← bytes i inside, named _ (by omega) (by omega)]⟩
    · rintro ⟨length, bytes⟩
      refine ⟨nameLen.trans length, fun i inside => ?_⟩
      rw [named _ (by omega) (by omega), bytes i inside]
  constructor
  · rintro ⟨⟨recs'', chain'', isRecord⟩, number, used, named⟩
    rw [chain'.unique chain''] at isRecord
    obtain ⟨isRecord', differs, -⟩ := (members q).mp ⟨isRecord, number ▸ used⟩
    obtain ⟨sameNumber, sameName⟩ := sameRecord q isRecord' differs
    exact ⟨⟨⟨recs, chain, isRecord'⟩, sameNumber ▸ number, used, sameName.mp named⟩, differs⟩
  · rintro ⟨⟨⟨recs'', chain'', isRecord⟩, number, used, named⟩, differs⟩
    rw [chain.unique chain''] at isRecord
    obtain ⟨sameNumber, sameName⟩ := sameRecord q isRecord differs
    have number' : deInode (removeEntry buf before pos) q = ino := sameNumber.trans number
    obtain ⟨isRecord', -⟩ := (members q).mpr ⟨isRecord, differs, number' ▸ used⟩
    exact ⟨⟨recs', chain', isRecord'⟩, number', used, sameName.mpr named⟩

end

/-- Records depend on the bytes of the block only. -/
theorem Record.congr {size : Nat} {buf buf' : ByteMap} {pos ino : Nat} {name : List Byte}
    (record : Record size buf pos ino name) (same : SameOn buf' buf 0 size) :
    Record size buf' pos ino name := by
  obtain ⟨recs, chain, member⟩ := record.chain
  obtain ⟨nameInside, -⟩ := chain.nameInside member
  have field : ∀ q ∈ recs, ∀ off n, off + n ≤ 8 → load buf' (q + off) n = load buf (q + off) n := by
    intro q isRecord off n inside
    have itsName := (chain.nameInside isRecord).1
    exact load_congr fun x low high => same x (Nat.zero_le x) (by omega)
  have nameLen : deNameLen buf' pos = deNameLen buf pos := field pos member 6 1 (by decide)
  constructor
  · refine ⟨recs, chain.congr fun q isRecord => ?_, member⟩
    exact ⟨field q isRecord 4 2 (by decide), field q isRecord 6 1 (by decide)⟩
  · rw [← record.number]
    exact field pos member 0 4 (by decide)
  · exact record.used
  · refine ⟨nameLen.trans record.named.length, fun i inside => ?_⟩
    have length := record.named.length
    rw [same _ (Nat.zero_le _) (by omega)]
    exact record.named.bytes i inside

section

variable {groups : Groups} {loose : Nat → Nat → Prop} {s : Vfs} {view : Nat → ByteMap}
  {held : Multiset Nat} {p : Nat} {dir : Inode} {name : List Byte}

/-- A path whose blocks are there is only read. -/
theorem ensurePath_mapped (file : FileState groups loose s view held p dir)
    (room : Multiset.card held < nBlkNum) {slot : Fin nBlocks} (front rest : List Nat)
    (isNode : IsNode groups.blockSize slot (front ++ rest))
    (isBlock : ptrAt view dir slot (front ++ rest) ≠ 0) :
    wp (ensurePath (ptrAt view dir slot front) rest) (fun got after =>
      got = some (ptrAt view dir slot (front ++ rest)) ∧
      Io loose after view (fun _ => False) held ∧ SameFs s after) s := by
  induction rest generalizing s front with
  | nil =>
    rw [List.append_nil]
    exact wp_pure.mpr ⟨rfl, file.fs.io, SameFs.refl s⟩
  | cons i rest inductionHypothesis =>
    rw [List.append_cons] at isNode isBlock ⊢
    have isNext : IsNode groups.blockSize slot (front ++ [i]) := isNode.front
    have next : ptrAt view dir slot (front ++ [i]) ≠ 0 :=
      fun isHole => isBlock (ptrAt_below view dir slot _ rest isHole)
    have above : ptrAt view dir slot front ≠ 0 :=
      fun isHole => next (ptrAt_below view dir slot front [i] isHole)
    have small : i < groups.blockSize / 4 := isNext.indices i (List.mem_append_right _ (List.mem_singleton_self i))
    have child : load (view (ptrAt view dir slot front)) (4 * i) 4 =
        ptrAt view dir slot (front ++ [i]) := by
      rw [ptrAt_append, childAt, if_neg above]
    rw [ensurePath, ensurePtr, wp_bind]
    apply wp_seq (file.fs.io.bread_spec _ room)
    rintro cache mid ⟨ioMid, same, buffers, -⟩
    apply wp_seq (ioMid.loadBuf_spec buffers (show 4 * i + 4 ≤ blkSz by have := groups.sized.small.2; omega)
      fun x _ _ => file.firm isNext.parent above x)
    rintro ptr mid' ⟨isPtr, isMid⟩
    rw [isMid, isPtr, child, if_neg next]
    apply wp_seq (ioMid.brelse_spec buffers not_false file.fs.io.superHeld)
    rintro - ready ⟨ioReady, same', -⟩
    rw [wp_pure]
    have unchanged := file.same (fun _ _ => False) ioReady (same.trans same')
    apply wp_mono (inductionHypothesis unchanged.file (front ++ [i]) isNode isBlock)
    rintro got after ⟨isGot, ioAfter, same''⟩
    exact ⟨isGot, ioAfter, (same.trans same').trans same''⟩

/-- A block that is there is overwritten, and nothing else changes. -/
theorem ext2WriteBlock_mapped (file : FileState groups loose s view held p dir)
    (room : Multiset.card held < nBlkNum) {lbk : Nat} {slot : Fin nBlocks} {path : List Nat}
    (found : blockPath groups.blockSize lbk = some (slot, path))
    (isBlock : ptrAt view dir slot path ≠ 0)
    (buf : ByteMap) :
    wp (ext2WriteBlock p lbk buf) (fun done after => done = true ∧
      Io loose after (Function.update view (ptrAt view dir slot path)
        (copy (view (ptrAt view dir slot path)) 0 groups.blockSize buf)) (fun _ => False) held ∧
      SameFs s after) s := by
  have isNode := (blockPath_isNode found).1
  have top : dir.iBlock slot ≠ 0 := fun isHole => isBlock (ptrAt_below view dir slot [] path isHole)
  rw [ext2WriteBlock, wp_bind, wp_get, file.fs.fits.blockSize, found]
  simp only
  rw [ensureSlot, wp_bind, wp_bind, wp_derefInode file.isInode, if_neg top, wp_pure]
  apply wp_seq (ensurePath_mapped file room [] path isNode isBlock)
  rintro got mid ⟨isGot, ioMid, same⟩
  rw [isGot, List.nil_append]
  apply wp_seq (ioMid.bread_spec _ room)
  rintro cache read ⟨ioRead, same', buffers, -⟩
  apply wp_seq (ioRead.copyBuf_spec buffers (Multiset.mem_cons_self ..) ((Nat.zero_add groups.blockSize).symm ▸ groups.sized.small.2))
  rintro - copied ⟨ioCopied, same'', keeps⟩
  apply wp_seq (ioCopied.bwrite_spec (keeps _ _ buffers) not_false)
  rintro - written ⟨ioWritten, same₃, keeps'⟩
  apply wp_seq (ioWritten.brelse_spec (keeps' _ _ (keeps _ _ buffers)) not_false
    file.fs.io.superHeld)
  rintro - after ⟨ioAfter, same₄, -⟩
  exact wp_pure.mpr ⟨rfl, ioAfter, (((same.trans same').trans same'').trans same₃).trans same₄⟩

/-- A live entry of a directory, with the block and the position of its record. -/
def DirEntry (size : Nat) (view : Nat → ByteMap) (dir : Inode) (lbk pos ino : Nat) (name : List Byte) : Prop :=
  lbk < dirBlocks size dir.size ∧
    ∃ data, fileBlock view size dir lbk = some data ∧ Record size data pos ino name

/-- The first entry with a name. -/
def FirstEntry (size : Nat) (view : Nat → ByteMap) (dir : Inode) (name : List Byte) (lbk pos ino : Nat) : Prop :=
  DirEntry size view dir lbk pos ino name ∧ ∀ lbk' pos' ino', DirEntry size view dir lbk' pos' ino' name →
    lbk < lbk' ∨ lbk = lbk' ∧ pos ≤ pos'

/-- The block loop reads its way to the block of the first entry. -/
theorem unlinkFrom_reaches {post : Bool → Vfs → Prop} {lbk pos ino : Nat} {data : ByteMap}
    (entries : Entries groups.blockSize view dir (dirBlocks groups.blockSize dir.size))
    (firstEntry : FirstEntry groups.blockSize view dir name lbk pos ino)
    (isData : fileBlock view groups.blockSize dir lbk = some data)
    (removes : ∀ (mid : Vfs) (buf : ByteMap) (before : Option Nat) (recs : List Nat),
      FileState groups loose mid view held p dir → SameFs s mid → SameOn buf data 0 groups.blockSize →
      Chain buf groups.blockSize 0 recs → pos ∈ recs → Place buf recs before pos →
      wp (do
        let written ← ext2WriteBlock p lbk (removeEntry buf before pos)
        if written = false then return false
        else do
          dropLink ino
          return true) post mid)
    (file : FileState groups loose s view held p dir) (room : Multiset.card held < nBlkNum)
    (remaining at' : Nat) (upTo : at' + remaining = dirBlocks groups.blockSize dir.size)
    (low : at' ≤ lbk) :
    wp (unlinkFrom p name remaining at') post s := by
  obtain ⟨⟨inside, data', isData', record⟩, first⟩ := firstEntry
  obtain rfl : data = data' := Option.some.inj (isData.symm.trans isData')
  have short : name.length ≤ 255 := by
    have small := deNameLen_lt data pos
    rw [record.named.length] at small
    omega
  induction remaining generalizing s at' with
  | zero => omega
  | succ remaining inductionHypothesis =>
    have size := file.fs.fits.blockSize
    rw [unlinkFrom, wp_bind, wp_get]
    apply wp_seq (ext2ReadBlock_spec file.fs.io room file.isInode file.firmFile
      (size ▸ groups.sized.small.2) at' _)
    rintro block mid ⟨isBlock, ioMid, same⟩
    rw [size] at isBlock ⊢
    have unchanged := (file.same (fun _ _ => False) ioMid same).file
    have next : at' ≠ lbk → wp (unlinkFrom p name remaining (at' + 1)) post mid := by
      intro differs
      apply inductionHypothesis _ unchanged (at' + 1) (by omega) (by omega)
      intro mid' buf before recs file' same'
      exact removes mid' buf before recs file' (same.trans same')
    cases found : fileBlock view groups.blockSize dir at' with
    | none =>
      rw [found] at isBlock
      subst isBlock
      apply next
      rintro rfl
      rw [isData] at found
      cases found
    | some there =>
      rw [found, Option.map_some] at isBlock
      subst isBlock
      obtain ⟨recs, chain⟩ := entries at' (by omega) there found
      have sameBytes := @sameOn_copy_whole groups.blockSize s.uninitialized there
      have chainBuf := chain.sameOn sameBytes
      -- A match in the buffer is an entry with the name.
      have entry : ∀ q ∈ recs, Matches (copy s.uninitialized 0 groups.blockSize there) name q →
          ∃ ino', DirEntry groups.blockSize view dir at' q ino' name := by
        intro q isRecord isMatch
        obtain ⟨used, named⟩ := (matches_iff short).mp isMatch
        have isEntry : Record groups.blockSize (copy s.uninitialized 0 groups.blockSize there) q _ name :=
          ⟨⟨recs, chainBuf, isRecord⟩, rfl, used, named⟩
        exact ⟨_, by omega, there, found, isEntry.congr fun x low high => (sameBytes x low high).symm⟩
      by_cases isHere : at' = lbk
      · subst isHere
        obtain rfl : there = data := Option.some.inj (found.symm.trans isData)
        have inBuffer := record.congr sameBytes
        obtain ⟨recs', chain', member⟩ := inBuffer.chain
        rw [chainBuf.unique chain'] at member
        have isMatch : Matches (copy s.uninitialized 0 groups.blockSize there) name pos :=
          (matches_iff short).mpr ⟨inBuffer.number ▸ inBuffer.used, inBuffer.named⟩
        obtain ⟨before, scanned, place⟩ := chainBuf.scan_first groups.sized.small.2 short member isMatch
          (fun q isRecord isMatch' => by
            obtain ⟨ino', isEntry⟩ := entry q isRecord isMatch'
            have order := first at' q ino' isEntry
            omega) none groups.blockSize (Nat.le_refl _)
        simp only [scanned, inBuffer.number]
        exact removes mid _ before recs unchanged same sameBytes chainBuf member place
      · have absent := chainBuf.scan_absent groups.sized.small.2 short (fun q isRecord isMatch => by
          obtain ⟨ino', isEntry⟩ := entry q isRecord isMatch
          have order := first at' q ino' isEntry
          omega) none groups.blockSize
        simp only [absent]
        exact next isHere

/-- The blocks as the cache shows them are a view. -/
theorem FileState.onBlocks (file : FileState groups loose s view held p dir) :
    FileState groups loose s s.block held p dir := by
  refine (file.elsewhere file.fs.io.of_blocks (SameFs.refl s) (fun no metadata => ?_)
    fun slot path isNode isBlock => file.fs.io.block_eq _ (file.firm isNode isBlock)).file
  exact file.fs.io.block_eq no (file.fs.firm fun inTable => file.fs.table_plain inTable metadata)

/-- The block with a record is no hole. -/
theorem DirEntry.mapped {lbk pos ino : Nat}
    (entry : DirEntry groups.blockSize view dir lbk pos ino name) : ∃ slot path,
    blockPath groups.blockSize lbk = some (slot, path) ∧ ptrAt view dir slot path ≠ 0 := by
  obtain ⟨-, data, isData, record⟩ := entry
  cases found : blockPath groups.blockSize lbk with
  | none =>
    rw [fileBlock, found] at isData
    cases isData
  | some place =>
    obtain ⟨slot, path⟩ := place
    refine ⟨slot, path, rfl, fun isHole => record.used ?_⟩
    rw [fileBlock_eq found, dataAt, if_pos isHole] at isData
    rw [← record.number, ← Option.some.inj isData]
    exact load_zeros _ _

/-- The block of the directory was written without the record at `pos`. -/
structure Removed (groups : Groups) (loose : Nat → Nat → Prop) (s : Vfs) (held : Multiset Nat)
    (no pos : Nat) (stored : Vfs) (changed : Nat → ByteMap) : Prop where
  state : FsState groups loose stored changed held
  same : SameFs s stored
  elsewhere : ∀ m, m ≠ no → changed m = s.block m
  records : ∀ q ino name, Record groups.blockSize (changed no) q ino name ↔ Record groups.blockSize (s.block no) q ino name ∧ q ≠ pos

/-- `ext2_unlink` writes the block of the first record with the name, and drops the link. -/
theorem ext2Unlink_removes {post : Bool → Vfs → Prop} {lbk pos ino : Nat}
    (file : FileState groups loose s view held p dir) (room : Multiset.card held < nBlkNum)
    (entries : Entries groups.blockSize s.block dir (dirBlocks groups.blockSize dir.size))
    (named : name ≠ [])
    (first : FirstEntry groups.blockSize s.block dir name lbk pos ino)
    (drops : ∀ slot path stored changed, blockPath groups.blockSize lbk = some (slot, path) →
      ptrAt s.block dir slot path ≠ 0 →
      Removed groups loose s held (ptrAt s.block dir slot path) pos stored changed →
      wp (dropLink ino) (fun _ after => post true after) stored) :
    wp (ext2Unlink p name) post s := by
  have file := file.onBlocks
  obtain ⟨inside, data, isData, -⟩ := first.1
  obtain ⟨slot, path, found, isBlock⟩ := first.1.mapped
  have isNode := (blockPath_isNode found).1
  rw [ext2Unlink, if_neg named, wp_bind, wp_derefInode file.isInode, wp_bind, wp_get,
    file.fs.fits.blockSize]
  refine unlinkFrom_reaches entries first isData ?_ file room _ 0 (Nat.zero_add _) (Nat.zero_le _)
  intro mid buf before recs fileMid same sameBytes chain member place
  rw [fileBlock_eq found, dataAt, if_neg isBlock] at isData
  obtain rfl := Option.some.inj isData
  apply wp_seq (ext2WriteBlock_mapped fileMid room found isBlock _)
  rintro done stored ⟨isDone, ioStored, sameStored⟩
  rw [isDone, if_neg fun no => by cases no]
  have elsewhere : ∀ m, m ≠ ptrAt s.block dir slot path →
      Function.update s.block (ptrAt s.block dir slot path)
        (copy (s.block (ptrAt s.block dir slot path)) 0 groups.blockSize (removeEntry buf before pos)) m =
      s.block m := fun m differs => Function.update_of_ne differs _ _
  have plain := file.owned slot path isNode isBlock
  obtain ⟨state, -⟩ := file.fs.plain ioStored (same.trans sameStored) fun no metadata =>
    elsewhere no fun isDir => plain.notMetadata (isDir ▸ metadata)
  refine wp_seq (drops slot path stored _ found isBlock
    ⟨state, same.trans sameStored, elsewhere, fun q ino' name' => ?_⟩) ?_
  · rw [Function.update_self]
    have whole := @sameOn_copy_whole groups.blockSize (s.block (ptrAt s.block dir slot path))
      (removeEntry buf before pos)
    constructor
    · intro record
      obtain ⟨isRecord, differs⟩ := (removeEntry_record chain groups.sized.small.2 member place q ino' name').mp
        (record.congr fun x low high => (whole x low high).symm)
      exact ⟨isRecord.congr fun x low high => (sameBytes x low high).symm, differs⟩
    · rintro ⟨record, differs⟩
      exact ((removeEntry_record chain groups.sized.small.2 member place q ino' name').mpr
        ⟨record.congr sameBytes, differs⟩).congr whole
  · exact fun _ _ holds => wp_pure.mpr holds

end

end CuteCore.Fs
