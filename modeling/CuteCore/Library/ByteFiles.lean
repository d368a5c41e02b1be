import Mathlib

/-!
# Files under handles

Files of values by position, and handles with an offset of their own. A read delivers
what is left between its offset and the end of the file, a write lays values over the
file and may be cut short. Which handle may do what, and which positions have storage,
is a parameter.
-/

namespace ByteFiles

section

variable {α : Type}

/-- The contents with `n` values laid over them. -/
def overlay (byte : Nat → α) (offset n : Nat) (data : Nat → α) (pos : Nat) : α :=
  if offset ≤ pos ∧ pos < offset + n then data (pos - offset) else byte pos

theorem overlay_inside {byte : Nat → α} {offset n pos : Nat} {data : Nat → α}
    (low : offset ≤ pos) (high : pos < offset + n) :
    overlay byte offset n data pos = data (pos - offset) :=
  if_pos ⟨low, high⟩

theorem overlay_outside {byte : Nat → α} {offset n pos : Nat} {data : Nat → α}
    (outside : pos < offset ∨ offset + n ≤ pos) : overlay byte offset n data pos = byte pos := by
  rw [overlay, if_neg (by omega)]

theorem overlay_zero (byte : Nat → α) (offset : Nat) (data : Nat → α) :
    overlay byte offset 0 data = byte :=
  funext fun pos => overlay_outside (by omega)

/-- Two stretches, one behind the other. -/
theorem overlay_append (byte : Nat → α) (offset n k : Nat) (data : Nat → α) :
    overlay (overlay byte offset n data) (offset + n) k (fun i => data (n + i)) =
      overlay byte offset (n + k) data := by
  funext pos
  by_cases first : offset ≤ pos ∧ pos < offset + n
  · rw [overlay_outside (Or.inl first.2), overlay_inside first.1 first.2,
      overlay_inside first.1 (by omega)]
  · by_cases second : offset + n ≤ pos ∧ pos < offset + n + k
    · have isIndex : n + (pos - (offset + n)) = pos - offset := by omega
      rw [overlay_inside second.1 second.2, overlay_inside (by omega) (by omega), isIndex]
    · rw [overlay_outside (by omega), overlay_outside (by omega), overlay_outside (by omega)]

/-- `n` values from a position on. -/
def stretch (byte : Nat → α) (start n : Nat) : List α := (List.range n).map fun i => byte (start + i)

theorem length_stretch (byte : Nat → α) (start n : Nat) : (stretch byte start n).length = n := by
  rw [stretch, List.length_map, List.length_range]

theorem stretch_getD {byte : Nat → α} {start n i : Nat} (less : i < n) (default : α) :
    (stretch byte start n).getD i default = byte (start + i) := by
  rw [stretch, List.getD_eq_getElem _ _ (by rwa [List.length_map, List.length_range]),
    List.getElem_map, List.getElem_range]

theorem stretch_append (byte : Nat → α) (start n k : Nat) :
    stretch byte start n ++ stretch byte (start + n) k = stretch byte start (n + k) := by
  simp only [stretch, List.range_add, List.map_append, List.map_map, Function.comp_def,
    Nat.add_assoc]

theorem stretch_congr {byte other : Nat → α} {start n : Nat}
    (same : ∀ i < n, byte (start + i) = other (start + i)) :
    stretch byte start n = stretch other start n :=
  List.map_congr_left fun i member => same i (List.mem_range.mp member)

/-- A write behind a stretch lengthens it by the data. -/
theorem stretch_overlay (byte : Nat → α) (start n k : Nat) (data : Nat → α) :
    stretch (overlay byte (start + n) k data) start (n + k) =
      stretch byte start n ++ stretch data 0 k := by
  rw [← stretch_append]
  congr 1
  · exact stretch_congr fun i less => overlay_outside (by omega)
  · refine List.map_congr_left fun i member => ?_
    have less := List.mem_range.mp member
    rw [overlay_inside (by omega) (by omega), Nat.zero_add, Nat.add_sub_cancel_left]

end

variable {ι κ α : Type} [DecidableEq ι] [DecidableEq κ]

@[ext] structure Space (ι κ α : Type) where
  size : ι → Nat
  byte : ι → Nat → α
  /-- Of a handle. -/
  offset : κ → Nat

/-- The file a handle may read and the one it may write, and the positions that have
storage. -/
structure Access (ι κ : Type) where
  reads : κ → Option ι
  writes : κ → Option ι
  backed : ι → Nat → Prop

inductive Call (κ α : Type) where
  | read (handle : κ) (len : Nat)
  | write (handle : κ) (len : Nat) (data : Nat → α)

def Call.handle : Call κ α → κ
  | .read handle _ => handle
  | .write handle _ _ => handle

def Call.len : Call κ α → Nat
  | .read _ len => len
  | .write _ len _ => len

inductive Answer (α : Type) where
  | refused
  | delivered (values : List α)
  | stored (n : Nat)

/-- The size after `n` of `len` values were stored. A write that is cut short does not
move the end. -/
def writtenSize (size offset len n : Nat) : Nat :=
  if n = len ∧ 0 < len then max size (offset + n) else size

def Space.advance (a : Space ι κ α) (handle : κ) (n : Nat) : Space ι κ α :=
  { a with offset := Function.update a.offset handle (a.offset handle + n) }

def Space.store (a : Space ι κ α) (file : ι) (handle : κ) (len n : Nat) (data : Nat → α) :
    Space ι κ α :=
  { a with
    size := Function.update a.size file (writtenSize (a.size file) (a.offset handle) len n)
    byte := Function.update a.byte file (overlay (a.byte file) (a.offset handle) n data) }

/-- A write is cut short only where storage is missing. -/
inductive Step (access : Access ι κ) :
    Space ι κ α → Call κ α → Answer α → Space ι κ α → Prop where
  | refusedRead {a : Space ι κ α} {handle : κ} {len : Nat} (denied : access.reads handle = none) :
      Step access a (.read handle len) .refused a
  | refusedWrite {a : Space ι κ α} {handle : κ} {len : Nat} {data : Nat → α}
      (denied : access.writes handle = none) :
      Step access a (.write handle len data) .refused a
  | read {a : Space ι κ α} {handle : κ} {len n : Nat} {file : ι}
      (allowed : access.reads handle = some file)
      (isN : n = min len (a.size file - a.offset handle)) :
      Step access a (.read handle len)
        (.delivered (stretch (a.byte file) (a.offset handle) n)) (a.advance handle n)
  | write {a : Space ι κ α} {handle : κ} {len n : Nat} {data : Nat → α} {file : ι}
      (allowed : access.writes handle = some file) (part : n ≤ len)
      (whole : (∀ i < len, access.backed file (a.offset handle + i)) → n = len) :
      Step access a (.write handle len data) (.stored n)
        ((a.store file handle len n data).advance handle n)

/-- A step is one as well where less storage is promised. -/
theorem Step.fewer {access less : Access ι κ} (reads : access.reads = less.reads)
    (writes : access.writes = less.writes)
    (backed : ∀ file pos, less.backed file pos → access.backed file pos) {a after : Space ι κ α}
    {call : Call κ α} {answer : Answer α} (step : Step access a call answer after) :
    Step less a call answer after := by
  cases step with
  | refusedRead denied => exact .refusedRead (by rwa [← reads])
  | refusedWrite denied => exact .refusedWrite (by rwa [← writes])
  | read allowed isN => exact .read (by rwa [← reads]) isN
  | write allowed part whole =>
    refine .write (by rwa [← writes]) part fun promised => whole fun i inside => ?_
    exact backed _ _ (promised i inside)

inductive Runs (access : Access ι κ) :
    Space ι κ α → List (Call κ α × Answer α) → Space ι κ α → Prop where
  | nil {a : Space ι κ α} : Runs access a [] a
  | cons {a mid after : Space ι κ α} {call : Call κ α} {answer : Answer α}
      {rest : List (Call κ α × Answer α)} (first : Step access a call answer mid)
      (later : Runs access mid rest after) : Runs access a ((call, answer) :: rest) after

theorem Runs.fewer {access less : Access ι κ} (reads : access.reads = less.reads)
    (writes : access.writes = less.writes)
    (backed : ∀ file pos, less.backed file pos → access.backed file pos) {a after : Space ι κ α}
    {calls : List (Call κ α × Answer α)} (runs : Runs access a calls after) :
    Runs less a calls after := by
  induction runs with
  | nil => exact .nil
  | cons first _ inductionHypothesis =>
    exact .cons (first.fewer reads writes backed) inductionHypothesis

/-! ## A file as a queue -/

/-- What a call put into the file through this handle. -/
def sentBy (writer : κ) : Call κ α × Answer α → List α
  | (.write handle _ data, .stored n) => if handle = writer then stretch data 0 n else []
  | _ => []

/-- What a call took out through this handle. -/
def receivedBy (reader : κ) : Call κ α × Answer α → List α
  | (.read handle _, .delivered values) => if handle = reader then values else []
  | _ => []

theorem sentBy_read (writer handle : κ) (len : Nat) (values : List α) :
    sentBy writer (.read handle len, .delivered values) = [] := rfl

theorem receivedBy_write (reader handle : κ) (len n : Nat) (data : Nat → α) :
    receivedBy reader (.write handle len data, .stored n) = [] := rfl

/-- One handle only writes the file and one only reads it. Others may read it too. -/
structure Queue (access : Access ι κ) (file : ι) (writer reader : κ) : Prop where
  writes : access.writes writer = some file
  reads : access.reads reader = some file
  sole : ∀ handle, access.writes handle = some file → handle = writer
  writeOnly : access.reads writer = none
  readOnly : access.writes reader = none

/-- The reader is not ahead, and the end of the file is not beyond the writer. -/
structure Ordered (file : ι) (writer reader : κ) (a : Space ι κ α) : Prop where
  behind : a.offset reader ≤ a.offset writer
  ends : a.size file ≤ a.offset writer

/-- What was written and not read yet. -/
def unread (file : ι) (writer reader : κ) (a : Space ι κ α) : List α :=
  stretch (a.byte file) (a.offset reader) (a.offset writer - a.offset reader)

section

variable {access : Access ι κ} {file : ι} {writer reader : κ}

/-- One call keeps the order of a writer and a reader: what is unread grows at its end by what was
written, and shrinks at its front by what was read. -/
theorem Step.queue (queue : Queue access file writer reader) {a after : Space ι κ α}
    {call : Call κ α} {answer : Answer α} (step : Step access a call answer after)
    (ordered : Ordered file writer reader a) : Ordered file writer reader after ∧
      unread file writer reader a ++ sentBy writer (call, answer) =
        receivedBy reader (call, answer) ++ unread file writer reader after := by
  obtain ⟨behind, ends⟩ := ordered
  cases step with
  | refusedRead denied => exact ⟨⟨behind, ends⟩, List.append_nil _⟩
  | refusedWrite denied => exact ⟨⟨behind, ends⟩, List.append_nil _⟩
  | @read handle len n other allowed isN =>
    have notWriter : handle ≠ writer := by
      rintro rfl
      rw [queue.writeOnly] at allowed
      cases allowed
    have atWriter : (a.advance handle n).offset writer = a.offset writer :=
      Function.update_of_ne notWriter.symm _ _
    rw [sentBy_read, List.append_nil, receivedBy]
    by_cases isReader : handle = reader
    · subst isReader
      obtain rfl : other = file := Option.some.inj (allowed.symm.trans queue.reads)
      have atReader : (a.advance handle n).offset handle = a.offset handle + n :=
        Function.update_self ..
      rw [if_pos rfl]
      refine ⟨⟨?_, ?_⟩, ?_⟩
      · rw [atReader, atWriter]
        omega
      · rw [atWriter]
        exact ends
      · have whole : n + (a.offset writer - (a.offset handle + n)) =
            a.offset writer - a.offset handle := by omega
        rw [unread, unread, atReader, atWriter, ← whole]
        exact (stretch_append ..).symm
    · have atReader : (a.advance handle n).offset reader = a.offset reader :=
        Function.update_of_ne (Ne.symm isReader) _ _
      rw [if_neg isReader, unread, unread, atReader, atWriter]
      refine ⟨⟨?_, ?_⟩, rfl⟩
      · rw [atReader, atWriter]
        exact behind
      · rw [atWriter]
        exact ends
  | @write handle len n data other allowed part whole =>
    have notReader : handle ≠ reader := by
      rintro rfl
      rw [queue.readOnly] at allowed
      cases allowed
    have atReader : ((a.store other handle len n data).advance handle n).offset reader =
        a.offset reader := Function.update_of_ne notReader.symm _ _
    rw [receivedBy_write, List.nil_append, sentBy]
    by_cases isWriter : handle = writer
    · subst isWriter
      obtain rfl : other = file := Option.some.inj (allowed.symm.trans queue.writes)
      have atWriter : ((a.store other handle len n data).advance handle n).offset handle =
          a.offset handle + n := Function.update_self ..
      have newSize : ((a.store other handle len n data).advance handle n).size other =
          writtenSize (a.size other) (a.offset handle) len n := Function.update_self ..
      have newBytes : ((a.store other handle len n data).advance handle n).byte other =
          overlay (a.byte other) (a.offset handle) n data := Function.update_self ..
      refine ⟨⟨?_, ?_⟩, ?_⟩
      · rw [atReader, atWriter]
        omega
      · rw [atWriter, newSize, writtenSize]
        split <;> omega
      · have start : a.offset handle =
            a.offset reader + (a.offset handle - a.offset reader) := by omega
        have length : a.offset handle + n - a.offset reader =
            a.offset handle - a.offset reader + n := by omega
        rw [if_pos rfl, unread, unread, atReader, atWriter, newBytes, length]
        conv_rhs => rw [start]
        rw [Nat.add_sub_cancel_left]
        exact (stretch_overlay ..).symm
    · have apart : other ≠ file := by
        rintro rfl
        exact isWriter (queue.sole handle allowed)
      have atWriter : ((a.store other handle len n data).advance handle n).offset writer =
          a.offset writer := Function.update_of_ne (Ne.symm isWriter) _ _
      have sameSize : ((a.store other handle len n data).advance handle n).size file =
          a.size file := Function.update_of_ne apart.symm _ _
      have sameBytes : ((a.store other handle len n data).advance handle n).byte file =
          a.byte file := Function.update_of_ne apart.symm _ _
      rw [if_neg isWriter, List.append_nil, unread, unread, atReader, atWriter, sameBytes]
      refine ⟨⟨?_, ?_⟩, rfl⟩
      · rw [atReader, atWriter]
        exact behind
      · rw [atWriter, sameSize]
        exact ends

/-- Over a run, what was in the queue and what came in is what went out and what is left. -/
theorem Runs.queue (queue : Queue access file writer reader) {a after : Space ι κ α}
    {calls : List (Call κ α × Answer α)} (runs : Runs access a calls after)
    (ordered : Ordered file writer reader a) : Ordered file writer reader after ∧
      unread file writer reader a ++ calls.flatMap (sentBy writer) =
        calls.flatMap (receivedBy reader) ++ unread file writer reader after := by
  induction runs with
  | nil => exact ⟨ordered, List.append_nil _⟩
  | cons first later inductionHypothesis =>
    obtain ⟨orderedMid, one⟩ := first.queue queue ordered
    obtain ⟨orderedAfter, more⟩ := inductionHypothesis orderedMid
    refine ⟨orderedAfter, ?_⟩
    rw [List.flatMap_cons, List.flatMap_cons, ← List.append_assoc, one, List.append_assoc, more,
      List.append_assoc]

end

end ByteFiles
