import CuteCore.Driver.Progress

/-!
# The disk as a map of blocks

The history of the driver read as a history of block operations. Sectors of block numbers
below `2 ^ 61` do not wrap, so different blocks have different sectors.

A request names a sector, and a block is eight of them. The events of one call of
`blkread` or `blkwrite`, taken together, are one read or one write of a block, so a
finished history can be replayed on a map from block numbers to contents. The number of a
sector has 64 bits.
-/

namespace CuteCore.Virtio

open Bytes

/-! ## Published and completed requests -/

def Event.isPublished : Event → Bool
  | .published _ _ => true
  | .called _ _ => false
  | .completed _ _ _ => false
  | .returned _ _ => false

def Event.isCompleted : Event → Bool
  | .completed _ _ _ => true
  | .called _ _ => false
  | .published _ _ => false
  | .returned _ _ => false

def published (history : List Event) : Nat := history.countP Event.isPublished
def completed (history : List Event) : Nat := history.countP Event.isCompleted

/-- The numbers of requests published and completed. -/
def tally (history : List Event) : Nat × Nat := (published history, completed history)

theorem tally_append (front rest : List Event) :
    tally (front ++ rest) = tally front + tally rest := by
  simp only [tally, published, completed, List.countP_append, Prod.mk_add_mk]

theorem tally_passes {ι : Type} (call : Call) (passes : List ι) (index : ι → Nat)
    (bytes : ι → Sector) : tally (passes.flatMap fun i => call.request (index i) (bytes i)) =
      (passes.length, passes.length) := by
  induction passes with
  | nil => rfl
  | cons i rest inductionHypothesis =>
    rw [List.flatMap_cons, tally_append, inductionHypothesis, List.length_cons]
    change (1, 1) + (rest.length, rest.length) = _
    rw [Prod.mk_add_mk, Nat.add_comm]

theorem tally_finished (finished : Finished) : tally finished.events = (8, 8) := by
  rw [Finished.events, List.cons_append, ← List.singleton_append, tally_append, tally_append,
    tally_passes, List.length_finRange]
  rfl

theorem tally_calls (calls : List Finished) :
    tally (calls.flatMap Finished.events) = (8 * calls.length, 8 * calls.length) := by
  induction calls with
  | nil => rfl
  | cons finished rest inductionHypothesis =>
    rw [List.flatMap_cons, tally_append, tally_finished, inductionHypothesis, Prod.mk_add_mk,
      List.length_cons, Nat.mul_succ, Nat.add_comm 8]

variable {disk : BitVec 64 → Sector} {s after : State} {calls : List Finished} {current : List Event}

/-- Either nothing is in flight, or one request is and the driver waits for it. -/
inductive InFlight (s : State) (content : BitVec 64 → Sector) : Prop where
  | nothing (even : published s.history = completed s.history) (none : s.active = [])
  | one (odd : published s.history = completed s.history + 1) {call : Call} {i : Nat}
      {stage : Stage} {lastUsed : BitVec 16} (isAt : s.driver = .submitting call i stage)
      (waits : stage = .notifying lastUsed ∨ stage = .polling lastUsed)
      (flight : Flight s.toMachine content call i lastUsed)

theorem tally_current {call : Call} {given : Block} {mem : ByteMap} {i : Nat} {pass : List Event}
    (whole : s.history = calls.flatMap Finished.events ++
      (.called call given :: (call.requests mem i ++ pass))) :
    tally s.history = (8 * calls.length + i, 8 * calls.length + i) + tally pass := by
  have passes : tally (call.requests mem i) = (i, i) := by
    rw [Call.requests, tally_passes call (List.range i) (fun j => j), List.length_range]
  rw [whole, tally_append, tally_calls, ← List.singleton_append, tally_append, tally_append, passes,
    ← add_assoc, ← add_assoc]
  rfl

/-- While a request is in flight the device's disk is the one that the requests completed so far
have written. -/
theorem Orderly.inFlight (orderly : Orderly disk s calls current) :
    InFlight s (contentAfter disk s.history) := by
  obtain ⟨whole, -, -, atPoint⟩ := orderly
  rw [AtPoint] at atPoint
  cases isAt : s.driver with
  | idle =>
    rw [isAt] at atPoint
    obtain ⟨quiet, -, rfl⟩ := atPoint
    rw [List.append_nil] at whole
    have counts := tally_calls calls
    rw [← whole] at counts
    obtain ⟨isPublished, isCompleted⟩ := Prod.mk.inj counts
    exact .nothing (isPublished.trans isCompleted.symm) quiet.none
  | panicked =>
    rw [isAt] at atPoint
    exact atPoint.elim
  | submitting call i stage =>
    rw [isAt] at atPoint
    obtain ⟨-, given, pass, rfl, -, atStage⟩ := atPoint
    have counts := tally_current whole
    cases atStage.passState with
    | before quiet isPass =>
      rw [isPass] at counts
      obtain ⟨isPublished, isCompleted⟩ := Prod.mk.inj counts
      exact .nothing (isPublished.trans isCompleted.symm) quiet.none
    | completed quiet isPass =>
      rw [isPass] at counts
      obtain ⟨isPublished, isCompleted⟩ := Prod.mk.inj counts
      exact .nothing (isPublished.trans isCompleted.symm) quiet.none
    | inFlight lastUsed isStage flight isPass =>
      rw [isPass] at counts
      obtain ⟨isPublished, isCompleted⟩ := Prod.mk.inj counts
      exact .one (isPublished.trans (congrArg (· + 1) isCompleted.symm)) isAt isStage flight

/-- While a request is in flight the driver leaves the shared memory alone. -/
theorem InFlight.frozen {content : BitVec 64 → Sector} (inFlight : InFlight s content)
    (step : DriverStep s after) (busy : completed s.history < published s.history) :
    after.shared = s.shared := by
  cases inFlight with
  | nothing even none => omega
  | @one odd call i stage lastUsed isAt waits flight =>
    cases step with
    | write idle mem => exact absurd (isAt.symm.trans idle) (by simp)
    | call idle call => exact absurd (isAt.symm.trans idle) (by simp)
    | submit isAt' =>
      obtain ⟨rfl, rfl, rfl⟩ := Driver.submitting.inj (isAt.symm.trans isAt')
      rcases waits with rfl | rfl
      · rfl
      · rw [State.submitStep]
        split <;> rfl

theorem not_returned_of_request {call other : Call} {i : Nat} {bytes : Sector} {block : Block} :
    Event.returned other block ∉ call.request i bytes := by
  simp [Call.request]

/-- The call that is being served has not returned yet. -/
theorem Orderly.no_return (orderly : Orderly disk s calls current) (call : Call) (block : Block) :
    Event.returned call block ∉ current := by
  have atPoint := orderly.2.2.2
  rw [AtPoint] at atPoint
  cases isAt : s.driver with
  | idle =>
    rw [isAt] at atPoint
    obtain ⟨-, -, rfl⟩ := atPoint
    exact List.not_mem_nil
  | panicked =>
    rw [isAt] at atPoint
    exact atPoint.elim
  | submitting other i stage =>
    rw [isAt] at atPoint
    obtain ⟨-, given, pass, rfl, -, atStage⟩ := atPoint
    intro member
    rcases List.mem_cons.mp member with called | member
    · cases called
    · rcases List.mem_append.mp member with earlier | inPass
      · obtain ⟨j, -, inRequest⟩ := List.mem_flatMap.mp earlier
        exact not_returned_of_request inRequest
      · cases atStage.passState with
        | before quiet isPass => simp [isPass] at inPass
        | completed quiet isPass =>
          rw [isPass] at inPass
          exact not_returned_of_request inPass
        | inFlight lastUsed isStage flight isPass => simp [isPass] at inPass

/-! ## Blocks -/

theorem sector_ne {no other : BitVec 64} {i j : Nat} (small : no.toNat < 2 ^ 61)
    (otherSmall : other.toNat < 2 ^ 61) (inside : i < 8) (otherInside : j < 8)
    (differs : no ≠ other ∨ i ≠ j) : no * 8 + BitVec.ofNat 64 i ≠ other * 8 + BitVec.ofNat 64 j := by
  intro same
  have equal := congrArg BitVec.toNat same
  have eight : (8 : BitVec 64).toNat = 8 := rfl
  simp only [BitVec.toNat_add, BitVec.toNat_mul, BitVec.toNat_ofNat, eight] at equal
  have apart : no.toNat ≠ other.toNat ∨ i ≠ j := differs.imp_left fun ne eq => ne (BitVec.eq_of_toNat_eq eq)
  omega

variable {content : BitVec 64 → Sector} {call : Call} {block : Block} {passes : List (Fin sectorsPerBlock)}

/-- The events of these passes. -/
def Call.passEvents (call : Call) (block : Block) (passes : List (Fin sectorsPerBlock)) : List Event :=
  passes.flatMap fun i : Fin sectorsPerBlock => call.request i (block i)

theorem content_request (i : Nat) (bytes : Sector) : contentAfter content (call.request i bytes) =
    if call.writes then Function.update content (call.sector i) bytes else content := by
  change (if call.type = virtioBlkTOut then _ else _) = _
  cases writes : call.writes with
  | true =>
    rw [Call.type, writes, if_pos rfl, if_pos rfl, if_pos rfl]
    rfl
  | false =>
    rw [Call.type, writes, if_neg (by decide), if_neg (by decide), if_neg (by decide)]
    rfl

theorem content_passes_cons (i : Fin sectorsPerBlock) :
    contentAfter content (call.passEvents block (i :: passes)) = contentAfter
      (if call.writes then Function.update content (call.sector i) (block i) else content)
      (call.passEvents block passes) := by
  rw [Call.passEvents, List.flatMap_cons, contentAfter_append, content_request]
  rfl

theorem content_reading (reads : call.writes = false) :
    contentAfter content (call.passEvents block passes) = content := by
  induction passes with
  | nil => rfl
  | cons i rest inductionHypothesis =>
    rw [content_passes_cons, reads, if_neg (by decide), inductionHypothesis]

theorem content_elsewhere {sector : BitVec 64} (elsewhere : ∀ i ∈ passes, sector ≠ call.sector i) :
    contentAfter content (call.passEvents block passes) sector = content sector := by
  induction passes generalizing content with
  | nil => rfl
  | cons i rest inductionHypothesis =>
    rw [content_passes_cons, inductionHypothesis fun j member =>
      elsewhere j (List.mem_cons_of_mem _ member)]
    split
    · exact Function.update_of_ne (elsewhere i (List.mem_cons_self ..)) ..
    · rfl

/-- After the requests of a `blkwrite` each sector that they wrote holds its part of the block. -/
theorem content_written (writes : call.writes = true) (small : call.no.toNat < 2 ^ 61)
    {j : Fin sectorsPerBlock} (member : j ∈ passes) :
    contentAfter content (call.passEvents block passes) (call.sector j) = block j := by
  induction passes generalizing content with
  | nil => cases member
  | cons i rest inductionHypothesis =>
    rw [content_passes_cons, writes, if_pos rfl]
    by_cases later : j ∈ rest
    · exact inductionHypothesis later
    · obtain rfl : j = i := (List.mem_cons.mp member).resolve_right later
      rw [content_elsewhere]
      · exact Function.update_self ..
      · intro k inRest
        have differs : (j : Nat) ≠ k := fun same => later (Fin.ext same ▸ inRest)
        exact sector_ne small small j.isLt k.isLt (Or.inr differs)

/-- Where the requests of a `blkread` read back what the device holds, so does each sector of the
block. -/
theorem readsBack_passes (reads : call.writes = false)
    (back : ReadsBack content (call.passEvents block passes)) {j : Fin sectorsPerBlock}
    (member : j ∈ passes) : block j = content (call.sector j) := by
  induction passes with
  | nil => cases member
  | cons i rest inductionHypothesis =>
    rw [Call.passEvents, List.flatMap_cons, readsBack_append] at back
    obtain ⟨⟨-, fits, -⟩, later⟩ := back
    rw [content_request, reads, if_neg (by decide)] at later
    rcases List.mem_cons.mp member with rfl | inRest
    · refine fits ?_
      rw [Call.type, reads, if_neg (by decide)]
    · exact inductionHypothesis later inRest

/-- A map of blocks: a write stores its block. -/
def Finished.apply (blocks : BitVec 64 → Block) (finished : Finished) : BitVec 64 → Block :=
  if finished.call.writes then Function.update blocks finished.call.no finished.block else blocks

def blocksAfter (blocks : BitVec 64 → Block) (calls : List Finished) : BitVec 64 → Block :=
  calls.foldl Finished.apply blocks

/-- The blocks of a disk. -/
def blocksOf (disk : BitVec 64 → Sector) : BitVec 64 → Block :=
  fun no i => disk (no * 8 + BitVec.ofNat 64 i)

theorem content_finished (finished : Finished) : contentAfter content finished.events =
    contentAfter content (finished.call.passEvents finished.block (List.finRange sectorsPerBlock)) := by
  rw [Finished.events, List.cons_append, ← List.singleton_append, contentAfter_append,
    contentAfter_append]
  rfl

/-- The sectors after these calls are those of the map. -/
theorem content_calls (small : ∀ finished ∈ calls, finished.call.no.toNat < 2 ^ 61) {no : BitVec 64}
    (isSmall : no.toNat < 2 ^ 61) {blocks : BitVec 64 → Block}
    (agree : ∀ no : BitVec 64, no.toNat < 2 ^ 61 → blocksOf content no = blocks no) :
    blocksOf (contentAfter content (calls.flatMap Finished.events)) no = blocksAfter blocks calls no := by
  induction calls generalizing content blocks with
  | nil => exact agree no isSmall
  | cons finished rest inductionHypothesis =>
    rw [List.flatMap_cons, contentAfter_append]
    refine inductionHypothesis (fun other member => small other (List.mem_cons_of_mem _ member)) ?_
    intro other otherSmall
    have finishedSmall := small finished (List.mem_cons_self ..)
    rw [content_finished]
    cases writes : finished.call.writes with
    | false =>
      rw [content_reading writes, Finished.apply, writes, if_neg (by decide)]
      exact agree other otherSmall
    | true =>
      funext i
      rw [Finished.apply, writes, if_pos rfl]
      by_cases same : other = finished.call.no
      · subst same
        rw [Function.update_self]
        exact content_written writes finishedSmall (List.mem_finRange i)
      · rw [Function.update_of_ne same, ← agree other otherSmall]
        refine content_elsewhere fun j _ => ?_
        exact sector_ne otherSmall finishedSmall i.isLt j.isLt (Or.inl same)

/-- A read of a small block number got the block of the map. -/
theorem Orderly.read_block (orderly : Orderly disk s calls current) {earlier later : List Finished}
    {finished : Finished} (split : calls = earlier ++ finished :: later)
    (reads : finished.call.writes = false)
    (small : ∀ other ∈ earlier, other.call.no.toNat < 2 ^ 61)
    (isSmall : finished.call.no.toNat < 2 ^ 61) :
    finished.block = blocksAfter (blocksOf disk) earlier finished.call.no := by
  obtain ⟨whole, back, -⟩ := orderly
  rw [whole, split, List.flatMap_append, List.flatMap_cons, readsBack_append, readsBack_append,
    readsBack_append, Finished.events, List.cons_append, ReadsBack, readsBack_append] at back
  obtain ⟨⟨-, ⟨-, passes, -⟩, -⟩, -⟩ := back
  rw [← content_calls small isSmall fun _ _ => rfl]
  funext i
  exact readsBack_passes reads passes (List.mem_finRange i)

/-- In every order of the steps: the driver does not panic, at most one request is in flight
and meanwhile the driver changes nothing, the device finds every request well formed, each
call returns directly behind its own eight requests, and it reads and writes a map of blocks. -/
theorem polled_protocol (run : Reachable disk s) :
    s.driver ≠ .panicked ∧ published s.history ≤ completed s.history + 1 ∧
    (∀ after, DriverStep s after → completed s.history < published s.history →
      after.shared = s.shared) ∧
    (∀ job ∈ s.active, s.shared.chain job.head ≠ none) ∧
    ∃ calls current, s.history = calls.flatMap Finished.events ++ current ∧
      (s.driver = .idle → current = []) ∧ (∀ call block, .returned call block ∉ current) ∧
      (∀ finished ∈ calls, finished.call.writes = true → finished.block = finished.given) ∧
      ∀ earlier finished later, calls = earlier ++ finished :: later →
        finished.call.writes = false → (∀ other ∈ earlier, other.call.no.toNat < 2 ^ 61) →
        finished.call.no.toNat < 2 ^ 61 →
        finished.block = blocksAfter (blocksOf disk) earlier finished.call.no := by
  obtain ⟨calls, current, orderly⟩ := Orderly.of_run run
  have inFlight := orderly.inFlight
  have atPoint := orderly.2.2.2
  rw [AtPoint] at atPoint
  refine ⟨?_, ?_, fun after step busy => inFlight.frozen step busy, ?_, calls, current, orderly.1, ?_,
    ?_, orderly.2.2.1, fun earlier finished later split reads small isSmall =>
      orderly.read_block split reads small isSmall⟩
  · intro panicked
    rw [panicked] at atPoint
    exact atPoint
  · cases inFlight with
    | nothing even none => omega
    | one odd isAt waits flight => omega
  · intro job member
    cases inFlight with
    | nothing even none => simp [none] at member
    | one odd isAt waits flight =>
      rcases flight.device with ⟨-, none, -⟩ | ⟨-, taken, active, transfer⟩
      · simp [none] at member
      · rw [active] at member
        obtain rfl := List.mem_singleton.mp member
        rw [transfer.head, flight.described]
        exact Option.some_ne_none _
  · intro idle
    rw [idle] at atPoint
    exact atPoint.2.2
  · exact orderly.no_return

/-- Memory of zeros behind `blkinit`. -/
def afterInit (disk : BitVec 64 → Sector) : State where
  shared := {
    hdrType := 0
    hdrReserved := 0
    hdrSector := 0
    status := 0
    desc := fun _ => { addr := .hdr, len := 0, flags := 0, next := 0 }
    availIdx := 0
    availRing := fun _ => 0
    usedIdx := 0
    usedRing := fun _ => (0, 0)
    mem := fun _ => 0 }
  lastAvail := 0
  active := []
  disk := disk
  driver := .idle
  history := []

/-- How many calls there are. -/
def called (history : List Event) : Nat := history.countP fun event =>
  match event with
  | .called _ _ => true
  | .published _ _ => false
  | .completed _ _ _ => false
  | .returned _ _ => false

/-- The events of a finished call contain one call. -/
theorem called_finished (finished : Finished) : called finished.events = 1 := by
  have passes : ∀ indices : List (Fin sectorsPerBlock), called (indices.flatMap fun i : Fin sectorsPerBlock =>
      finished.call.request i (finished.block i)) = 0 := by
    intro indices
    induction indices with
    | nil => rfl
    | cons i rest inductionHypothesis =>
      rw [List.flatMap_cons, called, List.countP_append]
      change 0 + called _ = 0
      rw [inductionHypothesis]
  rw [Finished.events, called, List.countP_append, List.countP_cons]
  exact congrArg (· + 1 + 0) (passes _)

theorem called_calls (calls : List Finished) :
    called (calls.flatMap Finished.events) = calls.length := by
  induction calls with
  | nil => rfl
  | cons first rest inductionHypothesis =>
    rw [List.flatMap_cons, called, List.countP_append]
    change called first.events + called (rest.flatMap Finished.events) = _
    rw [called_finished, inductionHypothesis, List.length_cons, Nat.add_comm]

/-- A history of one call belongs to that call. -/
theorem sole_call {calls : List Finished} {finished : Finished}
    (history : calls.flatMap Finished.events = finished.events) : calls = [finished] := by
  have one : calls.length = 1 := by
    rw [← called_calls, history, called_finished]
  obtain ⟨other, rfl⟩ := List.length_eq_one_iff.mp one
  rw [List.flatMap_singleton] at history
  obtain ⟨call, given, block⟩ := other
  obtain ⟨call', given', block'⟩ := finished
  have heads := (List.cons.inj history).1
  have lasts := congrArg List.getLast? history
  rw [Finished.events, Finished.events, List.getLast?_concat, List.getLast?_concat] at lasts
  injection heads with sameCall sameGiven
  injection Option.some.inj lasts with _ sameBlock
  change call = call' at sameCall
  change given = given' at sameGiven
  change block = block' at sameBlock
  rw [sameCall, sameGiven, sameBlock]

/-- A call behind `blkinit` can be served up to its return, alone in the history. -/
theorem first_call_returns (disk : BitVec 64 → Sector) (call : Call) : ∃ s given block,
    Reachable disk s ∧ s.driver = .idle ∧ s.history = Finished.events ⟨call, given, block⟩ := by
  have booted : Reachable disk (afterInit disk) := .init rfl rfl rfl rfl rfl rfl rfl
  have calling := booted.driver (.call rfl call)
  obtain ⟨s, onwards, idle⟩ := call_returns calling rfl
  obtain ⟨more, isMore, noCall⟩ := onwards.history
  obtain ⟨calls, current, orderly⟩ := Orderly.of_run onwards.reachable
  have atPoint := orderly.2.2.2
  rw [AtPoint, idle] at atPoint
  have history := orderly.1
  rw [atPoint.2.2, List.append_nil] at history
  have noMore : called more = 0 := by
    rw [called, List.countP_eq_zero]
    intro event member isCall
    cases event with
    | called call given => exact noCall _ member call given rfl
    | published _ _ => exact absurd isCall Bool.false_ne_true
    | completed _ _ _ => exact absurd isCall Bool.false_ne_true
    | returned _ _ => exact absurd isCall Bool.false_ne_true
  have one : calls.length = 1 := by
    rw [← called_calls, ← history, isMore, called, List.countP_append]
    exact congrArg (1 + ·) noMore
  obtain ⟨⟨other, given, block⟩, rfl⟩ := List.length_eq_one_iff.mp one
  rw [List.flatMap_singleton] at history
  have head := (List.cons.inj (history.symm.trans isMore)).1
  injection head with isCall
  change other = call at isCall
  rw [isCall] at history
  exact ⟨s, given, block, onwards.reachable, idle, history⟩

/-- A first read of block 5 behind `blkinit`, up to its return: the call's own eight requests
are completed, and the buffer has what the disk stores. -/
theorem first_read : ∃ s given block, Reachable (fun _ _ => 7) s ∧ s.driver = .idle ∧
    s.history = Finished.events ⟨⟨false, 5, 0x80400000⟩, given, block⟩ ∧
    published s.history = 8 ∧ completed s.history = 8 ∧ block = fun _ _ => 7 := by
  obtain ⟨s, given, block, reachable, idle, history⟩ :=
    first_call_returns (fun _ _ => 7) ⟨false, 5, 0x80400000⟩
  obtain ⟨-, -, -, -, calls, current, isHistory, atRest, -, -, reads⟩ := polled_protocol reachable
  rw [atRest idle, List.append_nil, history] at isHistory
  obtain rfl := sole_call isHistory.symm
  have counts := tally_finished ⟨⟨false, 5, 0x80400000⟩, given, block⟩
  rw [← history] at counts
  have small : (5 : BitVec 64).toNat < 2 ^ 61 := by decide
  refine ⟨s, given, block, reachable, idle, history, congrArg Prod.fst counts,
    congrArg Prod.snd counts, ?_⟩
  exact reads [] _ [] rfl rfl (fun other member => (List.not_mem_nil member).elim) small

end CuteCore.Virtio
