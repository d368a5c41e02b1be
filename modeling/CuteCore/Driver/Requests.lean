import CuteCore.Driver.VirtioBlk

/-!
# One request at a time

What holds at each point of a submission, in any order of the steps: before a request is
published the device has nothing to do, and while it is in flight the driver only waits.
From this, the history is one call after the other, each with its eight requests, and the
blocks that were read are those a map of blocks would return.
-/

namespace CuteCore.Virtio

open Bytes

/-! ## What a history says about the disk -/

/-- The contents behind an event. -/
def Event.apply (content : BitVec 64 → Sector) : Event → BitVec 64 → Sector
  | .completed type sector bytes =>
    if type = virtioBlkTOut then Function.update content sector bytes else content
  | .called _ _ => content
  | .published _ _ => content
  | .returned _ _ => content

/-- A completed read got these contents. -/
def Event.Fits (content : BitVec 64 → Sector) : Event → Prop
  | .completed type sector bytes => type = virtioBlkTIn → bytes = content sector
  | .called _ _ => True
  | .published _ _ => True
  | .returned _ _ => True

def contentAfter (disk : BitVec 64 → Sector) (history : List Event) : BitVec 64 → Sector :=
  history.foldl Event.apply disk

/-- Every completed read got the contents at that time. -/
def ReadsBack : (BitVec 64 → Sector) → List Event → Prop
  | _, [] => True
  | content, event :: rest => event.Fits content ∧ ReadsBack (event.apply content) rest

theorem readsBack_append {content : BitVec 64 → Sector} {front rest : List Event} :
    ReadsBack content (front ++ rest) ↔
      ReadsBack content front ∧ ReadsBack (contentAfter content front) rest := by
  induction front generalizing content with
  | nil => exact (and_iff_right trivial).symm
  | cons event front inductionHypothesis =>
    rw [List.cons_append, ReadsBack, ReadsBack, inductionHypothesis, and_assoc]
    rfl

theorem contentAfter_append {disk : BitVec 64 → Sector} {front rest : List Event} :
    contentAfter disk (front ++ rest) = contentAfter (contentAfter disk front) rest :=
  List.foldl_append

/-! ## The events of a call -/

/-- A call that returned: the block at its buffer before and behind it. -/
structure Finished where
  call : Call
  given : Block
  block : Block

/-- One pass of the loop. -/
def Call.request (call : Call) (i : Nat) (bytes : Sector) : List Event :=
  [.published call.type (call.sector i), .completed call.type (call.sector i) bytes]

def Finished.events (finished : Finished) : List Event :=
  .called finished.call finished.given ::
    ((List.finRange sectorsPerBlock).flatMap fun i : Fin sectorsPerBlock =>
      finished.call.request i (finished.block i)) ++
    [.returned finished.call finished.block]

/-- The passes before pass `i`, with the sectors as memory has them. -/
def Call.requests (call : Call) (mem : ByteMap) (i : Nat) : List Event :=
  (List.range i).flatMap fun j => call.request j (sectorAt mem (call.buffer j))

theorem requests_succ (call : Call) (mem : ByteMap) (i : Nat) :
    call.requests mem (i + 1) =
      call.requests mem i ++ call.request i (sectorAt mem (call.buffer i)) := by
  rw [Call.requests, List.range_succ, List.flatMap_append, List.flatMap_singleton]
  rfl

theorem requests_congr {call : Call} {mem other : ByteMap} {i : Nat}
    (same : ∀ j < i, sectorAt other (call.buffer j) = sectorAt mem (call.buffer j)) :
    call.requests other i = call.requests mem i := by
  refine List.flatMap_congr fun j member => ?_
  rw [same j (List.mem_range.mp member)]

theorem finished_events (call : Call) (given : Block) (mem : ByteMap) :
    Finished.events ⟨call, given, call.blockAt mem⟩ = .called call given ::
      call.requests mem sectorsPerBlock ++ [.returned call (call.blockAt mem)] := by
  have passes : ((List.finRange sectorsPerBlock).flatMap fun i : Fin sectorsPerBlock =>
      call.request i (call.blockAt mem i)) = call.requests mem sectorsPerBlock := by
    rw [Call.requests, ← List.map_coe_finRange_eq_range, List.flatMap_map]
    simp only [Call.blockAt]
  rw [Finished.events, passes]

/-! ## The points of a submission -/

/-- No request is in flight. -/
structure Quiet (s : Machine) : Prop where
  none : s.active = []
  seen : s.lastAvail = s.shared.availIdx
  used : s.shared.usedIdx = s.shared.availIdx

/-- The descriptors and the header describe this request. -/
def Described (call : Call) (i : Nat) (shared : Shared) : Prop :=
  shared.chain 0 = some (call.type, call.sector i, call.buffer i)

/-- The device has taken the request: a sector that is being written may be any mixture, the
bytes that moved are equal on both sides. -/
structure Transfer (s : Machine) (content : BitVec 64 → Sector) (call : Call) (i : Nat) (job : Job) :
    Prop where
  head : job.head = 0
  others : ∀ sector, (call.writes = true → sector ≠ call.sector i) → s.disk sector = content sector
  moved : ∀ k, job.moved k = true → s.disk (call.sector i) k = s.shared.mem (call.buffer i + k)
  answered : job.answered = true → s.shared.status = 0 ∧ ∀ k, job.moved k = true

/-- The request is published and not completed. -/
structure Flight (s : Machine) (content : BitVec 64 → Sector) (call : Call) (i : Nat)
    (lastUsed : BitVec 16) : Prop where
  used : s.shared.usedIdx = lastUsed
  avail : s.shared.availIdx = lastUsed + 1
  described : Described call i s.shared
  device : (s.lastAvail = lastUsed ∧ s.active = [] ∧
      s.shared.availRing (lastUsed.toNat % qSize) = 0 ∧ s.disk = content) ∨
    (s.lastAvail = lastUsed + 1 ∧ ∃ job, s.active = [job] ∧ Transfer s content call i job)

/-- The request is completed. -/
structure Done (s : Machine) (content : BitVec 64 → Sector) : Prop where
  quiet : Quiet s
  status : s.shared.status = 0
  settled : s.disk = content

/-- The driver waits: its request is in flight or completed. -/
def Waiting (s : Machine) (content : BitVec 64 → Sector) (call : Call) (i : Nat)
    (lastUsed : BitVec 16) (pass : List Event) : Prop :=
  (Flight s content call i lastUsed ∧ pass = [.published call.type (call.sector i)]) ∨
    (Done s content ∧ s.shared.usedIdx = lastUsed + 1 ∧
      pass = call.request i (sectorAt s.shared.mem (call.buffer i)))

/-- The state at each stage, and the events of the current pass. -/
def AtStage (s : Machine) (content : BitVec 64 → Sector) (call : Call) (i : Nat) :
    Stage → List Event → Prop
  | .preparing stores, pass => Quiet s ∧ s.disk = content ∧ pass = [] ∧ ∃ base,
      s.shared = ((prepare call.type (call.sector i) (call.buffer i)).take stores).foldl
        (fun shared store => store shared) base
  | .sampling, pass => Quiet s ∧ s.disk = content ∧ pass = [] ∧ Described call i s.shared
  | .filling lastUsed, pass => Quiet s ∧ s.disk = content ∧ pass = [] ∧
      Described call i s.shared ∧ lastUsed = s.shared.usedIdx
  | .publishing lastUsed, pass => Quiet s ∧ s.disk = content ∧ pass = [] ∧
      Described call i s.shared ∧ lastUsed = s.shared.usedIdx ∧
      s.shared.availRing (s.shared.availIdx.toNat % qSize) = 0
  | .notifying lastUsed, pass => Waiting s content call i lastUsed pass
  | .polling lastUsed, pass => Waiting s content call i lastUsed pass
  | .checking, pass => Done s content ∧
      pass = call.request i (sectorAt s.shared.mem (call.buffer i))

theorem Waiting.atStage {s : Machine} {content : BitVec 64 → Sector} {call : Call} {i : Nat}
    {stage : Stage} {lastUsed : BitVec 16} {pass : List Event}
    (waiting : Waiting s content call i lastUsed pass)
    (isStage : stage = .notifying lastUsed ∨ stage = .polling lastUsed) :
    AtStage s content call i stage pass := by
  rcases isStage with rfl | rfl
  · exact waiting
  · exact waiting

/-- The request of this pass is not published, completed, or in flight. -/
inductive PassState (s : Machine) (content : BitVec 64 → Sector) (call : Call) (i : Nat)
    (stage : Stage) (pass : List Event) : Prop where
  | before (quiet : Quiet s) (isPass : pass = [])
  | completed (quiet : Quiet s)
      (isPass : pass = call.request i (sectorAt s.shared.mem (call.buffer i)))
  | inFlight (lastUsed : BitVec 16)
      (isStage : stage = .notifying lastUsed ∨ stage = .polling lastUsed)
      (flight : Flight s content call i lastUsed)
      (isPass : pass = [.published call.type (call.sector i)])

/-- What holds at a stage of a submission in particular holds in the pass that it belongs to. -/
theorem AtStage.passState {s : Machine} {content : BitVec 64 → Sector} {call : Call} {i : Nat}
    {stage : Stage} {pass : List Event} (atStage : AtStage s content call i stage pass) :
    PassState s content call i stage pass := by
  have waits : ∀ lastUsed, (stage = .notifying lastUsed ∨ stage = .polling lastUsed) →
      Waiting s content call i lastUsed pass → PassState s content call i stage pass := by
    rintro lastUsed isStage (⟨flight, isPass⟩ | ⟨done, -, isPass⟩)
    · exact .inFlight lastUsed isStage flight isPass
    · exact .completed done.quiet isPass
  cases stage with
  | preparing stores => exact .before atStage.1 atStage.2.2.1
  | sampling => exact .before atStage.1 atStage.2.2.1
  | filling lastUsed => exact .before atStage.1 atStage.2.2.1
  | publishing lastUsed => exact .before atStage.1 atStage.2.2.1
  | notifying lastUsed => exact waits lastUsed (Or.inl rfl) atStage
  | polling lastUsed => exact waits lastUsed (Or.inr rfl) atStage
  | checking => exact .completed atStage.1.quiet atStage.2

/-- The state of the driver and the events since the last return. -/
def AtPoint (s : State) (content : BitVec 64 → Sector) (current : List Event) : Prop :=
  match s.driver with
  | .idle => Quiet s.toMachine ∧ s.disk = content ∧ current = []
  | .panicked => False
  | .submitting call i stage => i < sectorsPerBlock ∧ ∃ given pass,
      current = .called call given :: (call.requests s.shared.mem i ++ pass) ∧
      (call.writes = true → call.blockAt s.shared.mem = given) ∧ AtStage s.toMachine content call i stage pass

/-- The calls that returned, then the current one; reads got what the history says. -/
def Orderly (disk : BitVec 64 → Sector) (s : State) (calls : List Finished) (current : List Event) :
    Prop :=
  s.history = calls.flatMap Finished.events ++ current ∧ ReadsBack disk s.history ∧
    (∀ finished ∈ calls, finished.call.writes = true → finished.block = finished.given) ∧
    AtPoint s (contentAfter disk s.history) current

/-! ## The driver's steps -/

theorem prepare_keeps {type : BitVec 32} {sector : BitVec 64} {data : Nat}
    {store : Shared → Shared} (member : store ∈ prepare type sector data) (shared : Shared) :
    (store shared).mem = shared.mem ∧ (store shared).availIdx = shared.availIdx ∧
      (store shared).usedIdx = shared.usedIdx := by
  simp only [prepare, List.mem_cons, List.not_mem_nil, or_false] at member
  rcases member with rfl | rfl | rfl | rfl | rfl | rfl | rfl | rfl | rfl | rfl | rfl | rfl | rfl |
    rfl | rfl | rfl <;> exact ⟨rfl, rfl, rfl⟩

/-- All the stores together describe the request. -/
theorem prepared (call : Call) (i : Nat) (base : Shared) :
    Described call i ((prepare call.type (call.sector i) (call.buffer i)).foldl
      (fun shared store => store shared) base) := by
  rw [Described]
  cases writes : call.writes <;>
    simp [prepare, Shared.chain, Shared.setDesc, Call.type, writes, virtioBlkTIn, virtioBlkTOut]

theorem quiet_idle {s after : State} (quiet : Quiet s.toMachine) : ¬ DeviceStep s after := by
  intro step
  have empty := quiet.none
  cases step with
  | fetch new => exact new quiet.seen
  | toDisk among => simp [empty] at among
  | fromDisk among => simp [empty] at among
  | answer among => simp [empty] at among
  | complete among => simp [empty] at among

variable {disk : BitVec 64 → Sector} {s after : State} {calls : List Finished} {current : List Event}

/-- A driver step that adds no event and leaves the disk and the caller's memory. -/
theorem Orderly.silent (orderly : Orderly disk s calls current)
    (history : after.history = s.history)
    (atPoint : AtPoint after (contentAfter disk s.history) current) :
    Orderly disk after calls current := by
  obtain ⟨whole, reads, given, -⟩ := orderly
  rw [← history] at whole reads atPoint
  exact ⟨whole, reads, given, atPoint⟩

/-- A step that adds an event. -/
theorem Orderly.event (orderly : Orderly disk s calls current) {event : Event}
    (history : after.history = s.history ++ [event])
    (fits : event.Fits (contentAfter disk s.history))
    (atPoint : AtPoint after (event.apply (contentAfter disk s.history)) (current ++ [event])) :
    Orderly disk after calls (current ++ [event]) := by
  obtain ⟨whole, reads, given, -⟩ := orderly
  refine ⟨?_, ?_, given, ?_⟩
  · rw [history, whole, List.append_assoc]
  · rw [history, readsBack_append]
    exact ⟨reads, fits, trivial⟩
  · rw [history, contentAfter_append]
    exact atPoint

/-- The return of a call closes its events. -/
theorem Orderly.returns {call : Call} {given : Block}
    (orderly : Orderly disk s calls (.called call given :: call.requests s.shared.mem sectorsPerBlock))
    (kept : call.writes = true → call.blockAt s.shared.mem = given) (quiet : Quiet s.toMachine)
    (settled : s.disk = contentAfter disk s.history) :
    Orderly disk { s with
        driver := .idle
        history := s.history ++ [.returned call (call.blockAt s.shared.mem)] }
      (calls ++ [⟨call, given, call.blockAt s.shared.mem⟩]) [] := by
  obtain ⟨whole, reads, finished, -⟩ := orderly
  refine ⟨?_, ?_, ?_, quiet, ?_, rfl⟩
  · rw [List.flatMap_append, List.flatMap_singleton, finished_events, whole, List.append_nil,
      List.append_assoc]
  · rw [readsBack_append]
    exact ⟨reads, trivial, trivial⟩
  · intro other member writes
    rcases List.mem_append.mp member with before | last
    · exact finished other before writes
    · obtain rfl := List.mem_singleton.mp last
      exact kept writes
  · rw [contentAfter_append]
    exact settled

/-- Each access of the driver on its way through `virtio_blk_submit` keeps the order of the calls.
-/
theorem submit_orderly {call : Call} {i : Nat} {stage : Stage}
    (isAt : s.driver = .submitting call i stage) (orderly : Orderly disk s calls current) :
    ∃ calls' current', Orderly disk (s.submitStep call i stage) calls' current' := by
  have atPoint := orderly.2.2.2
  rw [AtPoint, isAt] at atPoint
  obtain ⟨inside, given, pass, rfl, kept, atStage⟩ := atPoint
  cases stage with
  | preparing stores =>
    obtain ⟨quiet, settled, rfl, base, prefix_⟩ := atStage
    rw [State.submitStep]
    cases next : (prepare call.type (call.sector i) (call.buffer i))[stores]? with
    | none =>
      refine ⟨calls, _, orderly.silent rfl ⟨inside, given, [], rfl, kept, quiet, settled, rfl, ?_⟩⟩
      rw [List.take_of_length_le (List.getElem?_eq_none_iff.mp next)] at prefix_
      change Described call i s.shared
      rw [prefix_]
      exact prepared call i base
    | some store =>
      obtain ⟨mem, avail, used⟩ := prepare_keeps (List.mem_of_getElem? next) s.shared
      refine ⟨calls, _, orderly.silent rfl ⟨inside, given, [], ?_, ?_, ?_, settled, rfl, base, ?_⟩⟩
      · change _ = Event.called call given :: (call.requests (store s.shared).mem i ++ [])
        rw [mem]
      · change call.writes = true → call.blockAt (store s.shared).mem = given
        rw [mem]
        exact kept
      · exact ⟨quiet.none, quiet.seen.trans avail.symm, used.trans (quiet.used.trans avail.symm)⟩
      · rw [List.take_add_one, next, List.foldl_append, ← prefix_]
        rfl
  | sampling =>
    obtain ⟨quiet, settled, rfl, described⟩ := atStage
    exact ⟨calls, _, orderly.silent rfl
      ⟨inside, given, [], rfl, kept, quiet, settled, rfl, described, rfl⟩⟩
  | filling lastUsed =>
    obtain ⟨quiet, settled, rfl, described, sampled⟩ := atStage
    exact ⟨calls, _, orderly.silent rfl ⟨inside, given, [], rfl, kept,
      ⟨quiet.none, quiet.seen, quiet.used⟩, settled, rfl, described, sampled,
      Function.update_self ..⟩⟩
  | publishing lastUsed =>
    obtain ⟨quiet, settled, rfl, described, sampled, filled⟩ := atStage
    have used := quiet.used
    refine ⟨calls, _, orderly.event rfl trivial ⟨inside, given, [.published call.type (call.sector i)],
      ?_, kept, Or.inl ⟨⟨sampled.symm, ?_, described, Or.inl ⟨?_, quiet.none, ?_, settled⟩⟩, rfl⟩⟩⟩
    · rw [List.append_nil]
      rfl
    · change s.shared.availIdx + 1 = lastUsed + 1
      rw [sampled, used]
    · change s.lastAvail = lastUsed
      rw [sampled, used, quiet.seen]
    · change s.shared.availRing (lastUsed.toNat % qSize) = 0
      rw [sampled, used]
      exact filled
  | notifying lastUsed =>
    exact ⟨calls, _, orderly.silent rfl ⟨inside, given, pass, rfl, kept, atStage⟩⟩
  | polling lastUsed =>
    rw [State.submitStep]
    split
    · rename_i waits
      exact ⟨calls, _, orderly⟩
    · rename_i completed
      refine ⟨calls, _, orderly.silent rfl ⟨inside, given, pass, rfl, kept, ?_⟩⟩
      rcases atStage with ⟨flight, -⟩ | ⟨done, -, isPass⟩
      · exact absurd flight.used completed
      · exact ⟨done, isPass⟩
  | checking =>
    obtain ⟨done, rfl⟩ := atStage
    rw [← requests_succ] at orderly
    rw [State.submitStep, if_neg (not_not_intro done.status)]
    split
    · rename_i more
      refine ⟨calls, _, orderly.silent rfl ⟨more, given, [], ?_, kept, done.quiet, done.settled, rfl,
        s.shared, rfl⟩⟩
      rw [List.append_nil]
    · rename_i last
      rw [show i + 1 = sectorsPerBlock by omega] at orderly
      exact ⟨calls ++ [⟨call, given, call.blockAt s.shared.mem⟩], [],
        orderly.returns kept done.quiet done.settled⟩

/-- The steps of the driver keep the order of the calls, the ones between two requests included. -/
theorem driver_orderly (step : DriverStep s after) (orderly : Orderly disk s calls current) :
    ∃ calls' current', Orderly disk after calls' current' := by
  have atPoint := orderly.2.2.2
  cases step with
  | write idle mem =>
    rw [AtPoint, idle] at atPoint
    obtain ⟨quiet, settled, rfl⟩ := atPoint
    refine ⟨calls, [], orderly.silent rfl ?_⟩
    rw [AtPoint, idle]
    exact ⟨⟨quiet.none, quiet.seen, quiet.used⟩, settled, rfl⟩
  | call idle call =>
    rw [AtPoint, idle] at atPoint
    obtain ⟨quiet, settled, rfl⟩ := atPoint
    refine ⟨calls, _, orderly.event rfl trivial ⟨by decide, call.blockAt s.shared.mem, [], rfl,
      fun _ => rfl, quiet, settled, rfl, s.shared, rfl⟩⟩
  | submit isAt => exact submit_orderly isAt orderly

/-! ## The device's steps -/

theorem sole {job other : Job} {front rest : List Job} (among : [job] = front ++ other :: rest) :
    front = [] ∧ rest = [] ∧ other = job := by
  cases front with
  | nil =>
    obtain ⟨rfl, rfl⟩ := List.cons.inj among
    exact ⟨rfl, rfl, rfl⟩
  | cons first front =>
    have short := congrArg List.length among
    simp at short

theorem type_out {call : Call} (out : call.type = virtioBlkTOut) : call.writes = true := by
  rw [Call.type] at out
  cases writes : call.writes with
  | true => rfl
  | false =>
    rw [writes] at out
    exact absurd out (by decide)

theorem type_in {call : Call} (isIn : call.type = virtioBlkTIn) : call.writes = false := by
  rw [Call.type] at isIn
  cases writes : call.writes with
  | false => rfl
  | true =>
    rw [writes] at isIn
    exact absurd isIn (by decide)

/-- The device reads what the driver described. -/
theorem described_eq {call : Call} {i : Nat} {shared : Shared} {head : BitVec 16}
    {type : BitVec 32} {sector : BitVec 64} {p : Nat} (described : Described call i shared)
    (isHead : head = 0) (got : shared.chain head = some (type, sector, p)) :
    type = call.type ∧ sector = call.sector i ∧ p = call.buffer i := by
  rw [isHead] at got
  have same := Option.some.inj (got.symm.trans described)
  simpa using same

/-- Buffers of different passes lie apart. -/
theorem sectorAt_update {call : Call} {i j : Nat} (mem : ByteMap) (k : Fin 512) (byte : Byte)
    (differs : j ≠ i) : sectorAt (Function.update mem (call.buffer i + k) byte) (call.buffer j) =
      sectorAt mem (call.buffer j) := by
  funext l
  have apart : call.buffer j + l ≠ call.buffer i + k := by
    have := k.isLt
    have := l.isLt
    simp only [Call.buffer]
    omega
  exact Function.update_of_ne apart ..

/-- What a device step does to a request in flight: it goes on, or it is completed. -/
inductive FlightStep (s after : State) (content : BitVec 64 → Sector) (call : Call) (i : Nat)
    (lastUsed : BitVec 16) : Prop where
  | goesOn (history : after.history = s.history)
      (flight : Flight after.toMachine content call i lastUsed)
      (buffers : ∀ j < i, sectorAt after.shared.mem (call.buffer j) =
        sectorAt s.shared.mem (call.buffer j))
      (source : call.writes = true → after.shared.mem = s.shared.mem)
  | completes (bytes : Sector)
      (history : after.history = s.history ++ [.completed call.type (call.sector i) bytes])
      (fits : (Event.completed call.type (call.sector i) bytes).Fits content)
      (done : Done after.toMachine
        ((Event.completed call.type (call.sector i) bytes).apply content))
      (used : after.shared.usedIdx = lastUsed + 1) (same : after.shared.mem = s.shared.mem)
      (isBytes : bytes = sectorAt s.shared.mem (call.buffer i))

/-- A step of the device during a request goes on with it or completes it, and leaves the driver
where it is. -/
theorem flight_step {content : BitVec 64 → Sector} {call : Call} {i : Nat} {lastUsed : BitVec 16}
    (flight : Flight s.toMachine content call i lastUsed) (step : DeviceStep s after) :
    FlightStep s after content call i lastUsed ∧ after.driver = s.driver := by
  obtain ⟨used, avail, described, device⟩ := flight
  rcases device with ⟨seen, none, filled, settled⟩ | ⟨seen, job, active, transfer⟩
  · cases step with
    | fetch new =>
      have fetched : s.active ++ [Job.mk (s.shared.availRing (s.lastAvail.toNat % qSize))
          (fun _ => false) false] = [⟨0, fun _ => false, false⟩] := by
        rw [none, seen, filled]
        rfl
      have next : s.lastAvail + 1 = lastUsed + 1 := by rw [seen]
      refine ⟨.goesOn rfl ⟨used, avail, described, Or.inr ⟨next, _, fetched, rfl, ?_, ?_, ?_⟩⟩
        (fun _ _ => rfl) fun _ => rfl, rfl⟩
      · exact fun sector _ => congrFun settled sector
      · intro k moved
        cases moved
      · intro answered
        cases answered
    | toDisk among => simp [none] at among
    | fromDisk among => simp [none] at among
    | answer among => simp [none] at among
    | complete among => simp [none] at among
  · obtain ⟨isHead, others, moved, answer⟩ := transfer
    cases step with
    | fetch new => exact absurd (seen.trans avail.symm) new
    | @toDisk front rest job' sector p among pending got k =>
      obtain ⟨rfl, rfl, rfl⟩ := sole (active.symm.trans among)
      obtain ⟨isOut, rfl, rfl⟩ := described_eq described isHead got
      have writes := type_out isOut.symm
      refine ⟨.goesOn rfl ⟨used, avail, described, Or.inr ⟨seen, _, rfl, isHead, ?_, ?_, ?_⟩⟩
        (fun _ _ => rfl) fun _ => rfl, rfl⟩
      · intro sector other
        have differs := other writes
        exact (Function.update_of_ne differs ..).trans (others sector other)
      · intro l isMoved
        change Function.update s.disk (call.sector i) _ (call.sector i) l = _
        rw [Function.update_self]
        by_cases same : l = k
        · subst same
          exact Function.update_self ..
        · rw [Function.update_of_ne same]
          refine moved l ?_
          rw [← isMoved]
          exact (Function.update_of_ne same ..).symm
      · intro answered
        exact absurd (answered.symm.trans pending) (by decide)
    | @fromDisk front rest job' sector p among pending got k =>
      obtain ⟨rfl, rfl, rfl⟩ := sole (active.symm.trans among)
      obtain ⟨isIn, rfl, rfl⟩ := described_eq described isHead got
      have reads := type_in isIn.symm
      refine ⟨.goesOn rfl ⟨used, avail, described, Or.inr ⟨seen, _, rfl, isHead, others, ?_, ?_⟩⟩
        (fun j before => sectorAt_update _ _ _ (Nat.ne_of_lt before)) ?_, rfl⟩
      · intro l isMoved
        change s.disk (call.sector i) l = Function.update s.shared.mem (call.buffer i + k)
          (s.disk (call.sector i) k) (call.buffer i + l)
        by_cases same : l = k
        · subst same
          rw [Function.update_self]
        · have apart : call.buffer i + (l : Nat) ≠ call.buffer i + (k : Nat) := fun equal =>
            same (Fin.ext (Nat.add_left_cancel equal))
          rw [Function.update_of_ne apart]
          refine moved l ?_
          rw [← isMoved]
          exact (Function.update_of_ne same ..).symm
      · intro answered
        exact absurd (answered.symm.trans pending) (by decide)
      · intro writes
        exact absurd (reads.symm.trans writes) (by decide)
    | @answer front rest job' type sector p among got whole =>
      obtain ⟨rfl, rfl, rfl⟩ := sole (active.symm.trans among)
      exact ⟨.goesOn rfl ⟨used, avail, described, Or.inr ⟨seen, _, rfl, isHead, others, moved,
        fun _ => ⟨rfl, whole⟩⟩⟩ (fun _ _ => rfl) fun _ => rfl, rfl⟩
    | @complete front rest job' type sector p among got answered len =>
      obtain ⟨rfl, rfl, rfl⟩ := sole (active.symm.trans among)
      obtain ⟨rfl, rfl, rfl⟩ := described_eq described isHead got
      obtain ⟨status, whole⟩ := answer answered
      have bytes : s.disk (call.sector i) = sectorAt s.shared.mem (call.buffer i) :=
        funext fun k => moved k (whole k)
      refine ⟨.completes _ rfl ?_ ⟨⟨rfl, seen.trans avail.symm, ?_⟩, status, ?_⟩ ?_ rfl rfl, rfl⟩
      · intro isIn
        have reads := type_in isIn
        rw [← bytes]
        exact others _ fun writes => absurd (reads.symm.trans writes) (by decide)
      · change s.shared.usedIdx + 1 = s.shared.availIdx
        rw [used, avail]
      · change s.disk = if call.type = virtioBlkTOut then _ else _
        split
        · rw [← bytes]
          funext sector
          by_cases same : sector = call.sector i
          · subst same
            rw [Function.update_self]
          · rw [Function.update_of_ne same]
            exact others sector fun _ => same
        · rename_i notOut
          funext sector
          refine others sector fun writes => absurd ?_ notOut
          rw [Call.type, if_pos writes]
      · change s.shared.usedIdx + 1 = lastUsed + 1
        rw [used]

/-- The device moves the request in flight on or completes it. -/
theorem flight_orderly {call : Call} {i : Nat} {stage : Stage} {lastUsed : BitVec 16}
    {given : Block} (step : DeviceStep s after)
    (orderly : Orderly disk s calls (.called call given ::
      (call.requests s.shared.mem i ++ [.published call.type (call.sector i)])))
    (isAt : s.driver = .submitting call i stage)
    (isStage : stage = .notifying lastUsed ∨ stage = .polling lastUsed)
    (inside : i < sectorsPerBlock) (kept : call.writes = true → call.blockAt s.shared.mem = given)
    (flight : Flight s.toMachine (contentAfter disk s.history) call i lastUsed) :
    ∃ current', Orderly disk after calls current' := by
  obtain ⟨moved, driver⟩ := flight_step flight step
  have isAfter : after.driver = .submitting call i stage := driver.trans isAt
  cases moved with
  | goesOn history flight buffers source =>
    refine ⟨_, orderly.silent history ?_⟩
    rw [AtPoint, isAfter]
    have waiting : Waiting after.toMachine (contentAfter disk s.history) call i lastUsed
        [.published call.type (call.sector i)] := Or.inl ⟨flight, rfl⟩
    refine ⟨inside, given, _, ?_, ?_, waiting.atStage isStage⟩
    · rw [requests_congr buffers]
    · intro writes
      rw [source writes]
      exact kept writes
  | completes bytes history fits done used same isBytes =>
    refine ⟨_, orderly.event history fits ?_⟩
    rw [AtPoint, isAfter]
    have isPass : call.request i bytes =
        call.request i (sectorAt after.shared.mem (call.buffer i)) := by
      rw [same, isBytes]
    have waiting : Waiting after.toMachine _ call i lastUsed (call.request i bytes) :=
      Or.inr ⟨done, used, isPass⟩
    refine ⟨inside, given, _, ?_, ?_, waiting.atStage isStage⟩
    · rw [same, List.cons_append, List.append_assoc]
      rfl
    · rw [same]
      exact kept

/-- The steps of the device keep the order of the calls, whatever stage the driver has reached. -/
theorem device_orderly (step : DeviceStep s after) (orderly : Orderly disk s calls current) :
    ∃ calls' current', Orderly disk after calls' current' := by
  have atPoint := orderly.2.2.2
  rw [AtPoint] at atPoint
  cases isAt : s.driver with
  | idle =>
    rw [isAt] at atPoint
    exact (quiet_idle atPoint.1 step).elim
  | panicked =>
    rw [isAt] at atPoint
    exact atPoint.elim
  | submitting call i stage =>
    rw [isAt] at atPoint
    obtain ⟨inside, given, pass, rfl, kept, atStage⟩ := atPoint
    cases atStage.passState with
    | before quiet isPass => exact (quiet_idle quiet step).elim
    | completed quiet isPass => exact (quiet_idle quiet step).elim
    | inFlight lastUsed isStage flight isPass =>
      subst isPass
      exact ⟨calls, flight_orderly step orderly isAt isStage inside kept flight⟩

/-- Every state of a run is orderly: the invariant holds at the start and each step of the driver or
the device keeps it. -/
theorem Orderly.of_run
    (run : Reachable disk s) : ∃ calls current, Orderly disk s calls current := by
  induction run with
  | init avail used seen none idle isDisk start =>
    refine ⟨[], [], start, ?_, ?_, ?_⟩
    · rw [start]
      trivial
    · intro finished member
      cases member
    · rw [AtPoint, idle, start]
      exact ⟨⟨none, seen.trans avail.symm, used.trans avail.symm⟩, isDisk, rfl⟩
  | driver earlier step inductionHypothesis =>
    obtain ⟨calls, current, orderly⟩ := inductionHypothesis
    exact driver_orderly step orderly
  | device earlier step inductionHypothesis =>
    obtain ⟨calls, current, orderly⟩ := inductionHypothesis
    exact device_orderly step orderly

end CuteCore.Virtio
