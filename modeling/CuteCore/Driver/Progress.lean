import CuteCore.Driver.Requests

/-!
# Calls of the driver return

The device is free to take its time, so a call may wait for as long as it likes. From every
state that a run gets to there is a way on to the return of the call, though: the device
takes the request, moves the bytes of the sector one after the other, answers and completes
it, and the driver goes through its stores and its eight passes. No state of the protocol is
one in which driver and device wait for each other. The states along the way are reachable
by the same steps, so whatever holds in every reachable state holds there.
-/

namespace CuteCore.Virtio

open Bytes

variable {disk : BitVec 64 → Sector} {s : State} {call : Call} {i : Nat} {stage : Stage}

/-- A state that a run gets to from `s` without a new call. -/
structure Onwards (disk : BitVec 64 → Sector) (s after : State) : Prop where
  reachable : Reachable disk after
  history : ∃ more, after.history = s.history ++ more ∧
    ∀ event ∈ more, ∀ call given, event ≠ .called call given

/-- The state itself is a way on, with no event. -/
theorem Onwards.refl (reachable : Reachable disk s) : Onwards disk s s :=
  ⟨reachable, [], (List.append_nil _).symm, fun _ member => (List.not_mem_nil member).elim⟩

/-- Two ways in a row are one, and neither has a new call. -/
theorem Onwards.trans {mid after : State} (first : Onwards disk s mid)
    (second : Onwards disk mid after) : Onwards disk s after := by
  obtain ⟨front, isFront, noneFront⟩ := first.history
  obtain ⟨back, isBack, noneBack⟩ := second.history
  refine ⟨second.reachable, front ++ back, by rw [isBack, isFront, List.append_assoc], ?_⟩
  intro event member
  rcases List.mem_append.mp member with inFront | inBack
  · exact noneFront event inFront
  · exact noneBack event inBack

/-- A step without an event goes on. -/
theorem Onwards.silent {after : State} (s : State) (reachable : Reachable disk after)
    (history : after.history = s.history) : Onwards disk s after :=
  ⟨reachable, [], by rw [history, List.append_nil], fun _ member =>
    (List.not_mem_nil member).elim⟩

/-- A step with one event that is no call goes on. -/
theorem Onwards.event {after : State} (s : State) (reachable : Reachable disk after) {event : Event}
    (history : after.history = s.history ++ [event])
    (noCall : ∀ call given, event ≠ .called call given) : Onwards disk s after := by
  refine ⟨reachable, [event], history, ?_⟩
  intro other member
  rw [List.mem_singleton.mp member]
  exact noCall

/-- Inside a call the driver can take its next step. -/
theorem Reachable.submit (reachable : Reachable disk s)
    (isAt : s.driver = .submitting call i stage) :
    Reachable disk (s.submitStep call i stage) := reachable.driver (.submit isAt)

/-- What the invariant says about the stage that the driver is at. -/
theorem Reachable.atStage (reachable : Reachable disk s)
    (isAt : s.driver = .submitting call i stage) :
    i < sectorsPerBlock ∧ ∃ pass, AtStage s.toMachine (contentAfter disk s.history) call i stage pass := by
  obtain ⟨calls, current, orderly⟩ := Orderly.of_run reachable
  have atPoint := orderly.2.2.2
  rw [AtPoint, isAt] at atPoint
  obtain ⟨inside, -, pass, -, -, atStage⟩ := atPoint
  exact ⟨inside, pass, atStage⟩

/-! ## The device completes a request -/

/-- The device moves these bytes of the sector, whatever way the request goes. -/
theorem moves_bytes (ks : List (Fin 512)) {job : Job} {sector : BitVec 64} {p : Nat}
    (reachable : Reachable disk s) (active : s.active = [job]) (pending : job.answered = false)
    (described : s.shared.chain job.head = some (call.type, sector, p)) :
    ∃ after job', Onwards disk s after ∧ after.driver = s.driver ∧ after.active = [job'] ∧
      job'.head = job.head ∧ job'.answered = false ∧
      after.shared.chain job.head = some (call.type, sector, p) ∧
      after.shared.usedIdx = s.shared.usedIdx ∧
      ∀ k, job.moved k = true ∨ k ∈ ks → job'.moved k = true := by
  induction ks generalizing s job with
  | nil =>
    exact ⟨s, job, .refl reachable, rfl, active, rfl, pending, described, rfl,
      fun k moved => moved.resolve_right List.not_mem_nil⟩
  | cons k rest inductionHypothesis =>
    -- One byte moves, then the others by the induction hypothesis.
    obtain ⟨mid, isNext, driver, isActive, chain, used⟩ : ∃ mid, Onwards disk s mid ∧
        mid.driver = s.driver ∧
        mid.active = [{ job with moved := Function.update job.moved k true }] ∧
        mid.shared.chain job.head = some (call.type, sector, p) ∧
        mid.shared.usedIdx = s.shared.usedIdx := by
      have among : s.active = [] ++ job :: [] := active
      cases writes : call.writes with
      | true =>
        have isOut : call.type = virtioBlkTOut := by rw [Call.type, writes, if_pos rfl]
        exact ⟨_, .silent s (reachable.device (.toDisk among pending (isOut ▸ described) k)) rfl, rfl,
          rfl, described, rfl⟩
      | false =>
        have isIn : call.type = virtioBlkTIn := by
          rw [Call.type, writes, if_neg Bool.false_ne_true]
        exact ⟨_, .silent s (reachable.device (.fromDisk among pending (isIn ▸ described) k)) rfl, rfl,
          rfl, described, rfl⟩
    obtain ⟨after, job', onwards, driver', active', head, pending', chain', used', moved⟩ :=
      inductionHypothesis isNext.reachable isActive pending chain
    refine ⟨after, job', isNext.trans onwards, driver'.trans driver, active', head, pending', chain',
      used'.trans used, fun l isMoved => moved l ?_⟩
    by_cases same : l = k
    · exact Or.inl (by rw [same]; exact Function.update_self ..)
    · refine isMoved.imp (fun before => ?_) fun member =>
        (List.mem_cons.mp member).resolve_left same
      exact (Function.update_of_ne same ..).trans before

/-- The device completes a request that it has answered. -/
theorem completes_answered {job : Job} {sector : BitVec 64} {p : Nat} (reachable : Reachable disk s)
    (active : s.active = [job]) (answered : job.answered = true)
    (described : s.shared.chain job.head = some (call.type, sector, p)) :
    ∃ after, Onwards disk s after ∧ after.driver = s.driver ∧
      after.shared.usedIdx = s.shared.usedIdx + 1 := by
  have among : s.active = [] ++ job :: [] := active
  exact ⟨_, .event s (reachable.device (.complete among described answered 0)) rfl
    fun _ _ => Event.noConfusion, rfl, rfl⟩

/-- The device answers and completes a request whose bytes have moved. -/
theorem completes_moved {job : Job} {sector : BitVec 64} {p : Nat} (reachable : Reachable disk s)
    (active : s.active = [job]) (whole : ∀ k, job.moved k = true)
    (described : s.shared.chain job.head = some (call.type, sector, p)) :
    ∃ after, Onwards disk s after ∧ after.driver = s.driver ∧
      after.shared.usedIdx = s.shared.usedIdx + 1 := by
  have among : s.active = [] ++ job :: [] := active
  have answers := reachable.device (.answer among described whole)
  have active' : [] ++ { job with answered := true } :: [] = [{ job with answered := true }] := rfl
  obtain ⟨after, onwards, driver, used⟩ := completes_answered answers active' rfl described
  exact ⟨after, (Onwards.silent s answers rfl).trans onwards, driver, used⟩

/-- A request in flight can be completed. -/
theorem flight_completes {lastUsed : BitVec 16} (reachable : Reachable disk s)
    (flight : Flight s.toMachine (contentAfter disk s.history) call i lastUsed) :
    ∃ after, Onwards disk s after ∧ after.driver = s.driver ∧
      after.shared.usedIdx = lastUsed + 1 := by
  -- A request that was not taken is taken first.
  obtain ⟨mid, job, isNext, driver, active, head, described, used, answered⟩ : ∃ mid job,
      Onwards disk s mid ∧ mid.driver = s.driver ∧ mid.active = [job] ∧ job.head = 0 ∧
      mid.shared.chain 0 = some (call.type, call.sector i, call.buffer i) ∧
      mid.shared.usedIdx = lastUsed ∧ (job.answered = true → ∀ k, job.moved k = true) := by
    rcases flight.device with ⟨seen, none, ring, -⟩ | ⟨-, job, active, transfer⟩
    · have new : s.lastAvail ≠ s.shared.availIdx := by
        rw [seen, flight.avail]
        intro same
        have differs : (1 : BitVec 16) = 0 := by
          have shifted := congrArg (· - lastUsed) same
          simpa using shifted.symm
        exact absurd differs (by decide)
      refine ⟨_, _, .silent s (reachable.device (.fetch new)) rfl, rfl, by rw [none]; rfl, ?_,
        flight.described, flight.used, fun isTrue => absurd isTrue Bool.false_ne_true⟩
      change s.shared.availRing (s.lastAvail.toNat % qSize) = 0
      rw [seen, ring]
    · exact ⟨s, job, .refl reachable, rfl, active, transfer.head, flight.described, flight.used,
        fun isAnswered => (transfer.answered isAnswered).2⟩
  rw [← head] at described
  cases isAnswered : job.answered with
  | true =>
    obtain ⟨after, onwards, sameDriver, isUsed⟩ :=
      completes_moved isNext.reachable active (answered isAnswered) described
    exact ⟨after, isNext.trans onwards, sameDriver.trans driver, by rw [isUsed, used]⟩
  | false =>
    obtain ⟨last, job', moves, driver', active', head', -, chain, used', moved⟩ :=
      moves_bytes (List.finRange 512) isNext.reachable active isAnswered described
    rw [← head'] at chain
    obtain ⟨after, onwards, sameDriver, isUsed⟩ := completes_moved moves.reachable active'
      (fun k => moved k (Or.inr (List.mem_finRange k))) chain
    exact ⟨after, (isNext.trans moves).trans onwards, (sameDriver.trans driver').trans driver,
      by rw [isUsed, used', used]⟩

/-! ## The driver finishes its passes -/

/-- From waiting the driver gets on to the check of the status. -/
theorem polling_ends {lastUsed : BitVec 16} (reachable : Reachable disk s)
    (isAt : s.driver = .submitting call i (.polling lastUsed)) :
    ∃ after, Onwards disk s after ∧ after.driver = .submitting call i .checking := by
  obtain ⟨-, pass, waiting⟩ := reachable.atStage isAt
  obtain ⟨mid, isNext, driver, used⟩ : ∃ mid, Onwards disk s mid ∧ mid.driver = s.driver ∧
      mid.shared.usedIdx = lastUsed + 1 := by
    rcases waiting with ⟨flight, -⟩ | ⟨-, used, -⟩
    · exact flight_completes reachable flight
    · exact ⟨s, .refl reachable, rfl, used⟩
  have moved : mid.shared.usedIdx ≠ lastUsed := by
    rw [used]
    intro same
    have shifted := congrArg (· - lastUsed) same
    simp at shifted
  have polls := isNext.reachable.submit (driver.trans isAt)
  rw [State.submitStep, if_neg moved] at polls
  exact ⟨_, isNext.trans (.silent mid polls rfl), rfl⟩

/-- From its stores the driver gets on to waiting. -/
theorem stores_end (reachable : Reachable disk s) {stores : Nat}
    (isAt : s.driver = .submitting call i (.preparing stores)) :
    ∃ after, Onwards disk s after ∧ after.driver = .submitting call i .sampling := by
  induction left : 16 - stores generalizing s stores with
  | zero =>
    have none : (prepare call.type (call.sector i) (call.buffer i))[stores]? = none :=
      List.getElem?_eq_none (Nat.le_of_sub_eq_zero left)
    have step := reachable.submit isAt
    rw [State.submitStep, none] at step
    exact ⟨_, .silent s step rfl, rfl⟩
  | succ rest inductionHypothesis =>
    have inside : stores < (prepare call.type (call.sector i) (call.buffer i)).length := by
      have sixteen : (prepare call.type (call.sector i) (call.buffer i)).length = 16 := rfl
      omega
    have step := reachable.submit isAt
    rw [State.submitStep, List.getElem?_eq_getElem inside] at step
    obtain ⟨after, onwards, driver⟩ := inductionHypothesis step rfl (by omega)
    exact ⟨after, (Onwards.silent s step rfl).trans onwards, driver⟩

/-- Every stage of a pass leads to the check of the status. -/
theorem stage_ends (reachable : Reachable disk s) (isAt : s.driver = .submitting call i stage) :
    ∃ after, Onwards disk s after ∧ after.driver = .submitting call i .checking := by
  have notifying : ∀ {t : State} {lastUsed}, Reachable disk t →
      t.driver = .submitting call i (.notifying lastUsed) →
      ∃ after, Onwards disk t after ∧ after.driver = .submitting call i .checking := by
    intro t lastUsed here isHere
    obtain ⟨after, onwards, driver⟩ := polling_ends (here.submit isHere) rfl
    exact ⟨after, (Onwards.silent t (here.submit isHere) rfl).trans onwards, driver⟩
  have publishing : ∀ {t : State} {lastUsed}, Reachable disk t →
      t.driver = .submitting call i (.publishing lastUsed) →
      ∃ after, Onwards disk t after ∧ after.driver = .submitting call i .checking := by
    intro t lastUsed here isHere
    obtain ⟨after, onwards, driver⟩ := notifying (here.submit isHere) rfl
    exact ⟨after, (Onwards.event t (here.submit isHere) rfl fun _ _ => Event.noConfusion).trans onwards,
      driver⟩
  have filling : ∀ {t : State} {lastUsed}, Reachable disk t →
      t.driver = .submitting call i (.filling lastUsed) →
      ∃ after, Onwards disk t after ∧ after.driver = .submitting call i .checking := by
    intro t lastUsed here isHere
    obtain ⟨after, onwards, driver⟩ := publishing (here.submit isHere) rfl
    exact ⟨after, (Onwards.silent t (here.submit isHere) rfl).trans onwards, driver⟩
  have sampling : ∀ {t : State}, Reachable disk t → t.driver = .submitting call i .sampling →
      ∃ after, Onwards disk t after ∧ after.driver = .submitting call i .checking := by
    intro t here isHere
    obtain ⟨after, onwards, driver⟩ := filling (here.submit isHere) rfl
    exact ⟨after, (Onwards.silent t (here.submit isHere) rfl).trans onwards, driver⟩
  cases stage with
  | preparing stores =>
    obtain ⟨mid, isNext, driver⟩ := stores_end reachable isAt
    obtain ⟨after, onwards, checks⟩ := sampling isNext.reachable driver
    exact ⟨after, isNext.trans onwards, checks⟩
  | sampling => exact sampling reachable isAt
  | filling lastUsed => exact filling reachable isAt
  | publishing lastUsed => exact publishing reachable isAt
  | notifying lastUsed => exact notifying reachable isAt
  | polling lastUsed => exact polling_ends reachable isAt
  | checking => exact ⟨s, .refl reachable, isAt⟩

/-- In every reachable state inside a call there is a way on to its return. -/
theorem call_returns (reachable : Reachable disk s)
    (isAt : s.driver = .submitting call i stage) :
    ∃ after, Onwards disk s after ∧ after.driver = .idle := by
  have inside := (reachable.atStage isAt).1
  induction left : sectorsPerBlock - i generalizing s i stage with
  | zero => omega
  | succ rest inductionHypothesis =>
    obtain ⟨mid, isNext, checks⟩ := stage_ends reachable isAt
    obtain ⟨-, pass, done, -⟩ := isNext.reachable.atStage checks
    have step := isNext.reachable.submit checks
    rw [State.submitStep, if_neg (not_not.mpr done.status)] at step
    by_cases more : i + 1 < sectorsPerBlock
    · rw [if_pos more] at step
      obtain ⟨after, onwards, idle⟩ := inductionHypothesis step rfl more (by omega)
      exact ⟨after, (isNext.trans (.silent mid step rfl)).trans onwards, idle⟩
    · rw [if_neg more] at step
      exact ⟨_, isNext.trans (.event mid step rfl fun _ _ => Event.noConfusion), rfl⟩

end CuteCore.Virtio
