import CuteCore.Task.Proc
import CuteCore.Mm.KmallocSafety
import CuteCore.Library.Frames

/-!
# Process numbers along runs

`allocpid` goes round the numbers from the last one on, and `freeproc` clears the
bit of a number. The lowest number of the round is `RESERVEDPID`, and `freeproc`
keeps its bit set.

In a run of creations and ends of processes every number of the round should be taken by
one process or be found by a later call. The condition names the calls after which it is
not.
-/

namespace CuteCore

open Hoare Bytes

/-- What a process without a number has in its `pid`. -/
def noPid : Nat := asU64 (-1)

/-- The numbers that are handed out again. -/
def InRound (pid : Nat) : Prop := reservedPid ≤ pid ∧ pid < maxPid

/-- All numbers that `passes` passes try after `last` are taken. -/
def AllTaken (bitmap : ByteMap) (passes last : Nat) : Prop :=
  (∀ pid, last < pid → pid < maxPid → pid ≤ last + passes → bitAt bitmap pid = true) ∧
    ∀ pid, InRound pid → maxPid + pid ≤ last + passes + reservedPid → bitAt bitmap pid = true

/-- The next clear number is taken, or none of the numbers tried is clear. -/
theorem allocpidFrom_spec (passes last : Nat) (inside : last < maxPid) (s : Kernel) :
    wp (allocpidFrom passes last) (fun pid after =>
      (pid = -1 ∧ after = s ∧ AllTaken s.pidBitmap passes last) ∨
      ∃ n : Nat, pid = n ∧ n < maxPid ∧ bitAt s.pidBitmap n = false ∧
        after = { s with pidBitmap := setBit s.pidBitmap n, lastPid := n }) s := by
  induction passes generalizing last with
  | zero =>
    refine wp_pure.mpr (Or.inl ⟨rfl, rfl, ?_, ?_⟩)
    · intro pid low _ high
      omega
    · intro pid inRound high
      unfold InRound at inRound
      omega
  | succ passes inductionHypothesis =>
    have start : reservedPid < maxPid := by decide
    -- The number that this pass tries.
    obtain ⟨pid, isPid, below⟩ : ∃ pid,
        (if maxPid ≤ last + 1 then reservedPid else last + 1) = pid ∧ pid < maxPid := by
      refine ⟨_, rfl, ?_⟩
      split
      · exact start
      · omega
    rw [allocpidFrom, isPid, checkpid, wp_bind, wp_bind, wp_get, wp_pure, wp_ite]
    split
    · rename_i isSet
      apply wp_mono (inductionHypothesis pid below)
      rintro found after (⟨isNone, unchanged, later, wrapped⟩ | taken)
      · refine Or.inl ⟨isNone, unchanged, ?_, ?_⟩
        · intro other low inside high
          rw [if_neg (by omega)] at isPid
          by_cases same : other = pid
          · exact same ▸ isSet
          · exact later other (by omega) inside (by omega)
        · intro other inRound high
          by_cases same : other = pid
          · exact same ▸ isSet
          · unfold InRound at inRound
            by_cases wraps : maxPid ≤ last + 1
            · rw [if_pos wraps] at isPid
              exact later other (by omega) inRound.2 (by omega)
            · rw [if_neg wraps] at isPid
              exact wrapped other inRound (by omega)
      · exact Or.inr taken
    · rename_i isClear
      rw [setpid, wp_bind, wp_modify, wp_bind, wp_modify, wp_pure]
      exact Or.inr ⟨pid, rfl, below, by simpa using isClear, rfl⟩

/-- A round that finds nothing has tried every number of the round. -/
theorem AllTaken.round {bitmap : ByteMap} {last : Nat} (all : AllTaken bitmap maxPid last)
    {pid : Nat} (inRound : InRound pid) : bitAt bitmap pid = true := by
  by_cases later : last < pid
  · exact all.1 pid later inRound.2 (by have bound := inRound.2; omega)
  · exact all.2 pid inRound (by omega)

/-! ## Runs -/

/-- The life of a process, as far as its number goes. -/
inductive PidOp where
  | allocproc
  | freeproc (pid : Nat)

/-- Only live processes are freed. -/
def PidOp.Legal (live : List Nat) : PidOp → Prop
  | .allocproc => True
  | .freeproc pid => pid ∈ live

/-- The number the operation puts into a process; `freeproc` puts none. -/
def PidOp.exec : PidOp → KernelProg Nat
  | .allocproc => do
    let pid ← allocpid
    return asU64 pid
  | .freeproc pid => do
    releasePid pid
    return 0

/-- The numbers of the live processes after an operation that returned `result`. -/
def PidOp.liveAfter (live : List Nat) (result : Nat) : PidOp → List Nat
  | .allocproc => result :: live
  | .freeproc pid => live.erase pid

/-- Runs from the zeroed bitmap on, each operation under the condition `allowed`,
with the numbers of the live processes. -/
inductive PidRun (allowed : List Nat → PidOp → Prop) : Kernel → List Nat → Prop where
  | start {s : Kernel} (zeroed : s.pidBitmap = fun _ => 0) (first : s.lastPid = 0) :
      PidRun allowed s []
  | step {s after : Kernel} {live : List Nat} {result : Nat} (earlier : PidRun allowed s live)
      (op : PidOp) (legal : op.Legal live) (meets : allowed live op)
      (returned : Returns op.exec s result after) :
      PidRun allowed after (op.liveAfter live result)

/-- No process with the number `RESERVEDPID` is freed. Once all numbers are taken, at
most one more process is made. -/
def PidOp.Keeps (live : List Nat) : PidOp → Prop
  | .allocproc => (∃ pid, InRound pid ∧ pid ∉ live) ∨ noPid ∉ live
  | .freeproc pid => pid ≠ reservedPid

/-- Live processes have numbers of their own, a number of the round is set exactly
while a process has it, and `allocpid` fails only when all of these are taken. -/
def PidsKept (s : Kernel) (live : List Nat) : Prop :=
  live.Nodup ∧ (∀ pid, InRound pid → (bitAt s.pidBitmap pid = true ↔ pid ∈ live)) ∧
    ∀ after, Returns allocpid s (-1) after → ∀ pid, InRound pid → pid ∈ live

/-- The invariant: also the low numbers of live processes are set, and the only number
outside the bitmap is the one of a process without a number. -/
structure Pids (s : Kernel) (live : List Nat) : Prop where
  distinct : live.Nodup
  inside : s.lastPid < maxPid
  numbers : ∀ pid ∈ live, pid < maxPid ∨ pid = noPid
  set : ∀ pid ∈ live, pid < maxPid → bitAt s.pidBitmap pid = true
  clear : ∀ pid, InRound pid → bitAt s.pidBitmap pid = true → pid ∈ live

namespace Pids

variable {s : Kernel} {live : List Nat}

/-- `allocproc` takes a number that no process has, and no other number changes. -/
theorem allocproc_step (pids : Pids s live) (keeps : PidOp.Keeps live .allocproc) :
    wp PidOp.allocproc.exec (fun result after => Pids after (result :: live)) s := by
  rw [PidOp.exec, allocpid, wp_bind, wp_bind, wp_get]
  apply wp_mono (allocpidFrom_spec maxPid s.lastPid pids.inside s)
  rintro pid after (⟨rfl, rfl, all⟩ | ⟨n, rfl, below, isClear, rfl⟩)
  · rw [wp_pure]
    have absent : noPid ∉ live := by
      apply keeps.resolve_left
      rintro ⟨pid, inRound, notLive⟩
      exact notLive (pids.clear pid inRound (all.round inRound))
    refine ⟨List.nodup_cons.mpr ⟨absent, pids.distinct⟩, pids.inside, ?_, ?_, ?_⟩
    · intro pid member
      rcases List.mem_cons.mp member with rfl | before
      · exact Or.inr rfl
      · exact pids.numbers pid before
    · intro pid member below
      rcases List.mem_cons.mp member with rfl | before
      · exact absurd below (by decide)
      · exact pids.set pid before below
    · exact fun pid inRound isSet => List.mem_cons_of_mem _ (pids.clear pid inRound isSet)
  · rw [wp_pure]
    have isNumber : asU64 n = n := by
      rw [asU64, BitVec.ofInt_natCast, BitVec.toNat_ofNat]
      simp only [maxPid] at below
      omega
    have fresh : n ∉ live := by
      intro member
      rw [pids.set n member below] at isClear
      cases isClear
    rw [isNumber]
    refine ⟨List.nodup_cons.mpr ⟨fresh, pids.distinct⟩, below, ?_, ?_, ?_⟩
    · intro pid member
      rcases List.mem_cons.mp member with rfl | before
      · exact Or.inl below
      · exact pids.numbers pid before
    · intro pid member inside
      simp only [bitAt_setBit]
      rcases List.mem_cons.mp member with rfl | before
      · simp
      · simp [pids.set pid before inside]
    · intro pid inRound isSet
      simp only [bitAt_setBit, Bool.or_eq_true, decide_eq_true_eq] at isSet
      rcases isSet with rfl | before
      · exact List.mem_cons_self ..
      · exact List.mem_cons_of_mem _ (pids.clear pid inRound before)

/-- `freeproc` gives the number of the process back, and the others keep theirs. -/
theorem freeproc_step (pids : Pids s live) {pid : Nat} (member : pid ∈ live)
    (keeps : pid ≠ reservedPid) :
    wlp (PidOp.freeproc pid).exec (fun _ after => Pids after (live.erase pid)) s := by
  have remains : ∀ other, other ∈ live.erase pid ↔ other ≠ pid ∧ other ∈ live :=
    fun other => pids.distinct.mem_erase_iff
  rw [PidOp.exec, releasePid, wlp_bind, wlp_onlyIf]
  split
  · rename_i high
    rw [freepid, wlp_ite]
    split
    · rename_i inBitmap
      -- The number is in the bitmap, so the conversion to `i32` keeps it.
      have isNumber : (asI32 pid).toNat = pid := by
        rcases pids.numbers pid member with below | isNone
        · rw [asI32, BitVec.toInt_eq_toNat_of_lt]
          · simp only [BitVec.toNat_ofNat, Int.toNat_natCast, maxPid] at *
            omega
          · simp only [BitVec.toNat_ofNat, maxPid] at *
            omega
        · rw [isNone] at inBitmap
          exact absurd inBitmap.1 (by decide)
      rw [wlp_modify, wlp_pure, isNumber]
      refine ⟨pids.distinct.erase pid, pids.inside, ?_, ?_, ?_⟩
      · exact fun other still => pids.numbers other ((remains other).mp still).2
      · intro other still below
        obtain ⟨differs, before⟩ := (remains other).mp still
        simp [bitAt_clearBit, differs, pids.set other before below]
      · intro other inRound isSet
        simp only [bitAt_clearBit, Bool.and_eq_true, Bool.not_eq_true', decide_eq_false_iff_not]
          at isSet
        exact (remains other).mpr ⟨isSet.1, pids.clear other inRound isSet.2⟩
    · exact wlp_throw.mpr trivial
  · rename_i low
    rw [wlp_pure]
    refine ⟨pids.distinct.erase pid, pids.inside, ?_, ?_, ?_⟩
    · exact fun other still => pids.numbers other ((remains other).mp still).2
    · exact fun other still => pids.set other ((remains other).mp still).2
    · intro other inRound isSet
      refine (remains other).mpr ⟨?_, pids.clear other inRound isSet⟩
      have bound := inRound.1
      omega

theorem step (pids : Pids s live) (op : PidOp) (legal : op.Legal live) (keeps : op.Keeps live) :
    wlp op.exec (fun result after => Pids after (op.liveAfter live result)) s := by
  cases op with
  | allocproc => exact fun _ _ returned => (pids.allocproc_step keeps).of_returns returned
  | freeproc pid => exact pids.freeproc_step legal keeps

theorem of_run (run : PidRun (fun live op => op.Keeps live) s live) : Pids s live := by
  induction run with
  | start zeroed first =>
    refine ⟨List.nodup_nil, by rw [first]; decide, by simp, by simp, ?_⟩
    intro pid _ isSet
    rw [zeroed] at isSet
    simp [bitAt] at isSet
  | step earlier op legal meets returned inductionHypothesis =>
    exact inductionHypothesis.step op legal meets _ _ returned

theorem kept (pids : Pids s live) : PidsKept s live := by
  refine ⟨pids.distinct, fun pid inRound => ⟨pids.clear pid inRound,
    fun member => pids.set pid member inRound.2⟩, ?_⟩
  intro after returned pid inRound
  rw [allocpid, returns_bind] at returned
  obtain ⟨_, _, got, returned⟩ := returned
  obtain ⟨rfl, rfl⟩ := returns_get.mp got
  rcases (allocpidFrom_spec maxPid s.lastPid pids.inside s).of_returns returned with
    ⟨-, -, all⟩ | ⟨n, isNumber, -⟩
  · exact pids.clear pid inRound (all.round inRound)
  · omega

end Pids

/-- Process numbers are kept as long as the process with the number `RESERVEDPID`
lives on and at most one process is made without a number. -/
theorem freed_pids_available {s : Kernel} {live : List Nat}
    (run : PidRun (fun live op => op.Keeps live) s live) : PidsKept s live :=
  (Pids.of_run run).kept

/-- The number after the last one is handed out if it is clear. -/
theorem allocproc_next {s : Kernel} (below : s.lastPid + 1 < maxPid)
    (isClear : bitAt s.pidBitmap (s.lastPid + 1) = false) :
    Returns PidOp.allocproc.exec s (s.lastPid + 1)
      { s with pidBitmap := setBit s.pidBitmap (s.lastPid + 1), lastPid := s.lastPid + 1 } := by
  have ran : wp PidOp.allocproc.exec (fun result after => result = s.lastPid + 1 ∧
      after = { s with pidBitmap := setBit s.pidBitmap (s.lastPid + 1), lastPid := s.lastPid + 1 })
      s := by
    rw [PidOp.exec, allocpid, wp_bind, wp_bind, wp_get, show maxPid = 32767 + 1 from rfl,
      allocpidFrom, if_neg (by omega), checkpid, wp_bind, wp_bind, wp_get, wp_pure, isClear,
      if_neg Bool.false_ne_true, setpid, wp_bind, wp_modify, wp_bind, wp_modify, wp_pure, wp_pure]
    refine ⟨?_, rfl⟩
    rw [asU64, BitVec.ofInt_natCast, BitVec.toNat_ofNat]
    simp only [maxPid] at below
    omega
  obtain ⟨result, after, returned, rfl, rfl⟩ := ran
  exact returned

/-- The numbers of the first `n` processes, the newest first. -/
def firstPids : Nat → List Nat
  | 0 => []
  | n + 1 => (n + 1) :: firstPids n

theorem le_of_mem_firstPids {n pid : Nat} (member : pid ∈ firstPids n) : pid ≤ n := by
  induction n with
  | zero => exact absurd member List.not_mem_nil
  | succ n inductionHypothesis =>
    rcases List.mem_cons.mp member with rfl | before
    · exact Nat.le_refl _
    · exact Nat.le_succ_of_le (inductionHypothesis before)

theorem mem_firstPids {n pid : Nat} (positive : 0 < pid) (small : pid ≤ n) : pid ∈ firstPids n := by
  induction n with
  | zero => omega
  | succ n inductionHypothesis =>
    rcases Nat.lt_or_ge n pid with above | before
    · obtain rfl : pid = n + 1 := by omega
      exact List.mem_cons_self ..
    · exact List.mem_cons_of_mem _ (inductionHypothesis before)

/-- The first processes, as far as the numbers go. The next number is free in each step, and
a number of the round is too. -/
theorem exists_firstPids (n : Nat) (few : n < maxPid) :
    ∃ s, PidRun (fun live op => op.Keeps live) s (firstPids n) ∧ s.lastPid = n ∧
      ∀ pid, n < pid → bitAt s.pidBitmap pid = false := by
  induction n with
  | zero =>
    refine ⟨Kernel.boot fun _ => 0, .start rfl rfl, rfl, fun pid _ => ?_⟩
    simp [bitAt, Kernel.boot]
  | succ n inductionHypothesis =>
    obtain ⟨s, run, isLast, clear⟩ := inductionHypothesis (by omega)
    have bound : reservedPid + 1 < maxPid := by decide
    have next := allocproc_next (s := s) (by omega) (clear _ (by omega))
    rw [isLast] at next
    have unused : ∃ pid, InRound pid ∧ pid ∉ firstPids n := by
      refine ⟨max (n + 1) (reservedPid + 1), ⟨by omega, by omega⟩, fun member => ?_⟩
      have small := le_of_mem_firstPids member
      omega
    refine ⟨_, run.step .allocproc trivial (Or.inl unused) next, rfl, fun pid above => ?_⟩
    rw [bitAt_setBit, clear pid (by omega)]
    simp only [Bool.or_false, decide_eq_false_iff_not]
    omega

/-- A number above `RESERVEDPID` is given back. -/
theorem freeproc_clears {s : Kernel} {pid : Nat} (high : reservedPid < pid) (below : pid < maxPid) :
    Returns (PidOp.freeproc pid).exec s 0 { s with pidBitmap := clearBit s.pidBitmap pid } := by
  have isNumber : asI32 pid = pid := by
    rw [asI32, BitVec.toInt_eq_toNat_of_lt]
    · simp only [BitVec.toNat_ofNat, maxPid] at *
      omega
    · simp only [BitVec.toNat_ofNat, maxPid] at *
      omega
  have ran : wp (PidOp.freeproc pid).exec (fun result after => result = 0 ∧
      after = { s with pidBitmap := clearBit s.pidBitmap pid }) s := by
    rw [PidOp.exec, releasePid, wp_bind, wp_onlyIf, if_pos high, freepid, isNumber,
      if_pos ⟨by omega, by omega⟩, wp_modify, wp_pure]
    exact ⟨rfl, rfl⟩
  obtain ⟨result, after, returned, rfl, rfl⟩ := ran
  exact returned

/-- The round begins again behind the last number, and finds the first one that is clear behind
`RESERVEDPID`. -/
theorem allocproc_wraps {s : Kernel} (isLast : s.lastPid + 1 = maxPid)
    (isSet : bitAt s.pidBitmap reservedPid = true)
    (isClear : bitAt s.pidBitmap (reservedPid + 1) = false) :
    ∃ after, Returns PidOp.allocproc.exec s (reservedPid + 1) after := by
  have ran : wp PidOp.allocproc.exec (fun result _ => result = reservedPid + 1) s := by
    rw [PidOp.exec, allocpid, wp_bind, wp_bind, wp_get, show maxPid = 32766 + 1 + 1 from rfl,
      allocpidFrom, if_pos (by omega), checkpid, wp_bind, wp_bind, wp_get, wp_pure, isSet,
      if_pos rfl, allocpidFrom, if_neg (by decide), checkpid, wp_bind, wp_bind, wp_get, wp_pure,
      isClear, if_neg Bool.false_ne_true, setpid, wp_bind, wp_modify, wp_bind, wp_modify, wp_pure,
      wp_pure]
    decide
  obtain ⟨result, after, returned, rfl⟩ := ran
  exact ⟨after, returned⟩

/-- The theorem where all numbers are taken, 301 is freed, and the next process gets it again. -/
theorem freed_pid_taken_again : ∃ live full freed again,
    PidRun (fun live op => op.Keeps live) full live ∧ (∀ pid, InRound pid → pid ∈ live) ∧
    Returns (PidOp.freeproc 301).exec full 0 freed ∧ PidsKept freed (live.erase 301) ∧
    Returns PidOp.allocproc.exec freed 301 again ∧ PidsKept again (301 :: live.erase 301) := by
  obtain ⟨n, isTop⟩ : ∃ n, n + 1 = maxPid := ⟨32767, rfl⟩
  obtain ⟨full, run, isLast, -⟩ := exists_firstPids n (by omega)
  have all : ∀ pid, InRound pid → pid ∈ firstPids n := by
    intro pid inRound
    have low := inRound.1
    have high := inRound.2
    have positive : 0 < reservedPid := by decide
    exact mem_firstPids (by omega) (by omega)
  have inRound : InRound 301 := ⟨by decide, by decide⟩
  have released := @freeproc_clears full 301 (by decide) (by decide)
  have freed := run.step (.freeproc 301) (all 301 inRound) (show 301 ≠ reservedPid by decide) released
  have keptFreed := freed_pids_available freed
  have notLive : 301 ∉ (firstPids n).erase 301 := fun member =>
    ((Pids.of_run run).distinct.mem_erase_iff.mp member).1 rfl
  have isSet : bitAt (clearBit full.pidBitmap 301) reservedPid = true := by
    refine (keptFreed.2.1 reservedPid ⟨Nat.le_refl _, by decide⟩).mpr ?_
    exact (Pids.of_run run).distinct.mem_erase_iff.mpr
      ⟨by decide, all reservedPid ⟨Nat.le_refl _, by decide⟩⟩
  have isClear : bitAt (clearBit full.pidBitmap 301) (reservedPid + 1) = false := by
    rw [bitAt_clearBit]
    simp [reservedPid]
  obtain ⟨again, taken⟩ := @allocproc_wraps { full with pidBitmap := clearBit full.pidBitmap 301 }
    (by rw [← isTop]; exact congrArg (· + 1) isLast) isSet isClear
  have retaken := freed.step .allocproc trivial (Or.inl ⟨301, inRound, notLive⟩) taken
  exact ⟨firstPids n, full, _, again, run, all, released, keptFreed, taken,
    freed_pids_available retaken⟩

/-- Without the condition the number `RESERVEDPID` is lost. -/
theorem reserved_pid_lost : ¬ ∀ s live, PidRun (fun _ _ => True) s live → PidsKept s live := by
  intro claimed
  have forget : ∀ {s live}, PidRun (fun live op => op.Keeps live) s live →
      PidRun (fun _ _ => True) s live := by
    intro s live run
    induction run with
    | start zeroed first => exact .start zeroed first
    | step earlier op legal meets returned inductionHypothesis =>
      exact inductionHypothesis.step op legal trivial returned
  obtain ⟨s, run, isLast, -⟩ := exists_firstPids reservedPid (by decide)
  have isSet := ((Pids.of_run run).set reservedPid (List.mem_cons_self ..) (by decide))
  have released : wp (PidOp.freeproc reservedPid).exec (fun _ after => after = s) s := by
    rw [PidOp.exec, releasePid, wp_bind, wp_onlyIf, if_neg (by decide), wp_pure]
  obtain ⟨result, after, returned, rfl⟩ := released
  have kept := claimed after _
    ((forget run).step (.freeproc reservedPid) (List.mem_cons_self ..) trivial returned)
  have member := (kept.2.1 reservedPid ⟨Nat.le_refl _, by decide⟩).mp isSet
  have small : reservedPid ≤ 299 := by
    apply le_of_mem_firstPids
    have erased : (firstPids reservedPid).erase reservedPid = firstPids 299 :=
      List.erase_cons_head ..
    exact erased ▸ member
  exact absurd small (by decide)

end CuteCore
