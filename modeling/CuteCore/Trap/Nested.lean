import CuteCore.Trap.Trapvec

/-!
# Traps inside the kernel

Kernel code runs with `sscratch` zero. A trap then takes the kernel path of `trapvec`: it
saves the registers below the stack pointer and calls `kerneltrap`, which is kernel code
itself and may be trapped again. Traps nest to any depth here, and come between any two steps.
-/

namespace CuteCore.Trapvec

open Rv64

/-- The bits that an exception and `sret` overwrite: the previous mode and the previous
interrupt enable. -/
def previousBits : Word := 0x120

/-- What the hart does before it goes to `trapvec` from the kernel. -/
def taken (cause value : Word) (m : Machine) : Machine :=
  let status := m.csr .sstatus
  (((m.setCsr .sepc m.pc).setCsr .scause cause).setCsr .stval value).setCsr .sstatus
    ((status &&& ~~~0x122#64) ||| ((status &&& 0x2#64) <<< 4) ||| 0x100#64)

/-- The machine when the kernel path calls its handler. -/
def atKerneltrap (m : Machine) : Machine := run fromKernelSave (run entry m)

/-- The values that the kernel path stores, as offsets from its frame. -/
def kernelFrame (m : Machine) : List (Word × Word) :=
  (gprSlots.map fun slot => (slot.2, m.reg slot.1)) ++
    [(offSstatus, m.csr .sstatus), (offSepc, m.csr .sepc), (offScause, m.csr .scause),
      (offStval, m.csr .stval)]

/-- The frame of a trap taken now. -/
def InFrame (m : Machine) (a : Word) : Prop := (a - userBase m).toNat < trapframeSz.toNat

/-- Two machines look the same to code that knows its registers and the `kept` bytes. -/
structure Alike (kept : Word → Prop) (m n : Machine) : Prop where
  registers : ∀ r, n.reg r = m.reg r
  counter : n.pc = m.pc
  scratch : n.csr .sscratch = m.csr .sscratch
  status : n.csr .sstatus &&& ~~~previousBits = m.csr .sstatus &&& ~~~previousBits
  bytes : ∀ a, kept a → n.mem a = m.mem a

/-- Kernel code that leaves the `kept` bytes to others, with the steps it takes itself. A trap
finds room below the stack pointer, and its handler is such code again: it leaves the frame
too, and returns with its stack pointer. -/
inductive KernelRun :
    (Word → Prop) → Machine → List (Machine × Machine) → Machine → Prop where
  | done (kept : Word → Prop) (m : Machine) : KernelRun kept m [] m
  | own {kept : Word → Prop} {m mid last : Machine} {steps : List (Machine × Machine)}
      (bytes : ∀ a, kept a → mid.mem a = m.mem a) (scratch : mid.csr .sscratch = m.csr .sscratch)
      (rest : KernelRun kept mid steps last) : KernelRun kept m ((m, mid) :: steps) last
  | trap {kept : Word → Prop} {m handled last : Machine} {inner steps : List (Machine × Machine)}
      (cause value : Word) (usertrap : Machine → Machine) (room : ∀ a, kept a → ¬ InFrame m a)
      (handler : KernelRun (fun a => kept a ∨ InFrame m a) (atKerneltrap (taken cause value m))
        inner handled)
      (returned : handled.reg sp = (atKerneltrap (taken cause value m)).reg sp)
      (rest : KernelRun kept (trapvec usertrap (fun _ => handled) (taken cause value m)) steps last) :
      KernelRun kept m steps last

/-- Each step starts where the one before ended, as far as the code can tell. -/
def Seamless (kept : Word → Prop) : Machine → List (Machine × Machine) → Machine → Prop
  | m, [], last => Alike kept m last
  | m, (before, after) :: steps, last => Alike kept m before ∧ Seamless kept after steps last

section

variable {kept : Word → Prop} {m n last handled : Machine}

theorem Alike.refl (kept : Word → Prop) (m : Machine) : Alike kept m m :=
  ⟨fun _ => rfl, rfl, rfl, rfl, fun _ _ => rfl⟩

theorem Alike.trans (first : Alike kept m n) (second : Alike kept n last) : Alike kept m last where
  registers r := (second.registers r).trans (first.registers r)
  counter := second.counter.trans first.counter
  scratch := second.scratch.trans first.scratch
  status := second.status.trans first.status
  bytes a isKept := (second.bytes a isKept).trans (first.bytes a isKept)

theorem Seamless.after {steps : List (Machine × Machine)} (alike : Alike kept m n)
    (seamless : Seamless kept n steps last) : Seamless kept m steps last := by
  cases steps with
  | nil => exact alike.trans seamless
  | cons step steps => exact ⟨alike.trans seamless.1, seamless.2⟩

end

/-! ## One trap -/

theorem kernelFrame_sublist (m : Machine) (k : Word) : (kernelFrame m).Sublist (userFrame m k) := by
  rw [kernelFrame, userFrame]
  exact (List.Sublist.refl _).append (List.sublist_cons_self ..)

theorem run_clear_scratch (m : Machine) : (run [.csrw .sscratch zero] m).csr .sscratch = 0 := by
  simp only [run_cons, run_nil, exec, Machine.csr_setCsr_self, Machine.reg_zero]

/-- Only the four trap registers follow the general ones, and `sscratch` is cleared last. -/
theorem atKerneltrap_eq (m : Machine) :
    (atKerneltrap m).mem = storeAll m.mem (userBase m) (kernelFrame m) ∧
      (atKerneltrap m).reg sp = userBase m ∧ (atKerneltrap m).csr .sscratch = 0 := by
  obtain ⟨base, gprs, csrs, mem⟩ := run_swaps m (-trapframeSz)
  rw [← userBase] at base
  generalize swaps : run [.csrrw sp .sscratch sp, .addi sp sp (-trapframeSz)] (run entry m) = n
    at base gprs csrs mem
  have stored : (gprSlots.map fun slot => (slot.2, n.reg slot.1)) =
      gprSlots.map fun slot => (slot.2, m.reg slot.1) :=
    List.map_congr_left fun slot member => by rw [gprs slot member]
  have saved := run_saves gprSlots sp n
  rw [base, mem, stored] at saved
  generalize savedGprs : run (saves gprSlots sp) n = p at saved
  obtain ⟨csrMem, csrBase⟩ := run_saveCsrs p
  have pSp : p.reg sp = userBase m := by rw [saved, Machine.reg_setMem, base]
  have pCsr : p.csr = m.csr := by rw [saved, Machine.csr_setMem, csrs]
  have pMem : p.mem = storeAll m.mem (userBase m)
      (gprSlots.map fun slot => (slot.2, m.reg slot.1)) := by
    rw [saved, Machine.mem_setMem]
  generalize savedCsrs : run saveCsrs p = q at csrMem csrBase
  have split : atKerneltrap m = run [.csrw .sscratch zero] q := by
    rw [← savedCsrs, ← savedGprs, ← swaps]
    simp only [atKerneltrap, fromKernelSave, run_append]
  obtain ⟨clearMem, clearBase⟩ := run_clear q
  rw [split, clearMem, clearBase, csrMem, csrBase, pSp, pCsr, pMem]
  exact ⟨by rw [kernelFrame, storeAll_append], rfl, run_clear_scratch q⟩

/-- A byte outside the frame is not written on the way to the handler. -/
theorem atKerneltrap_outside (m : Machine) {a : Word} (outside : ¬ InFrame m a) :
    (atKerneltrap m).mem a = m.mem a := by
  rw [(atKerneltrap_eq m).1]
  apply storeAll_outside
  intro entry member
  have room := userFrame_inside m 0 entry ((kernelFrame_sublist m 0).subset member)
  rw [InFrame, Nat.not_lt] at outside
  have shifted : ∀ base : Word, a - (base + entry.1) = a - base - entry.1 := by
    intro base
    bv_omega
  rw [shifted, BitVec.toNat_sub]
  omega

/-- Restoring the trap registers takes two of them from the frame. -/
theorem run_restoreCsrs_csr (m : Machine) :
    (run restoreCsrs m).csr .sscratch = m.csr .sscratch ∧
      (run restoreCsrs m).csr .sepc = load64 m.mem (m.reg sp + offSepc) ∧
      (run restoreCsrs m).csr .sstatus = load64 m.mem (m.reg sp + offSstatus) := by
  have first : exec (.ld t0 offSstatus sp) m =
      m.setReg t0 (load64 m.mem (m.reg sp + offSstatus)) := rfl
  generalize load64 m.mem (m.reg sp + offSstatus) = status at first
  have second : exec (.ld t1 offSepc sp) (m.setReg t0 status) =
      (m.setReg t0 status).setReg t1 (load64 m.mem (m.reg sp + offSepc)) := by
    rw [← Machine.reg_setReg_ne m t0 sp status (by decide)]
    rfl
  generalize load64 m.mem (m.reg sp + offSepc) = epc at second
  have write : ∀ (c : Csr) (r : Reg) (n : Machine), exec (.csrw c r) n = n.setCsr c (n.reg r) :=
    fun _ _ _ => rfl
  have runs : run restoreCsrs m =
      (((m.setReg t0 status).setReg t1 epc).setCsr .sstatus status).setCsr .sepc epc := by
    rw [restoreCsrs, run_cons, run_cons, run_cons, run_cons, run_nil, first, second, write, write,
      Machine.reg_setCsr, Machine.reg_setReg_self _ t1 _ (by decide),
      Machine.reg_setReg_ne _ t1 t0 _ (by decide), Machine.reg_setReg_self _ t0 _ (by decide)]
  rw [runs]
  refine ⟨?_, Machine.csr_setCsr_self .., ?_⟩
  · rw [Machine.csr_setCsr_ne _ _ _ _ (by decide), Machine.csr_setCsr_ne _ _ _ _ (by decide),
      Machine.csr_setReg, Machine.csr_setReg]
  · rw [Machine.csr_setCsr_ne _ _ _ _ (by decide), Machine.csr_setCsr_self]

/-- The tail of the kernel path frees the frame and returns. -/
theorem run_return (m : Machine) (size : Word) :
    let n := run [.addi sp sp size, .sret] m
    n.mem = m.mem ∧ n.reg sp = m.reg sp + size ∧ (∀ r, r ≠ sp → n.reg r = m.reg r) ∧
      n.csr = (exec .sret m).csr ∧ n.pc = m.csr .sepc := by
  refine ⟨rfl, ?_, ?_, rfl, rfl⟩
  · simp (disch := decide) only [run_cons, run_nil, exec, Machine.reg_setPc, Machine.reg_setCsr,
      Machine.reg_setReg_self]
  · intro r notSp
    simp only [run_cons, run_nil, exec, Machine.reg_setPc, Machine.reg_setCsr,
      Machine.reg_setReg_ne _ _ _ _ notSp]

/-- `sret` looks at no register but `sstatus` for the one it leaves there. -/
theorem sret_csr (m n : Machine) (status : m.csr .sstatus = n.csr .sstatus)
    (scratch : m.csr .sscratch = n.csr .sscratch) :
    (exec .sret m).csr .sstatus = (exec .sret n).csr .sstatus ∧
      (exec .sret m).csr .sscratch = n.csr .sscratch := by
  simp (disch := decide) only [exec, Machine.csr_setPc, Machine.csr_setCsr_self,
    Machine.csr_setCsr_ne, status, scratch, and_self]

/-- What the kernel path restores after its handler. -/
theorem run_fromKernelRestore (h : Machine) :
    let after := run fromKernelRestore h
    after.mem = h.mem ∧ after.reg sp = h.reg sp + trapframeSz ∧
      after.csr .sscratch = h.csr .sscratch ∧ after.pc = load64 h.mem (h.reg sp + offSepc) ∧
      after.csr .sstatus = (exec .sret (h.setCsr .sstatus
        (load64 h.mem (h.reg sp + offSstatus)))).csr .sstatus ∧
      ∀ slot ∈ gprSlots, after.reg slot.1 = load64 h.mem (h.reg sp + slot.2) := by
  obtain ⟨csrMem, csrSp⟩ := run_restoreCsrs h
  obtain ⟨scratch, sepc, sstatus⟩ := run_restoreCsrs_csr h
  generalize restored : run restoreCsrs h = q at csrMem csrSp scratch sepc sstatus
  obtain ⟨gprMem, gprCsr, gprFrame⟩ := run_restores_frame gprSlots sp q
  have gprs := run_restores_mem gprSlots sp q gprSlots_avoid_sp gprSlots_avoid_zero gprSlots_nodup
  have base := (gprFrame sp gprSlots_avoid_sp).trans csrSp
  generalize loaded : run (restores gprSlots sp) q = p at gprMem gprCsr gprs base
  have split : run fromKernelRestore h = run [.addi sp sp trapframeSz, .sret] p := by
    rw [← loaded, ← restored]
    simp only [fromKernelRestore, run_append]
  obtain ⟨lastMem, lastSp, lastOthers, lastCsr, lastPc⟩ := run_return p trapframeSz
  rw [← split] at lastMem lastSp lastOthers lastCsr lastPc
  have csrs := sret_csr p (h.setCsr .sstatus (load64 h.mem (h.reg sp + offSstatus)))
    (by rw [gprCsr, sstatus, Machine.csr_setCsr_self])
    (by rw [gprCsr, scratch, Machine.csr_setCsr_ne _ _ _ _ (by decide)])
  refine ⟨?_, ?_, ?_, ?_, ?_, ?_⟩
  · rw [lastMem, gprMem, csrMem]
  · rw [lastSp, base]
  · rw [lastCsr, csrs.2, Machine.csr_setCsr_ne _ _ _ _ (by decide)]
  · rw [lastPc, gprCsr, sepc]
  · rw [lastCsr, csrs.1]
  · intro slot member
    rw [lastOthers slot.1 (gprSlots_avoid_sp slot member), gprs slot member, csrMem, csrSp]

/-- The interrupt enable goes into its previous bit and comes back from there. -/
theorem status_restored (s : Word) :
    let s' := (s &&& ~~~0x122#64) ||| ((s &&& 0x2#64) <<< 4) ||| 0x100#64
    ((s' &&& ~~~0x122#64) ||| ((s' >>> 4) &&& 0x2#64) ||| 0x20#64) &&& ~~~previousBits =
      s &&& ~~~previousBits := by
  simp only [previousBits]
  apply BitVec.eq_of_getLsbD_eq
  intro i bound
  simp only [BitVec.getLsbD_and, BitVec.getLsbD_or, BitVec.getLsbD_not, BitVec.getLsbD_shiftLeft,
    BitVec.getLsbD_ushiftRight]
  interval_cases i <;> simp

theorem taken_swapped (cause value : Word) (m : Machine) :
    (run entry (taken cause value m)).reg sp = m.csr .sscratch := by
  simp (disch := decide) only [entry, taken, run_cons, run_nil, exec, Machine.reg_setReg_self,
    Machine.csr_setCsr_ne]

/-- What the handler finds in the frame is there when it returns. -/
theorem load_after_kerneltrap {t handled : Machine}
    (leaves : ∀ a, InFrame t a → handled.mem a = (atKerneltrap t).mem a) {entry : Word × Word}
    (member : entry ∈ kernelFrame t) :
    load64 handled.mem (userBase t + entry.1) = entry.2 := by
  have sublist := kernelFrame_sublist t 0
  have room := userFrame_inside t 0 entry (sublist.subset member)
  have unchanged : load64 handled.mem (userBase t + entry.1) =
      load64 (atKerneltrap t).mem (userBase t + entry.1) := by
    apply load64_congr
    intro i bound
    apply leaves
    have shifted : ∀ base : Word, base + entry.1 + i - base = entry.1 + i := by
      intro base
      bv_omega
    rw [InFrame, shifted, BitVec.toNat_add]
    omega
  rw [unchanged, (atKerneltrap_eq t).1]
  exact load64_storeAll_mem _ _ _ ((userFrame_apart t 0).sublist sublist) entry member

section

variable {kept : Word → Prop} {m last handled : Machine} {cause value : Word}

/-- A trap taken now goes the kernel path of `trapvec`, whatever the two handlers are. -/
def TakesKernelPath (m : Machine) : Prop :=
  ∀ (cause value : Word) (usertrap kerneltrap : Machine → Machine),
    trapvec usertrap kerneltrap (taken cause value m) =
      run fromKernelRestore (kerneltrap (atKerneltrap (taken cause value m)))

/-- With `sscratch` zero the swap of the entry leaves no stack pointer, and `trapvec` knows the
trap for one from the kernel. -/
theorem takesKernelPath (fromKernel : m.csr .sscratch = 0) : TakesKernelPath m := by
  intro cause value usertrap kerneltrap
  have swapped := taken_swapped cause value m
  rw [trapvec, if_neg (not_not.mpr (swapped.trans fromKernel)), atKerneltrap]

/-- A trap whose handler leaves the frame cannot be seen. -/
theorem trap_alike (usertrap : Machine → Machine) (fromKernel : m.csr .sscratch = 0)
    (room : ∀ a, kept a → ¬ InFrame m a)
    (leaves : ∀ a, kept a ∨ InFrame m a →
      handled.mem a = (atKerneltrap (taken cause value m)).mem a)
    (scratch : handled.csr .sscratch = 0)
    (returned : handled.reg sp = (atKerneltrap (taken cause value m)).reg sp) :
    Alike kept m (trapvec usertrap (fun _ => handled) (taken cause value m)) := by
  have path := takesKernelPath fromKernel cause value usertrap fun _ => handled
  have registers : (taken cause value m).reg = m.reg := rfl
  have sepc : (taken cause value m).csr .sepc = m.pc := by
    simp (disch := decide) only [taken, Machine.csr_setCsr_self, Machine.csr_setCsr_ne]
  have sstatus : (taken cause value m).csr .sstatus = (m.csr .sstatus &&& ~~~0x122#64) |||
      ((m.csr .sstatus &&& 0x2#64) <<< 4) ||| 0x100#64 := by
    simp only [taken, Machine.csr_setCsr_self]
  have sameMem : (taken cause value m).mem = m.mem := rfl
  have sameFrame : ∀ a, InFrame (taken cause value m) a ↔ InFrame m a := fun _ => Iff.rfl
  generalize taken cause value m = t at *
  have base : handled.reg sp = userBase t := returned.trans (atKerneltrap_eq t).2.1
  have loads : ∀ entry ∈ kernelFrame t, load64 handled.mem (userBase t + entry.1) = entry.2 :=
    fun entry member =>
      load_after_kerneltrap (fun a inside => leaves a (Or.inr ((sameFrame a).mp inside))) member
  have gprs : ∀ slot ∈ gprSlots, load64 handled.mem (userBase t + slot.2) = t.reg slot.1 :=
    fun slot member =>
      loads (slot.2, t.reg slot.1) (List.mem_append_left _ (List.mem_map_of_mem member))
  have savedStatus : load64 handled.mem (userBase t + offSstatus) = t.csr .sstatus :=
    loads (offSstatus, t.csr .sstatus) (List.mem_append_right _ (List.mem_cons_self ..))
  have savedSepc : load64 handled.mem (userBase t + offSepc) = t.csr .sepc :=
    loads (offSepc, t.csr .sepc)
      (List.mem_append_right _ (List.mem_cons_of_mem _ (List.mem_cons_self ..)))
  obtain ⟨afterMem, afterSp, afterScratch, afterPc, afterStatus, afterGprs⟩ :=
    run_fromKernelRestore handled
  rw [path]
  refine ⟨?_, ?_, ?_, ?_, ?_⟩
  · intro r
    by_cases isZero : r = 0
    · rw [isZero, Machine.reg_zero, Machine.reg_zero]
    · by_cases isSp : r = sp
      · rw [isSp, afterSp, base, userBase, registers, BitVec.add_assoc,
          BitVec.add_comm (-trapframeSz), BitVec.add_right_neg, BitVec.add_zero]
      · obtain ⟨slot, member, rfl⟩ := gprSlots_cover r isZero isSp
        rw [afterGprs slot member, base, gprs slot member, registers]
  · rw [afterPc, base, savedSepc, sepc]
  · rw [afterScratch, scratch, fromKernel]
  · rw [afterStatus, base, savedStatus, sstatus]
    simp only [exec, Machine.csr_setPc, Machine.csr_setCsr_self]
    exact status_restored _
  · intro a isKept
    rw [afterMem, leaves a (Or.inl isKept),
      atKerneltrap_outside t fun inside => room a isKept ((sameFrame a).mp inside), sameMem]

/-! ## Runs -/

/-- Kernel code leaves the `kept` bytes and `sscratch`, through all the traps it takes. -/
theorem KernelRun.keeps {steps : List (Machine × Machine)} (run : KernelRun kept m steps last)
    (fromKernel : m.csr .sscratch = 0) :
    last.csr .sscratch = 0 ∧ ∀ a, kept a → last.mem a = m.mem a := by
  induction run with
  | done kept m => exact ⟨fromKernel, fun _ _ => rfl⟩
  | own bytes scratch _ inductionHypothesis =>
    obtain ⟨afterScratch, afterBytes⟩ := inductionHypothesis (scratch.trans fromKernel)
    exact ⟨afterScratch, fun a isKept => (afterBytes a isKept).trans (bytes a isKept)⟩
  | trap cause value usertrap room _ returned _ handlerHypothesis restHypothesis =>
    obtain ⟨scratch, leaves⟩ := handlerHypothesis (atKerneltrap_eq _).2.2
    have alike := trap_alike usertrap fromKernel room leaves scratch returned
    obtain ⟨afterScratch, afterBytes⟩ := restHypothesis (alike.scratch.trans fromKernel)
    exact ⟨afterScratch, fun a isKept => (afterBytes a isKept).trans (alike.bytes a isKept)⟩

theorem KernelRun.seamless {steps : List (Machine × Machine)} (run : KernelRun kept m steps last)
    (fromKernel : m.csr .sscratch = 0) : Seamless kept m steps last := by
  induction run with
  | done kept m => exact Alike.refl kept m
  | own bytes scratch _ inductionHypothesis =>
    exact ⟨Alike.refl _ _, inductionHypothesis (scratch.trans fromKernel)⟩
  | trap cause value usertrap room handler returned _ _ restHypothesis =>
    obtain ⟨scratch, leaves⟩ := handler.keeps (atKerneltrap_eq _).2.2
    have alike := trap_alike usertrap fromKernel room leaves scratch returned
    exact (restHypothesis (alike.scratch.trans fromKernel)).after alike

/-- Traps in the kernel cannot be seen by the code they interrupt, at any depth, and each goes
the kernel path: where a trap is taken a run ends, of the code itself or of a handler. -/
theorem traps_are_unseen {steps : List (Machine × Machine)} (run : KernelRun kept m steps last)
    (fromKernel : m.csr .sscratch = 0) : Seamless kept m steps last ∧ TakesKernelPath last :=
  ⟨run.seamless fromKernel, takesKernelPath (run.keeps fromKernel).1⟩

end

/-- Kernel code with `0x80001000` for its stack pointer. -/
def resting : Machine where
  x r := if r = sp then 0x80001000 else 0
  csr _ := 0
  mem _ := 0
  pc := 0x80200000

/-- The theorem for a trap inside the handler of a trap, and a step behind both. -/
theorem trapped_twice : ∃ steps last, steps.length = 1 ∧
    KernelRun (· = 0x80001000) resting steps last ∧
    Seamless (· = 0x80001000) resting steps last ∧ TakesKernelPath last := by
  have base : userBase resting = 0x80000ee8 := by decide
  have room : ∀ a : Word, a = 0x80001000 → ¬ InFrame resting a := by
    rintro a rfl
    rw [InFrame, base]
    decide
  obtain ⟨-, handlerSp, handlerScratch⟩ := atKerneltrap_eq (taken 5 0 resting)
  have innerRoom : ∀ a : Word, a = 0x80001000 ∨ InFrame resting a →
      ¬ InFrame (atKerneltrap (taken 5 0 resting)) a := by
    intro a isKept
    have innerBase : userBase (atKerneltrap (taken 5 0 resting)) = 0x80000dd0 := by
      rw [userBase, handlerSp, show userBase (taken 5 0 resting) = userBase resting from rfl, base]
      decide
    rw [InFrame, base, show trapframeSz.toNat = 280 from rfl] at isKept
    rw [InFrame, innerBase, show trapframeSz.toNat = 280 from rfl]
    rcases isKept with rfl | inside
    · decide
    · bv_omega
  have inner := KernelRun.trap 9 0 id innerRoom (.done _ _) rfl (.done _ _)
  have unseen := @trap_alike _ _ _ 9 0 id handlerScratch innerRoom (fun _ _ => rfl)
    (atKerneltrap_eq _).2.2 rfl
  have step : ∀ m : Machine,
      KernelRun (· = 0x80001000) m [(m, m.setReg 10 7)] (m.setReg 10 7) :=
    fun _ => .own (fun _ _ => rfl) rfl (.done _ _)
  have run := KernelRun.trap 5 0 id room inner (unseen.registers sp) (step _)
  exact ⟨_, _, rfl, run, traps_are_unseen run rfl⟩

end CuteCore.Trapvec
