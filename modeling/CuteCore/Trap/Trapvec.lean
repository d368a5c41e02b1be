import CuteCore.Library.Rv64

/-!
# The trap vector

`trapvec` as the assembler lists it: the swap that detects the source of the
trap, the kernel path, and the user path with its second swap. The C handlers
are parameters; what a handler must not do is stated as `LeavesFrame`.

The frame is meant to lie in the 280 bytes below the kernel stack top `k`. The
user path swaps `sp` with `sscratch` once more after the branch, so it builds
its frame below the user stack pointer and returns with the kernel stack top in
`sp` and in `t0`. `Transparent` says what a transparent trap would be, and the
results below say exactly when the listing meets it.
-/

namespace CuteCore.Trapvec

open Rv64

abbrev zero : Reg := 0
abbrev sp : Reg := 2
abbrev t0 : Reg := 5
abbrev t1 : Reg := 6
abbrev t2 : Reg := 7
abbrev s0 : Reg := 8
abbrev t3 : Reg := 28

/-- `TRAPFRAME_SZ` -/
def trapframeSz : Word := 280

def offSp : Word := 8
def offSstatus : Word := 248
def offSepc : Word := 256
def offScause : Word := 264
def offStval : Word := 272

/-- The general registers in the order both paths save and restore them. The
stack pointer has a slot but is not in this run. -/
def gprSlots : Slots :=
  [(1, 0), (3, 16), (4, 24), (5, 32), (6, 40), (7, 48), (8, 56), (9, 64), (10, 72), (11, 80),
    (12, 88), (13, 96), (14, 104), (15, 112), (16, 120), (17, 128), (18, 136), (19, 144),
    (20, 152), (21, 160), (22, 168), (23, 176), (24, 184), (25, 192), (26, 200), (27, 208),
    (28, 216), (29, 224), (30, 232), (31, 240)]

def saveCsrs : List Instr :=
  [.csrr t0 .sstatus, .csrr t1 .sepc, .csrr t2 .scause, .csrr t3 .stval,
    .sd t0 offSstatus sp, .sd t1 offSepc sp, .sd t2 offScause sp, .sd t3 offStval sp]

def restoreCsrs : List Instr :=
  [.ld t0 offSstatus sp, .ld t1 offSepc sp, .csrw .sstatus t0, .csrw .sepc t1]

/-- `trapvec` up to the branch. -/
def entry : List Instr := [.csrrw sp .sscratch sp]

/-- `.from_kernel` up to `call kerneltrap`. -/
def fromKernelSave : List Instr :=
  [.csrrw sp .sscratch sp, .addi sp sp (-trapframeSz)] ++ saves gprSlots sp ++ saveCsrs ++
    [.csrw .sscratch zero]

/-- `.from_kernel` after `call kerneltrap`. -/
def fromKernelRestore : List Instr :=
  restoreCsrs ++ restores gprSlots sp ++ [.addi sp sp trapframeSz, .sret]

/-- `.from_user` up to `call usertrap`. -/
def fromUserSave : List Instr :=
  [.csrrw sp .sscratch sp, .addi sp sp (-trapframeSz)] ++ saves gprSlots sp ++
    [.csrr s0 .sscratch, .sd s0 offSp sp] ++ saveCsrs ++ [.csrw .sscratch zero]

/-- `.from_user` after `call usertrap`. -/
def fromUserRestore : List Instr :=
  restoreCsrs ++ restores gprSlots sp ++
    [.ld t0 offSp sp, .csrw .sscratch t0, .addi sp sp trapframeSz, .csrrw sp .sscratch sp, .sret]

/-- The machine when the user path calls its handler. -/
def atUsertrap (m : Machine) : Machine := run fromUserSave (run entry m)

/-- One trap, from the vector to `sret`. The branch tests the swapped `sp`. -/
def trapvec (usertrap kerneltrap : Machine → Machine) (m : Machine) : Machine :=
  let swapped := run entry m
  if swapped.reg sp ≠ 0 then run fromUserRestore (usertrap (run fromUserSave swapped))
  else run fromKernelRestore (kerneltrap (run fromKernelSave swapped))

/-- `trapret`, which ends `usertrap`: the saved program counter, the previous
mode, and the kernel stack top go back to their registers. `satp` is not
modelled. -/
def trapret (trapframe : Word) (m : Machine) : Machine :=
  let status := (m.csr .sstatus &&& ~~~0x100#64) ||| 0x20#64
  ((m.setCsr .sepc (load64 m.mem (trapframe + offSepc))).setCsr .sstatus status).setCsr
    .sscratch (trapframe + trapframeSz)

/-- The handler returns with the stack pointer it was called with and with the
280 bytes above it as they were. -/
def LeavesFrame (handler : Machine → Machine) (m : Machine) : Prop :=
  (handler m).reg sp = m.reg sp ∧
    ∀ i : Word, i.toNat < trapframeSz.toNat → (handler m).mem (m.reg sp + i) = m.mem (m.reg sp + i)

/-- The whole trap frame of `m` stands in `mem` from `base` on. -/
structure FrameSaved (m : Machine) (mem : Word → BitVec 8) (base : Word) : Prop where
  gprs : ∀ slot ∈ gprSlots, load64 mem (base + slot.2) = m.reg slot.1
  userSp : load64 mem (base + offSp) = m.reg sp
  sstatus : load64 mem (base + offSstatus) = m.csr .sstatus
  sepc : load64 mem (base + offSepc) = m.csr .sepc
  scause : load64 mem (base + offScause) = m.csr .scause
  stval : load64 mem (base + offStval) = m.csr .stval

/-- A transparent user trap from `m` with kernel stack top `k`: the frame is
saved in the 280 bytes below `k` and nothing else is written before the handler
runs, and after `sret` every register and the held stack top are back. -/
structure Transparent (usertrap kerneltrap : Machine → Machine) (m : Machine) (k : Word) :
    Prop where
  saved : FrameSaved m (atUsertrap m).mem (k - trapframeSz)
  elsewhere : ∀ a : Word, trapframeSz.toNat ≤ (a - (k - trapframeSz)).toNat →
    (atUsertrap m).mem a = m.mem a
  registers : ∀ r : Reg, r ≠ 0 → (trapvec usertrap kerneltrap m).reg r = m.reg r
  sscratch : (trapvec usertrap kerneltrap m).csr .sscratch = k

/-- The values the user path stores, in order, as offsets from its frame base.
The second swap has put the kernel stack top back into `sscratch`, so that is
what reaches the slot of `sp`. -/
def userFrame (m : Machine) (k : Word) : List (Word × Word) :=
  (gprSlots.map fun slot => (slot.2, m.reg slot.1)) ++
    [(offSp, k), (offSstatus, m.csr .sstatus), (offSepc, m.csr .sepc),
      (offScause, m.csr .scause), (offStval, m.csr .stval)]

/-- Where the user path really builds its frame. -/
def userBase (m : Machine) : Word := m.reg sp + -trapframeSz

theorem gprSlots_avoid_sp : ∀ slot ∈ gprSlots, slot.1 ≠ sp := by
  have checked : (gprSlots.all fun slot => slot.1 != sp) = true := by decide
  intro slot member
  simpa using List.all_eq_true.mp checked slot member

theorem gprSlots_avoid_zero : ∀ slot ∈ gprSlots, slot.1 ≠ 0 := by
  have checked : (gprSlots.all fun slot => slot.1 != 0) = true := by decide
  intro slot member
  simpa using List.all_eq_true.mp checked slot member

theorem gprSlots_nodup : (gprSlots.map Prod.fst).Nodup := by decide

/-- Every register but zero and the stack pointer has a slot. -/
theorem gprSlots_cover : ∀ r : Reg, r ≠ 0 → r ≠ sp → ∃ slot ∈ gprSlots, slot.1 = r := by decide

/-- The slots of the frame do not overlap, whatever values they hold. -/
theorem userFrame_apart (m : Machine) (k : Word) :
    (userFrame m k).Pairwise fun left right => Apart left.1 right.1 := by
  have offsets : (gprSlots.map Prod.snd ++
      [offSp, offSstatus, offSepc, offScause, offStval]).Pairwise Apart := by decide +kernel
  have mapped : (userFrame m k).map Prod.fst =
      gprSlots.map Prod.snd ++ [offSp, offSstatus, offSepc, offScause, offStval] := by
    simp [userFrame, Function.comp_def]
  rw [← mapped, List.pairwise_map] at offsets
  exact offsets

/-- The slots of the frame lie inside its 280 bytes. -/
theorem userFrame_inside (m : Machine) (k : Word) :
    ∀ entry ∈ userFrame m k, entry.1.toNat + 8 ≤ trapframeSz.toNat := by
  have offsets : (gprSlots.map Prod.snd ++ [offSp, offSstatus, offSepc, offScause, offStval]).all
      (fun offset => decide (offset.toNat + 8 ≤ trapframeSz.toNat)) = true := by decide +kernel
  have mapped : (userFrame m k).map Prod.fst =
      gprSlots.map Prod.snd ++ [offSp, offSstatus, offSepc, offScause, offStval] := by
    simp [userFrame, Function.comp_def]
  intro entry member
  rw [← mapped, List.all_eq_true] at offsets
  exact of_decide_eq_true (offsets entry.1 (List.mem_map_of_mem member))

/-- Every general register's own value is among those stored. -/
theorem gpr_stored (m : Machine) (k : Word) (slot : Reg × Word) (member : slot ∈ gprSlots) :
    (slot.2, m.reg slot.1) ∈ userFrame m k := by
  rw [userFrame]
  exact List.mem_append_left _ (List.mem_map.mpr ⟨slot, member, rfl⟩)

/-- Saving the trap registers stores them below scratch registers that are
already saved, and keeps the stack pointer. -/
theorem run_saveCsrs (m : Machine) :
    (run saveCsrs m).mem = storeAll m.mem (m.reg sp)
        [(offSstatus, m.csr .sstatus), (offSepc, m.csr .sepc), (offScause, m.csr .scause),
          (offStval, m.csr .stval)] ∧
      (run saveCsrs m).reg sp = m.reg sp := by
  constructor
  · simp (disch := decide) only [saveCsrs, run_cons, run_nil, exec, Machine.reg_setReg_self,
      Machine.reg_setReg_ne, Machine.reg_setMem, Machine.mem_setMem, Machine.mem_setReg,
      Machine.csr_setReg, storeAll_cons, storeAll_nil]
  · simp (disch := decide) only [saveCsrs, run_cons, run_nil, exec, Machine.reg_setReg_ne,
      Machine.reg_setMem]

/-- The entry swap and the second swap undo each other; the frame is then
allocated below the user stack pointer, whatever its size. -/
theorem run_swaps (m : Machine) (size : Word) :
    let n := run [.csrrw sp .sscratch sp, .addi sp sp size] (run entry m)
    n.reg sp = m.reg sp + size ∧ (∀ slot ∈ gprSlots, n.reg slot.1 = m.reg slot.1) ∧
      n.csr = m.csr ∧ n.mem = m.mem := by
  refine ⟨?_, ?_, ?_, rfl⟩
  · simp (disch := decide) only [entry, run_cons, run_nil, exec, Machine.reg_setReg_self,
      Machine.csr_setReg, Machine.csr_setCsr_self]
  · intro slot member
    have notSp : slot.1 ≠ sp := gprSlots_avoid_sp slot member
    simp only [entry, run_cons, run_nil, exec, Machine.reg_setReg_ne _ _ _ _ notSp,
      Machine.reg_setCsr]
  · funext c
    by_cases isScratch : c = .sscratch
    · subst isScratch
      simp (disch := decide) only [entry, run_cons, run_nil, exec, Machine.csr_setReg,
        Machine.csr_setCsr_self, Machine.reg_setReg_self]
    · simp only [entry, run_cons, run_nil, exec, Machine.csr_setReg,
        Machine.csr_setCsr_ne _ _ _ _ isScratch]

/-- Saving the user stack pointer stores whatever `sscratch` holds. -/
theorem run_saveSp (m : Machine) (offset : Word) :
    let n := run [.csrr s0 .sscratch, .sd s0 offset sp] m
    n.mem = store64 m.mem (m.reg sp + offset) (m.csr .sscratch) ∧ n.reg sp = m.reg sp ∧
      n.csr = m.csr := by
  refine ⟨?_, ?_, rfl⟩
  · simp (disch := decide) only [run_cons, run_nil, exec, Machine.mem_setMem, Machine.mem_setReg,
      Machine.reg_setReg_self, Machine.reg_setReg_ne]
  · simp (disch := decide) only [run_cons, run_nil, exec, Machine.reg_setMem,
      Machine.reg_setReg_ne]

theorem run_clear (m : Machine) :
    (run [.csrw .sscratch zero] m).mem = m.mem ∧
      (run [.csrw .sscratch zero] m).reg sp = m.reg sp := ⟨rfl, rfl⟩

/-- The user path calls its handler on a frame built below the user stack
pointer, with nothing else written. -/
theorem atUsertrap_eq (m : Machine) :
    (atUsertrap m).mem = storeAll m.mem (userBase m) (userFrame m (m.csr .sscratch)) ∧
      (atUsertrap m).reg sp = userBase m := by
  obtain ⟨base, gprs, csrs, mem⟩ := run_swaps m (-trapframeSz)
  rw [← userBase] at base
  generalize swaps : run [.csrrw sp .sscratch sp, .addi sp sp (-trapframeSz)] (run entry m) = n
    at base gprs csrs mem
  have stored : (gprSlots.map fun slot => (slot.2, n.reg slot.1)) =
      gprSlots.map fun slot => (slot.2, m.reg slot.1) :=
    List.map_congr_left fun slot member => by rw [gprs slot member]
  obtain ⟨spMem, spBase, spCsr⟩ := run_saveSp (run (saves gprSlots sp) n) offSp
  generalize savedSp : run [.csrr s0 .sscratch, .sd s0 offSp sp] (run (saves gprSlots sp) n) = p
    at spMem spBase spCsr
  obtain ⟨csrMem, csrBase⟩ := run_saveCsrs p
  have split : atUsertrap m = run [.csrw .sscratch zero] (run saveCsrs p) := by
    rw [← savedSp, ← swaps]
    simp only [atUsertrap, fromUserSave, run_append]
  obtain ⟨clearMem, clearBase⟩ := run_clear (run saveCsrs p)
  rw [run_saves, Machine.reg_setMem] at spBase
  rw [run_saves, Machine.csr_setMem] at spCsr
  rw [run_saves, Machine.mem_setMem, Machine.reg_setMem, Machine.csr_setMem, mem, stored] at spMem
  have top : p.reg sp = userBase m := spBase.trans base
  rw [split, clearMem, clearBase, csrMem, csrBase, spMem, top, spCsr, csrs, base]
  refine ⟨?_, rfl⟩
  rw [userFrame, storeAll_append, storeAll_cons _ _ (offSp, m.csr .sscratch)]

/-- Restoring the trap registers keeps memory and the stack pointer. -/
theorem run_restoreCsrs (m : Machine) :
    (run restoreCsrs m).mem = m.mem ∧ (run restoreCsrs m).reg sp = m.reg sp := by
  refine ⟨rfl, ?_⟩
  simp (disch := decide) only [restoreCsrs, run_cons, run_nil, exec, Machine.reg_setCsr,
    Machine.reg_setReg_ne]

/-- The tail of the user path loads the saved stack pointer into `t0` and, by
way of `sscratch`, into `sp`; `sscratch` is left with the address just above
the frame. No other register changes. -/
theorem run_leave (m : Machine) (offset size : Word) :
    let n := run [.ld t0 offset sp, .csrw .sscratch t0, .addi sp sp size,
      .csrrw sp .sscratch sp, .sret] m
    n.reg sp = load64 m.mem (m.reg sp + offset) ∧
      n.reg t0 = load64 m.mem (m.reg sp + offset) ∧ n.csr .sscratch = m.reg sp + size ∧
      ∀ r, r ≠ sp → r ≠ t0 → n.reg r = m.reg r := by
  have sret : ∀ before : Machine, (exec .sret before).reg = before.reg ∧
      (exec .sret before).csr .sscratch = before.csr .sscratch := by
    intro before
    simp (disch := decide) only [exec, Machine.reg_setPc, Machine.reg_setCsr, Machine.csr_setPc,
      Machine.csr_setCsr_ne, and_self]
  simp (disch := decide) only [run_cons, run_nil, (sret _).1, (sret _).2]
  refine ⟨?_, ?_, ?_, ?_⟩
  · simp (disch := decide) only [exec, Machine.reg_setReg_self, Machine.csr_setReg,
      Machine.csr_setCsr_self]
  · simp (disch := decide) only [exec, Machine.reg_setReg_self, Machine.reg_setReg_ne,
      Machine.reg_setCsr]
  · simp (disch := decide) only [exec, Machine.reg_setReg_self, Machine.reg_setReg_ne,
      Machine.reg_setCsr, Machine.csr_setReg, Machine.csr_setCsr_self]
  · intro r notSp notT0
    simp only [exec, Machine.reg_setReg_ne _ _ _ _ notSp, Machine.reg_setReg_ne _ _ _ _ notT0,
      Machine.reg_setCsr]

/-- A handler that leaves the frame lets every stored value be loaded back. -/
theorem load_after_handler (usertrap : Machine → Machine) (m : Machine)
    (kept : LeavesFrame usertrap (atUsertrap m)) (entry : Word × Word)
    (member : entry ∈ userFrame m (m.csr .sscratch)) :
    load64 (usertrap (atUsertrap m)).mem (userBase m + entry.1) = entry.2 := by
  obtain ⟨saved, base⟩ := atUsertrap_eq m
  have room := userFrame_inside m (m.csr .sscratch) entry member
  have unchanged : load64 (usertrap (atUsertrap m)).mem (userBase m + entry.1) =
      load64 (atUsertrap m).mem (userBase m + entry.1) := by
    apply load64_congr
    intro i bound
    have inside : (entry.1 + i).toNat < trapframeSz.toNat := by
      rw [BitVec.toNat_add]
      omega
    have same := kept.2 (entry.1 + i) inside
    rwa [base, ← BitVec.add_assoc] at same
  rw [unchanged, saved]
  exact load64_storeAll_mem _ _ _ (userFrame_apart m _) entry member

/-- What a user trap really returns with: every register but `sp` and `t0` is
restored, these two hold the kernel stack top, and `sscratch` holds the user
stack pointer. -/
theorem user_trap_result (usertrap kerneltrap : Machine → Machine) (m : Machine)
    (fromUser : m.csr .sscratch ≠ 0) (kept : LeavesFrame usertrap (atUsertrap m)) :
    let after := trapvec usertrap kerneltrap m
    after.reg sp = m.csr .sscratch ∧ after.reg t0 = m.csr .sscratch ∧
      after.csr .sscratch = m.reg sp ∧
      ∀ r, r ≠ 0 → r ≠ sp → r ≠ t0 → after.reg r = m.reg r := by
  have swappedSp : (run entry m).reg sp = m.csr .sscratch := by
    simp (disch := decide) only [entry, run_cons, run_nil, exec, Machine.reg_setReg_self]
  have taken : trapvec usertrap kerneltrap m = run fromUserRestore (usertrap (atUsertrap m)) := by
    have nonzero : (run entry m).reg sp ≠ 0 := by
      rw [swappedSp]
      exact fromUser
    simp only [trapvec, atUsertrap, ne_eq, nonzero, not_false_eq_true, if_true]
  have handlerSp : (usertrap (atUsertrap m)).reg sp = userBase m :=
    kept.1.trans (atUsertrap_eq m).2
  have loads := load_after_handler usertrap m kept
  generalize usertrap (atUsertrap m) = h at taken handlerSp loads
  obtain ⟨csrMem, csrSp⟩ := run_restoreCsrs h
  generalize restored : run restoreCsrs h = q at csrMem csrSp
  obtain ⟨gprMem, -, gprFrame⟩ := run_restores_frame gprSlots sp q
  have gprs := run_restores_mem gprSlots sp q gprSlots_avoid_sp gprSlots_avoid_zero gprSlots_nodup
  have base : (run (restores gprSlots sp) q).reg sp = userBase m :=
    (gprFrame sp gprSlots_avoid_sp).trans (csrSp.trans handlerSp)
  obtain ⟨leaveSp, leaveT0, leaveScratch, leaveRest⟩ :=
    run_leave (run (restores gprSlots sp) q) offSp trapframeSz
  have split : run fromUserRestore h = run [.ld t0 offSp sp, .csrw .sscratch t0,
      .addi sp sp trapframeSz, .csrrw sp .sscratch sp, .sret] (run (restores gprSlots sp) q) := by
    rw [← restored]
    simp only [fromUserRestore, run_append]
  have savedSp : load64 h.mem (userBase m + offSp) = m.csr .sscratch :=
    loads (offSp, m.csr .sscratch) (List.mem_append_right _ (List.mem_cons_self ..))
  rw [base, gprMem, csrMem, savedSp] at leaveSp leaveT0
  have above : userBase m + trapframeSz = m.reg sp := by
    rw [userBase, BitVec.add_assoc, BitVec.add_comm (-trapframeSz), BitVec.add_right_neg,
      BitVec.add_zero]
  rw [base, above] at leaveScratch
  simp only [taken, split]
  refine ⟨leaveSp, leaveT0, leaveScratch, ?_⟩
  intro r notZero notSp notT0
  obtain ⟨slot, member, rfl⟩ := gprSlots_cover r notZero notSp
  have stored := loads _ (gpr_stored m (m.csr .sscratch) slot member)
  rw [leaveRest slot.1 notSp notT0, gprs slot member, csrMem, csrSp, handlerSp, stored]

/-- Exactly the traps taken with the kernel stack top already in `sp` and `t0`
are transparent. The user path swaps `sp` and `sscratch` once too often, so
otherwise the frame lies below the user stack pointer; and `t0`, restored from
its slot, is then used to move the saved `sp`. -/
theorem transparent_iff (usertrap kerneltrap : Machine → Machine) (m : Machine) (k : Word)
    (top : m.csr .sscratch = k) (nonzero : k ≠ 0)
    (kept : LeavesFrame usertrap (atUsertrap m)) :
    Transparent usertrap kerneltrap m k ↔ m.reg sp = k ∧ m.reg t0 = k := by
  subst top
  obtain ⟨afterSp, afterT0, afterScratch, afterRest⟩ :=
    user_trap_result usertrap kerneltrap m nonzero kept
  constructor
  · intro transparent
    have spKept := transparent.registers sp (by decide)
    have t0Kept := transparent.registers t0 (by decide)
    exact ⟨spKept.symm.trans afterSp, t0Kept.symm.trans afterT0⟩
  · rintro ⟨spTop, t0Top⟩
    obtain ⟨saved, -⟩ := atUsertrap_eq m
    have base : userBase m = m.csr .sscratch - trapframeSz := by
      rw [userBase, spTop, BitVec.sub_eq_add_neg]
    rw [base] at saved
    have stored : ∀ entry ∈ userFrame m (m.csr .sscratch),
        load64 (atUsertrap m).mem (m.csr .sscratch - trapframeSz + entry.1) = entry.2 := by
      rw [saved]
      exact load64_storeAll_mem _ _ _ (userFrame_apart m _)
    have tail : ∀ entry ∈ [(offSp, m.csr .sscratch), (offSstatus, m.csr .sstatus),
        (offSepc, m.csr .sepc), (offScause, m.csr .scause), (offStval, m.csr .stval)],
        load64 (atUsertrap m).mem (m.csr .sscratch - trapframeSz + entry.1) = entry.2 :=
      fun entry member => stored entry (List.mem_append_right _ member)
    simp only [List.forall_mem_cons] at tail
    obtain ⟨spSlot, sstatusSlot, sepcSlot, scauseSlot, stvalSlot, -⟩ := tail
    have gprs : ∀ slot ∈ gprSlots,
        load64 (atUsertrap m).mem (m.csr .sscratch - trapframeSz + slot.2) = m.reg slot.1 := by
      intro slot member
      have loaded := stored (slot.2, m.reg slot.1) (gpr_stored m _ slot member)
      exact loaded
    refine ⟨⟨gprs, spSlot.trans spTop.symm, sstatusSlot, sepcSlot, scauseSlot, stvalSlot⟩,
      ?_, ?_, ?_⟩
    · intro a outside
      rw [saved]
      apply storeAll_outside
      intro entry member
      have room := userFrame_inside m (m.csr .sscratch) entry member
      have shifted : ∀ base : Word, a - (base + entry.1) = a - base - entry.1 := by
        intro base
        bv_omega
      rw [shifted, BitVec.toNat_sub]
      omega
    · intro r notZero
      by_cases isSp : r = sp
      · subst isSp
        exact afterSp.trans spTop.symm
      · by_cases isT0 : r = t0
        · subst isT0
          exact afterT0.trans t0Top.symm
        · exact afterRest r notZero isSp isT0
    · exact afterScratch.trans spTop

/-- `trapret` writes no memory and no general register. -/
theorem trapret_leaves_frame (trapframe : Word) (m : Machine) :
    LeavesFrame (trapret trapframe) m := ⟨rfl, fun _ _ => rfl⟩

/-- A process trapping with the given `sp` and `t0` and kernel stack top `k`. -/
def trapping (userSp userT0 k : Word) : Machine where
  x r := if r = sp then userSp else if r = t0 then userT0 else 0
  csr c := if c = .sscratch then k else 0
  mem _ := 0
  pc := 0

/-- A trap whose user `sp` and `t0` happen to equal the kernel stack top. -/
theorem transparent_coinciding :
    Transparent (trapret 0x80000ee8) id (trapping 0x80001000 0x80001000 0x80001000) 0x80001000 :=
  (transparent_iff (trapret 0x80000ee8) id (trapping 0x80001000 0x80001000 0x80001000) 0x80001000
    rfl (by decide) (trapret_leaves_frame _ _)).mpr ⟨rfl, rfl⟩

/-- A process on its own stack comes back with the kernel stack top in `sp`. -/
theorem user_stack_not_transparent :
    ¬ Transparent (trapret 0x80000ee8) id (trapping 0x801ff000 0 0x80001000) 0x80001000 := by
  intro transparent
  have returned := (user_trap_result (trapret 0x80000ee8) id (trapping 0x801ff000 0 0x80001000)
    (by decide) (trapret_leaves_frame _ _)).1
  have kept := transparent.registers sp (by decide)
  have same : (0x80001000 : Word) = 0x801ff000 := returned.symm.trans kept
  exact absurd same (by decide)

end CuteCore.Trapvec
