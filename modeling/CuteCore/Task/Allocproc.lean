import CuteCore.Mm.HeapOrigins
import CuteCore.Task.Pids

/-!
# Process creation

`allocproc` takes an object of `proc_cache`, a process number and two pages. Both
of its error paths call `freeproc`, which starts with the page table of the
process; at that point no page table was set. The offsets of `struct proc` are
`state` 0, `pid` 8, `root` 16, `sz` 24, `brk` 32, `stack_bottom` 40, `stack_top`
48, `kstack` 56, `trapframe` 64, `context` 72, `parent` 184 and `name` 336.
-/

namespace CuteCore

open Hoare Bytes DoublyLinked

/-- `sizeof(struct proc)` and `sizeof(struct trapframe)` -/
def procSize : Nat := 352
def trapframeSize : Nat := 280

variable (layout : Layout)

/-- `freeproc` on the object at `p`. -/
def freeprocObject (depth p : Nat) : KernelProg Unit := do
  if p = 0 then return ()
  else do
    let root ← loadField (p + 16) 8
    let sz ← loadField (p + 24) 8
    let stackBottom ← loadField (p + 40) 8
    let stackTop ← loadField (p + 48) 8
    uvmfree layout depth root sz stackBottom stackTop
    storeField (p + 16) 8 0
    storeField (p + 40) 8 0
    storeField (p + 48) 8 0
    let kstack ← loadField (p + 56) 8
    onlyIf (kstack ≠ 0) do
      kfree layout kstack
      storeField (p + 56) 8 0
    let pid ← loadField (p + 8) 8
    onlyIf (reservedPid < pid) do
      freepid (asI32 pid)
      storeField (p + 8) 8 0
    storeField p 1 0
    storeField (p + 24) 8 0
    storeField (p + 64) 8 0
    storeField (p + 184) 8 0
    storeField (p + 336) 1 0
    let s ← get
    cacheFree layout s.procCache p

/-- The part of `allocproc` behind `cache_alloc`, with the destructor of its error paths. The
result is 0 when it fails. -/
def setUpProc (destroy : Nat → KernelProg Unit) (forkret proc : Nat) : KernelProg Nat := do
  let pid ← allocpid
  storeField (proc + 8) 8 (asU64 pid)
  storeField proc 1 0
  storeField (proc + 24) 8 0
  storeField (proc + 32) 8 0
  storeField (proc + 40) 8 0
  storeField (proc + 48) 8 0
  let kstack ← kalloc
  storeField (proc + 56) 8 kstack
  if kstack = 0 then do
    destroy proc
    return 0
  else do
    storeField (proc + 64) 8 (kstack + pgSize - trapframeSize)
    let root ← mapproc
    storeField (proc + 16) 8 root
    if root = 0 then do
      destroy proc
      return 0
    else do
      zeroBytes (proc + 72) 112
      storeField (proc + 80) 8 (kstack + pgSize)
      storeField (proc + 72) 8 forkret
      return proc

def allocprocWith (destroy : Nat → KernelProg Unit) (forkret : Nat) : KernelProg Nat := do
  let s ← get
  let proc ← cacheAlloc s.procCache
  if proc = 0 then return 0 else setUpProc destroy forkret proc

def allocproc (depth forkret : Nat) : KernelProg Nat :=
  allocprocWith (freeprocObject layout depth) forkret

variable {layout : Layout} {s : Kernel}

/-! ## Steps of the run -/

/-- A part that returned leaves the rest of the run. -/
theorem run_of_returns {α β : Type} {program : KernelProg α} {rest : α → KernelProg β}
    {s mid : Kernel}
    {a : α} (returned : Returns program s a mid) : (program >>= rest) s = rest a mid := by
  unfold Returns at returned
  simp only [bind, StateT.bind, returned, Except.bind]

/-- Whatever number it finds, `allocpid` changes process numbers only. -/
theorem allocpidFrom_returns (passes last : Nat) (s : Kernel) :
    wp (allocpidFrom passes last) (fun _ after => ∃ bitmap last',
      after = { s with pidBitmap := bitmap, lastPid := last' }) s := by
  induction passes generalizing last with
  | zero => exact wp_pure.mpr ⟨s.pidBitmap, s.lastPid, rfl⟩
  | succ passes inductionHypothesis =>
    rw [allocpidFrom, checkpid]
    generalize (if maxPid ≤ last + 1 then reservedPid else last + 1) = pid
    rw [wp_bind, wp_bind, wp_get, wp_pure, wp_ite]
    split
    · exact inductionHypothesis pid
    · rw [setpid, wp_bind, wp_modify, wp_bind, wp_modify, wp_pure]
      exact ⟨_, _, rfl⟩

/-- Replacing the rest of a program by one that returns at least where it returned. -/
theorem returns_bind_mono {α β : Type} {program : KernelProg α} {rest rest' : α → KernelProg β}
    {s after : Kernel} {b : β}
    (weaker : ∀ a mid, Returns (rest a) mid b after → Returns (rest' a) mid b after)
    (returned : Returns (program >>= rest) s b after) : Returns (program >>= rest') s b after := by
  obtain ⟨a, mid, first, second⟩ := returns_bind.mp returned
  exact returns_bind.mpr ⟨a, mid, first, weaker a mid second⟩

/-- A set-up that avoids the destructor does not depend on it. -/
theorem setUpProc_avoids (destroy : Nat → KernelProg Unit) {forkret p proc : Nat}
    {s after : Kernel}
    (avoided : Returns (setUpProc (fun _ => throw .badAccess) forkret p) s proc after) :
    Returns (setUpProc destroy forkret p) s proc after := by
  have never : ∀ mid, ¬ Returns (do throw .badAccess; return 0 : KernelProg Nat) mid proc after := by
    intro mid returned
    obtain ⟨⟨⟩, _, thrown, -⟩ := returns_bind.mp returned
    exact returns_throw.mp thrown
  unfold setUpProc at avoided ⊢
  refine returns_bind_mono (fun pid _ => returns_bind_mono fun _ _ => returns_bind_mono fun _ _ =>
    returns_bind_mono fun _ _ => returns_bind_mono fun _ _ => returns_bind_mono fun _ _ =>
    returns_bind_mono fun _ _ => returns_bind_mono fun kstack _ => returns_bind_mono fun _ mid => ?_)
    avoided
  split
  · exact fun returned => absurd returned (never mid)
  · refine returns_bind_mono fun _ _ => returns_bind_mono fun root _ =>
      returns_bind_mono fun _ mid => ?_
    split
    · exact fun returned => absurd returned (never mid)
    · exact id

theorem allocprocWith_avoids (destroy : Nat → KernelProg Unit) {forkret proc : Nat}
    {s after : Kernel}
    (avoided : Returns (allocprocWith (fun _ => throw .badAccess) forkret) s proc after) :
    Returns (allocprocWith destroy forkret) s proc after := by
  unfold allocprocWith at avoided ⊢
  refine returns_bind_mono (fun _ _ => returns_bind_mono fun p _ => ?_) avoided
  split
  · exact id
  · exact setUpProc_avoids destroy

/-- The object at `p` lies in a slab page of the process cache, apart from all free pages. -/
structure OwnObject (layout : Layout) (s : Kernel) (p : Nat) (free : List Nat) : Prop where
  freeList : FreeList layout s free
  home : ∃ slab, layout.IsPage slab ∧ slab ≤ p ∧ p + procSize ≤ slab + pgSize ∧ slab ∉ free

namespace OwnObject

variable {p : Nat} {free : List Nat}

theorem inRam (own : OwnObject layout s p free) {off n : Nat} (inside : off + n ≤ procSize) :
    InRam (p + off) n := by
  obtain ⟨slab, isPage, low, high, -⟩ := own.home
  obtain ⟨above, below⟩ := isPage.inRam 0 pgSize (by simp)
  constructor <;> omega

/-- A write into the object leaves the free pages alone, and the root field unless it lies there. -/
theorem run_store (own : OwnObject layout s p free) (off n value : Nat)
    (inside : off + n ≤ procSize) : ∃ t, OwnObject layout t p free ∧ t.kvmroot = s.kvmroot ∧
      (off + n ≤ 16 ∨ 24 ≤ off → load t.mem (p + 16) 8 = load s.mem (p + 16) 8) ∧
      (off = 16 ∧ n = 8 → load t.mem (p + 16) 8 = value % 256 ^ 8) ∧
      ∀ {α : Type} (rest : Unit → KernelProg α), (storeField (p + off) n value >>= rest) s = rest () t := by
  have returned : Returns (storeField (p + off) n value) s ()
      (s.withMem (store s.mem (p + off) n value)) := by
    obtain ⟨⟨⟩, t, returned, rfl⟩ : wp (storeField (p + off) n value)
        (fun _ t => t = s.withMem (store s.mem (p + off) n value)) s :=
      wp_storeField.mpr ⟨own.inRam inside, rfl⟩
    exact returned
  obtain ⟨slab, isPage, low, high, notFree⟩ := own.home
  refine ⟨s.withMem (store s.mem (p + off) n value), ⟨own.freeList.congr rfl fun page member => ?_,
    own.home⟩, rfl, fun apart => ?_, ?_, fun rest => run_of_returns returned⟩
  · have differs : page ≠ slab := by
      rintro rfl
      exact notFree member
    have apart : page + 8 ≤ p + off ∨ p + off + n ≤ page :=
      apart_pages (own.freeList.pages page member).1 isPage.1 differs
        ⟨Nat.le_refl _, by simp [pgSize]⟩ ⟨by omega, by omega⟩
    exact sameOn_store _ _ _ _ _ _ apart
  · exact load_store_apart _ _ _ _ _ _ (by omega)
  · rintro ⟨rfl, rfl⟩
    exact load_store_same s.mem (p + 16) 8 value

theorem popPage {page : Nat} (own : OwnObject layout s p (page :: free)) :
    OwnObject layout s.popPage p free := by
  obtain ⟨slab, isPage, low, high, notFree⟩ := own.home
  obtain ⟨got, after, -, -, rfl, popped⟩ := kalloc_cons own.freeList
  exact ⟨popped, slab, isPage, low, high, fun member => notFree (List.mem_cons_of_mem _ member)⟩

theorem pids (own : OwnObject layout s p free) (bitmap : ByteMap) (last : Nat) :
    OwnObject layout { s with pidBitmap := bitmap, lastPid := last } p free :=
  ⟨own.freeList.congr rfl fun _ _ _ _ _ => rfl, own.home⟩

end OwnObject

/-- Copying the entries of the kernel's root table. -/
theorem copyEntries_returns {root : Nat} (isPage : layout.IsPage root) (passes i : Nat)
    (upTo : i + passes ≤ 512) (s : Kernel) (kroot : layout.IsPage s.kvmroot) :
    wp (copyEntries root passes i) (fun _ _ => True) s := by
  induction passes generalizing i s with
  | zero => exact wp_pure.mpr trivial
  | succ passes inductionHypothesis =>
    rw [copyEntries, wp_bind, wp_get, wp_bind, wp_loadField]
    refine ⟨kroot.inRam (8 * i) 8 (by simp only [pgSize]; omega), ?_⟩
    rw [wp_bind, wp_onlyIf]
    split
    · rw [wp_storeField]
      refine ⟨isPage.inRam (8 * i) 8 (by simp only [pgSize]; omega), ?_⟩
      exact inductionHypothesis (i + 1) (by omega) _ kroot
    · exact inductionHypothesis (i + 1) (by omega) s kroot

/-- With fewer than two free pages the set-up ends in the destructor, and with more it succeeds.
The root field is as the cache left it, or null after `mapproc` failed. -/
theorem setUpProc_cases (destroy : Nat → KernelProg Unit) (forkret : Nat) {p : Nat}
    {free : List Nat}
    (own : OwnObject layout s p free) (kroot : layout.IsPage s.kvmroot) :
    (free.length < 2 ∧ ∃ before, setUpProc destroy forkret p s =
      (do destroy p; return 0 : KernelProg Nat) before ∧
      (load s.mem (p + 16) 8 = 0 → load before.mem (p + 16) 8 = 0)) ∨
    2 ≤ free.length ∧ ∃ after, Returns (setUpProc destroy forkret p) s p after := by
  unfold Returns
  obtain ⟨pid, s₁, gotPid, bitmap, last, rfl⟩ : wp allocpid (fun _ after => ∃ bitmap last,
      after = { s with pidBitmap := bitmap, lastPid := last }) s := by
    rw [allocpid, wp_bind, wp_get]
    exact allocpidFrom_returns maxPid s.lastPid s
  rw [setUpProc, run_of_returns gotPid]
  obtain ⟨s₂, own, kroot₂, root₂, -, ran⟩ := (own.pids bitmap last).run_store 8 8 (asU64 pid) (by decide)
  rw [ran]
  obtain ⟨s₃, own, kroot₃, root₃, -, ran⟩ := own.run_store 0 1 0 (by decide)
  rw [Nat.add_zero] at ran
  rw [ran]
  obtain ⟨s₄, own, kroot₄, root₄, -, ran⟩ := own.run_store 24 8 0 (by decide)
  rw [ran]
  obtain ⟨s₅, own, kroot₅, root₅, -, ran⟩ := own.run_store 32 8 0 (by decide)
  rw [ran]
  obtain ⟨s₆, own, kroot₆, root₆, -, ran⟩ := own.run_store 40 8 0 (by decide)
  rw [ran]
  obtain ⟨s₇, own, kroot₇, root₇, -, ran⟩ := own.run_store 48 8 0 (by decide)
  rw [ran]
  have sameKroot : s₇.kvmroot = s.kvmroot := by
    rw [kroot₇, kroot₆, kroot₅, kroot₄, kroot₃, kroot₂]
  have sameRoot : load s₇.mem (p + 16) 8 = load s.mem (p + 16) 8 := by
    rw [root₇ (by decide), root₆ (by decide), root₅ (by decide), root₄ (by decide),
      root₃ (by decide), root₂ (by decide)]
  cases free with
  | nil =>
    -- no page for the kernel stack
    obtain ⟨got, after, returned, rfl, rfl⟩ := kalloc_empty own.freeList
    rw [run_of_returns returned]
    obtain ⟨s₈, -, -, root₈, -, ran⟩ := own.run_store 56 8 0 (by decide)
    rw [ran, if_pos rfl]
    refine .inl ⟨by decide, s₈, rfl, fun null => ?_⟩
    rw [root₈ (by decide), sameRoot, null]
  | cons page rest =>
    have isPage := own.freeList.pages page (List.mem_cons_self ..)
    obtain ⟨got, after, returned, isHead, rfl, -⟩ := kalloc_cons own.freeList
    rw [run_of_returns returned, isHead]
    obtain ⟨s₈, own, kroot₈, -, -, ran⟩ := own.popPage.run_store 56 8 page (by decide)
    rw [ran, if_neg isPage.ne_zero]
    obtain ⟨s₉, own, kroot₉, -, -, ran⟩ := own.run_store 64 8 (page + pgSize - trapframeSize)
      (by decide)
    rw [ran]
    cases rest with
    | nil =>
      -- no page for the page table
      obtain ⟨got, after, returned, isNull, same⟩ := kalloc_empty own.freeList
      rw [isNull, same] at returned
      have noRoot : Returns mapproc s₉ 0 s₉ := by
        rw [mapproc, returns_bind]
        exact ⟨0, s₉, returned, by simp⟩
      rw [run_of_returns noRoot]
      obtain ⟨t, -, -, -, root, ran⟩ := own.run_store 16 8 0 (by decide)
      rw [ran, if_pos rfl]
      exact .inl ⟨by simp, t, rfl, fun _ => root ⟨rfl, rfl⟩⟩
    | cons root rest =>
      have isRoot := own.freeList.pages root (List.mem_cons_self ..)
      have kpage : layout.IsPage s₉.popPage.kvmroot := by
        change layout.IsPage s₉.kvmroot
        rw [kroot₉, kroot₈]
        change layout.IsPage s₇.kvmroot
        rwa [sameKroot]
      obtain ⟨got, after, returned, isHead, rfl, -⟩ := kalloc_cons own.freeList
      rw [isHead] at returned
      obtain ⟨made, t, gotRoot, rfl⟩ : wp mapproc (fun r _ => r = root) s₉ := by
        rw [mapproc, uvmcreate, wp_bind]
        refine ⟨root, _, returned, ?_⟩
        simp only [isRoot.ne_zero, ↓reduceIte]
        rw [wp_bind]
        refine wp_mono (copyEntries_returns isRoot 512 0 (by decide) _ kpage) fun _ _ _ => ?_
        exact wp_pure.mpr rfl
      rw [run_of_returns gotRoot]
      obtain ⟨proc, after, returned, isProc⟩ : wp (do
          storeField (p + 16) 8 made
          if made = 0 then do
            destroy p
            return 0
          else do
            zeroBytes (p + 72) 112
            storeField (p + 80) 8 (page + pgSize)
            storeField (p + 72) 8 forkret
            return p) (fun proc _ => proc = p) t := by
        rw [wp_bind, wp_storeField, if_neg isRoot.ne_zero, wp_bind, wp_zeroBytes, wp_bind,
          wp_storeField, wp_bind, wp_storeField, wp_pure]
        exact ⟨own.inRam (by decide), own.inRam (by decide), own.inRam (by decide),
          own.inRam (by decide), rfl⟩
      rw [isProc] at returned
      exact .inr ⟨by simp, after, returned⟩

theorem procSize_ok : ObjSize procSize := ⟨by decide, by decide, by decide, by decide⟩

/-- The process cache next to the free list. -/
abbrev ProcHeap (layout : Layout) (s : Kernel) (lists : SlabLists) (avail : Nat → List Nat)
    (free : List Nat) : Prop := CacheHeap layout s s.procCache procSize lists avail free

/-- The pages that are free once the object is taken. -/
def pagesLeft (lists : SlabLists) (free : List Nat) : Nat → Prop :=
  fun n => (lists.Stocked ∧ free.length = n) ∨ (¬ lists.Stocked ∧ free.length = n + 1)

/-- Without an object nothing happens; with an object it is the number of free pages that
decides whether the destructor is reached. -/
theorem allocprocWith_cases (destroy : Nat → KernelProg Unit) (forkret : Nat) {lists : SlabLists}
    {avail : Nat → List Nat} {free : List Nat} (heap : ProcHeap layout s lists avail free)
    (kroot : layout.IsPage s.kvmroot) :
    (free = [] ∧ ¬ lists.Stocked ∧ Returns (allocprocWith destroy forkret) s 0 s) ∨
    ∃ n, pagesLeft lists free n ∧ ((n < 2 ∧ ∃ p before, p ≠ 0 ∧
        allocprocWith destroy forkret s = (do destroy p; return 0 : KernelProg Nat) before) ∨
      (2 ≤ n ∧ ∃ p after, p ≠ 0 ∧ Returns (allocprocWith destroy forkret) s p after)) := by
  obtain ⟨p, mid, returned, outcome⟩ := cacheAlloc_spec heap procSize_ok
  have ran : allocprocWith destroy forkret s =
      (if p = 0 then return 0 else setUpProc destroy forkret p : KernelProg Nat) mid := by
    rw [allocprocWith, run_of_returns (returns_get.mpr ⟨rfl, rfl⟩), run_of_returns returned]
  rcases outcome with ⟨isNull, rfl, noPages, notStocked⟩ |
    ⟨lists', avail', free', nonzero, midHeap, globals, -, -, taken, -, -, source⟩
  · rw [if_pos isNull] at ran
    exact .inl ⟨noPages, notStocked, ran⟩
  · rw [if_neg nonzero] at ran
    have left : pagesLeft lists free free'.length := by
      rcases source with ⟨stocked, rfl⟩ | ⟨notStocked, page, rfl⟩
      · exact .inl ⟨stocked, rfl⟩
      · exact .inr ⟨notStocked, List.length_cons ..⟩
    have own : OwnObject layout mid p free' := by
      obtain ⟨slab, isSlab, object, -⟩ := (taken p).mpr (.inl rfl)
      have inside := object.inside procSize_ok
      exact ⟨midHeap.freeList, slab, (midHeap.ok.toListed.page slab isSlab).1, by omega, inside.2,
        fun member => (midHeap.apart slab member).2 isSlab⟩
    have midRoot : layout.IsPage mid.kvmroot := by
      rw [globals]
      exact kroot
    refine .inr ⟨_, left, ?_⟩
    rcases setUpProc_cases destroy forkret own midRoot with ⟨few, before, reached, -⟩ |
      ⟨enough, after, returned⟩
    · exact .inl ⟨few, p, before, nonzero, ran.trans reached⟩
    · exact .inr ⟨enough, p, after, nonzero, ran.trans returned⟩

/-- The pid, the pages and the objects are as before. -/
structure Undone (layout : Layout) (s after : Kernel) (lists : SlabLists) (avail : Nat → List Nat)
    (free : List Nat) : Prop where
  pids : after.pidBitmap = s.pidBitmap
  heap : ∃ lists' avail' free', ProcHeap layout after lists' avail' free' ∧
    SamePages lists lists' free free' ∧
    ∀ q, Taken procSize lists' avail' q ↔ Taken procSize lists avail q

/-- The call ends without a panic, and a null result leaves nothing behind. It makes no access
through a root that it did not set: the destructor reads the table at `p->root` first, so the
run is the same with a destructor that may not be reached. -/
def FailsCleanly (layout : Layout) (depth forkret : Nat) (s : Kernel) (lists : SlabLists)
    (avail : Nat → List Nat) (free : List Nat) : Prop :=
  ∃ proc after, Returns (allocproc layout depth forkret) s proc after ∧
    Returns (allocprocWith (fun _ => throw .badAccess) forkret) s proc after ∧
    (proc = 0 → Undone layout s after lists avail free)

/-- Creation fails cleanly when not even an object is left, or when nothing but the object can be
short. With an object and fewer than two further pages it walks a table that was never set. -/
theorem allocproc_failsCleanly_iff (layout : Layout) (depth forkret : Nat) (s : Kernel)
    (lists : SlabLists) (avail : Nat → List Nat) (free : List Nat)
    (heap : ProcHeap layout s lists avail free) (kroot : layout.IsPage s.kvmroot) :
    FailsCleanly layout depth forkret s lists avail free ↔
      (free = [] ∧ ¬ lists.Stocked) ∨ (lists.Stocked ∧ 2 ≤ free.length) ∨ 3 ≤ free.length := by
  constructor
  · rintro ⟨proc, after, -, avoided, -⟩
    rcases allocprocWith_cases (fun _ => throw .badAccess) forkret heap kroot with
      ⟨noPages, notStocked, -⟩ | ⟨n, left, ⟨-, p, before, -, reached⟩ | ⟨enough, -⟩⟩
    · exact .inl ⟨noPages, notStocked⟩
    · obtain ⟨⟨⟩, mid, thrown, -⟩ := returns_bind.mp (reached.symm.trans avoided)
      exact (returns_throw.mp thrown).elim
    · rcases left with ⟨stocked, count⟩ | ⟨-, count⟩
      · exact .inr (.inl ⟨stocked, by omega⟩)
      · exact .inr (.inr (by omega))
  · intro enough
    rcases allocprocWith_cases (fun _ => throw .badAccess) forkret heap kroot with
      ⟨-, -, avoided⟩ | ⟨n, left, ⟨few, -⟩ | ⟨-, p, after, nonnull, avoided⟩⟩
    · exact ⟨0, s, allocprocWith_avoids _ avoided, avoided, fun _ =>
        ⟨rfl, lists, avail, free, heap, fun _ => Iff.rfl, fun _ => Iff.rfl⟩⟩
    · exfalso
      rcases left with ⟨stocked, count⟩ | ⟨notStocked, count⟩ <;>
        rcases enough with ⟨noPages, notStocked⟩ | ⟨stocked, enough⟩ | enough
      · exact notStocked stocked
      · omega
      · omega
      · rw [noPages] at count
        cases count
      · exact notStocked stocked
      · omega
    · exact ⟨p, after, allocprocWith_avoids _ avoided, avoided, fun isNull => absurd isNull nonnull⟩

/-- Zeroed memory with a process cache that has no slabs, and a root page. -/
def starvedKernel (memlist : Nat) : Kernel where
  mem := store (fun _ => 0) 0x80204000 4 procSize
  memlist := memlist
  caches := fun _ => 0
  kvmroot := 0x80205000
  procCache := 0x80204000
  pidBitmap := fun _ => 0
  lastPid := 0

/-- A kernel with few free pages meets the invariant of the heap. -/
theorem starvedKernel_heap {memlist : Nat} {free : List Nat}
    (freeList : FreeList smallImage (starvedKernel memlist) free) (apart : 0x80204000 ∉ free) :
    ProcHeap smallImage (starvedKernel memlist) (fun _ => []) (fun _ => []) free := by
  have cachePage : smallImage.IsPage 0x80204000 := by unfold Layout.IsPage; decide
  refine ⟨⟨⟨cachePage, by simp, fun _ => List.nodup_nil, by simp, fun c => ?_⟩, ?_, ?_,
    fun t isSlab => absurd isSlab (no_slabs t), by simp, by simp, by simp, by simp⟩, freeList, ?_,
    by simp⟩
  · have word : load (starvedKernel memlist).mem (0x80204000 + c.offset) 8 = 0 := by
      cases c <;>
        exact (load_store_apart _ _ _ _ _ _ (by decide)).trans (load_zeros _ _)
    exact word
  · exact load_store_same _ _ _ _
  · exact (load_store_apart (fun _ => 0) 0x80204000 4 procSize (0x80204000 + 32) 4 (by decide)).trans
      (load_zeros _ _)
  · intro page member
    refine ⟨?_, no_slabs page⟩
    rintro rfl
    exact apart member

theorem starvedKernel_root (memlist : Nat) : smallImage.IsPage (starvedKernel memlist).kvmroot := by
  change smallImage.IsPage 0x80205000
  unfold Layout.IsPage
  decide

theorem starved_failsCleanly : FailsCleanly smallImage 3 0 (starvedKernel 0) (fun _ => [])
    (fun _ => []) [] :=
  (allocproc_failsCleanly_iff smallImage 3 0 (starvedKernel 0) _ _ _
    (starvedKernel_heap ⟨by exact rfl, List.nodup_nil, by simp⟩ (by simp)) (starvedKernel_root 0)).mpr
    (.inl ⟨rfl, by simp [SlabLists.Stocked]⟩)

/-- One free page: it becomes a slab, and there is no page for the kernel stack. -/
theorem last_page_walks_unset_root : ¬ ∀ (layout : Layout) (depth forkret : Nat) (s : Kernel)
    (lists : SlabLists) (avail : Nat → List Nat) (free : List Nat),
    ProcHeap layout s lists avail free → layout.IsPage s.kvmroot →
      FailsCleanly layout depth forkret s lists avail free := by
  intro claimed
  have freeList : FreeList smallImage (starvedKernel 0x80206000) [0x80206000] := by
    refine ⟨⟨rfl, by decide, ?_⟩, by simp, ?_⟩
    · exact (load_store_apart _ _ _ _ _ _ (by decide)).trans (load_zeros _ _)
    · rw [List.forall_mem_singleton]
      unfold Layout.IsPage
      decide
  have heap := starvedKernel_heap freeList (by decide)
  obtain ⟨proc, after, -, avoided, -⟩ := claimed smallImage 3 0 _ _ _ _ heap (starvedKernel_root _)
  rcases allocprocWith_cases (fun _ => throw .badAccess) 0 heap (starvedKernel_root _) with
    ⟨noPages, -⟩ | ⟨n, left, ⟨-, p, before, -, reached⟩ | ⟨enough, -⟩⟩
  · cases noPages
  · obtain ⟨⟨⟩, mid, thrown, -⟩ := returns_bind.mp (reached.symm.trans avoided)
    exact returns_throw.mp thrown
  · rcases left with ⟨-, count⟩ | ⟨-, count⟩ <;> simp at count <;> omega

end CuteCore
