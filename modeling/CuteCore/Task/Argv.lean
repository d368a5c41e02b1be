import CuteCore.Mm.Copyout
import CuteCore.Mm.Kmalloc
import CuteCore.Library.Frames

/-!
# Arguments of a new program

`setup_argv` of `proccall.c` lays the strings of `argv` out on the user stack, from its top
downwards, and the array of their addresses below. The strings are rounded down to 16
bytes before the array is placed, so its place depends on the number of arguments.
-/

namespace CuteCore

open Hoare Bytes

/-- A kernel string and its `strlen`. Nothing writes it during the call. -/
structure KernelString where
  addr : Nat
  len : Nat
  inRam : InRam addr (len + 1)

/-- The strings up to the null pointer that ends `argv`. -/
structure ArgVector where
  strings : List KernelString
  inRam : 8 * (strings.length + 1) ≤ phyEnd - phyStart

/-- Subtraction on `u64`. -/
def sub64 (a b : Nat) : Nat := (a + 2 ^ 64 - b) % 2 ^ 64

/-- Addition on `u64`. -/
def add64 (a b : Nat) : Nat := (a + b) % 2 ^ 64

/-- The loop over the strings, the last one first; `string_base` in the end. -/
def copyStrings (pagetable argPtrs : Nat) :
    List (KernelString × Nat) → Nat → KernelProg (Option Nat)
  | [], stringBase => return some stringBase
  | (string, i) :: rest, stringBase => do
    let stringBase := sub64 stringBase (string.len + 1)
    let copied ← copyout pagetable stringBase string.addr (string.len + 1)
    if copied = false then return none
    else do
      storeField (argPtrs + 8 * i) 8 stringBase
      copyStrings pagetable argPtrs rest stringBase

/-- The loop over the pointers, `remaining` of them from `i` on. -/
def copyPtrs (pagetable argPtrs argvBase : Nat) : Nat → Nat → KernelProg Bool
  | 0, _ => return true
  | remaining + 1, i => do
    let copied ← copyout pagetable (add64 argvBase (8 * i)) (argPtrs + 8 * i) 8
    if copied = false then return false
    else copyPtrs pagetable argPtrs argvBase remaining (i + 1)

/-- What `setup_argv` leaves in `sp`, `argc_out` and `argv_out`, or none when it fails.
The address of its local `null_ptr` is a parameter. -/
def setupArgv (layout : Layout) (pagetable sp : Nat) (argv : Option ArgVector) (nullPtr : Nat) :
    KernelProg (Option (Nat × Nat × Nat)) :=
  match argv with
  | none => return some (sp, 0, 0)
  | some argv =>
    let argc := argv.strings.length
    if argc = 0 then return some (sp, 0, 0)
    else do
      let argPtrs ← kmalloc (8 * argc)
      if argPtrs = 0 then return none
      else do
        let copied ← copyStrings pagetable argPtrs argv.strings.zipIdx.reverse sp
        match copied with
        | none => do
          kmfree layout argPtrs
          return none
        | some stringBase => do
          let stringBase := stringBase / 16 * 16
          let argvBase := sub64 stringBase (8 * (argc + 1))
          let done ← copyPtrs pagetable argPtrs argvBase argc 0
          if done = false then do
            kmfree layout argPtrs
            return none
          else do
            storeField nullPtr 8 0
            let ended ← copyout pagetable (add64 argvBase (8 * argc)) nullPtr 8
            if ended = false then do
              kmfree layout argPtrs
              return none
            else do
              kmfree layout argPtrs
              return some (argvBase, argc, argvBase)

/-- The bytes of the strings with their terminators. -/
def ArgVector.stringBytes (argv : ArgVector) : Nat :=
  (argv.strings.map fun string => string.len + 1).sum

/-- Where the array begins, with nothing wrapped. -/
def ArgVector.below (argv : ArgVector) (sp : Nat) : Prop :=
  argv.stringBytes ≤ sp ∧ 8 * (argv.strings.length + 1) ≤ (sp - argv.stringBytes) / 16 * 16

theorem sum_len_le (strings : List KernelString) :
    (strings.map fun string => string.len + 1).sum ≤ strings.length * 2 ^ 27 := by
  induction strings with
  | nil => exact Nat.zero_le _
  | cons string rest inductionHypothesis =>
    have inRam := string.inRam
    simp only [InRam, phyStart, phyEnd] at inRam
    rw [List.map_cons, List.sum_cons, List.length_cons]
    omega

/-- All arguments are small against the address space. -/
theorem ArgVector.small (argv : ArgVector) : argv.strings.length < 2 ^ 24 ∧
    argv.stringBytes < 2 ^ 51 := by
  have inRam := argv.inRam
  have sum := sum_len_le argv.strings
  simp only [phyEnd, phyStart] at inRam
  unfold stringBytes
  omega

/-- Every string lowers `string_base` by its bytes. -/
theorem copyStrings_base {pagetable argPtrs : Nat} (strings : List (KernelString × Nat))
    {base : Nat} {s : Kernel} (low : base < 2 ^ 64)
    (fits : (strings.map fun entry => entry.1.len + 1).sum ≤ 2 ^ 64) :
    wlp (copyStrings pagetable argPtrs strings base) (fun stringBase _ => ∀ b, stringBase = some b →
      b = sub64 base (strings.map fun entry => entry.1.len + 1).sum) s := by
  induction strings generalizing base s with
  | nil =>
    rw [copyStrings, wlp_pure]
    rintro b ⟨rfl⟩
    simp only [sub64, List.map_nil, List.sum_nil]
    omega
  | cons entry rest inductionHypothesis =>
    obtain ⟨string, i⟩ := entry
    simp only [List.map_cons, List.sum_cons] at fits ⊢
    rw [copyStrings, wlp_bind]
    intro copied mid _
    rw [wlp_ite]
    split
    · rw [wlp_pure]
      rintro b ⟨⟩
    · rw [wlp_bind]
      intro _ stored _
      have lower : sub64 base (string.len + 1) < 2 ^ 64 := Nat.mod_lt _ (by decide)
      refine wlp_mono (inductionHypothesis lower (by omega)) ?_
      intro stringBase after isBase b found
      rw [isBase b found]
      simp only [sub64]
      omega

/-- What a successful call returns. -/
theorem setupArgv_result {layout : Layout} {pagetable sp nullPtr : Nat} {argv : ArgVector}
    {s after : Kernel} {result : Nat × Nat × Nat} (low : sp < 2 ^ 64)
    (nonempty : argv.strings.length ≠ 0)
    (returned : Returns (setupArgv layout pagetable sp (some argv) nullPtr) s (Option.some result)
      after) : result.1 = sub64 (sub64 sp argv.stringBytes / 16 * 16)
        (8 * (argv.strings.length + 1)) ∧ result.2.1 = argv.strings.length ∧
      result.2.2 = result.1 := by
  have small := argv.small.2
  have sum : ((argv.strings.zipIdx.reverse).map fun entry => entry.1.len + 1).sum =
      argv.stringBytes := by
    rw [List.map_reverse, List.sum_reverse, ArgVector.stringBytes]
    conv_rhs => rw [← List.zipIdx_map_fst 0 argv.strings, List.map_map]
    rfl
  revert returned
  rw [setupArgv]
  simp only [if_neg nonempty]
  intro returned
  obtain ⟨argPtrs, allocated, -, returned⟩ := returns_bind.mp returned
  split at returned
  · cases (returns_pure.mp returned).1
  obtain ⟨copied, strings, ran, returned⟩ := returns_bind.mp returned
  have isBase := copyStrings_base _ low (by rw [sum]; omega) copied strings ran
  rw [sum] at isBase
  cases copied with
  | none =>
    obtain ⟨_, _, -, returned⟩ := returns_bind.mp returned
    cases (returns_pure.mp returned).1
  | some stringBase =>
    obtain ⟨done, pointers, -, returned⟩ := returns_bind.mp returned
    split at returned
    · obtain ⟨_, _, -, returned⟩ := returns_bind.mp returned
      cases (returns_pure.mp returned).1
    obtain ⟨_, _, -, returned⟩ := returns_bind.mp returned
    obtain ⟨ended, _, -, returned⟩ := returns_bind.mp returned
    split at returned
    · obtain ⟨_, _, -, returned⟩ := returns_bind.mp returned
      cases (returns_pure.mp returned).1
    obtain ⟨_, _, -, returned⟩ := returns_bind.mp returned
    obtain ⟨isResult, -⟩ := returns_pure.mp returned
    cases isResult
    rw [isBase stringBase rfl]
    exact ⟨rfl, rfl, rfl⟩

/-- The number of arguments; a null `argv` has none. -/
def argCount (argv : Option ArgVector) : Nat := (argv.map fun argv => argv.strings.length).getD 0

/-- The stack pointer is aligned and not raised exactly when there are no arguments, or
their number is odd and they fit below the top. -/
theorem initial_sp_aligned_iff {layout : Layout} {pagetable sp nullPtr : Nat}
    {argv : Option ArgVector} {s after : Kernel} {result : Nat × Nat × Nat} (low : sp < 2 ^ 64)
    (aligned : sp % 16 = 0)
    (returned : Returns (setupArgv layout pagetable sp argv nullPtr) s (some result) after) :
    (result.1 % 16 = 0 ∧ result.1 ≤ sp) ↔
      argCount argv = 0 ∨ argCount argv % 2 = 1 ∧ ∀ args ∈ argv, args.below sp := by
  cases argv with
  | none =>
    obtain ⟨isResult, -⟩ := returns_pure.mp returned
    cases isResult
    exact ⟨fun _ => Or.inl rfl, fun _ => ⟨aligned, Nat.le_refl _⟩⟩
  | some args =>
    have isCount : argCount (some args) = args.strings.length := rfl
    rw [isCount]
    by_cases empty : args.strings.length = 0
    · rw [setupArgv] at returned
      simp only [if_pos empty] at returned
      obtain ⟨isResult, -⟩ := returns_pure.mp returned
      cases isResult
      exact ⟨fun _ => Or.inl empty, fun _ => ⟨aligned, Nat.le_refl _⟩⟩
    · have isSp := (setupArgv_result low empty returned).1
      obtain ⟨few, short⟩ := args.small
      have below : (∀ other ∈ some args, other.below sp) ↔ args.below sp := by
        simp
      rw [below, ArgVector.below]
      generalize args.stringBytes = total at *
      generalize args.strings.length = count at *
      rw [isSp]
      simp only [sub64]
      omega

/-! ## A process with one user page -/

/-- One user page, a slab of free 64-byte objects, and the string `"a"`. -/
def argvMemory : ByteMap :=
  let slab := 0x80406000
  let header : List (Nat × Nat × Nat) :=
    [(0x80405000, 4, 64), (0x80405010, 8, slab), (slab + 16, 8, slab + 40), (slab + 24, 4, 63),
      (slab + 28, 4, 63), (slab + 32, 8, 0x80405000), (slab + 40, 8, slab + 104),
      (0x80407000, 1, 0x61)]
  header.foldl (fun mem field => store mem field.1 field.2.1 field.2.2) onePage

/-- The kernel whose cache of 64-byte objects has this slab. -/
def argvKernel : Kernel where
  mem := argvMemory
  memlist := 0
  caches i := if i.val = 3 then 0x80405000 else 0
  kvmroot := 0
  procCache := 0
  pidBitmap _ := 0
  lastPid := 0

def oneLetter : KernelString := ⟨0x80407000, 1, by unfold InRam; decide⟩

theorem letters_inRam {n : Nat} (few : n < 100) :
    8 * ((List.replicate n oneLetter).length + 1) ≤ phyEnd - phyStart := by
  rw [List.length_replicate]
  simp only [phyEnd, phyStart]
  omega

/-- `n` times the same short argument. -/
def letters (n : Nat) (few : n < 100) : ArgVector where
  strings := List.replicate n oneLetter
  inRam := letters_inRam few

/-- A call whose result was computed. -/
theorem setupArgv_of_eval {argv : Option ArgVector} {result : Nat × Nat × Nat}
    (computed : ((setupArgv smallImage 0x80400000 4096 argv 0x80407100 argvKernel).toOption.map
      Prod.fst) = some (some result)) : ∃ after,
    Returns (setupArgv smallImage 0x80400000 4096 argv 0x80407100) argvKernel (some result) after := by
  cases ran : setupArgv smallImage 0x80400000 4096 argv 0x80407100 argvKernel with
  | error e => simp [ran, Except.toOption] at computed
  | ok value =>
    obtain ⟨got, after⟩ := value
    simp only [ran, Except.toOption, Option.map_some, Option.some.injEq] at computed
    exact ⟨after, by rw [Returns, ran, computed]⟩

/-- The theorem for five arguments. -/
theorem five_letters_aligned : ∃ after, Returns (setupArgv smallImage 0x80400000 4096
    (some (letters 5 (by decide))) 0x80407100) argvKernel (some (4032, 5, 4032)) after ∧
    4032 % 16 = 0 := by
  obtain ⟨after, returned⟩ := @setupArgv_of_eval (some (letters 5 (by decide))) (4032, 5, 4032)
    (by decide +kernel)
  refine ⟨after, returned, ((initial_sp_aligned_iff (by decide) (by decide) returned).mpr
    (Or.inr ⟨by decide, ?_⟩)).1⟩
  rintro args ⟨rfl⟩
  exact ⟨by decide, by decide⟩

/-- With six arguments the stack pointer is eight bytes off. -/
theorem initial_sp_misaligned : ¬ ∀ (layout : Layout) (pagetable sp nullPtr : Nat)
    (argv : Option ArgVector) (s after : Kernel) (result : Nat × Nat × Nat), sp < 2 ^ 64 →
    sp % 16 = 0 → Returns (setupArgv layout pagetable sp argv nullPtr) s (some result) after →
    result.1 % 16 = 0 ∧ result.1 ≤ sp := by
  intro always
  obtain ⟨after, returned⟩ := @setupArgv_of_eval (some (letters 6 (by decide))) (4024, 6, 4024)
    (by decide +kernel)
  have aligned := (always smallImage 0x80400000 4096 0x80407100 _ argvKernel after _ (by decide)
    (by decide) returned).1
  exact absurd aligned (by decide)

end CuteCore
