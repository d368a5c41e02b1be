import CuteCore.Library.Bytes
import CuteCore.Library.ByteFiles

/-!
# Copying and comparing strings

The loops of the kernel's `memcpy`, `memmove`, `memcmp`, `memset` and of its string
functions, one byte at a time over one memory, so that source and target may overlap. What
is copied upwards over its own source repeats with the distance of the two as its period:
`memcpy` is then not `memmove`, and `strcpy` does not come to an end.
-/

namespace CuteCore.Strings

open Bytes ByteFiles

/-! ## The source's loops -/

/-- `dst[i] = src[i]` for the first `n` values of `i`, going up. -/
def upwards (m : ByteMap) (dst src : Nat) : Nat → ByteMap
  | 0 => m
  | n + 1 => Function.update (upwards m dst src n) (dst + n) (upwards m dst src n (src + n))

/-- The same assignments, going down. -/
def downwards (m : ByteMap) (dst src : Nat) : Nat → ByteMap
  | 0 => m
  | n + 1 => downwards (Function.update m (dst + n) (m (src + n))) dst src n

def memcpy (m : ByteMap) (s1 s2 n : Nat) : Nat × ByteMap := (s1, upwards m s1 s2 n)

def memmove (m : ByteMap) (dest src n : Nat) : Nat × ByteMap :=
  if dest = src then (dest, m)
  else if dest < src then (dest, upwards m dest src n)
  else (dest, downwards m dest src n)

def setBytes (m : ByteMap) (s : Nat) (c : Byte) : Nat → ByteMap
  | 0 => m
  | n + 1 => Function.update (setBytes m s c n) (s + n) c

/-- `memset` returns 0 and not its first argument. -/
def memset (m : ByteMap) (s n : Nat) (c : Byte) : Nat × ByteMap := (0, setBytes m s c n)

def memcmp (m : ByteMap) (p1 p2 : Nat) : Nat → Int
  | 0 => 0
  | n + 1 =>
    if m p1 ≠ m p2 then (m p1).toNat - (m p2).toNat else memcmp m (p1 + 1) (p2 + 1) n

/-- `none` is a loop that is still running. -/
def strcmp (m : ByteMap) (s1 s2 : Nat) : Nat → Option Int
  | 0 => none
  | fuel + 1 =>
    if m s1 ≠ 0 ∧ m s1 = m s2 then strcmp m (s1 + 1) (s2 + 1) fuel
    else some ((m s1).toNat - (m s2).toNat)

/-- `while ((*dest++ = *src++) != '\0')` -/
def copyString (m : ByteMap) (dest src : Nat) : Nat → Option ByteMap
  | 0 => none
  | fuel + 1 =>
    if m src = 0 then some (Function.update m dest (m src))
    else copyString (Function.update m dest (m src)) (dest + 1) (src + 1) fuel

/-- `while (*p) p++` -/
def findEnd (m : ByteMap) (p : Nat) : Nat → Option Nat
  | 0 => none
  | fuel + 1 => if m p = 0 then some p else findEnd m (p + 1) fuel

def strcpy (m : ByteMap) (dest src fuel : Nat) : Option (Nat × ByteMap) := do
  let after ← copyString m dest src fuel
  return (dest, after)

def strcat (m : ByteMap) (s1 s2 fuel : Nat) : Option (Nat × ByteMap) := do
  let last ← findEnd m s1 fuel
  let after ← copyString m last s2 fuel
  return (s1, after)

def strlen (m : ByteMap) (s fuel : Nat) : Option Nat := do
  let p ← findEnd m s fuel
  return p - s

/-! ## Copies that overlap -/

/-- The byte that a copy going up finds at `src + i`. -/
def repeated (m : ByteMap) (dst src i : Nat) : Byte :=
  if src < dst then m (src + i % (dst - src)) else m (src + i)

section

variable {m : ByteMap} {dst src n : Nat}

theorem repeated_apart (m : ByteMap) {i : Nat} (apart : dst ≤ src ∨ src + i < dst) :
    repeated m dst src i = m (src + i) := by
  unfold repeated
  split
  · have less : i < dst - src := by omega
    rw [Nat.mod_eq_of_lt less]
  · rfl

/-- What is read next was written one period before. -/
theorem copy_repeated (m : ByteMap) (dst src n : Nat) :
    copy m dst n (repeated m dst src) (src + n) = repeated m dst src n := by
  by_cases below : src < dst
  · by_cases reached : dst - src ≤ n
    · rw [copy_inside m dst n _ _ (by omega) (by omega), repeated, repeated, if_pos below,
        if_pos below, Nat.mod_eq_sub_mod reached]
      have back : src + n - dst = n - (dst - src) := by omega
      rw [back]
    · have short : src + n < dst := by omega
      rw [copy_outside m dst n _ _ (Or.inl short), repeated_apart m (Or.inr short)]
  · have above : dst + n ≤ src + n := by omega
    rw [copy_outside m dst n _ _ (Or.inr above), repeated_apart m (Or.inl (by omega))]

/-- The loop from the first byte up repeats the bytes before an overlapping target. -/
theorem upwards_repeats (m : ByteMap) (dst src n : Nat) :
    upwards m dst src n = copy m dst n (repeated m dst src) := by
  induction n with
  | zero => exact (copy_empty m dst _).symm
  | succ n inductionHypothesis =>
    rw [upwards, inductionHypothesis, copy_repeated]
    funext x
    by_cases last : x = dst + n
    · subst last
      rw [Function.update_self, copy_inside m dst (n + 1) _ _ (by omega) (by omega),
        Nat.add_sub_cancel_left]
    · rw [Function.update_of_ne last]
      by_cases inside : dst ≤ x ∧ x < dst + n
      · rw [copy_inside m dst n _ x inside.1 inside.2,
          copy_inside m dst (n + 1) _ x inside.1 (by omega)]
      · rw [copy_outside m dst n _ x (by omega), copy_outside m dst (n + 1) _ x (by omega)]

theorem upwards_moves (apart : dst ≤ src ∨ src + n ≤ dst) :
    upwards m dst src n = copy m dst n fun i => m (src + i) := by
  rw [upwards_repeats]
  apply copy_congr
  intro i less
  exact repeated_apart m (by omega)

/-- The loop from the last byte down moves the bytes where the target does not lie before the
source. -/
theorem downwards_moves (above : src ≤ dst) :
    downwards m dst src n = copy m dst n fun i => m (src + i) := by
  induction n generalizing m with
  | zero => exact (copy_empty m dst _).symm
  | succ n inductionHypothesis =>
    rw [downwards, inductionHypothesis]
    funext x
    by_cases inside : dst ≤ x ∧ x < dst + n
    · have unread : src + (x - dst) ≠ dst + n := by omega
      rw [copy_inside _ dst n _ x inside.1 inside.2,
        copy_inside m dst (n + 1) _ x inside.1 (by omega), Function.update_of_ne unread]
    · rw [copy_outside _ dst n _ x (by omega)]
      by_cases last : x = dst + n
      · subst last
        rw [Function.update_self, copy_inside m dst (n + 1) _ _ (by omega) (by omega),
          Nat.add_sub_cancel_left]
      · rw [Function.update_of_ne last, copy_outside m dst (n + 1) _ x (by omega)]

/-- `memset` fills the range, and the value it returns is null. -/
theorem memset_fills (m : ByteMap) (s n : Nat) (c : Byte) :
    memset m s n c = (0, fill m s n c) := by
  rw [memset]
  congr 1
  induction n with
  | zero => exact (copy_empty m s _).symm
  | succ n inductionHypothesis =>
    rw [setBytes, inductionHypothesis]
    funext x
    by_cases last : x = s + n
    · subst last
      rw [Function.update_self, fill, copy_inside m s (n + 1) _ _ (by omega) (by omega)]
    · rw [Function.update_of_ne last, fill, fill]
      by_cases inside : s ≤ x ∧ x < s + n
      · rw [copy_inside m s n _ x inside.1 inside.2,
          copy_inside m s (n + 1) _ x inside.1 (by omega)]
      · rw [copy_outside m s n _ x (by omega), copy_outside m s (n + 1) _ x (by omega)]

/-- The bytes that `memmove` writes are the ones that were there before it, in every
overlap. -/
theorem memmove_moves (m : ByteMap) (dst src n : Nat) :
    memmove m dst src n = (dst, copy m dst n fun i => m (src + i)) := by
  unfold memmove
  split
  · rename_i same
    subst same
    congr 1
    funext x
    by_cases inside : dst ≤ x ∧ x < dst + n
    · have back : dst + (x - dst) = x := by omega
      rw [copy_inside m dst n _ x inside.1 inside.2, back]
    · rw [copy_outside m dst n _ x (by omega)]
  · split
    · rw [upwards_moves (Or.inl (by omega))]
    · rw [downwards_moves (by omega)]

/-- A target that starts inside the source is the one case in which `memcpy` is not
`memmove`: it writes the first bytes of the source over and over. -/
theorem memcpy_or_memmove (dst src n : Nat) :
    (∀ m, memmove m dst src n = (dst, copy m dst n fun i => m (src + i))) ∧
      (∀ m, memcpy m dst src n = (dst, copy m dst n (repeated m dst src))) ∧
      ((∀ m, memcpy m dst src n = memmove m dst src n) ↔ ¬ (src < dst ∧ dst < src + n)) := by
  constructor
  · intro m
    exact memmove_moves m dst src n
  constructor
  · intro m
    rw [memcpy, upwards_repeats]
  constructor
  · rintro agree ⟨above, below⟩
    -- a memory with a single 1, at the start of the source
    let single : ByteMap := fun x => if x = src then 1 else 0
    have same : upwards single dst src n (dst + (dst - src)) =
        copy single dst n (fun i => single (src + i)) (dst + (dst - src)) := by
      have results := agree single
      rw [memcpy, memmove_moves] at results
      exact congrFun (Prod.mk.inj results).2 _
    have first : repeated single dst src (dst - src) = 1 := by
      rw [repeated, if_pos above, Nat.mod_self, Nat.add_zero]
      exact if_pos rfl
    have second : single (src + (dst - src)) = 0 := if_neg (by omega)
    have low : dst ≤ dst + (dst - src) := Nat.le_add_right _ _
    have high : dst + (dst - src) < dst + n := by omega
    rw [upwards_repeats, copy_inside _ dst n _ _ low high, copy_inside _ dst n _ _ low high,
      Nat.add_sub_cancel_left, first, second] at same
    exact absurd same (by decide)
  · intro apart m
    rw [memcpy, memmove_moves, upwards_moves (by omega)]

end

/-! ## Strings -/

/-- The string at `a`, with its NUL. -/
def StringAt (m : ByteMap) (a : Nat) : List Byte → Prop
  | [] => m a = 0
  | c :: rest => m a = c ∧ c ≠ 0 ∧ StringAt m (a + 1) rest

section

variable {m after : ByteMap} {a dest src s1 s2 fuel : Nat} {s left right : List Byte}

/-- No character of a string is NUL. -/
theorem StringAt.inside (string : StringAt m a s) {i : Nat} (less : i < s.length) :
    m (a + i) ≠ 0 := by
  induction s generalizing a i with
  | nil => exact absurd less (Nat.not_lt_zero i)
  | cons c rest inductionHypothesis =>
    obtain ⟨first, notNul, others⟩ := string
    cases i with
    | zero =>
      rw [Nat.add_zero, first]
      exact notNul
    | succ i =>
      have next := inductionHypothesis others (Nat.lt_of_succ_lt_succ less)
      rw [Nat.add_assoc, Nat.add_comm 1 i] at next
      exact next

theorem StringAt.ends (string : StringAt m a s) : m (a + s.length) = 0 := by
  induction s generalizing a with
  | nil => exact string
  | cons c rest inductionHypothesis =>
    have last := inductionHypothesis string.2.2
    rw [Nat.add_assoc, Nat.add_comm 1 rest.length] at last
    exact last

/-- A string behind bytes that stay. -/
theorem StringAt.append (front : StringAt m a left)
    (stays : ∀ i < left.length, after (a + i) = m (a + i))
    (back : StringAt after (a + left.length) right) : StringAt after a (left ++ right) := by
  induction left generalizing a with
  | nil => exact back
  | cons c rest inductionHypothesis =>
    obtain ⟨first, notNul, others⟩ := front
    have head : after a = c := (stays 0 (Nat.zero_lt_succ _)).trans first
    have tail : ∀ i < rest.length, after (a + 1 + i) = m (a + 1 + i) := by
      intro i less
      have stay := stays (i + 1) (Nat.succ_lt_succ less)
      rw [Nat.add_comm i 1, ← Nat.add_assoc] at stay
      exact stay
    have behind : StringAt after (a + 1 + rest.length) right := by
      rw [Nat.add_assoc, Nat.add_comm 1 rest.length]
      exact back
    exact ⟨head, notNul, inductionHypothesis others tail behind⟩

/-- The same bytes elsewhere are the same string. -/
theorem StringAt.moved (string : StringAt m src s)
    (same : ∀ i ≤ s.length, after (dest + i) = m (src + i)) : StringAt after dest s := by
  induction s generalizing src dest with
  | nil => exact (same 0 (Nat.le_refl 0)).trans string
  | cons c rest inductionHypothesis =>
    obtain ⟨first, notNul, others⟩ := string
    have head : after dest = c := (same 0 (Nat.zero_le _)).trans first
    have tail : ∀ i ≤ rest.length, after (dest + 1 + i) = m (src + 1 + i) := by
      intro i most
      have next := same (i + 1) (Nat.succ_le_succ most)
      rw [Nat.add_comm i 1, ← Nat.add_assoc, ← Nat.add_assoc] at next
      exact next
    exact ⟨head, notNul, inductionHypothesis others tail⟩

/-- The loop to the end of a string finds its NUL when its fuel is longer than the string. -/
theorem findEnd_iff (string : StringAt m a s) {last : Nat} :
    findEnd m a fuel = some last ↔ s.length < fuel ∧ last = a + s.length := by
  induction s generalizing a fuel with
  | nil =>
    have nul : m a = 0 := string
    cases fuel with
    | zero => simp [findEnd]
    | succ fuel =>
      rw [findEnd, if_pos nul, Option.some.injEq]
      constructor
      · intro found
        exact ⟨Nat.zero_lt_succ fuel, found.symm⟩
      · intro found
        exact found.2.symm
  | cons c rest inductionHypothesis =>
    obtain ⟨first, notNul, others⟩ := string
    have more : ¬ m a = 0 := by rwa [first]
    cases fuel with
    | zero => simp [findEnd]
    | succ fuel =>
      rw [findEnd, if_neg more, inductionHypothesis others, List.length_cons]
      constructor
      · rintro ⟨enough, found⟩
        exact ⟨Nat.succ_lt_succ enough, by omega⟩
      · rintro ⟨enough, found⟩
        exact ⟨Nat.lt_of_succ_lt_succ enough, by omega⟩

/-- `strlen` returns the length, given fuel for the characters and the NUL. -/
theorem strlen_iff (string : StringAt m a s) {n : Nat} :
    strlen m a fuel = some n ↔ s.length < fuel ∧ n = s.length := by
  rw [strlen, Option.bind_eq_bind, Option.bind_eq_some_iff]
  constructor
  · rintro ⟨last, found, result⟩
    obtain ⟨enough, rfl⟩ := (findEnd_iff string).mp found
    cases result
    exact ⟨enough, Nat.add_sub_cancel_left a s.length⟩
  · rintro ⟨enough, rfl⟩
    exact ⟨a + s.length, (findEnd_iff string).mpr ⟨enough, rfl⟩,
      congrArg some (Nat.add_sub_cancel_left a s.length)⟩

/-- The copy loop after `k` rounds: it ends at the first NUL that it reads. -/
theorem copyString_run (m : ByteMap) (dest src : Nat) {k : Nat} :
    copyString (upwards m dest src k) (dest + k) (src + k) fuel = some after ↔
      ∃ j, k ≤ j ∧ j < k + fuel ∧ (∀ i, k ≤ i → i < j → repeated m dest src i ≠ 0) ∧
        repeated m dest src j = 0 ∧ after = upwards m dest src (j + 1) := by
  induction fuel generalizing k with
  | zero =>
    constructor
    · intro found
      cases found
    · rintro ⟨j, low, high, -⟩
      exact absurd high (Nat.not_lt.mpr low)
  | succ fuel inductionHypothesis =>
    have read : upwards m dest src k (src + k) = repeated m dest src k := by
      rw [upwards_repeats, copy_repeated]
    rw [copyString]
    split
    · rename_i nul
      rw [read] at nul
      rw [Option.some.injEq]
      constructor
      · intro found
        refine ⟨k, Nat.le_refl k, by omega, ?_, nul, found.symm⟩
        intro i low high
        exact absurd high (Nat.not_lt.mpr low)
      · rintro ⟨j, low, high, before, atNul, rfl⟩
        have same : j = k := by
          by_contra other
          exact before k (Nat.le_refl k) (by omega) nul
        rw [same]
        rfl
    · rename_i more
      rw [read] at more
      have next := @inductionHypothesis (k + 1)
      rw [← Nat.add_assoc, ← Nat.add_assoc] at next
      apply next.trans
      constructor
      · rintro ⟨j, low, high, before, atNul, found⟩
        refine ⟨j, by omega, by omega, ?_, atNul, found⟩
        intro i least less
        rcases Nat.eq_or_lt_of_le least with same | later
        · rwa [← same]
        · exact before i later less
      · rintro ⟨j, low, high, before, atNul, found⟩
        have later : k ≠ j := by
          rintro rfl
          exact more atNul
        refine ⟨j, by omega, by omega, ?_, atNul, found⟩
        intro i least less
        exact before i (by omega) less

/-- The copy loop ends unless it writes over the rest of its source. -/
theorem copyString_iff (string : StringAt m src s) :
    copyString m dest src fuel = some after ↔
      s.length < fuel ∧ ¬ (src < dest ∧ dest ≤ src + s.length) ∧
        after = copy m dest (s.length + 1) fun i => m (src + i) := by
  apply (copyString_run m dest src (k := 0)).trans
  by_cases apart : src < dest ∧ dest ≤ src + s.length
  · constructor
    · rintro ⟨j, low, high, before, atNul, found⟩
      have period : j % (dest - src) < s.length :=
        Nat.lt_of_lt_of_le (Nat.mod_lt j (by omega)) (by omega)
      rw [repeated, if_pos apart.1] at atNul
      exact absurd atNul (string.inside period)
    · rintro ⟨enough, notApart, found⟩
      exact absurd apart notApart
  · have reads : ∀ i ≤ s.length, repeated m dest src i = m (src + i) := by
      intro i most
      exact repeated_apart m (by omega)
    have moves : upwards m dest src (s.length + 1) =
        copy m dest (s.length + 1) fun i => m (src + i) := upwards_moves (by omega)
    constructor
    · rintro ⟨j, low, high, before, atNul, found⟩
      have atEnd : j = s.length := by
        rcases Nat.lt_trichotomy j s.length with less | same | more
        · rw [reads j (Nat.le_of_lt less)] at atNul
          exact absurd atNul (string.inside less)
        · exact same
        · have nul := before s.length (Nat.zero_le _) more
          rw [reads s.length (Nat.le_refl _)] at nul
          exact absurd string.ends nul
      subst atEnd
      exact ⟨by omega, apart, by rw [found, moves]⟩
    · rintro ⟨enough, -, found⟩
      refine ⟨s.length, Nat.zero_le _, by omega, ?_, ?_, by rw [found, moves]⟩
      · intro i least less
        rw [reads i (Nat.le_of_lt less)]
        exact string.inside less
      · rw [reads s.length (Nat.le_refl _)]
        exact string.ends

/-- `strcpy` returns unless its target starts inside its source or on its NUL. -/
theorem strcpy_returns (string : StringAt m src s) :
    ((∃ fuel, strcpy m dest src fuel = some (a, after)) ↔
      ¬ (src < dest ∧ dest ≤ src + s.length) ∧ a = dest ∧
        after = copy m dest (s.length + 1) fun i => m (src + i)) := by
  constructor
  · rintro ⟨fuel, returned⟩
    rw [strcpy, Option.bind_eq_bind, Option.bind_eq_some_iff] at returned
    obtain ⟨copied, found, result⟩ := returned
    cases result
    exact ⟨((copyString_iff string).mp found).2.1, rfl, ((copyString_iff string).mp found).2.2⟩
  · rintro ⟨apart, rfl, found⟩
    have copied : copyString m a src (s.length + 1) = some after :=
      (copyString_iff string).mpr ⟨Nat.lt_succ_self _, apart, found⟩
    refine ⟨s.length + 1, ?_⟩
    rw [strcpy, copied]
    rfl

/-- `strcat` returns unless the end of the first string lies behind the start of the second and
at most at its NUL, as it does when a nonempty string is appended to itself. Then both stand at
`s1`, and no other byte has changed. -/
theorem strcat_returns (front : StringAt m s1 left) (back : StringAt m s2 right) :
    ((∃ fuel, strcat m s1 s2 fuel = some (a, after)) ↔
      ¬ (s2 < s1 + left.length ∧ s1 + left.length ≤ s2 + right.length) ∧ a = s1 ∧
        after = copy m (s1 + left.length) (right.length + 1) fun i => m (s2 + i)) ∧
      ∀ fuel, strcat m s1 s2 fuel = some (a, after) → StringAt after s1 (left ++ right) := by
  have returned : ∀ fuel, strcat m s1 s2 fuel = some (a, after) →
      ¬ (s2 < s1 + left.length ∧ s1 + left.length ≤ s2 + right.length) ∧ a = s1 ∧
        after = copy m (s1 + left.length) (right.length + 1) fun i => m (s2 + i) := by
    intro fuel result
    rw [strcat, Option.bind_eq_bind, Option.bind_eq_some_iff] at result
    obtain ⟨last, ends, copied⟩ := result
    rw [Option.bind_eq_bind, Option.bind_eq_some_iff] at copied
    obtain ⟨written, found, same⟩ := copied
    cases same
    obtain rfl := ((findEnd_iff front).mp ends).2
    exact ⟨((copyString_iff back).mp found).2.1, rfl, ((copyString_iff back).mp found).2.2⟩
  constructor
  · constructor
    · rintro ⟨fuel, result⟩
      exact returned fuel result
    · rintro ⟨apart, rfl, found⟩
      have ends : findEnd m a (left.length + right.length + 1) = some (a + left.length) :=
        (findEnd_iff front).mpr ⟨by omega, rfl⟩
      have copied : copyString m (a + left.length) s2 (left.length + right.length + 1) =
          some after := (copyString_iff back).mpr ⟨by omega, apart, found⟩
      refine ⟨left.length + right.length + 1, ?_⟩
      rw [strcat, ends, Option.bind_eq_bind, Option.bind_some, copied]
      rfl
  · intro fuel result
    obtain ⟨apart, -, found⟩ := returned fuel result
    apply front.append
    · intro i less
      rw [found, copy_outside _ _ _ _ _ (by omega)]
    · apply back.moved
      intro i most
      rw [found, copy_inside _ _ _ _ _ (by omega) (by omega), Nat.add_sub_cancel_left]

/-- `ab` at 0 and `b` at 3 -/
def words : ByteMap := fun x => [0x61, 0x62, 0, 0x62, 0].getD x 0

theorem words_first : StringAt words 0 [0x61, 0x62] := ⟨rfl, by decide, rfl, by decide, rfl⟩

theorem words_second : StringAt words 3 [0x62] := ⟨rfl, by decide, rfl⟩

theorem strcat_words : (¬ ∃ a after fuel, strcat words 0 0 fuel = some (a, after)) ∧
    ∃ after fuel, strcat words 3 0 fuel = some (3, after) ∧
      StringAt after 3 [0x62, 0x61, 0x62] := by
  constructor
  · rintro ⟨a, after, returned⟩
    have apart := ((strcat_returns words_first words_first).1.mp returned).1
    exact apart ⟨by decide, by decide⟩
  · obtain ⟨fuel, returned⟩ :=
      (strcat_returns words_second words_first).1.mpr ⟨by decide, rfl, rfl⟩
    exact ⟨_, fuel, returned, (strcat_returns words_second words_first).2 fuel returned⟩

end

/-! ## The order of the comparisons -/

/-- A difference has the sign of an order. -/
structure Orders (difference : Int) (left right : List Byte) : Prop where
  less : difference < 0 ↔ left < right
  same : difference = 0 ↔ left = right
  more : 0 < difference ↔ right < left

section

variable {m : ByteMap} {s1 s2 fuel : Nat} {left right : List Byte} {difference : Int}

theorem Orders.refl (s : List Byte) : Orders 0 s s := by
  constructor
  · simp
  · simp
  · simp

/-- The first difference decides. -/
theorem orders_head {c d : Byte} (differ : c ≠ d) (left right : List Byte) :
    Orders (c.toNat - d.toNat) (c :: left) (d :: right) := by
  have toNat : c.toNat ≠ d.toNat := fun same => differ (BitVec.eq_of_toNat_eq same)
  constructor
  · rw [List.cons_lt_cons_iff, BitVec.lt_def]
    constructor
    · intro negative
      exact Or.inl (by omega)
    · rintro (less | ⟨same, -⟩)
      · omega
      · exact absurd same differ
  · constructor
    · intro zero
      exact absurd (by omega) toNat
    · intro same
      exact absurd (List.cons.inj same).1 differ
  · rw [List.cons_lt_cons_iff, BitVec.lt_def]
    constructor
    · intro positive
      exact Or.inl (by omega)
    · rintro (less | ⟨same, -⟩)
      · omega
      · exact absurd same.symm differ

theorem Orders.cons (orders : Orders difference left right) (c : Byte) :
    Orders difference (c :: left) (c :: right) := by
  constructor
  · rw [orders.less, List.cons_lt_cons_iff]
    simp
  · rw [orders.same]
    simp
  · rw [orders.more, List.cons_lt_cons_iff]
    simp

/-- `memcmp` orders the two ranges as unsigned bytes, the first difference deciding. -/
theorem memcmp_orders (m : ByteMap) (p1 p2 n : Nat) :
    Orders (memcmp m p1 p2 n) (stretch m p1 n) (stretch m p2 n) := by
  induction n generalizing p1 p2 with
  | zero => exact Orders.refl []
  | succ n inductionHypothesis =>
    have unfolds : ∀ p, stretch m p (n + 1) = m p :: stretch m (p + 1) n := by
      intro p
      rw [Nat.add_comm n 1, ← stretch_append]
      rfl
    rw [memcmp, unfolds, unfolds]
    split
    · rename_i differ
      exact orders_head differ _ _
    · rename_i same
      rw [not_not.mp same]
      exact (inductionHypothesis (p1 + 1) (p2 + 1)).cons _

/-- The empty string comes before every other one. -/
theorem orders_nil {d : Byte} (notNul : d ≠ 0) (others : List Byte) :
    Orders ((0 : Byte).toNat - d.toNat) [] (d :: others) := by
  have positive : 0 < d.toNat := by
    by_contra zero
    exact notNul (BitVec.eq_of_toNat_eq (Nat.eq_zero_of_not_pos zero))
  have negative : ((0 : Byte).toNat : Int) - d.toNat < 0 := by
    change (0 : Int) - d.toNat < 0
    omega
  have less : ([] : List Byte) < d :: others := List.nil_lt_cons d others
  constructor
  · exact ⟨fun _ => less, fun _ => negative⟩
  · exact ⟨fun zero => absurd zero (Int.ne_of_lt negative), fun same => by cases same⟩
  · exact ⟨fun more => absurd more (Int.not_lt.mpr (Int.le_of_lt negative)),
      fun less => absurd less (List.not_lt_nil _)⟩

theorem Orders.swap {first second : Nat} (orders : Orders (first - second) left right) :
    Orders (second - first) right left := by
  constructor
  · rw [← orders.more]
    omega
  · rw [@eq_comm _ right, ← orders.same]
    omega
  · rw [← orders.less]
    omega

/-- `strcmp` returns on every two strings and orders them as unsigned bytes, a string before
those that go on behind it. -/
theorem strcmp_orders (first : StringAt m s1 left) (second : StringAt m s2 right)
    (enough : left.length < fuel) :
    ∃ difference, strcmp m s1 s2 fuel = some difference ∧ Orders difference left right := by
  induction left generalizing s1 s2 right fuel with
  | nil =>
    have nul : m s1 = 0 := first
    cases fuel with
    | zero => exact absurd enough (Nat.not_lt_zero _)
    | succ fuel =>
      have stops : ¬ (m s1 ≠ 0 ∧ m s1 = m s2) := fun goesOn => goesOn.1 nul
      rw [strcmp, if_neg stops, nul]
      refine ⟨_, rfl, ?_⟩
      cases right with
      | nil =>
        have other : m s2 = 0 := second
        rw [other]
        exact Orders.refl []
      | cons d others =>
        rw [second.1]
        exact orders_nil second.2.1 others
  | cons c rest inductionHypothesis =>
    obtain ⟨here, notNul, others⟩ := first
    cases fuel with
    | zero => exact absurd enough (Nat.not_lt_zero _)
    | succ fuel =>
      rw [strcmp, here]
      split
      · rename_i goesOn
        cases right with
        | nil =>
          have nul : m s2 = 0 := second
          exact absurd (goesOn.2.trans nul) notNul
        | cons d behind =>
          obtain ⟨there, -, more⟩ := second
          have same : c = d := goesOn.2.trans there
          subst same
          obtain ⟨difference, found, orders⟩ :=
            inductionHypothesis others more (Nat.lt_of_succ_lt_succ enough)
          exact ⟨difference, found, orders.cons c⟩
      · rename_i stops
        refine ⟨_, rfl, ?_⟩
        have differ : c ≠ m s2 := fun same => stops ⟨notNul, same⟩
        cases right with
        | nil =>
          have nul : m s2 = 0 := second
          rw [nul]
          exact (orders_nil notNul rest).swap
        | cons d behind =>
          rw [second.1] at differ ⊢
          exact orders_head differ rest behind

theorem strcmp_words : ∃ difference, strcmp words 0 3 3 = some difference ∧
    Orders difference [0x61, 0x62] [0x62] :=
  strcmp_orders words_first words_second (by decide)

end

end CuteCore.Strings
