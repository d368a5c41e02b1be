import Mathlib

/-!
# Positional numerals

The digits of a natural number with the most significant one first, and a single
zero for zero. The last digit is the remainder, and what stands in front of it is
the numeral of the quotient. Read from the front, the digits give the number
back.
-/

namespace Numerals

/-- The numeral of `n` in base `b`. -/
def numeral (b n : Nat) : List Nat := if n = 0 then [0] else (Nat.digits b n).reverse

/-- The number that a list of digits stands for, read from the front on. -/
def value (b : Nat) (digits : List Nat) : Nat := digits.foldl (fun v d => b * v + d) 0

variable {b n : Nat}

theorem numeral_single (small : n < b) : numeral b n = [n] := by
  unfold numeral
  split
  · rename_i zero
    rw [zero]
  · rename_i positive
    rw [Nat.digits_of_lt b n positive small, List.reverse_singleton]

theorem numeral_step (base : 1 < b) (more : n / b ≠ 0) :
    numeral b n = numeral b (n / b) ++ [n % b] := by
  have positive : 0 < n := Nat.pos_of_ne_zero fun zero => more (by rw [zero, Nat.zero_div])
  rw [numeral, numeral, if_neg positive.ne', if_neg more, Nat.digits_def' base positive,
    List.reverse_cons]

/-- The numeral by its last digit. -/
theorem numeral_cases {motive : Nat → Prop} (base : 1 < b)
    (single : ∀ n, n / b = 0 → numeral b n = [n % b] → motive n)
    (step : ∀ n, n / b ≠ 0 → numeral b n = numeral b (n / b) ++ [n % b] → motive (n / b) → motive n)
    (n : Nat) : motive n := by
  induction n using Nat.strong_induction_on with
  | _ n inductionHypothesis =>
    by_cases last : n / b = 0
    · have small : n < b := (Nat.div_eq_zero_iff_lt (by omega)).mp last
      refine single n last ?_
      rw [numeral_single small, Nat.mod_eq_of_lt small]
    · have positive : 0 < n := Nat.pos_of_ne_zero fun zero => last (by rw [zero, Nat.zero_div])
      exact step n last (numeral_step base last)
        (inductionHypothesis _ (Nat.div_lt_self positive base))

/-- The digits give the number back. -/
theorem value_numeral (base : 1 < b) : value b (numeral b n) = n := by
  induction n using numeral_cases base with
  | single n last numeral =>
    have small : n < b := (Nat.div_eq_zero_iff_lt (by omega)).mp last
    rw [numeral, Nat.mod_eq_of_lt small]
    simp [value]
  | step n more numeral inductionHypothesis =>
    rw [numeral, value, List.foldl_append]
    change b * value b _ + n % b = n
    rw [inductionHypothesis]
    exact Nat.div_add_mod n b

/-- The digits are below the base. -/
theorem numeral_lt_base (base : 1 < b) : ∀ d ∈ numeral b n, d < b := by
  induction n using numeral_cases base with
  | single n last numeral =>
    rw [numeral]
    intro d member
    rw [List.mem_singleton.mp member]
    exact Nat.mod_lt _ (by omega)
  | step n more numeral inductionHypothesis =>
    rw [numeral]
    intro d member
    rcases List.mem_append.mp member with inFront | isLast
    · exact inductionHypothesis d inFront
    · rw [List.mem_singleton.mp isLast]
      exact Nat.mod_lt _ (by omega)

theorem numeral_ne_nil : numeral b n ≠ [] := by
  unfold numeral
  split
  · exact List.cons_ne_nil _ _
  · rename_i positive
    rw [ne_eq, List.reverse_eq_nil_iff]
    exact Nat.digits_ne_nil_iff_ne_zero.mpr positive

/-- A zero in front stands for zero. -/
theorem numeral_head (zero : (numeral b n).head? = some 0) : n = 0 := by
  by_contra positive
  rw [numeral, if_neg positive, List.head?_reverse] at zero
  have nonempty : Nat.digits b n ≠ [] := Nat.digits_ne_nil_iff_ne_zero.mpr positive
  rw [List.getLast?_eq_some_getLast nonempty] at zero
  exact Nat.getLast_digit_ne_zero b positive (Option.some.inj zero)

/-- A number below a power of the base has at most so many digits. -/
theorem numeral_length_le (base : 1 < b) {k : Nat} (below : n < b ^ (k + 1)) :
    (numeral b n).length ≤ k + 1 := by
  induction k generalizing n with
  | zero =>
    rw [numeral_single (by simpa using below)]
    exact Nat.le_refl 1
  | succ k inductionHypothesis =>
    by_cases last : n / b = 0
    · have small : n < b := (Nat.div_eq_zero_iff_lt (by omega)).mp last
      rw [numeral_single small, List.length_singleton]
      omega
    · have shorter : n / b < b ^ (k + 1) := by
        rw [Nat.div_lt_iff_lt_mul (by omega), ← pow_succ]
        exact below
      rw [numeral_step base last, List.length_append, List.length_singleton]
      exact Nat.succ_le_succ (inductionHypothesis shorter)

end Numerals
