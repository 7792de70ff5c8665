import Mathlib.Algebra.BigOperators.Intervals
import Mathlib.Algebra.Module.NatInt
import Mathlib.Algebra.Order.BigOperators.Group.Finset
import Mathlib.Tactic.NormNum
import Mathlib.Tactic.Ring
import MonadChain.Execution.TransactionGas

/-!
ethereum/transaction_gas.cpp: the fee of a unit of blob gas, an exponential in 256-bit
words that the loop adds up from its Taylor terms.
-/

namespace MonadChain.Execution

open Finset

def fakeExponentialLoop (n d : Nat) : Nat → Nat → Nat → Nat → Option Nat
  | 0, _, _, _ => none
  | fuel + 1, i, output, acc =>
    if 0 < acc then
      fakeExponentialLoop n d fuel (i + 1) (u256 (output + acc)) (u256 (acc * n) / u256 (d * i))
    else some output

def fakeExponential (fuel factor n d : Nat) : Option Nat :=
  (fakeExponentialLoop n d fuel 1 0 (u256 (factor * d))).map (· / d)

structure BlobSchedule where
  blobBaseFeeUpdateFraction : Nat

def getBaseFeePerBlobGas (fuel excessBlobGas : Nat) (schedule : BlobSchedule) : Option Nat :=
  fakeExponential fuel 1 excessBlobGas schedule.blobBaseFeeUpdateFraction

/-- The loop of EIP-4844 over unbounded integers, from a state to its output. -/
inductive EipLoop (numerator denominator : Nat) : Nat → Nat → Nat → Nat → Prop
  | done {i output : Nat} : EipLoop numerator denominator i output 0 output
  | turn {i output accum result : Nat} : 0 < accum →
      EipLoop numerator denominator (i + 1) (output + accum)
        (accum * numerator / (denominator * i)) result →
      EipLoop numerator denominator i output accum result

def EipFakeExponential (factor numerator denominator value : Nat) : Prop :=
  ∃ output, EipLoop numerator denominator 1 0 (factor * denominator) output ∧
    value = output / denominator

namespace BlobFee

def term (n d : Nat) : Nat → Nat
  | 0 => d
  | k + 1 => term n d k * n / (d * (k + 1))

def total (n d : Nat) : Nat := ∑ i ∈ range 400, term n d i

variable {n m d k fuel : Nat}

theorem term_zero_of_le {j : Nat} (zero : term n d k = 0) (le : k ≤ j) : term n d j = 0 := by
  induction le with
  | refl => exact zero
  | step _ ih => rw [term, ih, Nat.zero_mul, Nat.zero_div]

theorem term_mono (le : m ≤ n) (k : Nat) : term m d k ≤ term n d k := by
  induction k with
  | zero => rfl
  | succ k ih => exact Nat.div_le_div_right (Nat.mul_le_mul ih le)

theorem term_mul_factorial (positive : 1 ≤ d) (bounded : n ≤ 100 * d) (k : Nat) :
    term n d k * k.factorial ≤ d * 100 ^ k := by
  induction k with
  | zero => simp [term]
  | succ k ih =>
    have ratio : term n d (k + 1) * (k + 1) ≤ term n d k * 100 := by
      refine Nat.le_of_mul_le_mul_left ?_ positive
      calc d * (term n d (k + 1) * (k + 1))
          = d * (k + 1) * (term n d k * n / (d * (k + 1))) := by rw [term]; ring
        _ ≤ term n d k * n := Nat.mul_div_le _ _
        _ ≤ term n d k * (100 * d) := Nat.mul_le_mul_left _ bounded
        _ = d * (term n d k * 100) := by ring
    calc term n d (k + 1) * (k + 1).factorial
        = term n d (k + 1) * (k + 1) * k.factorial := by rw [Nat.factorial_succ]; ring
      _ ≤ term n d k * 100 * k.factorial := Nat.mul_le_mul_right _ ratio
      _ = term n d k * k.factorial * 100 := by ring
      _ ≤ d * 100 ^ k * 100 := Nat.mul_le_mul_right _ ih
      _ = d * 100 ^ (k + 1) := by ring

section

variable (positive : 1 ≤ d) (fraction : d ≤ 2 ^ 32) (bounded : n ≤ 100 * d)

include positive fraction bounded

theorem term_last : term n d 400 = 0 := by
  have bound := (term_mul_factorial positive bounded 400).trans
    (Nat.mul_le_mul_right _ fraction)
  have overtaken : 2 ^ 32 * 100 ^ 400 < Nat.factorial 400 := by decide +kernel
  by_contra left
  have := Nat.mul_le_mul_right (Nat.factorial 400) (Nat.one_le_iff_ne_zero.mpr left)
  omega

theorem term_lt (within : k < 400) : term n d k < 2 ^ 180 := by
  have peak : ∀ k < 400, 2 ^ 32 * 100 ^ k < 2 ^ 180 * Nat.factorial k := by decide +kernel
  refine Nat.lt_of_mul_lt_mul_right (a := k.factorial) ?_
  exact ((term_mul_factorial positive bounded k).trans
    (Nat.mul_le_mul_right _ fraction)).trans_lt (peak k within)

theorem sum_lt (within : k ≤ 400) : ∑ i ∈ range k, term n d i < 2 ^ 189 := by
  have each : ∑ i ∈ range k, term n d i ≤ ∑ _i ∈ range k, 2 ^ 180 :=
    sum_le_sum fun i member => (term_lt positive fraction bounded
      ((mem_range.mp member).trans_le within)).le
  rw [sum_const, card_range, smul_eq_mul] at each
  omega

/-- Both loops stop with the sum of all terms, and no word of the first one wraps. -/
theorem loops_spec (within : k ≤ 400) (enough : 400 < fuel + k) :
    fakeExponentialLoop n d fuel (k + 1) (∑ i ∈ range k, term n d i) (term n d k) =
      some (total n d) ∧
    EipLoop n d (k + 1) (∑ i ∈ range k, term n d i) (term n d k) (total n d) := by
  induction fuel generalizing k with
  | zero => omega
  | succ fuel ih =>
    rw [fakeExponentialLoop]
    by_cases left : 0 < term n d k
    · have more : k < 400 := by
        by_contra last
        rw [show k = 400 by omega, term_last positive fraction bounded] at left
        omega
      have product : term n d k * n < 2 ^ 256 :=
        calc term n d k * n ≤ 2 ^ 180 * (100 * 2 ^ 32) :=
              Nat.mul_le_mul (term_lt positive fraction bounded more).le
                (bounded.trans (Nat.mul_le_mul_left _ fraction))
          _ < 2 ^ 256 := by norm_num
      have divisor : d * (k + 1) < 2 ^ 256 :=
        (Nat.mul_le_mul fraction (show k + 1 ≤ 400 by omega)).trans_lt (by norm_num)
      have next := ih (k := k + 1) (by omega) (by omega)
      have total := sum_lt positive fraction bounded (k := k + 1) (by omega)
      rw [sum_range_succ] at next total
      rw [if_pos left, u256_of_lt (by omega), u256_of_lt product, u256_of_lt divisor]
      exact ⟨next.1, .turn left next.2⟩
    · have zero : term n d k = 0 := by omega
      have rest : total n d = ∑ i ∈ range k, term n d i := by
        rw [total, ← sum_range_add_sum_Ico _ within, Nat.add_eq_left]
        exact sum_eq_zero fun i member => term_zero_of_le zero (mem_Ico.mp member).1
      rw [if_neg left, zero, rest]
      exact ⟨rfl, .done⟩

theorem getBaseFeePerBlobGas_eq (enough : 400 < fuel) :
    getBaseFeePerBlobGas fuel n ⟨d⟩ = some (total n d / d) ∧
    EipFakeExponential 1 n d (total n d / d) := by
  obtain ⟨exact, eip⟩ := loops_spec positive fraction bounded (Nat.zero_le 400) enough
  rw [sum_range_zero, term] at exact eip
  rw [getBaseFeePerBlobGas, fakeExponential, Nat.one_mul,
    u256_of_lt (fraction.trans_lt (by norm_num)), exact]
  exact ⟨rfl, total n d, by rwa [Nat.one_mul], rfl⟩

end

end BlobFee

open BlobFee in
/-- The blob base fee is the value of the EIP, it is at least 1, and it does not fall when
the excess rises. -/
theorem base_fee_per_blob_gas_exact {n d : Nat} (positive : 1 ≤ d) (fraction : d ≤ 2 ^ 32)
    (bounded : n ≤ 100 * d) :
    ∃ fee, (∀ fuel > 400, getBaseFeePerBlobGas fuel n ⟨d⟩ = some fee) ∧
      EipFakeExponential 1 n d fee ∧ 1 ≤ fee ∧
      ∀ m ≤ n, ∃ lower ≤ fee, ∀ fuel > 400, getBaseFeePerBlobGas fuel m ⟨d⟩ = some lower := by
  have values := fun m (le : m ≤ n) fuel enough =>
    @getBaseFeePerBlobGas_eq m d fuel positive fraction (le.trans bounded) enough
  refine ⟨_, fun fuel enough => (values n le_rfl fuel enough).1,
    (values n le_rfl 401 (by decide)).2, ?_, fun m le => ⟨_, ?_,
      fun fuel enough => (values m le fuel enough).1⟩⟩
  · have first : term n d 0 ≤ total n d :=
      single_le_sum (fun _ _ => Nat.zero_le _) (mem_range.mpr (by decide))
    exact (Nat.one_le_div_iff positive).mpr first
  · exact Nat.div_le_div_right (sum_le_sum fun i _ => term_mono le i)

theorem base_fee_per_blob_gas_exact_sample :
    ∃ fee, getBaseFeePerBlobGas 401 (3338477 * 2) ⟨3338477⟩ = some fee ∧
      EipFakeExponential 1 (3338477 * 2) 3338477 fee := by
  obtain ⟨fee, returned, eip, -⟩ := base_fee_per_blob_gas_exact
    (n := 3338477 * 2) (d := 3338477) (by decide) (by decide) (by decide)
  exact ⟨fee, returned 401 (by decide), eip⟩

end MonadChain.Execution
