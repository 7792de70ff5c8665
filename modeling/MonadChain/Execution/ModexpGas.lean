import MonadChain.Core.Multiplication
import MonadChain.Execution.TransactionGas

/-!
ethereum/precompiles_gas_cost_impl.cpp: the gas of the modular exponentiation. The code counts in
256 bits, cuts the lengths to 64 bits and leaves early; the formula of EIP-2565 and EIP-7883 is
over unbounded integers.
-/

namespace MonadChain.Execution

open List Uint256

def wordsOf (x : Nat) : Words := fun i => UInt64.ofNat (x / radix ^ i)

def countSignificantBytes (x : Nat) : Nat :=
  let significantWords := countSignificantWords (wordsOf x) 4
  if significantWords = 0 then 0
  else
    let leadingWord := wordsOf x (significantWords - 1)
    (64 - countlZero leadingWord + 7) / 8 + (significantWords - 1) * 8

/-- `from_bytes`: if `src` is shorter than `n` bytes, zeros follow it. -/
def fromBytes (n : Nat) (src : Bytes) : Nat := loadBe (src.take n ++ replicate (n - src.length) 0)

def uint256LoadPartialBe (input : Bytes) (len : Nat) : Nat :=
  if input = [] then 0 else fromBytes len input

section Code

variable (traits : Traits)

def multComplexity (maxLen : Nat) : Nat :=
  let words := u256 (maxLen + 7) / 8
  if traits.eip7883Active then
    if 32 < maxLen then u256 (u256 (2 * words) * words) else 16
  else u256 (words * words)

def expmodGasDenominator : Nat := if traits.eip7883Active then 1 else 3

def expmodIterationCount (expLen bitLen : Nat) : Nat :=
  let expMult := if traits.eip7883Active then 16 else 8
  let adjusted := if 32 < expLen then u256 (expMult * (expLen - 32)) else 0
  let adjusted := if 1 < bitLen then u256 (adjusted + (bitLen - 1)) else adjusted
  max adjusted 1

def expmodMinGas : Nat := if traits.eip7883Active then 500 else 200

def expmodGasCost (input : Bytes) : Option Nat :=
  let baseLen := uint256LoadPartialBe input 32
  let expLen := if 32 ≤ input.length then uint256LoadPartialBe (input.drop 32) 32 else 0
  let modLen := if 64 ≤ input.length then uint256LoadPartialBe (input.drop 64) 32 else 0
  if traits.eip7883Active = false ∧ baseLen = 0 ∧ modLen = 0 then some (expmodMinGas traits)
  else if traits.eip7823Active = true ∧ (1024 < baseLen ∨ 1024 < expLen ∨ 1024 < modLen) then none
  else if traits.eip7823Active = false ∧ (8 < countSignificantBytes baseLen ∨
      8 < countSignificantBytes expLen ∨ 8 < countSignificantBytes modLen) then
    some (2 ^ 64 - 1)
  else
    let expIndex := u64 (96 + u64 baseLen)
    let expHead :=
      if expIndex < input.length then
        uint256LoadPartialBe (input.drop expIndex) (min 32 (u64 expLen))
      else 0
    let bitLen := 256 - (256 - expHead.size)
    let gas := u256 (multComplexity traits (max modLen baseLen) *
      expmodIterationCount traits expLen bitLen) / expmodGasDenominator traits
    if 2 ^ 64 - 1 < gas then some (2 ^ 64 - 1) else some (max (expmodMinGas traits) (u64 gas))

end Code

def numberAt (input : Bytes) (offset count : Nat) : Nat :=
  loadBe ((input.drop offset).takeD count 0)

structure ModexpLengths where
  base : Nat
  exponent : Nat
  modulus : Nat

def modexpLengths (input : Bytes) : ModexpLengths :=
  ⟨numberAt input 0 32, numberAt input 32 32, numberAt input 64 32⟩

namespace ModexpLengths

variable (lengths : ModexpLengths) (eip7883 : Bool) (head : Nat)

def longest : Nat := max lengths.base lengths.modulus

def words : Nat := (lengths.longest + 7) / 8

def complexity : Nat :=
  if eip7883 then if lengths.longest ≤ 32 then 16 else 2 * lengths.words ^ 2
  else lengths.words ^ 2

def iterations : Nat :=
  max 1 ((if eip7883 then 16 else 8) * (lengths.exponent - 32) + (head.size - 1))

def gas : Nat :=
  lengths.complexity eip7883 * lengths.iterations eip7883 head / if eip7883 then 1 else 3

end ModexpLengths

def exponentHead (input : Bytes) : Nat :=
  numberAt input (96 + (modexpLengths input).base) (min 32 (modexpLengths input).exponent)

/-- The gas of EIP-2565, and of EIP-7883 once that is active. -/
def eipModexpGas (eip7883 : Bool) (input : Bytes) : Nat :=
  max ((modexpLengths input).gas eip7883 (exponentHead input)) (if eip7883 then 500 else 200)

section Reading

variable (input : Bytes) (offset count : Nat)

theorem takeD_eq (bytes : Bytes) :
    bytes.takeD count 0 = bytes.take count ++ replicate (count - bytes.length) 0 := by
  induction count generalizing bytes with
  | zero => simp
  | succ count ih =>
    cases bytes with
    | nil => simp [replicate_succ]
    | cons byte rest => simp [ih]

theorem uint256LoadPartialBe_eq :
    uint256LoadPartialBe (input.drop offset) count = numberAt input offset count := by
  rw [uint256LoadPartialBe, numberAt, takeD_eq]
  split
  · rename_i empty
    have zeros := loadBe_append_zeros [] count
    rw [nil_append] at zeros
    simp only [empty, take_nil, nil_append, length_nil, Nat.sub_zero, zeros]
    simp [loadBe]
  · rfl

theorem guarded_load {inside : Prop} [Decidable inside] (short : ¬ inside → input.length ≤ offset) :
    (if inside then uint256LoadPartialBe (input.drop offset) count else 0) =
      numberAt input offset count := by
  rw [← uint256LoadPartialBe_eq]
  split
  · rfl
  · rename_i outside
    rw [drop_eq_nil_of_le (short outside), uint256LoadPartialBe, if_pos rfl]

theorem numberAt_lt : numberAt input offset count < 256 ^ count := by
  have bound := loadBe_lt ((input.drop offset).takeD count 0)
  rw [takeD_length] at bound
  exact bound

end Reading

theorem countSignificantBytes_gt {x : Nat} (fits : x < 2 ^ 256) :
    8 < countSignificantBytes x ↔ 2 ^ 64 ≤ x := by
  have word : ∀ i, (wordsOf x i).toNat = x / radix ^ i % 2 ^ 64 := fun i => UInt64.toNat_ofNat'
  have used : ∀ i, wordsOf x i ≠ 0 ↔ 0 < x / radix ^ i % 2 ^ 64 := by
    intro i
    rw [← word, Nat.pos_iff_ne_zero, ne_eq, ← UInt64.toNat_inj, UInt64.toNat_zero]
  have lead : 0 < x / radix ^ 1 % 2 ^ 64 → 0 < (wordsOf x 1).toNat.size := by
    intro some
    rw [Nat.size_pos, word]
    exact some
  simp only [countSignificantBytes, countSignificantWords, countlZero, used, radix] at lead ⊢
  norm_num at lead ⊢
  split_ifs <;> first | contradiction | omega | (simp only [Nat.reduceSub]; omega)

section Exact

variable {lengths : ModexpLengths} {head : Nat} (traits : Traits)

theorem multComplexity_eq (small : lengths.longest < 2 ^ 64) :
    multComplexity traits lengths.longest = lengths.complexity traits.eip7883Active ∧
      lengths.complexity traits.eip7883Active ≤ 2 ^ 123 := by
  have few : lengths.words ≤ 2 ^ 61 := by
    unfold ModexpLengths.words
    omega
  have square : lengths.words ^ 2 ≤ (2 ^ 61) ^ 2 := Nat.pow_le_pow_left few 2
  have same : u256 (lengths.longest + 7) / 8 = lengths.words := by
    rw [u256_of_lt (by omega), ModexpLengths.words]
  have double : u256 (u256 (2 * lengths.words) * lengths.words) = 2 * lengths.words ^ 2 := by
    rw [u256_of_lt (by omega : 2 * lengths.words < 2 ^ 256), Nat.mul_assoc, ← pow_two,
      u256_of_lt (by omega)]
  have single : u256 (lengths.words * lengths.words) = lengths.words ^ 2 := by
    rw [← pow_two, u256_of_lt (by omega)]
  simp only [multComplexity, ModexpLengths.complexity, same, double, single, ← not_le, ite_not]
  refine ⟨trivial, ?_⟩
  split_ifs <;> omega

theorem expmodIterationCount_eq (small : lengths.exponent < 2 ^ 64) (bits : head.size ≤ 256) :
    expmodIterationCount traits lengths.exponent (256 - (256 - head.size)) =
        lengths.iterations traits.eip7883Active head ∧
      lengths.iterations traits.eip7883Active head ≤ 2 ^ 69 := by
  simp only [expmodIterationCount, ModexpLengths.iterations, u256]
  cases traits.eip7883Active <;> simp only [Bool.false_eq_true, ↓reduceIte] <;> split_ifs <;> omega

theorem gas_eq (base : lengths.longest < 2 ^ 64) (exponent : lengths.exponent < 2 ^ 64)
    (bits : head.size ≤ 256) :
    u256 (multComplexity traits (max lengths.modulus lengths.base) *
      expmodIterationCount traits lengths.exponent (256 - (256 - head.size))) /
        expmodGasDenominator traits = lengths.gas traits.eip7883Active head := by
  obtain ⟨complexity, few⟩ := multComplexity_eq traits base
  obtain ⟨iterations, some⟩ := expmodIterationCount_eq traits exponent bits
  have product := Nat.mul_le_mul few some
  rw [max_comm, ← ModexpLengths.longest, complexity, iterations, u256_of_lt (by omega),
    ModexpLengths.gas, expmodGasDenominator]

theorem saturated (gas least : Nat) (small : least < 2 ^ 64) :
    (if 2 ^ 64 - 1 < gas then some (2 ^ 64 - 1) else some (max least (u64 gas))) =
      some (min (max gas least) (2 ^ 64 - 1)) := by
  unfold u64
  split_ifs
  · congr 1
    omega
  · congr 1
    omega

/-- A base or a modulus near the end of 64 bits costs more than 64 bits hold. -/
theorem gas_of_longest (long : 2 ^ 64 - 96 ≤ lengths.longest) (head least : Nat) :
    min (max (lengths.gas false head) least) (2 ^ 64 - 1) = 2 ^ 64 - 1 := by
  have many : 2 ^ 60 ≤ lengths.words := by
    unfold ModexpLengths.words
    omega
  have product : (2 ^ 60) ^ 2 * 1 ≤ lengths.words ^ 2 * lengths.iterations false head :=
    Nat.mul_le_mul (Nat.pow_le_pow_left many 2) (Nat.le_max_left _ _)
  simp only [ModexpLengths.gas, ModexpLengths.complexity, Bool.false_eq_true, ↓reduceIte]
  omega

theorem gas_of_exponent (long : 2 ^ 64 ≤ lengths.exponent) (some : 0 < lengths.longest)
    (head least : Nat) : min (max (lengths.gas false head) least) (2 ^ 64 - 1) = 2 ^ 64 - 1 := by
  have word : 1 ≤ lengths.words := by
    unfold ModexpLengths.words
    omega
  have many : 8 * (2 ^ 64 - 32) ≤ lengths.iterations false head := by
    simp only [ModexpLengths.iterations, Bool.false_eq_true, ↓reduceIte]
    omega
  have product := Nat.mul_le_mul (Nat.pow_le_pow_left word 2) many
  simp only [ModexpLengths.gas, ModexpLengths.complexity, Bool.false_eq_true, ↓reduceIte]
  omega

end Exact

/-- The gas of the modular exponentiation is that of the formula, up to 64 bits. -/
theorem expmod_gas_cost_exact (traits : Traits) (input : Bytes) :
    expmodGasCost traits input =
      if traits.eip7823Active = true ∧ (1024 < (modexpLengths input).base ∨
          1024 < (modexpLengths input).exponent ∨ 1024 < (modexpLengths input).modulus) then none
      else some (min (eipModexpGas traits.eip7883Active input) (2 ^ 64 - 1)) := by
  have base : uint256LoadPartialBe input 32 = (modexpLengths input).base :=
    uint256LoadPartialBe_eq input 0 32
  have exponent : (if 32 ≤ input.length then uint256LoadPartialBe (input.drop 32) 32 else 0) =
      (modexpLengths input).exponent := guarded_load input 32 32 (by omega)
  have modulus : (if 64 ≤ input.length then uint256LoadPartialBe (input.drop 64) 32 else 0) =
      (modexpLengths input).modulus := guarded_load input 64 32 (by omega)
  have bits (offset : Nat) {count : Nat} (few : count ≤ 32) :
      numberAt input offset count < 2 ^ 256 :=
    Nat.lt_of_lt_of_le (numberAt_lt input offset count) (Nat.pow_le_pow_right (by decide) few)
  have cut : (8 < countSignificantBytes (modexpLengths input).base ∨
      8 < countSignificantBytes (modexpLengths input).exponent ∨
      8 < countSignificantBytes (modexpLengths input).modulus) ↔
      2 ^ 64 ≤ (modexpLengths input).longest ∨ 2 ^ 64 ≤ (modexpLengths input).exponent := by
    have significant (offset : Nat) := countSignificantBytes_gt (bits offset le_rfl)
    simp only [modexpLengths, significant, ModexpLengths.longest, le_max_iff]
    omega
  simp only [expmodGasCost, base, exponent, modulus, cut, eipModexpGas, exponentHead]
  generalize modexpLengths input = lengths
  have longest : lengths.longest = max lengths.base lengths.modulus := rfl
  have least : expmodMinGas traits < 2 ^ 64 := by
    unfold expmodMinGas
    split <;> decide
  have formula : (if traits.eip7883Active then 500 else 200) = expmodMinGas traits := rfl
  rw [formula]
  by_cases early : traits.eip7883Active = false ∧ lengths.base = 0 ∧ lengths.modulus = 0
  · have unused (head : Nat) : lengths.gas false head = 0 := by
      simp [ModexpLengths.gas, ModexpLengths.complexity, ModexpLengths.words, longest, early.2]
    rw [if_pos early, if_neg (fun refused => Bool.false_ne_true (early.1.symm.trans refused.1)),
      early.1, unused, Nat.zero_max, min_eq_left (by omega)]
  rw [if_neg early]
  by_cases refused : traits.eip7823Active = true ∧
      (1024 < lengths.base ∨ 1024 < lengths.exponent ∨ 1024 < lengths.modulus)
  · rw [if_pos refused, if_pos refused]
  by_cases long : traits.eip7823Active = false ∧
      (2 ^ 64 ≤ lengths.longest ∨ 2 ^ 64 ≤ lengths.exponent)
  · have inactive : traits.eip7883Active = false := long.1
    have used := not_and.mp early inactive
    rw [if_pos long, inactive]
    rcases long.2 with base | exponent
    · rw [gas_of_longest (by omega)]
    · rw [gas_of_exponent exponent (by omega)]
  rw [if_neg long]
  have small : lengths.longest < 2 ^ 64 ∧ lengths.exponent < 2 ^ 64 ∧
      (traits.eip7883Active = false ∨ lengths.base ≤ 1024) := by
    cases active : traits.eip7883Active with
    | false =>
      have short := not_and.mp long active
      exact ⟨by omega, by omega, .inl rfl⟩
    | true =>
      have short := not_and.mp refused active
      exact ⟨by omega, by omega, .inr (by omega)⟩
  rw [guarded_load input _ _ (by omega), gas_eq traits small.1 small.2.1
    (Nat.size_le.mpr (bits _ (min_le_left _ _))), saturated _ _ least]
  by_cases near : lengths.base < 2 ^ 64 - 96
  · have index : u64 (96 + u64 lengths.base) = 96 + lengths.base := by
      unfold u64
      omega
    rw [index, u64_of_lt small.2.1]
  · -- The offset has wrapped, and whatever is read there, the base alone costs too much.
    have inactive : traits.eip7883Active = false := by
      rcases small.2.2 with inactive | few
      · exact inactive
      · omega
    rw [inactive, gas_of_longest (by omega), gas_of_longest (by omega)]

end MonadChain.Execution
