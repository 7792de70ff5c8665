import MonadChain.Lib.Fallible
import MonadChain.Lib.Outcome
import MonadChain.Staking.Effects

/-!
Postcondition rules for the control helpers and the arithmetic of the contract,
and how failures compose along a run.
-/

namespace MonadChain.Staking

open Outcome

variable {x y z stake current last reward rate : Nat} {error : MathError}

section Control

variable {α : Type} {s : State} {returns : α → State → Prop} {fails : Failure → State → Prop}

@[simp] theorem holds_failIf {returns : Unit → State → Prop} (bad : Prop) [Decidable bad]
    (error : StakingError) : Holds (failIf bad error) s returns fails ↔
      (bad → fails (.staking error) s) ∧ (¬ bad → returns () s) := by
  simp [failIf]

@[simp] theorem holds_assertThrow {returns : Unit → State → Prop} (good : Prop)
    [Decidable good] (message : String) : Holds (assertThrow good message) s returns fails ↔
      (good → returns () s) ∧ (¬ good → fails (.assertion message) s) := by
  simp [assertThrow]

@[simp] theorem holds_onlyIf {returns : Unit → State → Prop} (condition : Prop)
    [Decidable condition] (block : Contract Unit) :
    Holds (onlyIf condition block) s returns fails ↔
      (condition → Holds block s returns fails) ∧ (¬ condition → returns () s) := by
  simp [onlyIf]

theorem holds_ofMath (result : Except MathError α) :
    Holds (ofMath result) s returns fails ↔
      (∀ value, result = .ok value → returns value s) ∧
        ∀ error, result = .error error → fails (.math error) s := by
  cases result <;> simp [ofMath]

theorem holds_checkedAdd {returns : Nat → State → Prop} (x y : Nat) :
    Holds (ofMath (checkedAdd x y)) s returns fails ↔
      (x + y < 2 ^ 256 → returns (x + y) s) ∧
        (¬ x + y < 2 ^ 256 → fails (.math .overflow) s) := by
  unfold checkedAdd
  split <;> rename_i fits <;> simp only [fits, ofMath, holds_pure, holds_throw] <;> simp

theorem holds_checkedSub {returns : Nat → State → Prop} (x y : Nat) :
    Holds (ofMath (checkedSub x y)) s returns fails ↔
      (y ≤ x → returns (x - y) s) ∧ (¬ y ≤ x → fails (.math .underflow) s) := by
  unfold checkedSub
  split <;> rename_i covered <;> simp only [covered, ofMath, holds_pure, holds_throw] <;> simp

@[simp] theorem holds_ofAbi (result : Except AbiDecodeError α) :
    Holds (ofAbi result) s returns fails ↔
      (∀ value, result = .ok value → returns value s) ∧
        ∀ error, result = .error error → fails (.abi error) s := by
  cases result <;> simp [ofAbi]

section

variable {returns : Unit → State → Prop}

@[simp] theorem holds_emit (event : Event) :
    Holds (emit event) s returns fails ↔ returns () (s.logged event) := Iff.rfl

theorem holds_addToBalance (address : Address) (delta : Nat) :
    Holds (addToBalance address delta) s returns fails ↔
      (s.balance address + delta < 2 ^ 256 → returns () { s with
          balance := Function.update s.balance address (s.balance address + delta) }) ∧
      (¬ s.balance address + delta < 2 ^ 256 → fails (.assertion "balance overflow") s) := by
  simp [addToBalance]

theorem holds_subtractFromBalance (address : Address) (delta : Nat) :
    Holds (subtractFromBalance address delta) s returns fails ↔
      (delta ≤ s.balance address → returns () { s with
          balance := Function.update s.balance address (s.balance address - delta) }) ∧
      (¬ delta ≤ s.balance address → fails (.assertion "balance underflow") s) := by
  simp [subtractFromBalance]

end

/-! Argument decoding reads the input only and fails with an ABI error. -/

variable {returns : α × Bytes → State → Prop}

def Decodes (decoder : Bytes → Contract (α × Bytes)) : Prop :=
  ∀ input, ∃ result : Except AbiDecodeError (α × Bytes), decoder input = ofAbi result

theorem Decodes.holds {decoder : Bytes → Contract (α × Bytes)} (decodes : Decodes decoder)
    (input : Bytes) (decoded : ∀ value rest, returns (value, rest) s)
    (malformed : ∀ error, fails (.abi error) s) : Holds (decoder input) s returns fails := by
  obtain ⟨result, same⟩ := decodes input
  rw [same, holds_ofAbi]
  exact ⟨fun value _ => decoded value.1 value.2, fun error _ => malformed error⟩

theorem decode_map {β : Type} (result : Except AbiDecodeError (Nat × Bytes)) (read : Nat → β) :
    (do
      let (value, rest) ← ofAbi result
      return (read value, rest)) =
      ofAbi (result.map fun pair => (read pair.1, pair.2)) := by
  cases result <;> rfl

theorem decodeU8_decodes : Decodes decodeU8 := fun _ => ⟨_, decode_map _ _⟩

theorem decodeU64_decodes : Decodes decodeU64 := fun _ => ⟨_, decode_map _ _⟩

theorem decodeAddress_decodes : Decodes decodeAddress := fun _ => ⟨_, decode_map _ _⟩

theorem fixed_decodes (size : Nat) : Decodes fun input => ofAbi (abiDecodeFixed size input) :=
  fun _ => ⟨_, rfl⟩

theorem decodeU32_decodes : Decodes decodeU32 := fixed_decodes _

theorem decodeU256_decodes : Decodes decodeU256 := fixed_decodes _

end Control

theorem unitBias_pos : 0 < unitBias := by decide

theorem checkedMulDiv_ok {quotient : Nat} (success : checkedMulDiv x y z = .ok quotient) :
    quotient = x * y / z ∧ x * y < 2 ^ 256 ∧ z ≠ 0 := by
  simp only [checkedMulDiv, checkedMul, checkedDiv, bind_eq_ok, ite_eq_iff] at success
  grind

theorem checkedMulDiv_error (failure : checkedMulDiv x y z = .error error) :
    (error = .overflow ∧ 2 ^ 256 ≤ x * y) ∨ (error = .divisionByZero ∧ z = 0) := by
  simp only [checkedMulDiv, checkedMul, checkedDiv, bind_eq_error, ite_eq_iff] at failure
  grind

theorem calculateRewards_ok {rewards : Nat}
    (success : calculateRewards stake current last = .ok rewards) :
    rewards = rewardsOf stake current last ∧ last ≤ current := by
  simp [calculateRewards, checkedSub, bind_eq_ok, ite_eq_iff] at success
  exact ⟨(checkedMulDiv_ok success.2).1, success.1⟩

theorem calculateRewards_error (failure : calculateRewards stake current last = .error error) :
    (error = .underflow ∧ current < last) ∨ error = .overflow := by
  simp [calculateRewards, checkedSub, bind_eq_error, ite_eq_iff] at failure
  rcases failure with ⟨short, rfl⟩ | ⟨-, failure⟩
  · exact .inl ⟨rfl, short⟩
  · rcases checkedMulDiv_error failure with ⟨overflow, _⟩ | ⟨_, zero⟩
    · exact .inr overflow
    · exact absurd zero unitBias_pos.ne'

theorem splitCommission_ok {commission delReward : Nat}
    (success : splitCommission reward rate = .ok (commission, delReward)) :
    commission + delReward = reward ∧ commission = reward * rate / mon := by
  simp [splitCommission, checkedSub, bind_eq_ok, ite_eq_iff, pure, Except.pure] at success
  obtain ⟨product, covered, rfl⟩ := success
  exact ⟨Nat.add_sub_cancel' covered, (checkedMulDiv_ok product).1⟩

theorem splitCommission_error (failure : splitCommission reward rate = .error error) :
    (error = .underflow ∧ mon < rate) ∨ (error = .overflow ∧ 2 ^ 256 ≤ reward * rate) := by
  simp [splitCommission, checkedSub, bind_eq_error, pure, Except.pure] at failure
  rcases failure with product | ⟨share, product, failure⟩
  · have fault := checkedMulDiv_error product
    have positive : mon ≠ 0 := by decide
    grind
  · -- a rate of at most one whole token takes at most the whole reward
    have covered (small : rate ≤ mon) : share ≤ reward := by
      rw [(checkedMulDiv_ok product).1]
      exact Nat.div_le_of_le_mul (by rw [Nat.mul_comm mon]; exact Nat.mul_le_mul_left _ small)
    grind

section Failures

variable {revision : MonadRevision} {before middle after : State} {failure : Failure}

theorem Failed.here (fault : Fault before failure) (silent : after.infoLog = before.infoLog) :
    Failed revision before failure after :=
  ⟨0, before, le_rfl, .refl before, fault, .inl silent⟩

theorem Failed.listed (expected : failure.expected = true)
    (silent : after.infoLog = before.infoLog) : Failed revision before failure after :=
  .here (.expected expected) silent

theorem Failed.later {freed : Int} (nonneg : 0 ≤ freed) (moves : Moves revision freed before middle)
    (failed : Failed revision middle failure after) : Failed revision before failure after := by
  obtain ⟨later, s, laterNonneg, path, fault, silent⟩ := failed
  exact ⟨freed + later, s, Int.add_nonneg nonneg laterNonneg, moves.trans path, fault, silent⟩

theorem passes {bad rest : Prop} (expected : failure.expected = true)
    (continues : ¬ bad → rest) : (bad → Failed revision before failure before) ∧ (¬ bad → rest) :=
  ⟨fun _ => .listed expected rfl, continues⟩

theorem Decodes.next {α : Type} {decoder : Bytes → Contract (α × Bytes)} {input : Bytes}
    {returns : α × Bytes → State → Prop} (decodes : Decodes decoder)
    (decoded : ∀ value rest, returns (value, rest) before) :
    Outcome.Holds (decoder input) before returns (Failed revision before) :=
  decodes.holds input decoded fun _ => .listed rfl rfl

end Failures

end MonadChain.Staking
