import Mathlib.Algebra.GroupWithZero.Nat

/-!
core/checked_math.cpp. A `uint256_t` is a natural number below `2 ^ 256`; the carry, the borrow
and the upper product words become comparisons with that bound.
-/

namespace MonadChain

variable {x y : Nat}

inductive MathError where
  | overflow
  | underflow
  | divisionByZero
  deriving DecidableEq, Repr

def checkedAdd (x y : Nat) : Except MathError Nat :=
  if x + y < 2 ^ 256 then .ok (x + y) else .error .overflow

def checkedSub (x y : Nat) : Except MathError Nat :=
  if y ≤ x then .ok (x - y) else .error .underflow

def checkedMul (x y : Nat) : Except MathError Nat :=
  if x * y < 2 ^ 256 then .ok (x * y) else .error .overflow

def checkedDiv (x y : Nat) : Except MathError Nat :=
  if y = 0 then .error .divisionByZero else .ok (x / y)

theorem checked_mul_ok {product : Nat} (success : checkedMul x y = .ok product) :
    product = x * y ∧ x * y < 2 ^ 256 := by
  unfold checkedMul at success
  split at success
  · rename_i fits
    cases success
    exact ⟨rfl, fits⟩
  · cases success

theorem checked_add_ok {sum : Nat} (success : checkedAdd x y = .ok sum) :
    sum = x + y ∧ x + y < 2 ^ 256 := by
  unfold checkedAdd at success
  split at success
  · rename_i fits
    cases success
    exact ⟨rfl, fits⟩
  · cases success

end MonadChain
