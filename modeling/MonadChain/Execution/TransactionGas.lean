import MonadChain.Core.CheckedMath
import MonadChain.Core.Traits
import MonadChain.Rlp.Transaction

/-!
ethereum/transaction_gas.cpp and monad/monad_transaction_gas.cpp: what a transaction
costs. Gas is counted in 64 bits and fees in 256 bits; both wrap around.
-/

namespace MonadChain.Execution

open Rlp (Transaction TransactionType)

variable {value : Nat}

def u64 (value : Nat) : Nat := value % 2 ^ 64

def u256 (value : Nat) : Nat := value % 2 ^ 256

theorem u64_of_lt (fits : value < 2 ^ 64) : u64 value = value := Nat.mod_eq_of_lt fits

theorem u256_of_lt (fits : value < 2 ^ 256) : u256 value = value :=
  Nat.mod_eq_of_lt fits

variable (traits : Traits) (tx : Transaction)

def gTxnCreate : Nat := if tx.recipient.isNone then 32000 else 0

def gAccessAndStorage : Nat :=
  tx.accessList.length * 2400 + (tx.accessList.map fun entry => entry.keys.length * 1900).sum

def gAccessListData : Nat :=
  (tx.accessList.length * 20 + (tx.accessList.map fun entry => entry.keys.length * 32).sum) * 40

def gAuthorization : Nat := 25000 * tx.authorizationList.length

def gExtraCostInit : Nat :=
  if tx.recipient.isNone then (tx.data.length + 31) / 32 * 2 else 0

def tokensInCalldata : Nat × Nat :=
  let zeros := tx.data.count 0
  (zeros, tx.data.length - zeros)

def gData : Nat :=
  let (zeros, nonzeros) := tokensInCalldata tx
  zeros * 4 + nonzeros * 16

/-- The source adds up in 64 bits, so only the sum is reduced here. -/
def intrinsicGas : Nat :=
  u64 (21000 + gData tx + gTxnCreate tx + gAccessAndStorage tx +
    (if traits.evmRev.atLeast .shanghai then gExtraCostInit tx else 0) +
    (if traits.evmRev.atLeast .prague then gAuthorization tx else 0) +
    (if traits.eip7981Active then gAccessListData tx else 0))

def floorDataGas : Nat :=
  let (zeros, nonzeros) := tokensInCalldata tx
  u64 (21000 + (zeros * 10 + nonzeros * 40) +
    (if traits.eip7981Active then gAccessListData tx else 0))

def priorityFeePerGas (baseFeePerGas : Nat) : Except String Nat :=
  if tx.maxFeePerGas.val < baseFeePerGas then .error "tx.max_fee_per_gas >= base_fee_per_gas"
  else
    let maxPriorityFeePerGas := tx.maxFeePerGas.val - baseFeePerGas
    if tx.type.hasPriorityFee then .ok (min tx.maxPriorityFeePerGas.val maxPriorityFeePerGas)
    else .ok maxPriorityFeePerGas

def gasPrice (baseFeePerGas : Nat) : Except String Nat :=
  if traits.evmRev.atLeast .london then
    (priorityFeePerGas tx baseFeePerGas).map fun fee => u256 (fee + baseFeePerGas)
  else .ok tx.maxFeePerGas.val

def gStar (gasRemaining refund : Nat) : Nat :=
  let maxRefundQuotient := if traits.evmRev.atLeast .london then 5 else 2
  let refundAllowance := u64 (tx.gasLimit.val + 2 ^ 64 - gasRemaining) / maxRefundQuotient
  u64 (gasRemaining + min refundAllowance refund)

def computeGasRefund (gasRemaining refund : Nat) : Nat :=
  if traits.monadAtLeast .one then 0 else gStar traits tx gasRemaining refund

def calculateTxnAward (baseFeePerGas gasUsed : Nat) : Except String Nat :=
  if traits.evmRev.atLeast .london then
    (priorityFeePerGas tx baseFeePerGas).map fun fee => u256 (gasUsed * fee)
  else (gasPrice traits tx baseFeePerGas).map fun price => u256 (gasUsed * price)

def getTotalBlobGas : Nat := u64 (131072 * tx.blobVersionedHashes.length)

/-- `blobBaseFee` is what `get_base_fee_per_blob_gas` gives for the block. -/
def calcBlobFee (blobBaseFee : Nat) : Nat :=
  u256 (blobBaseFee * getTotalBlobGas tx)

def maxGasCost (gasLimit maxFeePerGas : Nat) : Except MathError Nat :=
  checkedMul gasLimit maxFeePerGas

section Prices

variable {traits : Traits} {tx : Transaction} {baseFee : Nat}

theorem priorityFeePerGas_ok (covered : baseFee ≤ tx.maxFeePerGas.val) :
    ∃ fee, priorityFeePerGas tx baseFee = .ok fee ∧ fee + baseFee ≤ tx.maxFeePerGas.val := by
  unfold priorityFeePerGas
  rw [if_neg (Nat.not_lt.mpr covered)]
  split
  · refine ⟨_, rfl, ?_⟩
    omega
  · exact ⟨_, rfl, by omega⟩

theorem maxFeePerGas_lt (tx : Transaction) : tx.maxFeePerGas.val < 2 ^ 256 := tx.maxFeePerGas.isLt

theorem gasLimit_lt (tx : Transaction) : tx.gasLimit.val < 2 ^ 64 := tx.gasLimit.isLt

/-- The parts of the price: what the base fee takes and what is left for the award. From London
on it is the base fee that takes the first part; before, all of the price is awarded. -/
structure Prices (traits : Traits) (tx : Transaction) (baseFee price burnt award : Nat) : Prop where
  priced : gasPrice traits tx baseFee = .ok price
  awarded : ∀ gasUsed, calculateTxnAward traits tx baseFee gasUsed = .ok (u256 (gasUsed * award))
  parts : price = burnt + award
  covered : price ≤ tx.maxFeePerGas.val
  base : burnt = if traits.evmRev.atLeast .london then baseFee else 0

theorem prices_of_covered (covered : baseFee ≤ tx.maxFeePerGas.val) :
    ∃ price burnt award, Prices traits tx baseFee price burnt award := by
  cases london : traits.evmRev.atLeast .london with
  | false =>
    refine ⟨tx.maxFeePerGas.val, 0, tx.maxFeePerGas.val, ?_, ?_, ?_, Nat.le_refl _, ?_⟩
    · simp [gasPrice, london]
    · intro gasUsed
      simp only [calculateTxnAward, gasPrice, london]
      rfl
    · exact (Nat.zero_add _).symm
    · simp [london]
  | true =>
    obtain ⟨fee, found, bound⟩ := priorityFeePerGas_ok covered
    have fits : fee + baseFee < 2 ^ 256 := Nat.lt_of_le_of_lt bound (maxFeePerGas_lt tx)
    refine ⟨fee + baseFee, baseFee, fee, ?_, ?_, Nat.add_comm _ _, bound, ?_⟩
    · simp only [gasPrice, london, found, if_true]
      exact congrArg Except.ok (u256_of_lt fits)
    · intro gasUsed
      simp only [calculateTxnAward, london, found]
      rfl
    · simp [london]

end Prices

end MonadChain.Execution
