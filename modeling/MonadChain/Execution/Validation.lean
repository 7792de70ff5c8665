import MonadChain.Execution.Ledger
import MonadChain.Execution.TransactionGas

/-!
ethereum/validate_transaction.cpp and monad/validate_monad_transaction.cpp: which
transactions are executed.
-/

namespace MonadChain.Execution

open Rlp (Transaction TransactionType)

variable {condition : Bool}

inductive TransactionError where
  | insufficientBalance | intrinsicGasGreaterThanLimit | badNonce | senderNotEoa
  | typeNotSupported | maxFeeLessThanBase | priorityFeeGreaterThanMax | nonceExceedsMax
  | initCodeLimitExceeded | wrongChainId | gasLimitOverflow | invalidSignature | invalidBlobHash
  | emptyAuthorizationList
  | insufficientBalanceForFee | systemTransactionSenderIsAuthority
  deriving DecidableEq, Repr

def secp256k1Order : Nat := 0xfffffffffffffffffffffffffffffffebaaedce6af48a03bbfd25e8cd0364141

def signatureIsValid (signature : Rlp.Secp256k1Signature) : Bool :=
  0 < signature.r.val ∧ 0 < signature.s.val ∧ signature.r.val < secp256k1Order ∧
    signature.s.val < secp256k1Order ∧ signature.s.val ≤ secp256k1Order / 2 ∧
    signature.yParity.val ≤ 1

def typeSupported (revision : EthRevision) : TransactionType → Bool
  | .legacy | .eip2930 => true
  | .eip1559 => revision.atLeast .london
  | .eip4844 => revision.atLeast .cancun
  | .eip7702 => revision.atLeast .prague

/-- The header of the block, as far as fees depend on it; `blobBaseFee` is what
`get_base_fee_per_blob_gas` gives for its excess blob gas. -/
structure FeeHeader where
  baseFeePerGas : Option (Rlp.Unsigned 32) := none
  blobBaseFee : Nat := 1
  beneficiary : Address

def FeeHeader.baseFee (header : FeeHeader) : Nat := (header.baseFeePerGas.map (·.val)).getD 0

def blobHashesValid (tx : Transaction) : Bool :=
  tx.blobVersionedHashes ≠ [] ∧
    tx.blobVersionedHashes.all fun hash => hash.val.head? = some 0x01

def require (condition : Bool) (error : TransactionError) : Except TransactionError Unit :=
  if condition then .ok () else .error error

def staticValidateTransaction (traits : Traits) (tx : Transaction) (header : FeeHeader)
    (chainId : Rlp.Unsigned 32) : Except TransactionError Unit := do
  require (tx.sc.chainId = none ∨ tx.sc.chainId = some chainId) .wrongChainId
  require (traits.eip4844Active ∨ tx.type ≠ .eip4844) .typeNotSupported
  require (typeSupported traits.evmRev tx.type) .typeNotSupported
  require (header.baseFee ≤ tx.maxFeePerGas.val) .maxFeeLessThanBase
  require (tx.maxPriorityFeePerGas.val ≤ tx.maxFeePerGas.val) .priorityFeeGreaterThanMax
  require (!(traits.evmRev.atLeast .shanghai && tx.recipient.isNone &&
    2 * traits.maxCodeSize < tx.data.length)) .initCodeLimitExceeded
  require (intrinsicGas traits tx ≤ tx.gasLimit.val) .intrinsicGasGreaterThanLimit
  require (!traits.evmRev.atLeast .prague || floorDataGas traits tx ≤ tx.gasLimit.val)
    .intrinsicGasGreaterThanLimit
  require (!(traits.evmRev.atLeast .prague && tx.type = .eip7702 && tx.authorizationList = []))
    .emptyAuthorizationList
  require (tx.nonce.val < 2 ^ 64 - 1) .nonceExceedsMax
  require (maxGasCost tx.gasLimit.val tx.maxFeePerGas.val).isOk .gasLimitOverflow
  require (signatureIsValid tx.sc.signature) .invalidSignature
  if traits.evmRev.atLeast .cancun && tx.type = .eip4844 then
    require (blobHashesValid tx) .invalidBlobHash
    require (header.blobBaseFee ≤ tx.maxFeePerBlobGas.val) .gasLimitOverflow

def isDelegated (code : Code) : Bool := code.length = 23 ∧ code.take 3 = [0xef, 0x01, 0x00]

def maxCost (tx : Transaction) : Except MathError Nat := do
  let gasFee ← maxGasCost tx.gasLimit.val tx.maxFeePerGas.val
  let baseCost ← checkedAdd tx.value.val gasFee
  if tx.type = .eip4844 then
    let blobCost ← checkedMul (getTotalBlobGas tx) tx.maxFeePerBlobGas.val
    checkedAdd baseCost blobCost
  else .ok baseCost

def validateEthereumTransaction (traits : Traits) (codeOf : Hash → Code) (tx : Transaction)
    (sender : Address) (ledger : Ledger) : Except TransactionError Unit :=
  match maxCost tx with
  | .error _ => .error .insufficientBalance
  | .ok v0 =>
    match ledger.account sender with
    | none =>
      if tx.nonce.val ≠ 0 then .error .badNonce
      else if v0 ≠ 0 then .error .insufficientBalance
      else .ok ()
    | some account => do
      require (account.codeHash = nullHash || (traits.evmRev.atLeast .prague &&
        isDelegated (codeOf account.codeHash))) .senderNotEoa
      require (account.nonce = tx.nonce.val) .badNonce
      require (v0 ≤ account.balance) .insufficientBalance

def systemSender : Address := 0x6f49a8F621353f12378d0046E7d7e4b9B249DC9e

def validateFee (traits : Traits) (tx : Transaction) (sender : Address) (ledger : Ledger)
    (header : FeeHeader) (authorities : List (Option Address)) :
    Except String (Except TransactionError Unit) :=
  (gasPrice traits tx header.baseFee).map fun price =>
    if ledger.getBalance sender < u256 (tx.gasLimit.val * price) then
      .error .insufficientBalanceForFee
    else if authorities.contains (some systemSender) then
      .error .systemTransactionSenderIsAuthority
    else .ok ()

def validateTransaction (traits : Traits) (codeOf : Hash → Code) (tx : Transaction)
    (sender : Address) (ledger : Ledger) (header : FeeHeader)
    (authorities : List (Option Address)) : Except String (Except TransactionError Unit) :=
  let result := validateEthereumTransaction traits codeOf tx sender ledger
  if traits.monadAtLeast .four then
    match result with
    | .error .insufficientBalance | .ok () =>
      validateFee traits tx sender ledger header authorities
    | .error error => .ok (.error error)
  else .ok result

theorem require_bind {error : TransactionError} {next : Unit → Except TransactionError Unit}
    (passed : (require condition error >>= next) = .ok ()) :
    condition = true ∧ next () = .ok () := by
  unfold require at passed
  split at passed
  · rename_i holds
    exact ⟨holds, passed⟩
  · cases passed

theorem require_ok {error : TransactionError}
    (passed : require condition error = .ok ()) : condition = true := by
  unfold require at passed
  split at passed
  · assumption
  · cases passed

structure StaticallyValid (traits : Traits) (tx : Transaction) (header : FeeHeader) : Prop where
  type : traits.eip4844Active = true ∨ tx.type ≠ .eip4844
  supported : typeSupported traits.evmRev tx.type = true
  baseFee : header.baseFee ≤ tx.maxFeePerGas.val
  intrinsic : intrinsicGas traits tx ≤ tx.gasLimit.val
  floor : traits.evmRev.atLeast .prague = true → floorDataGas traits tx ≤ tx.gasLimit.val
  maxCost : tx.gasLimit.val * tx.maxFeePerGas.val < 2 ^ 256
  blobFee : tx.type = .eip4844 → header.blobBaseFee ≤ tx.maxFeePerBlobGas.val

theorem maxGasCost_isOk {gasLimit maxFee : Nat} (fine : (maxGasCost gasLimit maxFee).isOk = true) :
    gasLimit * maxFee < 2 ^ 256 := by
  unfold maxGasCost checkedMul at fine
  split at fine
  · assumption
  · cases fine

theorem staticallyValid {traits : Traits} {tx : Transaction} {header : FeeHeader}
    {chainId : Rlp.Unsigned 32}
    (passed : staticValidateTransaction traits tx header chainId = .ok ()) :
    StaticallyValid traits tx header := by
  obtain ⟨_, passed⟩ := require_bind passed
  obtain ⟨type, passed⟩ := require_bind passed
  obtain ⟨supported, passed⟩ := require_bind passed
  obtain ⟨baseFee, passed⟩ := require_bind passed
  obtain ⟨_, passed⟩ := require_bind passed
  obtain ⟨_, passed⟩ := require_bind passed
  obtain ⟨intrinsic, passed⟩ := require_bind passed
  obtain ⟨floor, passed⟩ := require_bind passed
  obtain ⟨_, passed⟩ := require_bind passed
  obtain ⟨_, passed⟩ := require_bind passed
  obtain ⟨cost, passed⟩ := require_bind passed
  obtain ⟨_, passed⟩ := require_bind passed
  refine ⟨by simpa using type, supported, of_decide_eq_true baseFee, of_decide_eq_true intrinsic,
    ?_, maxGasCost_isOk cost, ?_⟩
  · intro prague
    rw [prague] at floor
    exact of_decide_eq_true floor
  · intro blob
    have cancun : traits.evmRev.atLeast .cancun = true := by
      rw [blob] at supported
      exact supported
    rw [if_pos (by rw [cancun, decide_eq_true blob]; rfl)] at passed
    exact of_decide_eq_true (require_ok (require_bind passed).2)

end MonadChain.Execution
