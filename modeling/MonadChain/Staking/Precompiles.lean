import MonadChain.Staking.Rewards
import MonadChain.Staking.Lists

/-!
The precompiles of monad/staking/staking_contract.cpp that change state. A method reads its
arguments from the ABI input, which must be used up. Key parsing, signature verification and
keccak are library code behind `Crypto`.
-/

namespace MonadChain.Staking

open Maps

/-- secp256k1, blst and keccak as util/secp256k1.hpp and util/bls.hpp call them.
Keys and signatures are passed in their compressed form. -/
structure Crypto where
  secpPubkeyValid : Bytes → Bool
  secpSerialize : Bytes → Bytes
  secpSignatureValid : Bytes → Bool
  secpVerify : (signature pubkey message : Bytes) → Bool
  blsPubkeyValid : Bytes → Bool
  blsSerialize : Bytes → Bytes
  blsSignatureValid : Bytes → Bool
  blsVerify : (signature pubkey message : Bytes) → Bool
  keccak256 : Bytes → Bytes

def addressOfHash (hash : Bytes) : Address :=
  BitVec.ofNat 160 (loadBe ((hash.drop 12).take 20))

/-- The serialized key starts with a tag byte, which is not hashed. -/
def Crypto.addressFromSecpkey (crypto : Crypto) (serializedPubkey : Bytes) : Address :=
  addressOfHash (crypto.keccak256 (serializedPubkey.drop 1))

def Crypto.addressFromBlsKey (crypto : Crypto) (serializedPubkey : Bytes) : Address :=
  addressOfHash (crypto.keccak256 serializedPubkey)

section

variable (revision : MonadRevision) (input : Bytes) (msgSender : Address) (value : Nat)

def decodeU8 : Contract (UInt8 × Bytes) := do
  let (value, rest) ← ofAbi (abiDecodeFixed 1 input)
  return (UInt8.ofNat value, rest)

def decodeU32 : Contract (Nat × Bytes) := ofAbi (abiDecodeFixed 4 input)

def decodeU64 : Contract (UInt64 × Bytes) := do
  let (value, rest) ← ofAbi (abiDecodeFixed 8 input)
  return (UInt64.ofNat value, rest)

def decodeU256 : Contract (Nat × Bytes) := ofAbi (abiDecodeFixed 32 input)

def decodeAddress : Contract (Address × Bytes) := do
  let (value, rest) ← ofAbi (abiDecodeFixed 20 input)
  return (BitVec.ofNat 160 value, rest)

def inputConsumed : Contract Unit := failIf (input ≠ []) .invalidInput

section

variable (valId : ValId) (stake : Nat) (address : Address)

def addPendingStake : Contract Unit := do
  let s ← get
  let del := s.delegator valId address
  let activeEpoch := s.getActivationEpoch
  if s.inEpochDelayPeriod then do
    -- case 1: compound called in boundary. becomes active in epoch+2
    let delta ← ofMath (checkedAdd del.nextDeltaStake stake)
    modify fun s => s.updateDelegator valId address fun del =>
      { del with nextDeltaStake := delta, nextDeltaEpoch := activeEpoch }
    onlyIf (del.nextDeltaEpoch = 0) (modify fun s => s.incrementAccumulatorRefcount valId)
  else do
    -- case 2: compound called before boundary. becomes active in epoch+1
    let delta ← ofMath (checkedAdd del.deltaStake stake)
    modify fun s => s.updateDelegator valId address fun del =>
      { del with deltaStake := delta, deltaEpoch := activeEpoch }
    onlyIf (del.deltaEpoch = 0) (modify fun s => s.incrementAccumulatorRefcount valId)

def State.reportStatus (s before : State) (valId : ValId) : State :=
  let flags := (s.valExecution valId).flags
  { s with
    logs :=
      if flags ≠ (before.valExecution valId).flags
        then s.logs ++ [.validatorStatusChanged valId flags] else s.logs }

def ValExecution.clearFlags (val : ValExecution) (revision : MonadRevision)
    (address : Address) (nextEpochStake : Nat) : ValExecution :=
  -- does total val stake exceed the minimum threshold?
  let flags :=
    if activeValidatorStake revision ≤ val.stake
      then clearFlag val.flags validatorFlagsStakeTooLow else val.flags
  -- did the auth delegator reactivate?
  let flags :=
    if val.authAddress = address ∧ minAuthAddressStake ≤ nextEpochStake
      then clearFlag flags validatorFlagWithdrawn else flags
  { val with flags := flags }

def State.enterValset (s : State) (valId : ValId) : State :=
  if (s.valExecution valId).flags = validatorFlagsOk then
    let (s, inserted) := s.addToValset valId
    if inserted then { s with valsetExecution := s.valsetExecution.push valId } else s
  else s

def addValidatorStake : Contract Unit := do
  let s ← get
  let newValStake ← ofMath (checkedAdd (s.valExecution valId).stake stake)
  modify fun s => s.updateValidator valId fun val => { val with stake := newValStake }
  modify fun s =>
    (s.updateValidator valId fun val =>
      val.clearFlags revision address (s.delegator valId address).getNextEpochStake
    ).reportStatus s valId
  modify fun s => s.enterValset valId

def joinDelegation : Contract Unit := do
  addPendingStake valId stake address
  let s ← get
  emit (.delegate valId address stake s.getActivationEpoch)
  addValidatorStake revision valId stake address
  -- validator => List[Delegator]
  linkedListInsert delegatorList valId address
  -- delegator => List[Validator]
  linkedListInsert validatorList address valId

/-- Shared by `add_validator`, `delegate` and `compound`. -/
def delegate : Contract Unit := do
  let s ← get
  failIf (¬ (s.valExecution valId).exists) .unknownValidator
  failIf (stake < dustThreshold) .delegationTooSmall
  pullDelegatorUpToDate valId address
  joinDelegation revision valId stake address

end

def State.registerValidator (s : State) (secpEthAddress blsEthAddress : Address)
    (keys : KeysPacked) (authAddress : Address) (commission : Nat) : State :=
  let valId := s.lastValId + 1
  { s with
    valId := Function.update s.valId secpEthAddress valId
    valIdBls := Function.update s.valIdBls blsEthAddress valId
    lastValId := valId
    valExecution :=
      Function.update s.valExecution valId
        { s.valExecution valId with
          keys := keys
          authAddress := authAddress
          flags := validatorFlagsStakeTooLow
          commission := commission } }

def precompileAddValidator (crypto : Crypto) (revision : MonadRevision) (input : Bytes)
    (value : Nat) : Contract Bytes := do
  -- decode the head: three tail offsets are skipped
  let (_, input) ← decodeU256 input
  let (_, input) ← decodeU256 input
  let (_, input) ← decodeU256 input
  -- decode bytes with known lengths from the tail
  let (message, input) ← ofAbi (abiDecodeBytesTail 165 input)
  let (secpSignature, input) ← ofAbi (abiDecodeBytesTail 64 input)
  let (blsSignature, input) ← ofAbi (abiDecodeBytesTail 96 input)
  inputConsumed input
  -- extract individual inputs from the message
  let secpPubkey := message.take 33
  let blsPubkey := (message.drop 33).take 48
  let authAddress : Address := BitVec.ofNat 160 (loadBe ((message.drop 81).take 20))
  let signedStake := loadBe ((message.drop 101).take 32)
  let commission := loadBe ((message.drop 133).take 32)
  failIf (signedStake ≠ value) .invalidInput
  failIf (value < minAuthAddressStake) .insufficientStake
  -- Verify SECP signature
  failIf (crypto.secpPubkeyValid secpPubkey = false) .invalidSecpPubkey
  failIf (crypto.secpSignatureValid secpSignature = false) .invalidSecpSignature
  failIf (crypto.secpVerify secpSignature secpPubkey message = false)
    .secpSignatureVerificationFailed
  -- Verify BLS signature
  failIf (crypto.blsPubkeyValid blsPubkey = false) .invalidBlsPubkey
  failIf (crypto.blsSignatureValid blsSignature = false) .invalidBlsSignature
  failIf (crypto.blsVerify blsSignature blsPubkey message = false)
    .blsSignatureVerificationFailed
  failIf (maxCommission < commission) .commissionTooHigh
  -- Check if validator already exists
  let secpEthAddress := crypto.addressFromSecpkey (crypto.secpSerialize secpPubkey)
  let blsEthAddress := crypto.addressFromBlsKey (crypto.blsSerialize blsPubkey)
  let s ← get
  failIf ((loadChecked (s.valId secpEthAddress)).isSome ∨
    (loadChecked (s.valIdBls blsEthAddress)).isSome) .validatorExists
  let valId := s.lastValId + 1
  modify fun s =>
    s.registerValidator secpEthAddress blsEthAddress ⟨secpPubkey, blsPubkey⟩ authAddress commission
  emit (.validatorCreated valId authAddress commission)
  delegate revision valId value authAddress
  return abiEncodeUint valId.toNat

def precompileDelegate : Contract Bytes := do
  let (valId, input) ← decodeU64 input
  inputConsumed input
  onlyIf (value ≠ 0) (delegate revision valId value msgSender)
  return abiEncodeBool true

def ValExecution.setFlags (val : ValExecution) (revision : MonadRevision)
    (msgSender : Address) (nextEpochStake : Nat) : ValExecution :=
  let flags :=
    if msgSender = val.authAddress ∧ nextEpochStake < minAuthAddressStake
      then setFlag val.flags validatorFlagWithdrawn else val.flags
  let flags :=
    if val.stake < activeValidatorStake revision
      then setFlag flags validatorFlagsStakeTooLow else flags
  { val with flags := flags }

/-- Splits the delegator's stake into the amount to withdraw and the rest, with
the validator's new stake. Dust that would remain leaves with the withdrawal. -/
def splitStake (valStake delStake amount : Nat) : Contract (Nat × Nat × Nat) := do
  failIf (delStake < amount) .insufficientStake
  let valStake ← ofMath (checkedSub valStake amount)
  let delStake ← ofMath (checkedSub delStake amount)
  if delStake < dustThreshold then do
    let amount ← ofMath (checkedAdd amount delStake)
    let valStake ← ofMath (checkedSub valStake delStake)
    return (amount, valStake, 0)
  else return (amount, valStake, delStake)

/-- Each withdrawal request can be thought of as an independent delegator whose
stake is the amount being withdrawn. -/
def State.openWithdrawal (s : State) (valId : ValId) (address : Address)
    (withdrawalId : WithdrawalId) (amount : Nat) : State :=
  let request : WithdrawalRequest :=
    { amount := amount
      acc := (s.delegator valId address).accumulatedRewardPerToken
      epoch := s.getActivationEpoch }
  { s with
    withdrawalRequest := update3 s.withdrawalRequest valId address withdrawalId request }

/-- The end of `precompile_undelegate`: a delegator that is left without stake
gives up its accumulator and its list entries. -/
def freeDelegator (valId : ValId) (msgSender : Address) : Contract Unit := do
  let s ← get
  -- consensus view of stake is zero. should this user re-delegate, he will
  -- receive a new accumulator. this frees up state.
  onlyIf ((s.delegator valId msgSender).stake = 0)
    (modify fun s => s.updateDelegator valId msgSender fun del =>
      { del with accumulatedRewardPerToken := 0 })
  onlyIf ((s.delegator valId msgSender).getNextEpochStake = 0) do
    linkedListRemove delegatorList valId msgSender
    linkedListRemove validatorList msgSender valId

/-- The second half of `precompile_undelegate`, once the amounts are known. -/
def bookUndelegation (valId : ValId) (amount valStake delStake : Nat)
    (withdrawalId : WithdrawalId) (msgSender : Address) : Contract Unit := do
  modify fun s => s.updateValidator valId fun val => { val with stake := valStake }
  modify fun s => s.updateDelegator valId msgSender fun del => { del with stake := delStake }
  modify fun s =>
    (s.updateValidator valId fun val =>
      val.setFlags revision msgSender (s.delegator valId msgSender).getNextEpochStake
    ).reportStatus s valId
  let s ← get
  emit (.undelegate valId msgSender withdrawalId amount s.getActivationEpoch)
  modify fun s => s.openWithdrawal valId msgSender withdrawalId amount
  modify fun s => s.incrementAccumulatorRefcount valId
  freeDelegator valId msgSender

def undelegate (valId : ValId) (amount : Nat)
    (withdrawalId : WithdrawalId) (msgSender : Address) : Contract Unit := do
  let s ← get
  failIf (¬ (s.valExecution valId).exists) .unknownValidator
  failIf (loadChecked (s.withdrawalRequest valId msgSender withdrawalId)).isSome
    .withdrawalIdExists
  pullDelegatorUpToDate valId msgSender
  let s ← get
  let (amount, valStake, delStake) ←
    splitStake (s.valExecution valId).stake (s.delegator valId msgSender).stake amount
  bookUndelegation revision valId amount valStake delStake withdrawalId msgSender

def precompileUndelegate : Contract Bytes := do
  functionNotPayable value
  let (valId, input) ← decodeU64 input
  let (stake, input) ← decodeU256 input
  let (withdrawalId, input) ← decodeU8 input
  inputConsumed input
  onlyIf (stake ≠ 0) (undelegate revision valId stake withdrawalId msgSender)
  return abiEncodeBool true

/-- Ghost: rewards that leave the reward ledger for good. -/
def countPaid (valId : ValId) (address : Address) (rewards : Nat) : Contract Unit :=
  modify fun s => s.updateHistory valId address fun history =>
    { history with paid := history.paid + rewards }

def precompileCompound : Contract Bytes := do
  functionNotPayable value
  let (valId, input) ← decodeU64 input
  inputConsumed input
  pullDelegatorUpToDate valId msgSender
  let s ← get
  let rewards := (s.delegator valId msgSender).rewards
  modify fun s => s.updateDelegator valId msgSender fun del => { del with rewards := 0 }
  countPaid valId msgSender rewards
  onlyIf (rewards ≠ 0) do
    emit (.claimRewards valId msgSender rewards s.epoch)
    delegate revision valId rewards msgSender
  return abiEncodeBool true

def payWithdrawal (valId : ValId) (withdrawalId : WithdrawalId) (msgSender : Address)
    (withdrawalAmount : Nat) : Contract Unit := do
  let s ← get
  assertThrow (withdrawalAmount ≤ s.balance stakingCa) "withdrawal insolvent"
  sendTokens msgSender withdrawalAmount
  emit (.withdraw valId msgSender withdrawalId withdrawalAmount s.epoch)

def withdraw (valId : ValId) (withdrawalId : WithdrawalId) (msgSender : Address) :
    Contract Unit := do
  let s ← get
  let request := s.withdrawalRequest valId msgSender withdrawalId
  failIf (loadChecked request).isNone .unknownWithdrawalId
  modify fun s =>
    { s with withdrawalRequest := update3 s.withdrawalRequest valId msgSender withdrawalId {} }
  failIf (¬ s.isEpochActive (epochAfter request.epoch withdrawalDelay)) .withdrawalNotReady
  let withdrawAcc ← decrementAccumulatorRefcount request.epoch valId
  let rewards ← ofMath (calculateRewards request.amount withdrawAcc request.acc)
  countSettlement valId msgSender
  rewardInvariant valId rewards
  let withdrawalAmount ← ofMath (checkedAdd request.amount rewards)
  countPaid valId msgSender rewards
  payWithdrawal valId withdrawalId msgSender withdrawalAmount

def precompileWithdraw : Contract Bytes := do
  functionNotPayable value
  let (valId, input) ← decodeU64 input
  let (withdrawalId, input) ← decodeU8 input
  inputConsumed input
  withdraw valId withdrawalId msgSender
  return abiEncodeBool true

def precompileClaimRewards : Contract Bytes := do
  functionNotPayable value
  let (valId, input) ← decodeU64 input
  inputConsumed input
  pullDelegatorUpToDate valId msgSender
  let s ← get
  let rewards := (s.delegator valId msgSender).rewards
  onlyIf (rewards ≠ 0) do
    sendTokens msgSender rewards
    modify fun s => s.updateDelegator valId msgSender fun del => { del with rewards := 0 }
    countPaid valId msgSender rewards
    emit (.claimRewards valId msgSender rewards s.epoch)
  return abiEncodeBool true

def precompileChangeCommission : Contract Bytes := do
  functionNotPayable value
  let (valId, input) ← decodeU64 input
  let (newCommission, input) ← decodeU256 input
  inputConsumed input
  let s ← get
  failIf (¬ (s.valExecution valId).exists) .unknownValidator
  failIf (msgSender ≠ (s.valExecution valId).authAddress) .requiresAuthAddress
  failIf (maxCommission < newCommission) .commissionTooHigh
  -- set in execution view. will go live next epoch.
  let oldCommission := (s.valExecution valId).commission
  onlyIf (oldCommission ≠ newCommission) do
    modify fun s => s.updateValidator valId fun val => { val with commission := newCommission }
    emit (.commissionChanged valId oldCommission newCommission)
  return abiEncodeBool true

def precompileExternalReward : Contract Bytes := do
  let (valId, input) ← decodeU64 input
  inputConsumed input
  -- 1. Only validators in the consensus set can invoke this method.
  let s ← get
  failIf (¬ (s.valExecution valId).exists) .unknownValidator
  let activeStake := (s.thisEpochView valId).stake
  failIf (activeStake = 0) .notInValidatorSet
  -- 2. Apply bounds checks
  failIf (value < minExternalReward) .externalRewardTooSmall
  failIf (maxExternalReward < value) .externalRewardTooLarge
  -- 3. Update validator accumulator.
  applyReward valId msgSender value activeStake
  return abiEncodeBool true

end

end MonadChain.Staking
