import MonadChain.Core.CheckedMath
import MonadChain.Core.Revision
import MonadChain.Contract.Abi
import MonadChain.Contract.Storage
import MonadChain.Lib.Maps
import Mathlib.Data.FinEnum

/-!
Storage of the staking contract: monad/staking/staking_contract.hpp and monad/staking/util. Every
mapping of the source is a total map whose absent entries are zero. Amounts are `uint256_t` values
written only through checked arithmetic. Epoch numbers are `uint64_t` values, and the source adds
to them without a carry check: `epochAfter` is that addition. `history` is ghost data: it is
written where rewards fall due, are paid and are settled, and no definition of the contract reads
it.
-/

namespace MonadChain.Staking

open Maps

abbrev ValId := UInt64
abbrev Address := BitVec 160
abbrev WithdrawalId := UInt8

inductive StakingError where
  | internalError
  | methodNotSupported
  | invalidInput
  | validatorExists
  | unknownValidator
  | unknownDelegator
  | withdrawalIdExists
  | unknownWithdrawalId
  | withdrawalNotReady
  | insufficientStake
  | invalidSecpPubkey
  | invalidBlsPubkey
  | invalidSecpSignature
  | invalidBlsSignature
  | secpSignatureVerificationFailed
  | blsSignatureVerificationFailed
  | notInValidatorSet
  | solvencyError
  | snapshotInBoundary
  | invalidEpochChange
  | requiresAuthAddress
  | commissionTooHigh
  | valueNonZero
  | delegationTooSmall
  | externalRewardTooSmall
  | externalRewardTooLarge
  deriving DecidableEq, Repr

/-- What stops a call: an error of one of the three error domains, the two checks
around a precompile call, or a failed `MONAD_ASSERT`/`MONAD_ASSERT_THROW`. -/
inductive Failure where
  | staking (error : StakingError)
  | math (error : MathError)
  | abi (error : AbiDecodeError)
  | rejected
  | outOfGas
  | assertion (message : String)
  deriving DecidableEq, Repr

/-! util/constants.hpp -/

def stakingCa : Address := 0x1000
def priorityFeeDistAddress : Address := 0xfee5fee5fee5fee5fee5fee5fee5fee5fee5fee5
def systemSender : Address := 0x6f49a8f621353f12378d0046e7d7e4b9b249dc9e

def mon : Nat := 10 ^ 18
def unitBias : Nat := 10 ^ 36

def dustThreshold : Nat := 10 ^ 9
def maxCommission : Nat := mon

def activeValidatorStake (revision : MonadRevision) : Nat :=
  if revision.atLeast .five then 10000000 * mon else 25000000 * mon

def minAuthAddressStake : Nat := 100000 * mon
def minExternalReward : Nat := dustThreshold
def maxExternalReward : Nat := 10 ^ 25
def activeValsetSize : Nat := 200
def arrayPagination : Nat := 100

def linkedListPagination (revision : MonadRevision) : Nat :=
  if revision.atLeast .eight then 50 else 100

def withdrawalDelay : Nat := 1

def validatorFlagsOk : BitVec 64 := 0
def validatorFlagsStakeTooLow : BitVec 64 := 1
def validatorFlagWithdrawn : BitVec 64 := 2

/-! util/val_execution.hpp, util/consensus_view.hpp, util/delegator.hpp -/

structure KeysPacked where
  secpPubkey : Bytes := List.replicate 33 0
  blsPubkey : Bytes := List.replicate 48 0
  deriving DecidableEq

structure ValExecution where
  stake : Nat := 0
  accumulatedRewardPerToken : Nat := 0
  commission : Nat := 0
  keys : KeysPacked := {}
  authAddress : Address := 0
  flags : BitVec 64 := 0
  unclaimedRewards : Nat := 0

namespace ValExecution

def «exists» (val : ValExecution) : Prop := val.authAddress ≠ 0

instance (val : ValExecution) : Decidable val.exists :=
  inferInstanceAs (Decidable (val.authAddress ≠ 0))

end ValExecution

def setFlag (flags flag : BitVec 64) : BitVec 64 := flags ||| flag

def clearFlag (flags flag : BitVec 64) : BitVec 64 := flags &&& ~~~flag

structure ConsensusView where
  stake : Nat := 0
  commission : Nat := 0
  deriving DecidableEq

/-- One entry of the `delegator` mapping, less its list node. -/
structure Delegator where
  stake : Nat := 0
  accumulatedRewardPerToken : Nat := 0
  rewards : Nat := 0
  deltaStake : Nat := 0
  nextDeltaStake : Nat := 0
  deltaEpoch : Nat := 0
  nextDeltaEpoch : Nat := 0
  deriving DecidableEq

/-- The source adds the three amounts without a carry check. -/
def Delegator.getNextEpochStake (del : Delegator) : Nat :=
  (del.stake + del.deltaStake + del.nextDeltaStake) % 2 ^ 256

/-- `inext`/`iprev` link the validators of one delegator, `anext`/`aprev` the
delegators of one validator. -/
structure ListNode where
  inext : ValId := 0
  iprev : ValId := 0
  anext : Address := 0
  aprev : Address := 0
  deriving DecidableEq

structure WithdrawalRequest where
  amount : Nat := 0
  acc : Nat := 0
  epoch : Nat := 0
  deriving DecidableEq

structure RefCountedAccumulator where
  value : Nat := 0
  refcount : Nat := 0
  deriving DecidableEq

instance : Inhabited ConsensusView := ⟨{}⟩
instance : Inhabited WithdrawalRequest := ⟨{}⟩
instance : Inhabited RefCountedAccumulator := ⟨{}⟩

inductive Event where
  | validatorRewarded (valId : ValId) («from» : Address) (amount epoch : Nat)
  | validatorCreated (valId : ValId) (authDelegator : Address) (commission : Nat)
  | validatorStatusChanged (valId : ValId) (flags : BitVec 64)
  | delegate (valId : ValId) (delegator : Address) (amount activeEpoch : Nat)
  | undelegate (valId : ValId) (delegator : Address) (withdrawalId : WithdrawalId)
      (amount activationEpoch : Nat)
  | withdraw (valId : ValId) (delegator : Address) (withdrawalId : WithdrawalId)
      (amount withdrawEpoch : Nat)
  | claimRewards (valId : ValId) (delegator : Address) (amount epoch : Nat)
  | commissionChanged (valId : ValId) (oldCommission newCommission : Nat)
  | epochChanged (oldEpoch newEpoch : Nat)

/-- Ghost ledger of one delegator with one validator. `paid` counts rewards paid
out or compounded; `due`, scaled by `unitBias`, the shares of all reward events
and commissions; `settled` the settlements that rounded a share down. -/
structure History where
  paid : Nat := 0
  due : Nat := 0
  settled : Nat := 0

structure State where
  epoch : Nat := 0
  inEpochDelayPeriod : Bool := false
  lastValId : ValId := 0
  proposerValId : ValId := 0
  valsetExecution : StorageArray ValId := .empty
  valsetConsensus : StorageArray ValId := .empty
  valsetSnapshot : StorageArray ValId := .empty
  valId : Address → ValId := fun _ => 0
  valIdBls : Address → ValId := fun _ => 0
  /-- Keyed by the top 56 bits of a validator id. -/
  valBitsetBucket : Nat → BitVec 256 := fun _ => 0
  valExecution : ValId → ValExecution := fun _ => {}
  consensusView : ValId → ConsensusView := fun _ => {}
  snapshotView : ValId → ConsensusView := fun _ => {}
  delegator : ValId → Address → Delegator := fun _ _ => {}
  listNode : ValId → Address → ListNode := fun _ _ => {}
  withdrawalRequest : ValId → Address → WithdrawalId → WithdrawalRequest := fun _ _ _ => {}
  accumulatedRewardPerToken : Nat → ValId → RefCountedAccumulator := fun _ _ => {}
  balance : Address → Nat := fun _ => 0
  logs : List Event := []
  /-- Zero reference counts reported through `LOG_INFO`: epoch and validator. -/
  infoLog : List (Nat × ValId) := []
  history : ValId → Address → History := fun _ _ => {}

abbrev Contract := EStateM Failure State

def epochAfter (epoch steps : Nat) : Nat := (epoch + steps) % 2 ^ 64

namespace State

section

variable (s : State) (valId : ValId)

def updateDelegator (address : Address) (change : Delegator → Delegator) : State :=
  { s with
    delegator :=
      update2 s.delegator valId address (change (s.delegator valId address)) }

def updateValidator (change : ValExecution → ValExecution) : State :=
  { s with
    valExecution :=
      Function.update s.valExecution valId (change (s.valExecution valId)) }

def updateHistory (address : Address) (change : History → History) : State :=
  { s with history := update2 s.history valId address (change (s.history valId address)) }

def thisEpochValset : StorageArray ValId :=
  if s.inEpochDelayPeriod then s.valsetSnapshot else s.valsetConsensus

def thisEpochView : ConsensusView :=
  if s.inEpochDelayPeriod then s.snapshotView valId else s.consensusView valId

def getActivationEpoch : Nat :=
  if s.inEpochDelayPeriod then epochAfter s.epoch 2 else epochAfter s.epoch 1

def isEpochActive (activeEpoch : Nat) : Prop :=
  activeEpoch ≠ 0 ∧ activeEpoch ≤ s.epoch

end

instance (s : State) (activeEpoch : Nat) : Decidable (s.isEpochActive activeEpoch) :=
  inferInstanceAs (Decidable (_ ∧ _))

/-- Stake of one delegator that earns rewards in `epoch`: active and activated
delegations, and own withdrawal requests that are not yet effective. -/
def activeStake (s : State) (epoch : Nat) (valId : ValId) (address : Address) : Nat :=
  let del := s.delegator valId address
  del.stake + (if del.deltaEpoch ≤ epoch then del.deltaStake else 0) +
    (if del.nextDeltaEpoch ≤ epoch then del.nextDeltaStake else 0) +
    ∑ id, if epoch < (s.withdrawalRequest valId address id).epoch
      then (s.withdrawalRequest valId address id).amount else 0

end State

/-! Control helpers. The source returns an error where a check fails. -/

def failIf (bad : Prop) [Decidable bad] (error : StakingError) : Contract Unit :=
  if bad then throw (.staking error) else pure ()

def assertThrow (good : Prop) [Decidable good] (message : String) : Contract Unit :=
  if good then pure () else throw (.assertion message)

def onlyIf (condition : Prop) [Decidable condition] (block : Contract Unit) : Contract Unit :=
  if condition then block else pure ()

def ofMath {α : Type} : Except MathError α → Contract α
  | .ok value => pure value
  | .error error => throw (.math error)

def ofAbi {α : Type} : Except AbiDecodeError α → Contract α
  | .ok value => pure value
  | .error error => throw (.abi error)

def emit (event : Event) : Contract Unit :=
  modify fun s => { s with logs := s.logs ++ [event] }

def addToBalance (address : Address) (delta : Nat) : Contract Unit := do
  let s ← get
  assertThrow (s.balance address + delta < 2 ^ 256) "balance overflow"
  modify fun s =>
    { s with balance := Function.update s.balance address (s.balance address + delta) }

def subtractFromBalance (address : Address) (delta : Nat) : Contract Unit := do
  let s ← get
  assertThrow (delta ≤ s.balance address) "balance underflow"
  modify fun s =>
    { s with balance := Function.update s.balance address (s.balance address - delta) }

end MonadChain.Staking
