import MonadChain.Lib.Path
import MonadChain.Staking.Machine

/-!
What the contract can do to its state. Each handler is a sequence of the actions below; an action
is one complete change of the ledgers with the checks the source has passed at that point. Its
label is the value it frees: a credit frees its amount, a delegation binds it again.
-/

namespace MonadChain.Staking

open Maps

def rewardsOf (stake currentAcc lastCheckedAcc : Nat) : Nat :=
  (currentAcc - lastCheckedAcc) * stake / unitBias

/-- What `decrement_accumulator_refcount` returns. -/
def RefCountedAccumulator.held (acc : RefCountedAccumulator) : Nat :=
  if acc.refcount = 0 then 0 else acc.value

def RefCountedAccumulator.dropped (acc : RefCountedAccumulator) : RefCountedAccumulator :=
  if acc.refcount = 0 then acc else acc.released

namespace State

section

variable (s : State) (valId : ValId) (address : Address)

def held (epoch : Nat) (valId : ValId) : Nat :=
  (s.accumulatedRewardPerToken epoch valId).held

def dropReference (epoch : Nat) (valId : ValId) : State :=
  let acc := s.accumulatedRewardPerToken epoch valId
  { s with
    accumulatedRewardPerToken :=
      update2 s.accumulatedRewardPerToken epoch valId acc.dropped
    infoLog := if acc.refcount = 0 then s.infoLog ++ [(epoch, valId)] else s.infoLog }

def payFromPool (rewards : Nat) : State :=
  let val := s.valExecution valId
  let history := s.history valId address
  { s with
    valExecution :=
      Function.update s.valExecution valId
        { val with unclaimedRewards := val.unclaimedRewards - rewards }
    history :=
      update2 s.history valId address { history with settled := history.settled + 1 } }

def compoundRewards : Nat :=
  let del := s.delegator valId address
  rewardsOf del.stake (s.held del.deltaEpoch valId) del.accumulatedRewardPerToken

def compounded : State :=
  let del := s.delegator valId address
  let rewards := s.compoundRewards valId address
  ((s.dropReference del.deltaEpoch valId).payFromPool valId address rewards).updateDelegator
    valId address fun del =>
      { promoteDelta del with
        stake := del.stake + del.deltaStake
        accumulatedRewardPerToken := s.held del.deltaEpoch valId
        rewards := del.rewards + rewards }

def stakeRewards : Nat :=
  let del := s.delegator valId address
  rewardsOf del.stake (s.valExecution valId).accumulatedRewardPerToken
    del.accumulatedRewardPerToken

def settled : State :=
  let rewards := s.stakeRewards valId address
  (s.payFromPool valId address rewards).updateDelegator valId address fun del =>
    { del with
      accumulatedRewardPerToken := (s.valExecution valId).accumulatedRewardPerToken
      rewards := del.rewards + rewards }

def promoted : State :=
  s.updateDelegator valId address promoteDelta

def compoundedPending : State :=
  let del := s.delegator valId address
  let once := if s.isEpochActive del.nextDeltaEpoch then s.compounded valId address else s
  if s.isEpochActive del.deltaEpoch then once.compounded valId address else once

def readied : State :=
  if canPromoteDelta (s.delegator valId address) s.epoch then s.promoted valId address else s

def pulled : State :=
  let s := (s.readied valId address).compoundedPending valId address
  if (s.delegator valId address).stake ≠ 0 then s.settled valId address else s

end

structure Idle (s : State) (valId : ValId) (address : Address) : Prop where
  delta : ¬ s.isEpochActive (s.delegator valId address).deltaEpoch
  next : ¬ s.isEpochActive (s.delegator valId address).nextDeltaEpoch
  promoted : canPromoteDelta (s.delegator valId address) s.epoch →
    (s.delegator valId address).nextDeltaEpoch = 0 ∧
      (s.delegator valId address).nextDeltaStake = 0

structure Pulled (s : State) (valId : ValId) (address : Address) : Prop extends
    Idle s valId address where
  current : (s.delegator valId address).stake ≠ 0 →
    (s.delegator valId address).accumulatedRewardPerToken =
      (s.valExecution valId).accumulatedRewardPerToken
  recorded : (s.delegator valId address).stake ≠ 0 →
    (s.delegator valId address).rewards < 2 ^ 256

section

variable (s : State) (valId : ValId) (address : Address)

def withdrawalRewards (withdrawalId : WithdrawalId) : Nat :=
  let request := s.withdrawalRequest valId address withdrawalId
  rewardsOf request.amount (s.held request.epoch valId) request.acc

def rewardsPaid (rewards : Nat) : State :=
  s.updateHistory valId address fun history => { history with paid := history.paid + rewards }

def withdrawn (withdrawalId : WithdrawalId) : State :=
  let request := s.withdrawalRequest valId address withdrawalId
  let rewards := s.withdrawalRewards valId address withdrawalId
  { ((s.dropReference request.epoch valId).payFromPool valId address rewards).rewardsPaid
      valId address rewards with
    withdrawalRequest := update3 s.withdrawalRequest valId address withdrawalId {} }

def rewardsTaken : State :=
  (s.updateDelegator valId address fun del => { del with rewards := 0 }).rewardsPaid
    valId address (s.delegator valId address).rewards

def logged (event : Event) : State := { s with logs := s.logs ++ [event] }

def referenced : Nat → ValId → RefCountedAccumulator :=
  (s.incrementAccumulatorRefcount valId).accumulatedRewardPerToken

end

end State

/-- New stake goes to the slot that activates next. -/
def Delegator.withPending (del : Delegator) (delay : Bool) (stake epoch : Nat) : Delegator :=
  if delay then { del with nextDeltaStake := del.nextDeltaStake + stake, nextDeltaEpoch := epoch }
  else { del with deltaStake := del.deltaStake + stake, deltaEpoch := epoch }

def Delegator.pendingEpoch (del : Delegator) (delay : Bool) : Nat :=
  if delay then del.nextDeltaEpoch else del.deltaEpoch

def Delegator.pendingStake (del : Delegator) (delay : Bool) : Nat :=
  if delay then del.nextDeltaStake else del.deltaStake

def statusReport (valId : ValId) (before after : BitVec 64) : List Event :=
  if after ≠ before then [.validatorStatusChanged valId after] else []

namespace State

def withPending (s : State) (valId : ValId) (stake : Nat) (address : Address) : State :=
  let del := s.delegator valId address
  { s with
    delegator :=
      update2 s.delegator valId address
        (del.withPending s.inEpochDelayPeriod stake s.getActivationEpoch)
    accumulatedRewardPerToken :=
      if del.pendingEpoch s.inEpochDelayPeriod = 0 then s.referenced valId
      else s.accumulatedRewardPerToken }

section

variable (s : State) (revision : MonadRevision) (valId : ValId)

def valsetAfter (flags : BitVec 64) : StorageArray ValId :=
  if flags = validatorFlagsOk ∧ s.valBitsetBucket (bucketOf valId) &&& maskOf valId = 0 then
    s.valsetExecution.push valId
  else s.valsetExecution

def bitsetAfter (flags : BitVec 64) : Nat → BitVec 256 :=
  if flags = validatorFlagsOk then
    Function.update s.valBitsetBucket (bucketOf valId)
      (s.valBitsetBucket (bucketOf valId) ||| maskOf valId)
  else s.valBitsetBucket

def withValidatorStake (stake : Nat) (address : Address) : State :=
  let val := { s.valExecution valId with stake := (s.valExecution valId).stake + stake }.clearFlags
    revision address (s.delegator valId address).getNextEpochStake
  { s with
    valExecution := Function.update s.valExecution valId val
    valsetExecution := s.valsetAfter valId val.flags
    valBitsetBucket := s.bitsetAfter valId val.flags
    logs := s.logs ++ statusReport valId (s.valExecution valId).flags val.flags }

def listed (address : Address) : State :=
  { s with
    listNode :=
      validatorList.insert (delegatorList.insert s.listNode valId address) address valId }

def joined (stake : Nat) (address : Address) : State :=
  (((s.withPending valId stake address).logged
    (.delegate valId address stake s.getActivationEpoch)).withValidatorStake
      revision valId stake address).listed valId address

end

structure Joinable (s : State) (valId : ValId) (stake : Nat) (address : Address) : Prop where
  known : (s.valExecution valId).exists
  large : dustThreshold ≤ stake
  pulled : s.Pulled valId address
  pendingFits : (s.delegator valId address).pendingStake s.inEpochDelayPeriod + stake < 2 ^ 256
  stakeFits : (s.valExecution valId).stake + stake < 2 ^ 256
  address : address ≠ 0 ∧ address ≠ BitVec.allOnes 160
  validator : valId ≠ 0 ∧ valId ≠ 0xFFFFFFFFFFFFFFFF

def registered (s : State) (secpEthAddress blsEthAddress : Address) (keys : KeysPacked)
    (authAddress : Address) (commission : Nat) : State :=
  (s.registerValidator secpEthAddress blsEthAddress keys authAddress commission).logged
    (.validatorCreated (s.lastValId + 1) authAddress commission)

def booked (s : State) (revision : MonadRevision) (valId : ValId) (amount : Nat)
    (withdrawalId : WithdrawalId) (address : Address) : State :=
  let del := s.delegator valId address
  let del := { del with stake := del.stake - amount }
  let val := { s.valExecution valId with stake := (s.valExecution valId).stake - amount }.setFlags
    revision address del.getNextEpochStake
  { s with
    delegator := update2 s.delegator valId address del
    valExecution := Function.update s.valExecution valId val
    withdrawalRequest :=
      update3 s.withdrawalRequest valId address withdrawalId
        { amount := amount
          acc := del.accumulatedRewardPerToken
          epoch := s.getActivationEpoch }
    accumulatedRewardPerToken := s.referenced valId
    logs := s.logs ++ statusReport valId (s.valExecution valId).flags val.flags ++
      [.undelegate valId address withdrawalId amount s.getActivationEpoch] }

def freed (s : State) (valId : ValId) (address : Address) : State :=
  let del := s.delegator valId address
  { s with
    delegator :=
      update2 s.delegator valId address
        { del with
          accumulatedRewardPerToken :=
            if del.stake = 0 then 0 else del.accumulatedRewardPerToken }
    listNode :=
      if del.getNextEpochStake = 0 then
        validatorList.remove (delegatorList.remove s.listNode valId address) address valId
      else s.listNode }

def left (s : State) (revision : MonadRevision) (valId : ValId) (amount : Nat)
    (withdrawalId : WithdrawalId) (address : Address) : State :=
  (s.booked revision valId amount withdrawalId address).freed valId address

structure Leavable (s : State) (valId : ValId) (amount : Nat) (withdrawalId : WithdrawalId)
    (address : Address) : Prop where
  known : (s.valExecution valId).exists
  fresh : s.withdrawalRequest valId address withdrawalId = {}
  pulled : s.Pulled valId address
  positive : 0 < amount
  covered : amount ≤ (s.delegator valId address).stake
  noDust : (s.delegator valId address).stake - amount = 0 ∨
    dustThreshold ≤ (s.delegator valId address).stake - amount
  bounded : amount ≤ (s.valExecution valId).stake

section

variable (s : State) (valId : ValId)

def commissionCredited (commission : Nat) : State :=
  let auth := (s.valExecution valId).authAddress
  (s.updateDelegator valId auth fun del =>
    { del with rewards := del.rewards + commission }).updateHistory valId auth fun history =>
      { history with due := history.due + unitBias * commission }

def accIncrease (reward : Nat) : Nat :=
  reward * unitBias / (s.thisEpochView valId).stake

def rewarded («from» : Address) (reward : Nat) : State :=
  ((s.updateValidator valId fun val =>
      { val with
        accumulatedRewardPerToken :=
          val.accumulatedRewardPerToken + s.accIncrease valId reward
        unclaimedRewards := val.unclaimedRewards + reward }).rewardFallsDue valId
    (s.accIncrease valId reward)).logged (.validatorRewarded valId «from» reward s.epoch)

def removedAt (index : Nat) : State :=
  { s.removeFromValset (s.valsetExecution.get index) with
    valsetExecution := s.valsetExecution.swapRemove index }

end

def removedAll : List Nat → State → State
  | [], s => s
  | index :: rest, s => removedAll rest (s.removedAt index)

def snapshotTaken (s : State) : State :=
  { removedAll s.removals.reverse s.rotateViews with inEpochDelayPeriod := true }

end State

inductive Action (revision : MonadRevision) : Int → State → State → Prop
  | promote (s : State) (valId : ValId) (address : Address)
      (ready : canPromoteDelta (s.delegator valId address) s.epoch) :
      Action revision 0 s (s.promoted valId address)
  | compound (s : State) (valId : ValId) (address : Address)
      (active : s.isEpochActive (s.delegator valId address).deltaEpoch)
      (ordered : (s.delegator valId address).accumulatedRewardPerToken ≤
        s.held (s.delegator valId address).deltaEpoch valId)
      (solvent : s.compoundRewards valId address ≤ (s.valExecution valId).unclaimedRewards) :
      Action revision 0 s (s.compounded valId address)
  | settle (s : State) (valId : ValId) (address : Address)
      (idle : s.Idle valId address) (staked : (s.delegator valId address).stake ≠ 0)
      (ordered : (s.delegator valId address).accumulatedRewardPerToken ≤
        (s.valExecution valId).accumulatedRewardPerToken)
      (solvent : s.stakeRewards valId address ≤ (s.valExecution valId).unclaimedRewards) :
      Action revision 0 s (s.settled valId address)
  | takeRewards (s : State) (valId : ValId) (address : Address) :
      Action revision (s.delegator valId address).rewards s (s.rewardsTaken valId address)
  | join (s : State) (valId : ValId) (stake : Nat) (address : Address)
      (joinable : s.Joinable valId stake address) :
      Action revision (-stake) s (s.joined revision valId stake address)
  | enroll (s : State) (secpEthAddress blsEthAddress : Address) (keys : KeysPacked)
      (authAddress : Address) (commission stake : Nat)
      (newSecp : s.valId secpEthAddress = 0) (newBls : s.valIdBls blsEthAddress = 0)
      (large : minAuthAddressStake ≤ stake) (fair : commission ≤ maxCommission)
      (joinable : (s.registered secpEthAddress blsEthAddress keys authAddress
        commission).Joinable (s.lastValId + 1) stake authAddress) :
      Action revision (-stake) s
        ((s.registered secpEthAddress blsEthAddress keys authAddress commission).joined
          revision (s.lastValId + 1) stake authAddress)
  | leave (s : State) (valId : ValId) (amount : Nat) (withdrawalId : WithdrawalId)
      (address : Address) (leavable : s.Leavable valId amount withdrawalId address) :
      Action revision 0 s (s.left revision valId amount withdrawalId address)
  | withdraw (s : State) (valId : ValId) (address : Address) (withdrawalId : WithdrawalId)
      («open» : s.withdrawalRequest valId address withdrawalId ≠ {})
      (ready : s.isEpochActive
        (epochAfter (s.withdrawalRequest valId address withdrawalId).epoch withdrawalDelay))
      (ordered : (s.withdrawalRequest valId address withdrawalId).acc ≤
        s.held (s.withdrawalRequest valId address withdrawalId).epoch valId)
      (solvent : s.withdrawalRewards valId address withdrawalId ≤
        (s.valExecution valId).unclaimedRewards) :
      Action revision
        ((s.withdrawalRequest valId address withdrawalId).amount +
          s.withdrawalRewards valId address withdrawalId : Nat)
        s (s.withdrawn valId address withdrawalId)
  | balances (s : State) (balance : Address → Nat) :
      Action revision (balance stakingCa - s.balance stakingCa) s { s with balance := balance }
  | commission (s : State) (valId : ValId) (commission : Nat)
      (known : (s.valExecution valId).exists) :
      Action revision (-commission) s (s.commissionCredited valId commission)
  | reward (s : State) (valId : ValId) («from» : Address) (reward : Nat)
      (known : (s.valExecution valId).exists) (active : (s.thisEpochView valId).stake ≠ 0) :
      Action revision (-reward) s (s.rewarded valId «from» reward)
  | propose (s : State) (valId : ValId)
      (active : valId = 0 ∨ (s.thisEpochView valId).stake ≠ 0) :
      Action revision 0 s { s with proposerValId := valId }
  | changeCommission (s : State) (valId : ValId) (commission : Nat)
      (known : (s.valExecution valId).exists) (fair : commission ≤ maxCommission) :
      Action revision 0 s
        (s.updateValidator valId fun val => { val with commission := commission })
  | snapshot (s : State) (first : s.inEpochDelayPeriod = false) :
      Action revision 0 s s.snapshotTaken
  | log (s : State) (event : Event) : Action revision 0 s (s.logged event)

abbrev Moves (revision : MonadRevision) : Int → State → State → Prop := Path (Action revision)

/-- Failures the contract answers with on bad input or an exhausted range. The
others would mean that a ledger is out of step. -/
def Failure.expected : Failure → Bool
  | .staking error => error ≠ .solvencyError
  | .math error => error ≠ .underflow
  | .assertion message => message = "balance overflow" || message = "fee distribution error"
  | .abi _ | .rejected | .outOfGas => true

inductive Settlement (s : State) : ValId → Nat → Nat → Nat → Prop
  | compound (valId : ValId) (address : Address)
      (active : s.isEpochActive (s.delegator valId address).deltaEpoch) :
      Settlement s valId (s.delegator valId address).stake
        (s.held (s.delegator valId address).deltaEpoch valId)
        (s.delegator valId address).accumulatedRewardPerToken
  | stake (valId : ValId) (address : Address) (idle : s.Idle valId address)
      (staked : (s.delegator valId address).stake ≠ 0) :
      Settlement s valId (s.delegator valId address).stake
        (s.valExecution valId).accumulatedRewardPerToken
        (s.delegator valId address).accumulatedRewardPerToken
  | withdrawal (valId : ValId) (address : Address) (withdrawalId : WithdrawalId)
      («open» : s.withdrawalRequest valId address withdrawalId ≠ {})
      (ready : s.isEpochActive
        (epochAfter (s.withdrawalRequest valId address withdrawalId).epoch withdrawalDelay)) :
      Settlement s valId (s.withdrawalRequest valId address withdrawalId).amount
        (s.held (s.withdrawalRequest valId address withdrawalId).epoch valId)
        (s.withdrawalRequest valId address withdrawalId).acc

/-- The condition of the state behind each unexpected failure. -/
inductive Fault (s : State) : Failure → Prop
  | expected {failure : Failure} (listed : failure.expected = true) : Fault s failure
  | insolvent {valId : ValId} {stake current last : Nat}
      (settlement : Settlement s valId stake current last)
      (ordered : last ≤ current)
      (short : (s.valExecution valId).unclaimedRewards < rewardsOf stake current last) :
      Fault s (.staking .solvencyError)
  | disordered {valId : ValId} {stake current last : Nat}
      (settlement : Settlement s valId stake current last) (short : current < last) :
      Fault s (.math .underflow)
  | overdrawn {valId : ValId} {address : Address}
      (short : (s.valExecution valId).stake < (s.delegator valId address).stake) :
      Fault s (.math .underflow)
  | overcharged {valId : ValId} (high : mon < (s.thisEpochView valId).commission) :
      Fault s (.math .underflow)
  | skipped {valId : ValId} {address : Address}
      (next : s.isEpochActive (s.delegator valId address).nextDeltaEpoch)
      (delta : ¬ s.isEpochActive (s.delegator valId address).deltaEpoch)
      (promoted : canPromoteDelta (s.delegator valId address) s.epoch →
        (s.delegator valId address).nextDeltaEpoch = 0) :
      Fault s (.assertion "staking compound logic error")
  | unfundedWithdrawal {valId : ValId} {address : Address} {withdrawalId : WithdrawalId}
      (solvent : s.withdrawalRewards valId address withdrawalId ≤
        (s.valExecution valId).unclaimedRewards)
      (short : s.balance stakingCa < (s.withdrawalRequest valId address withdrawalId).amount +
        s.withdrawalRewards valId address withdrawalId) :
      Fault s (.assertion "withdrawal insolvent")
  | unfundedRewards {valId : ValId} {address : Address}
      (short : s.balance stakingCa < (s.delegator valId address).rewards) :
      Fault s (.assertion "balance underflow")
  | badListEntry {valId : ValId} {address : Address}
      (staked : (s.delegator valId address).stake ≠ 0)
      (bad : (address = 0 ∨ address = BitVec.allOnes 160) ∨
        (valId = 0 ∨ valId = 0xFFFFFFFFFFFFFFFF)) :
      Fault s (.assertion "invalid list entry")

def Dangling (s : State) : Prop :=
  (∃ valId address, s.isEpochActive (s.delegator valId address).deltaEpoch ∧
    (s.accumulatedRewardPerToken (s.delegator valId address).deltaEpoch valId).refcount = 0) ∨
  ∃ valId address withdrawalId, s.withdrawalRequest valId address withdrawalId ≠ {} ∧
    (s.accumulatedRewardPerToken
      (s.withdrawalRequest valId address withdrawalId).epoch valId).refcount = 0

/-- A failed run got through some actions to a state with a reason to fail. -/
def Failed (revision : MonadRevision) (before : State) (failure : Failure) (after : State) : Prop :=
  ∃ freed : Int, ∃ s : State, 0 ≤ freed ∧ Moves revision freed before s ∧ Fault s failure ∧
    (after.infoLog = s.infoLog ∨ Dangling s)

end MonadChain.Staking
