import MonadChain.Staking.State

/-!
The helpers of monad/staking/staking_contract.cpp: reward arithmetic, reference counted
accumulators, the validator bitset, and the lazy settlement of one delegator when it is pulled up
to date.
-/

namespace MonadChain.Staking

open Maps

def checkedMulDiv (x y z : Nat) : Except MathError Nat := do
  let p ← checkedMul x y
  checkedDiv p z

def calculateRewards (stake currentAcc lastCheckedAcc : Nat) : Except MathError Nat := do
  let delta ← checkedSub currentAcc lastCheckedAcc
  checkedMulDiv delta stake unitBias

def splitCommission (reward commissionRate : Nat) : Except MathError (Nat × Nat) := do
  let commission ← checkedMulDiv reward commissionRate mon
  let delReward ← checkedSub reward commission
  return (commission, delReward)

def functionNotPayable (value : Nat) : Contract Unit := failIf (value ≠ 0) .valueNonZero

def mintTokens (amount : Nat) : Contract Unit := addToBalance stakingCa amount

def sendTokens (recipient : Address) (amount : Nat) : Contract Unit := do
  addToBalance recipient amount
  subtractFromBalance stakingCa amount

def State.incrementAccumulatorRefcount (s : State) (valId : ValId) : State :=
  let epoch := s.getActivationEpoch
  let acc : RefCountedAccumulator :=
    { value := (s.valExecution valId).accumulatedRewardPerToken
      refcount := ((s.accumulatedRewardPerToken epoch valId).refcount + 1) % 2 ^ 256 }
  { s with
    accumulatedRewardPerToken :=
      update2 s.accumulatedRewardPerToken epoch valId acc }

def RefCountedAccumulator.released (acc : RefCountedAccumulator) : RefCountedAccumulator :=
  if acc.refcount - 1 = 0 then {} else { acc with refcount := acc.refcount - 1 }

def State.releaseAccumulator (s : State) (epoch : Nat) (valId : ValId) : State :=
  { s with
    accumulatedRewardPerToken :=
      update2 s.accumulatedRewardPerToken epoch valId
        (s.accumulatedRewardPerToken epoch valId).released }

def decrementAccumulatorRefcount (epoch : Nat) (valId : ValId) : Contract Nat := do
  let s ← get
  let acc := s.accumulatedRewardPerToken epoch valId
  if acc.refcount = 0 then do
    modify fun s => { s with infoLog := s.infoLog ++ [(epoch, valId)] }
    return 0
  else do
    modify fun s => s.releaseAccumulator epoch valId
    return acc.value

section

variable (valId : ValId) (address : Address)

def bucketOf : Nat := valId.toNat >>> 8

def maskOf : BitVec 256 := 1#256 <<< (valId.toNat &&& 0xFF)

def State.addToValset (s : State) (valId : ValId) : State × Bool :=
  let set := s.valBitsetBucket (bucketOf valId)
  ({ s with
    valBitsetBucket :=
      Function.update s.valBitsetBucket (bucketOf valId) (set ||| maskOf valId) },
    decide (set &&& maskOf valId = 0))

def State.removeFromValset (s : State) (valId : ValId) : State :=
  { s with
    valBitsetBucket :=
      Function.update s.valBitsetBucket (bucketOf valId)
        (s.valBitsetBucket (bucketOf valId) &&& ~~~maskOf valId) }

def canPromoteDelta (del : Delegator) (epoch : Nat) : Prop :=
  del.deltaEpoch = 0 ∧ del.nextDeltaEpoch ≤ epochAfter epoch 1

instance (del : Delegator) (epoch : Nat) : Decidable (canPromoteDelta del epoch) :=
  inferInstanceAs (Decidable (_ ∧ _))

def promoteDelta (del : Delegator) : Delegator :=
  { del with
    deltaStake := del.nextDeltaStake
    nextDeltaStake := 0
    deltaEpoch := del.nextDeltaEpoch
    nextDeltaEpoch := 0 }

def countSettlement : Contract Unit :=
  modify fun s => s.updateHistory valId address fun history =>
    { history with settled := history.settled + 1 }

def applyCompound : Contract Nat := do
  let s ← get
  let epochAcc ← decrementAccumulatorRefcount (s.delegator valId address).deltaEpoch valId
  let del := s.delegator valId address
  let rewards ← ofMath (calculateRewards del.stake epochAcc del.accumulatedRewardPerToken)
  countSettlement valId address
  modify fun s => s.updateDelegator valId address fun del =>
    { del with accumulatedRewardPerToken := epochAcc }
  let compoundedStake ← ofMath (checkedAdd del.stake del.deltaStake)
  modify fun s => s.updateDelegator valId address fun del =>
    { del with stake := compoundedStake }
  modify fun s => s.updateDelegator valId address promoteDelta
  return rewards

def rewardInvariant (rewards : Nat) : Contract Unit := do
  let s ← get
  failIf ((s.valExecution valId).unclaimedRewards < rewards) .solvencyError
  let unclaimedRewards ← ofMath (checkedSub (s.valExecution valId).unclaimedRewards rewards)
  modify fun s => s.updateValidator valId fun val =>
    { val with unclaimedRewards := unclaimedRewards }

/-- Moves settled rewards from the pool to the delegator. The source repeats
these lines after each settlement. -/
def recordRewards (rewards : Nat) : Contract Unit := do
  rewardInvariant valId rewards
  let s ← get
  let newRewards ← ofMath (checkedAdd (s.delegator valId address).rewards rewards)
  modify fun s => s.updateDelegator valId address fun del => { del with rewards := newRewards }

def compoundDelta : Contract Unit := do
  let rewards ← applyCompound valId address
  recordRewards valId address rewards

/-- The last part of `pull_delegator_up_to_date`: the active stake up to the
validator's current accumulator. -/
def settleStake : Contract Unit := do
  let s ← get
  let del := s.delegator valId address
  let rewards ← ofMath (calculateRewards del.stake
    (s.valExecution valId).accumulatedRewardPerToken del.accumulatedRewardPerToken)
  countSettlement valId address
  recordRewards valId address rewards
  modify fun s => s.updateDelegator valId address fun del =>
    { del with accumulatedRewardPerToken :=
        (s.valExecution valId).accumulatedRewardPerToken }

/-- The middle part of `pull_delegator_up_to_date`: pending stake whose epoch has
begun is compounded, the older slot first. -/
def compoundPending : Contract Unit := do
  let s ← get
  let del := s.delegator valId address
  onlyIf (s.isEpochActive del.nextDeltaEpoch) do
    -- only set when user compounds before and after block boundary
    assertThrow (s.isEpochActive del.deltaEpoch) "staking compound logic error"
    compoundDelta valId address
  onlyIf (s.isEpochActive del.deltaEpoch) (compoundDelta valId address)

def pullDelegatorUpToDate : Contract Unit := do
  let s ← get
  -- move up next_delta_epoch
  onlyIf (canPromoteDelta (s.delegator valId address) s.epoch)
    (modify fun s => s.updateDelegator valId address promoteDelta)
  compoundPending valId address
  let s ← get
  onlyIf ((s.delegator valId address).stake ≠ 0) (settleStake valId address)

end

def State.rewardFallsDue (s : State) (valId : ValId) (rewardAcc : Nat) : State :=
  { s with history := fun v address =>
      if v = valId then
        { s.history v address with
          due := (s.history v address).due + rewardAcc * s.activeStake s.epoch v address }
      else s.history v address }

def applyReward (valId : ValId) («from» : Address) (newRewards activeStake : Nat) :
    Contract Unit := do
  -- 1. compute current acc value
  let rewardAcc ← ofMath (checkedMulDiv newRewards unitBias activeStake)
  -- 2. add to accumulator
  let s ← get
  let acc ← ofMath (checkedAdd (s.valExecution valId).accumulatedRewardPerToken rewardAcc)
  modify fun s => s.updateValidator valId fun val =>
    { val with accumulatedRewardPerToken := acc }
  -- 3. compute new unclaimed rewards
  let unclaimedRewards ←
    ofMath (checkedAdd (s.valExecution valId).unclaimedRewards newRewards)
  -- 4. include in unclaimed rewards
  modify fun s => s.updateValidator valId fun val =>
    { val with unclaimedRewards := unclaimedRewards }
  modify fun s => s.rewardFallsDue valId rewardAcc
  emit (.validatorRewarded valId «from» newRewards s.epoch)

end MonadChain.Staking
