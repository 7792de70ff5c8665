import MonadChain.Staking.Rewards

/-!
The system calls of monad/staking/staking_contract.cpp and the two block hooks around them,
execute_block_prelude.cpp and priority_fee.cpp. A snapshot opens the delay period of an epoch and
fixes the next validator set, an epoch change ends it, a reward names the block author.
-/

namespace MonadChain.Staking

open Maps

/-- Credits the commission to the auth delegator, and in the ghost ledger. -/
def creditCommission (valId : ValId) (commission : Nat) : Contract Unit := do
  let s ← get
  let auth := (s.valExecution valId).authAddress
  let authReward ← ofMath (checkedAdd (s.delegator valId auth).rewards commission)
  modify fun s => s.updateDelegator valId auth fun del => { del with rewards := authReward }
  modify fun s => s.updateHistory valId auth fun history =>
    { history with due := history.due + unitBias * commission }

def syscallReward (revision : MonadRevision) (input : Bytes) (rawReward : Nat) : Contract Unit := do
  let (author, input) ← ofAbi (abiDecodeFixed 20 input)
  failIf (input ≠ []) .invalidInput
  -- 1. get validator information
  let s ← get
  let blockAuthor : Address := BitVec.ofNat 160 author
  failIf (loadChecked (s.valId blockAuthor)).isNone .notInValidatorSet
  let valId := s.valId blockAuthor
  -- 2. validator must be active
  let consensusView := s.thisEpochView valId
  failIf (consensusView.stake = 0) .notInValidatorSet
  mintTokens rawReward
  -- 3. Split off commission and credit it to the auth delegator.
  let (commission, delReward) ← ofMath (splitCommission rawReward consensusView.commission)
  creditCommission valId commission
  -- 4. update accumulator and unclaimed rewards for this validator pool
  applyReward valId systemSender delReward consensusView.stake
  -- 5. Store the proposer validator id for other contracts to query.
  onlyIf (revision.atLeast .five) (modify fun s => { s with proposerValId := valId })

/-- `StakingContract::distribute_priority_fees`. -/
def distributeToProposer (fees : Nat) : Contract Unit := do
  -- 1. Validate the proposer is in the consensus set.
  let s ← get
  let valId := s.proposerValId
  failIf (¬ (s.valExecution valId).exists) .unknownValidator
  let consensusView := s.thisEpochView valId
  failIf (consensusView.stake = 0) .notInValidatorSet
  -- 2. Split commission off the raw fees and credit it to the auth delegator.
  let (commission, delReward) ← ofMath (splitCommission fees consensusView.commission)
  creditCommission valId commission
  -- 3. Distribute the remainder to delegators pro-rata, or burn if dust.
  if delReward < minExternalReward then subtractFromBalance stakingCa delReward
  else applyReward valId priorityFeeDistAddress delReward consensusView.stake

def State.drained (s : State) : State :=
  { s with balance := Function.update s.balance priorityFeeDistAddress 0 }

def creditAndDistribute (fees : Nat) : Contract Unit := do
  addToBalance stakingCa fees
  distributeToProposer fees

/-- `distribute_priority_fees(State &)`. The fees leave the distribution address
in any case; an unknown proposer burns them, every other error aborts. -/
def distributePriorityFees : Contract Unit := fun s =>
  let fees := s.balance priorityFeeDistAddress
  if fees = 0 then .ok () s
  else match creditAndDistribute fees s.drained with
    | .ok _ distributed => .ok () distributed
    | .error (.staking .unknownValidator) failed =>
      .ok () { s.drained with infoLog := failed.infoLog }
    | .error (.assertion message) failed => .error (.assertion message) failed
    | .error _ failed => .error (.assertion "fee distribution error") failed

/-- `execute_block_prelude`. It skips a missing staking account, whose slots are
all zero already. -/
def executeBlockPrelude (revision : MonadRevision) : Contract Unit :=
  onlyIf (revision.atLeast .five) (modify fun s => { s with proposerValId := 0 })

def State.refreshAccumulator (s : State) (epoch : Nat) (valId : ValId) : State :=
  if (loadChecked (s.accumulatedRewardPerToken epoch valId)).isSome then
    let acc :=
      { s.accumulatedRewardPerToken epoch valId with
        value := (s.valExecution valId).accumulatedRewardPerToken }
    { s with
      accumulatedRewardPerToken :=
        update2 s.accumulatedRewardPerToken epoch valId acc }
  else s

def State.refreshAccumulators (s : State) (nextEpoch : Nat) : List ValId → State
  | [] => s
  | valId :: rest =>
    let s := s.refreshAccumulator nextEpoch valId
    let s := s.refreshAccumulator (epochAfter nextEpoch 1) valId
    s.refreshAccumulators nextEpoch rest

def State.enterEpoch (s : State) (nextEpoch : Nat) : State :=
  { s.refreshAccumulators nextEpoch s.valsetSnapshot.toList with
    inEpochDelayPeriod := false
    epoch := nextEpoch }

def syscallOnEpochChange (input : Bytes) (value : Nat) : Contract Unit := do
  failIf (value ≠ 0) .valueNonZero
  let (nextEpoch, input) ← ofAbi (abiDecodeFixed 8 input)
  failIf (input ≠ []) .invalidInput
  let s ← get
  failIf (nextEpoch ≤ s.epoch) .invalidEpochChange
  emit (.epochChanged s.epoch nextEpoch)
  modify fun s => s.enterEpoch nextEpoch

structure EpochViews where
  valset : StorageArray ValId
  view : ValId → ConsensusView

def EpochViews.add (views : EpochViews) (valId : ValId) (entry : ConsensusView) : EpochViews :=
  { valset := views.valset.push valId
    view := Function.update views.view valId entry }

def EpochViews.clear : Nat → EpochViews → EpochViews
  | 0, views => views
  | count + 1, views =>
    let (valId, valset) := views.valset.pop
    EpochViews.clear count ⟨valset, Function.update views.view valId {}⟩

def EpochViews.addAll (views : EpochViews) (entry : ValId → ConsensusView) :
    List ValId → EpochViews
  | [] => views
  | valId :: rest => (views.add valId (entry valId)).addAll entry rest

def State.candidates (s : State) : List ValId :=
  s.valsetExecution.toList.filter fun valId => (s.valExecution valId).flags = validatorFlagsOk

def State.removals (s : State) : List Nat :=
  (List.range s.valsetExecution.length).filter fun index =>
    (s.valExecution (s.valsetExecution.get index)).flags ≠ validatorFlagsOk

def State.rankedBefore (s : State) (left right : ValId) : Prop :=
  (s.valExecution right).stake < (s.valExecution left).stake ∨
    (s.valExecution left).stake = (s.valExecution right).stake ∧ left ≤ right

instance (s : State) : DecidableRel s.rankedBefore :=
  fun _ _ => inferInstanceAs (Decidable (_ ∨ _))

/-- The first elements that `std::partial_sort` leaves: the order is total, so
they are a prefix of the sorted list. -/
def State.topCandidates (s : State) : List ValId :=
  (s.candidates.insertionSort s.rankedBefore).take activeValsetSize

def State.rotateViews (s : State) : State :=
  -- 1. Throw out last epoch's snapshot view
  let snapshot := EpochViews.clear s.valsetSnapshot.length ⟨s.valsetSnapshot, s.snapshotView⟩
  -- 2. Copy the consensus view to the snapshot view
  let snapshot := snapshot.addAll s.consensusView s.valsetConsensus.toList
  -- 3. Throw out the consensus view
  let consensus :=
    EpochViews.clear s.valsetConsensus.length ⟨s.valsetConsensus, s.consensusView⟩
  -- 4. and 5. Construct consensus set from top validators
  let consensus := consensus.addAll
    (fun valId => ⟨(s.valExecution valId).stake, (s.valExecution valId).commission⟩)
    s.topCandidates
  { s with
    valsetSnapshot := snapshot.valset
    snapshotView := snapshot.view
    valsetConsensus := consensus.valset
    consensusView := consensus.view }

/-- One pop-and-swap. `index` may be the slot that is popped. -/
def removeFromExecution (index : Nat) : Contract Unit := do
  let s ← get
  modify fun s => s.removeFromValset (s.valsetExecution.get index)
  assertThrow (0 < s.valsetExecution.length) "len > 0"
  modify fun s => { s with valsetExecution := s.valsetExecution.swapRemove index }

def removeAll : List Nat → Contract Unit
  | [] => pure ()
  | index :: rest => do
    removeFromExecution index
    removeAll rest

def syscallSnapshot (input : Bytes) (value : Nat) : Contract Unit := do
  failIf (value ≠ 0) .valueNonZero
  failIf (input ≠ []) .invalidInput
  let s ← get
  failIf (s.inEpochDelayPeriod = true) .snapshotInBoundary
  modify State.rotateViews
  -- 6. Process removals from execution set to prevent state bloat.
  -- Pop-and-swap from the array: highest indices must processed first.
  removeAll s.removals.reverse
  modify fun s => { s with inEpochDelayPeriod := true }

end MonadChain.Staking
