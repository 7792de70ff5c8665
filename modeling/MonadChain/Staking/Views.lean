import MonadChain.Staking.Precompiles

/-!
The read methods of monad/staking/staking_contract.cpp. `getDelegator` is the
one that writes: it settles the delegator before it reports the record.
-/

namespace MonadChain.Staking

section

variable (input : Bytes) (value : Nat)

def precompileGetValidator : Contract Bytes := do
  functionNotPayable value
  let (valId, input) ← decodeU64 input
  inputConsumed input
  let s ← get
  let val := s.valExecution valId
  return ({} : AbiEncoder)
    |>.addUint val.authAddress.toNat
    |>.addUint val.flags.toNat
    |>.addUint val.stake
    |>.addUint val.accumulatedRewardPerToken
    |>.addUint val.commission
    |>.addUint val.unclaimedRewards
    |>.addUint (s.consensusView valId).stake
    |>.addUint (s.consensusView valId).commission
    |>.addUint (s.snapshotView valId).stake
    |>.addUint (s.snapshotView valId).commission
    |>.addBytes val.keys.secpPubkey
    |>.addBytes val.keys.blsPubkey
    |>.encodeFinal

def precompileGetDelegator : Contract Bytes := do
  functionNotPayable value
  let (valId, input) ← decodeU64 input
  let (address, input) ← decodeAddress input
  inputConsumed input
  pullDelegatorUpToDate valId address
  let s ← get
  let del := s.delegator valId address
  return ({} : AbiEncoder)
    |>.addUint del.stake
    |>.addUint del.accumulatedRewardPerToken
    |>.addUint del.rewards
    |>.addUint del.deltaStake
    |>.addUint del.nextDeltaStake
    |>.addUint del.deltaEpoch
    |>.addUint del.nextDeltaEpoch
    |>.encodeFinal

/-- Done, the next index, and the elements of `[startIndex, startIndex + limit)`
that are in the array. -/
def valsetPage (valset : StorageArray ValId) (startIndex limit : Nat) : Bool × Nat × List ValId :=
  let last := min valset.length (startIndex + limit)
  (decide (last = valset.length), max startIndex last,
    (List.range' startIndex (last - startIndex)).map valset.get)

def getValset (select : State → StorageArray ValId) : Contract Bytes := do
  functionNotPayable value
  let (startIndex, input) ← decodeU32 input
  inputConsumed input
  let s ← get
  failIf (2 ^ 32 - 1 < (select s).length) .internalError
  let (done, nextIndex, valids) := valsetPage (select s) startIndex arrayPagination
  return ({} : AbiEncoder)
    |>.addBool done
    |>.addUint nextIndex
    |>.addUintArray (valids.map UInt64.toNat)
    |>.encodeFinal

def precompileGetConsensusValset : Contract Bytes :=
  getValset input value State.valsetConsensus

def precompileGetSnapshotValset : Contract Bytes :=
  getValset input value State.valsetSnapshot

def precompileGetExecutionValset : Contract Bytes :=
  getValset input value State.valsetExecution

def precompileGetDelegations (revision : MonadRevision) (input : Bytes) (value : Nat) :
    Contract Bytes := do
  functionNotPayable value
  let (delegator, input) ← decodeAddress input
  let (startValId, input) ← decodeU64 input
  inputConsumed input
  let s ← get
  let (done, nextValId, valsPage) :=
    validatorList.traverse s.listNode delegator startValId (linkedListPagination revision)
  return ({} : AbiEncoder)
    |>.addBool done
    |>.addUint nextValId.toNat
    |>.addUintArray (valsPage.map UInt64.toNat)
    |>.encodeFinal

def precompileGetDelegators (revision : MonadRevision) (input : Bytes) (value : Nat) :
    Contract Bytes := do
  functionNotPayable value
  let (valId, input) ← decodeU64 input
  let (startDelegatorAddress, input) ← decodeAddress input
  inputConsumed input
  let s ← get
  let (done, nextDelAddr, delsPage) :=
    delegatorList.traverse s.listNode valId startDelegatorAddress
      (linkedListPagination revision)
  return ({} : AbiEncoder)
    |>.addBool done
    |>.addUint nextDelAddr.toNat
    |>.addUintArray (delsPage.map BitVec.toNat)
    |>.encodeFinal

def precompileGetEpoch : Contract Bytes := do
  functionNotPayable value
  let s ← get
  return ({} : AbiEncoder) |>.addUint s.epoch |>.addBool s.inEpochDelayPeriod |>.encodeFinal

def precompileGetProposerValId : Contract Bytes := do
  functionNotPayable value
  let s ← get
  return ({} : AbiEncoder) |>.addUint s.proposerValId.toNat |>.encodeFinal

def precompileGetWithdrawalRequest : Contract Bytes := do
  functionNotPayable value
  let (valId, input) ← decodeU64 input
  let (delegator, input) ← decodeAddress input
  let (withdrawalId, input) ← decodeU8 input
  inputConsumed input
  let s ← get
  let request := s.withdrawalRequest valId delegator withdrawalId
  return ({} : AbiEncoder)
    |>.addUint request.amount
    |>.addUint request.acc
    |>.addUint request.epoch
    |>.encodeFinal

end

def precompileFallback : Contract Bytes := throw (.staking .methodNotSupported)

/-! read_valset.cpp reads the same storage from a finalised block. -/

structure Validator where
  secpPubkey : Bytes
  blsPubkey : Bytes
  stake : Nat
  deriving DecidableEq

/-- `read_valset` at the block whose staking storage is `s`. -/
def readValset (s : State) (requestedEpoch : Nat) : Option (List Validator) :=
  let getNextEpoch := requestedEpoch = epochAfter s.epoch 1
  -- can't read the next epoch before the boundary block
  if getNextEpoch ∧ s.inEpochDelayPeriod = false then none
  -- old epoch which no longer exists
  else if requestedEpoch < s.epoch then none
  -- hasn't happened yet
  else if epochAfter s.epoch 1 < requestedEpoch then none
  else
    let contractValset := if getNextEpoch then s.valsetConsensus else s.thisEpochValset
    let getStake := fun valId =>
      if getNextEpoch then (s.consensusView valId).stake else (s.thisEpochView valId).stake
    -- the source aborts on a longer array
    if activeValsetSize < contractValset.length then none
    else some (contractValset.toList.map fun valId =>
      { secpPubkey := (s.valExecution valId).keys.secpPubkey
        blsPubkey := (s.valExecution valId).keys.blsPubkey
        stake := getStake valId })

end MonadChain.Staking
