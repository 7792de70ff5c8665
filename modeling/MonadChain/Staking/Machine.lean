import MonadChain.Staking.Views
import MonadChain.Staking.Syscalls

/-!
How the chain reaches the staking contract: precompile calls (monad/monad_precompiles.cpp and
`precompile_dispatch`), system transactions (monad/execute_system_transaction.cpp) and the two
block hooks. `step` undoes an operation that fails. One promise of the callers is part of the
model: the contract's own address, which has no code, never sends a message.
-/

namespace MonadChain.Staking

abbrev Method := Bytes → Address → Nat → Contract Bytes

section

variable (crypto : Crypto) (revision : MonadRevision)

def precompileMethod (signature : Nat) : Method × Nat :=
  match signature with
  | 0xf145204c => (fun input _ value => precompileAddValidator crypto revision input value, 505125)
  | 0x84994fec => (precompileDelegate revision, 260850)
  | 0x5cf41514 => (precompileUndelegate revision, 147750)
  | 0xb34fea67 => (precompileCompound revision, 289325)
  | 0xaed2ee73 => (precompileWithdraw, 68675)
  | 0xa76e2ca5 => (precompileClaimRewards, 155375)
  | 0x9bdcc3c8 => (precompileChangeCommission, 39475)
  | 0xe4b3303b => (precompileExternalReward, 66575)
  | 0x757991a8 => (fun _ _ value => precompileGetEpoch value, 200)
  | 0xfbacb0be =>
    if revision.atLeast .five then (fun _ _ value => precompileGetProposerValId value, 100)
    else (fun _ _ _ => precompileFallback, 40000)
  | 0x2b6d639a => (fun input _ value => precompileGetValidator input value, 97200)
  | 0x573c1ce0 => (fun input _ value => precompileGetDelegator input value, 184900)
  | 0x56fa2045 => (fun input _ value => precompileGetWithdrawalRequest input value, 24300)
  | 0xfb29b729 => (fun input _ value => precompileGetConsensusValset input value, 814000)
  | 0xde66a368 => (fun input _ value => precompileGetSnapshotValset input value, 814000)
  | 0x7cb074df => (fun input _ value => precompileGetExecutionValset input value, 814000)
  | 0x4fd66050 => (fun input _ value => precompileGetDelegations revision input value, 814000)
  | 0xa0843a26 => (fun input _ value => precompileGetDelegators revision input value, 814000)
  | _ => (fun _ _ _ => precompileFallback, 40000)

def precompileDispatch (input : Bytes) : Method × Nat :=
  if input.length < 4 then (fun _ _ _ => precompileFallback, 40000)
  else precompileMethod crypto revision (loadBe (input.take 4))

/-- A message to the staking address. `plainCall` is `EVMC_CALL` with no flags. -/
structure Message where
  plainCall : Bool := true
  gas : Int
  sender : Address
  value : Nat
  input : Bytes
  notSelf : sender ≠ stakingCa

/-- `check_call_monad_precompile`, after the value has moved to the contract. The
debit of the sender is a change of a balance the contract does not read. -/
def checkCallPrecompile (message : Message) : Contract Bytes := do
  addToBalance stakingCa message.value
  if message.plainCall = false then throw .rejected
  else do
    let dispatch := precompileDispatch crypto revision message.input
    if message.gas < dispatch.2 then throw .outOfGas
    else dispatch.1 (message.input.drop 4) message.sender message.value

inductive SyscallKind where
  | snapshot | onEpochChange | reward | other
  deriving DecidableEq, Repr

def classify (calldata : Bytes) : SyscallKind :=
  if calldata.length < 4 then .other
  else match loadBe (calldata.take 4) with
    | 0x157eeb21 => .snapshot
    | 0x1d4e9f02 => .onEpochChange
    | 0x791bdcf3 => .reward
    | _ => .other

def executeStakingSyscall (calldata : Bytes) (value : Nat) : Contract Unit := do
  failIf (calldata.length < 4) .invalidInput
  match classify calldata with
  | .reward => syscallReward revision (calldata.drop 4) value
  | .snapshot => syscallSnapshot (calldata.drop 4) value
  | .onEpochChange => syscallOnEpochChange (calldata.drop 4) value
  | .other => throw (.staking .methodNotSupported)

inductive Operation where
  | call (message : Message)
  | syscall (calldata : Bytes) (value : Nat)
  | blockPrelude
  | distributePriorityFees
  /-- Whatever else happens on the chain: any balance but the contract's. -/
  | otherBalances (balance : Address → Nat)

def Operation.execute :
    Operation → Contract Unit
  | .call message => do
    let _ ← checkCallPrecompile crypto revision message
  | .syscall calldata value => executeStakingSyscall revision calldata value
  | .blockPrelude => executeBlockPrelude revision
  | .distributePriorityFees => Staking.distributePriorityFees
  | .otherBalances balance =>
    modify fun s =>
      { s with balance := Function.update balance stakingCa (s.balance stakingCa) }

/-- A failed operation leaves nothing behind but its log lines. -/
def step (operation : Operation) (s : State) : State :=
  match operation.execute crypto revision s with
  | .ok _ after => after
  | .error _ failed => { s with infoLog := failed.infoLog }

end

inductive Step (crypto : Crypto) (revision : MonadRevision) : State → State → Prop
  | run (s : State) (operation : Operation) :
      Step crypto revision s (step crypto revision operation s)

/-- The epochs that new stake becomes active in still fit in 64 bits. Nothing in
the contract checks this; consensus numbers epochs one after the other. -/
def State.Numbered (s : State) : Prop := s.epoch + 2 < 2 ^ 64

instance (s : State) : Decidable s.Numbered := inferInstanceAs (Decidable (_ < _))

def emptyContract (balance : Address → Nat) : State := { balance := balance }

/-- Any order of operations, each under its own revision. -/
def Reachable (crypto : Crypto) (start s : State) : Prop :=
  Relation.ReflTransGen (fun before after => ∃ revision, Step crypto revision before after) start s

def ReachableUnder (crypto : Crypto) (revision : MonadRevision) (start s : State) : Prop :=
  Relation.ReflTransGen (Step crypto revision) start s

end MonadChain.Staking
