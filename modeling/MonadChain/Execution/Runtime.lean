import Mathlib.Algebra.Group.Int.Defs
import MonadChain.Core.Traits
import MonadChain.Execution.Operations

/-!
vm/runtime: what the code of a message asks of the runtime, and how the runtime answers through
the host. The code itself, compiled or interpreted, is any program over these instructions; the
cost of growing its memory is part of an instruction.
-/

namespace MonadChain.Execution

inductive CallKind where
  | call | delegatecall | callcode | create | create2
  deriving DecidableEq, Repr

inductive StatusCode where
  | success | failure | revert | outOfGas | invalidInstruction | argumentOutOfRange
  | insufficientBalance | contractValidationFailure | precompileFailure | rejected
  | monadReserveBalanceViolation
  | other (code : Nat)
  deriving DecidableEq, Repr

structure Flags where
  static : Bool := false
  delegated : Bool := false
  deriving DecidableEq, Repr

structure Message where
  kind : CallKind
  flags : Flags
  depth : Nat
  gas : Int
  recipient : Address
  sender : Address
  input : List UInt8
  value : Nat
  create2Salt : Nat
  codeAddress : Address
  deriving DecidableEq, Repr

structure Result where
  status : StatusCode
  gasLeft : Int := 0
  gasRefund : Int := 0
  output : List UInt8 := []
  createAddress : Address := 0
  deriving DecidableEq, Repr

/-- Why nothing is returned: an assertion, an exception that leaves the transaction, or no
level left for a message. -/
inductive Failure where
  | postCall
  | deployContractCode
  | depth
  | assertion (reason : String)
  | thrown (reason : String)
  deriving DecidableEq, Repr

def Run (α : Type) : Type := Program operations (Except Failure α)

namespace Run

variable {α β : Type}

def bind (first : Run α) (next : α → Run β) : Run β :=
  Program.bind first fun
    | .ok value => next value
    | .error failure => .done (.error failure)

instance : Monad Run where
  pure value := .done (.ok value)
  bind := bind

def fail (failure : Failure) : Run α := .done (.error failure)

def op (op : Op) : Run op.Answer := .step op fun answer => .done (.ok answer)

def check (failure : Failure) (condition : Bool) : Run Unit :=
  if condition then pure () else fail failure

def orThrow : Except String α → Run α
  | .ok value => pure value
  | .error reason => fail (.thrown reason)

def when (condition : Bool) (action : Run Unit) : Run Unit :=
  if condition then action else pure ()

def lift (program : Program operations α) : Run α := program.bind fun value => .done (.ok value)

end Run

structure CallArguments where
  gasWord : Nat
  address : Address
  input : List UInt8
  /-- Nothing when an offset is out of range. -/
  memoryCost : Option Int
  remainingBlockBaseGas : Int

structure CreateArguments where
  value : Nat
  initcode : List UInt8
  memoryCost : Option Int
  remainingBlockBaseGas : Int

inductive Instruction where
  | deductGas (amount : Int)
  | gas
  | sload (key : Key)
  | sstore (key : Key) (value : Value) (remainingBlockBaseGas : Int)
  | tload (key : Key)
  | tstore (key : Key) (value : Value)
  | selfbalance
  | balance (address : Address)
  | extcodesize (address : Address)
  | extcodehash (address : Address)
  | extcodecopy (address : Address) (offset size : Nat)
  | blockhash (number : Nat)
  | log (data : List UInt8) (topics : List Hash) (memoryCost : Option Int)
  | selfdestruct (address : Address)
  | call (value : Nat) (arguments : CallArguments)
  | callcode (value : Nat) (arguments : CallArguments)
  | delegatecall (arguments : CallArguments)
  | staticcall (arguments : CallArguments)
  | create (arguments : CreateArguments)
  | create2 (salt : Nat) (arguments : CreateArguments)

@[reducible] def Instruction.Answer : Instruction → Type
  | .deductGas _ | .sstore _ _ _ | .tstore _ _ | .log _ _ _ => Unit
  | .gas => Int
  | .sload _ | .tload _ => Value
  | .selfbalance | .balance _ | .extcodesize _ => Nat
  | .extcodehash _ | .blockhash _ => Hash
  | .extcodecopy _ _ _ => List UInt8
  | .selfdestruct _ => Empty
  | .call _ _ | .callcode _ _ | .delegatecall _ | .staticcall _ => Bool × List UInt8
  | .create _ | .create2 _ _ => Address × List UInt8

abbrev instructions : Effects := ⟨Instruction, Instruction.Answer⟩

inductive ExitCode where
  | success | revert | error | outOfGas
  deriving DecidableEq, Repr

/-- How the code ends: with its output, or with the status of a failed copy of it. -/
structure Exit where
  code : ExitCode
  output : Except Nat (List UInt8)

structure Environment where
  flags : Flags
  depth : Nat
  recipient : Address
  sender : Address
  value : Nat
  create2Salt : Nat

structure Gas where
  remaining : Int
  refund : Int

/-- A runtime function: it can end the code that has called it. -/
def Runtime (α : Type) : Type := Gas → Run (Except ExitCode α × Gas)

namespace Runtime

variable {α β : Type}

def bind (first : Runtime α) (next : α → Runtime β) : Runtime β := fun gas =>
  Run.bind (first gas) fun
    | (.ok value, gas) => next value gas
    | (.error code, gas) => pure (.error code, gas)

instance : Monad Runtime where
  pure value gas := pure (.ok value, gas)
  bind := bind

def run (program : Run α) : Runtime α := fun gas =>
  Run.bind program fun value => pure (.ok value, gas)

def op (op : Op) : Runtime op.Answer := run (Run.op op)

def exit (code : ExitCode) : Runtime α := fun gas => pure (.error code, gas)

def exitIf (condition : Bool) (code : ExitCode) : Runtime Unit :=
  if condition then exit code else pure ()

def when (condition : Bool) (action : Runtime Unit) : Runtime Unit :=
  if condition then action else pure ()

def gasRemaining : Runtime Int := fun gas => pure (.ok gas.remaining, gas)

/-- A subtraction from `gas_remaining` that is checked later. -/
def spend (amount : Int) : Runtime Unit := fun gas =>
  pure (.ok (), { gas with remaining := gas.remaining - amount })

def addRefund (amount : Int) : Runtime Unit := fun gas =>
  pure (.ok (), { gas with refund := gas.refund + amount })

def deductGas (amount : Int) : Runtime Unit := do
  spend amount
  exitIf ((← gasRemaining) < 0) .outOfGas

def expandMemory : Option Int → Runtime Unit
  | none => exit .outOfGas
  | some cost => deductGas cost

end Runtime

def Op.Query : Op → Prop
  | .accountExists _ | .accountIsDead _ | .accountHasCodeOrNonce _ | .getNonce _ | .getBalance _
  | .getOriginalBalance _ | .getCodeHash _ | .isDestructed _ | .isCurrentIncarnation _
  | .getStorage _ _ | .getTransientStorage _ _ | .isTouched _ | .readCode _ | .getCode _
  | .getCodeSize _ | .copyCode _ _ _ | .logs | .recordBalanceConstraintForDebit _ _ => True
  | _ => False

def Op.Precompile : Op → Prop
  | .setStorage _ _ _ | .addToBalance _ _ | .subtractFromBalance _ _ | .storeLog _ => True
  | op => op.Query

structure Method.Precompiled where
  run : List UInt8 → Address → Nat →
    Program operations (Except String (Except (List UInt8) (List UInt8)))
  uses : ∀ input sender value, (run input sender value).Uses Op.Precompile

structure Method.Reading (α : Type) where
  run : Program operations α
  uses : run.Uses Op.Query

/-- What the code runs on. The precompiled contracts, the code and the reserve check are
programs; the addresses of new contracts are hashes. -/
structure Machine where
  traits : Traits
  config : Config
  code : Message → Code → Program instructions Exit
  /-- `gas_cost_func` and `execute_func` of a precompiled contract. -/
  ethPrecompile : Address → Option ((List UInt8 → Option Nat) × (List UInt8 → Option (List UInt8)))
  /-- `precompile_dispatch`: the method and its cost. -/
  staking : List UInt8 → Method.Precompiled × Nat
  reserveBalance : List UInt8 → Method.Precompiled × Nat
  createContractAddress : Address → Nat → Address
  create2ContractAddress : Address → Nat → Hash → Address
  revertTransaction : Address → Method.Reading Bool
  blockHash : Nat → Method.Reading Hash
  transferEvent : Address → Address → Nat → Log
  logNativeTransfers : Bool

def stakingCa : Address := 0x1000
def reserveBalanceCa : Address := 0x1001
def ripemdAddress : Address := 3

namespace Machine

variable (machine : Machine)

def isPrecompile (address : Address) : Bool :=
  (machine.ethPrecompile address).isSome ||
    match machine.traits with
    | .evm _ => false
    | .monad revision =>
      address == stakingCa || (revision.atLeast .nine && address == reserveBalanceCa)

def accessAccount (address : Address) : Runtime AccessStatus :=
  if machine.isPrecompile address then pure .warm else Runtime.op (.accessAccount address)

def accessCost (address : Address) (extra : Int) : Runtime Unit := do
  let status ← machine.accessAccount address
  Runtime.when (status = .cold) (Runtime.deductGas (machine.traits.coldAccountCost + extra))

def emitNativeTransferEvent (sender to_ : Address) (value : Nat) : Run Unit :=
  Run.when (machine.logNativeTransfers ∧ 0 < value ∧ sender ≠ to_)
    (Run.op (.storeLog (machine.transferEvent sender to_ value)))

/-! storage.cpp -/

section

variable (message : Message → Run Result) (env : Environment)

def accessStorageCost (key : Key) (extra : Int) : Runtime Unit := do
  let status ← Runtime.op (.accessStorage env.recipient key)
  Runtime.when (status = .cold) (Runtime.deductGas (machine.traits.coldStorageCost + extra))

def sload (key : Key) : Runtime Value := do
  machine.accessStorageCost env key 0
  Runtime.op (.getStorage env.recipient key)

/-- `StorageCostTable`: the cost and the refund of a write. -/
def storeCost : StorageStatus → Int × Int
  | .assigned => (100, 0)
  | .added => (20000, 0)
  | .modified => (2900, 0)
  | .addedDeleted => (100, 19900)
  | .modifiedRestored => (100, 2800)
  | .deleted => (2900, if machine.traits.evmRev = .berlin then 15000 else 4800)
  | .deletedAdded => (100, if machine.traits.evmRev = .berlin then -15000 else -4800)
  | .modifiedDeleted => (100, if machine.traits.evmRev = .berlin then 15000 else 4800)
  | .deletedRestored => (100, if machine.traits.evmRev = .berlin then -12200 else -2000)

def minGas : Int := 100

def sstore (key : Key) (value : Value) (remaining : Int) : Runtime Unit := do
  Runtime.exitIf env.flags.static .error
  Runtime.exitIf ((← Runtime.gasRemaining) + remaining + minGas ≤ 2300) .outOfGas
  if machine.traits.mip8Active then
    machine.accessStorageCost env key 0
    let status ← Runtime.op (.setStorage env.recipient key value)
    let page ← Runtime.op (.updatePage env.recipient key status)
    Runtime.deductGas (100 + (if page.firstPageWrite then 2800 else 0) +
      (if page.grewState then 17000 else 0) - minGas)
  else
    machine.accessStorageCost env key minGas
    let status ← Runtime.op (.setStorage env.recipient key value)
    Runtime.addRefund (machine.storeCost status).2
    Runtime.deductGas ((machine.storeCost status).1 - minGas)

def tstore (key : Key) (value : Value) : Runtime Unit := do
  Runtime.exitIf env.flags.static .error
  Runtime.op (.setTransientStorage env.recipient key value)

/-! data.cpp, log.cpp and selfdestruct.cpp -/

def extcodehash (address : Address) : Runtime Hash := do
  machine.accessCost address 0
  if ← Runtime.op (.accountIsDead address) then pure 0
  else Runtime.op (.getCodeHash address)

def logImpl (data : List UInt8) (topics : List Hash) (memoryCost : Option Int) : Runtime Unit := do
  Runtime.exitIf env.flags.static .error
  Runtime.when (data ≠ []) do
    Runtime.expandMemory memoryCost
    Runtime.deductGas (data.length * 8)
  Runtime.op (.storeLog ⟨data, topics, env.recipient⟩)

def hostSelfdestruct (address beneficiary : Address) : Run Bool := do
  let (first, transferred) ← Run.orThrow (← Run.op (.selfdestruct address beneficiary))
  machine.emitNativeTransferEvent address beneficiary transferred
  return first

def newAccountCost (address : Address) : Runtime Unit := do
  let balance ← Runtime.op (.getBalance env.recipient)
  Runtime.when (balance ≠ 0) do
    let dead ← Runtime.op (.accountIsDead address)
    Runtime.when dead (Runtime.deductGas 25000)

def selfdestruct {α : Type} (env : Environment) (address : Address) : Runtime α := do
  Runtime.exitIf env.flags.static .error
  machine.accessCost address 100
  newAccountCost env address
  let first ← Runtime.run (machine.hostSelfdestruct env.recipient address)
  Runtime.when (machine.traits.evmRev = .berlin ∧ first) (Runtime.addRefund 24000)
  Runtime.exit .success

/-! call.cpp and create.cpp -/

/-- `resolve_delegation`: the address behind the prefix 0xef0100. -/
def delegateOf (code : List UInt8) : Option Address :=
  if code.length = 23 ∧ code.take 3 = [0xef, 0x01, 0x00] then
    some ((code.drop 3).foldl (fun address byte => address * 256 + byte.toNat) 0)
  else none

def resolveDelegation (address : Address) : Runtime (Option Address) := do
  return delegateOf (← Runtime.op (.copyCode address 0 24))

def messageFlags (flags : Flags) (staticCall delegationIndicator : Bool) : Flags :=
  { static := staticCall || flags.static, delegated := delegationIndicator }

def codeAddress (address : Address) : Runtime Address :=
  if machine.traits.evmRev.atLeast .prague then do
    match ← resolveDelegation address with
    | none => pure address
    | some delegate =>
      let status ← machine.accessAccount delegate
      Runtime.spend ((if status = AccessStatus.cold then machine.traits.coldAccountCost else 0)
        + 100)
      pure delegate
  else pure address

def callWithValue (args : CallArguments) : Runtime Unit := do
  let remaining ← Runtime.gasRemaining
  Runtime.exitIf env.flags.static
    (if remaining + args.remainingBlockBaseGas < 0 then .outOfGas else .error)
  let dead ← Runtime.op (.accountIsDead args.address)
  Runtime.when dead (Runtime.spend 25000)

def callImpl (args : CallArguments)
    (hasValue : Bool) (value : Nat) (kind : CallKind) (staticCall : Bool) :
    Runtime (Bool × List UInt8) := do
  Runtime.expandMemory args.memoryCost
  machine.accessCost args.address 0
  let codeAddress ← machine.codeAddress args.address
  Runtime.when hasValue (Runtime.spend 9000)
  Runtime.when (kind = .call && hasValue) (callWithValue env args)
  let gasLeftHere := (← Runtime.gasRemaining) + args.remainingBlockBaseGas
  Runtime.exitIf (gasLeftHere < 0) .outOfGas
  let gas := min (min args.gasWord (2 ^ 63 - 1) : Int) (gasLeftHere - gasLeftHere / 64) +
    (if hasValue then 2300 else 0)
  Runtime.when hasValue (Runtime.spend (-2300))
  if 1024 ≤ env.depth then pure (false, [])
  else do
    let result ← Runtime.run (message
      { kind := kind
        flags := messageFlags env.flags staticCall (args.address ≠ codeAddress)
        depth := env.depth + 1
        gas := gas
        recipient := if kind = .call ∨ staticCall then args.address else env.recipient
        sender := if kind = .delegatecall then env.sender else env.recipient
        input := args.input
        value := value
        create2Salt := env.create2Salt
        codeAddress := codeAddress })
    Runtime.deductGas (gas - result.gasLeft)
    Runtime.addRefund result.gasRefund
    pure (decide (result.status = .success), result.output)

def codeWordCost (kind : CallKind) : Int :=
  if machine.traits.evmRev.atLeast .shanghai then if kind = .create2 then 8 else 2
  else if kind = .create2 then 6 else 0

def refuseDelegated : Runtime Unit :=
  Runtime.when (machine.traits.evmRev.atLeast .prague && !machine.traits.canCreateInsideDelegated)
    do
      let delegate ← resolveDelegation env.recipient
      Runtime.exitIf delegate.isSome .error

def createImpl (args : CreateArguments)
    (salt : Nat) (kind : CallKind) : Runtime (Address × List UInt8) := do
  Runtime.exitIf env.flags.static .error
  machine.refuseDelegated env
  Runtime.when (args.initcode ≠ []) (Runtime.expandMemory args.memoryCost)
  Runtime.exitIf (machine.traits.evmRev.atLeast .shanghai &&
    decide (machine.traits.maxInitcodeSize < args.initcode.length)) .outOfGas
  Runtime.deductGas (((args.initcode.length + 31) / 32 : Nat) * machine.codeWordCost kind)
  let available := (← Runtime.gasRemaining) + args.remainingBlockBaseGas
  let gas := available - available / 64
  if 1024 ≤ env.depth then pure (0, [])
  else do
    let result ← Runtime.run (message
      { kind := kind
        flags := {}
        depth := env.depth + 1
        gas := gas
        recipient := 0
        sender := env.recipient
        input := args.initcode
        value := args.value
        create2Salt := salt
        codeAddress := 0 })
    Runtime.deductGas (gas - result.gasLeft)
    Runtime.addRefund result.gasRefund
    pure (if result.status = .success then result.createAddress else 0, result.output)

def execute :
    (instruction : Instruction) → Runtime instruction.Answer
  | .deductGas amount => Runtime.deductGas amount
  | .gas => Runtime.gasRemaining
  | .sload key => machine.sload env key
  | .sstore key value remaining => machine.sstore env key value remaining
  | .tload key => Runtime.op (.getTransientStorage env.recipient key)
  | .tstore key value => tstore env key value
  | .selfbalance => Runtime.op (.getBalance env.recipient)
  | .balance address => do
    machine.accessCost address 0
    Runtime.op (.getBalance address)
  | .extcodesize address => do
    machine.accessCost address 0
    Runtime.op (.getCodeSize address)
  | .extcodehash address => machine.extcodehash address
  | .extcodecopy address offset size => do
    machine.accessCost address 0
    Runtime.op (.copyCode address offset size)
  | .blockhash number => Runtime.run (Run.lift (machine.blockHash number).run)
  | .log data topics memoryCost => logImpl env data topics memoryCost
  | .selfdestruct address => machine.selfdestruct env address
  | .call value args => machine.callImpl message env args (value ≠ 0) value .call false
  | .callcode value args => machine.callImpl message env args (value ≠ 0) value .callcode false
  | .delegatecall args => machine.callImpl message env args false env.value .delegatecall false
  | .staticcall args => machine.callImpl message env args false 0 .call true
  | .create args => machine.createImpl message env args 0 .create
  | .create2 salt args => machine.createImpl message env args salt .create2

def toResult (gas : Gas) (exit : Exit) : Result :=
  match exit.code with
  | .error => { status := .failure }
  | .outOfGas => { status := .outOfGas }
  | .success =>
    match exit.output with
    | .error code => { status := .other code }
    | .ok output =>
      { status := .success, gasLeft := gas.remaining, gasRefund := gas.refund,
        output := output }
  | .revert =>
    match exit.output with
    | .error code => { status := .other code }
    | .ok output => { status := .revert, gasLeft := gas.remaining, output := output }

def interpret (message : Message → Run Result) (env : Environment) :
    Program instructions Exit → Gas → Run Result
  | .done exit, gas => pure (toResult gas exit)
  | .abort reason, _ => Run.fail (.assertion reason)
  | .step instruction next, gas =>
    Run.bind (machine.execute message env instruction gas) fun
      | (.ok answer, gas) => interpret message env (next answer) gas
      | (.error code, gas) => pure (toResult gas ⟨code, .ok []⟩)

def vmExecute (msg : Message) (code : Code) : Run Result :=
  machine.interpret message
    { flags := msg.flags, depth := msg.depth, recipient := msg.recipient, sender := msg.sender,
      value := msg.value, create2Salt := msg.create2Salt }
    (machine.code msg code) ⟨msg.gas, 0⟩

end

end Machine

end MonadChain.Execution
