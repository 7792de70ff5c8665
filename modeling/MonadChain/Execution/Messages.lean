import MonadChain.Execution.Runtime

/-!
execute_message.cpp and monad_precompiles.cpp. A message opens a frame of the journal, runs code
or a precompiled contract in it, and closes the frame by the status of the result.
-/

namespace MonadChain.Execution

namespace Machine

variable (machine : Machine)

def senderHasBalance (msg : Message) : Run Bool :=
  Run.op (.recordBalanceConstraintForDebit msg.sender msg.value)

def transferBalances (msg : Message) (to_ : Address) : Run Unit := do
  Run.orThrow (← Run.op (.subtractFromBalance msg.sender msg.value))
  Run.orThrow (← Run.op (.addToBalance to_ msg.value))
  machine.emitNativeTransferEvent msg.sender to_ msg.value

/-! precompiles.cpp -/

def checkCallEthPrecompile (msg : Message) : Option Result :=
  (machine.ethPrecompile msg.codeAddress).map fun (gasCost, execute) =>
    if machine.traits.evmRev.atLeast .prague ∧ msg.flags.delegated then
      { status := .success, gasLeft := msg.gas }
    else
      match gasCost msg.input with
      | none => { status := .precompileFailure }
      | some cost =>
        if msg.gas < cost then { status := .outOfGas }
        else
          match execute msg.input with
          | none => { status := .precompileFailure }
          | some output => { status := .success, gasLeft := msg.gas - cost, output := output }

/-! monad_precompiles.cpp -/

def runPrecompiled (method : Method.Precompiled) (cost : Nat) (msg : Message) : Run Result := do
  match ← Run.orThrow (← Run.lift (method.run msg.input msg.sender msg.value)) with
  | .ok output => pure { status := .success, gasLeft := msg.gas - cost, output := output }
  | .error message => pure { status := .revert, output := message }

def checkCallMonadPrecompile (dispatch : List UInt8 → Method.Precompiled × Nat)
    (contractAddress : Address) (msg : Message) : Run (Option Result) :=
  if msg.codeAddress ≠ contractAddress then pure none
  else if msg.kind ≠ .call ∨ msg.flags ≠ {} then pure (some { status := .rejected })
  else if msg.gas < (dispatch msg.input).2 then pure (some { status := .outOfGas })
  else do
    let result ← runPrecompiled (dispatch msg.input).1 (dispatch msg.input).2 msg
    pure (some result)

def checkCallFrom (revision : MonadRevision) (dispatch : List UInt8 → Method.Precompiled × Nat)
    (contractAddress : Address) (msg : Message) : Run (Option Result) :=
  if machine.traits.monadAtLeast revision then
    checkCallMonadPrecompile dispatch contractAddress msg
  else pure none

variable (message : Message → Run Result) (msg : Message) (address : Address)

def checkCallMonadPrecompiles : Run (Option Result) := do
  match ← machine.checkCallFrom .four machine.staking stakingCa msg with
  | some result => pure (some result)
  | none => machine.checkCallFrom .nine machine.reserveBalance reserveBalanceCa msg

def checkCallPrecompile : Run (Option Result) :=
  match machine.checkCallEthPrecompile msg with
  | some result => pure (some result)
  | none => machine.checkCallMonadPrecompiles msg

/-! execute_message.cpp -/

def deployContractCode (result : Result) : Run Result := do
  Run.check .deployContractCode (result.status = .success)
  if machine.traits.evmRev.atLeast .london ∧ result.output.head? = some 0xef then
    pure { status := .contractValidationFailure }
  else if machine.traits.maxCodeSize < result.output.length then pure { status := .outOfGas }
  else if result.gasLeft < result.output.length * 200 then
    pure { result with status := .outOfGas }
  else do
    Run.op (.setCode address result.output)
    pure { result with
      createAddress := address, gasLeft := result.gasLeft - result.output.length * 200 }

def moveValue : Run (Option Result) :=
  if msg.kind = .delegatecall then pure none
  else do
    if ← senderHasBalance msg then
      Run.when (!msg.flags.static) (machine.transferBalances msg msg.recipient)
      pure none
    else
      Run.op .popReject
      pure (some { status := .insufficientBalance, gasLeft := msg.gas })

/-- The frame is opened, and the value moved; a result ends the message. -/
def preCall : Run (Option Result) := do
  Run.op .push
  match ← machine.moveValue msg with
  | some result => pure (some result)
  | none =>
    Run.check (.assertion "Address{msg.recipient} == Address{msg.code_address}")
      (machine.traits.evmRev.atLeast .prague ∨ msg.kind ≠ .call ∨
        msg.recipient = msg.codeAddress)
    Run.when (msg.kind = .call && msg.flags.static) (Run.op (.touch msg.recipient))
    pure none

def rejectFrame : Run Unit := do
  let ripemdTouched ← Run.op (.isTouched ripemdAddress)
  Run.op .popReject
  Run.when ripemdTouched (Run.op (.touch ripemdAddress))

def postCall (result : Result) : Run Unit := do
  Run.check .postCall (result.status = .success ∨ result.gasRefund = 0)
  Run.check .postCall (result.status = .success ∨ result.status = .revert ∨
    result.status = .monadReserveBalanceViolation ∨ result.gasLeft = 0)
  if result.status = .success then Run.op .popAccept else rejectFrame

/-- `revert_transaction`, which is asked at depth zero only. -/
def reserveViolated : Run Bool :=
  if msg.depth = 0 then Run.lift (machine.revertTransaction msg.sender).run else pure false

def runCallee : Run Result := do
  match ← machine.checkCallPrecompile msg with
  | some result => pure result
  | none =>
    let hash ← Run.op (.getCodeHash msg.codeAddress)
    let code ← Run.op (.readCode hash)
    machine.vmExecute message msg code

def callBody : Run Result := do
  let result ← machine.runCallee message msg
  if ← machine.reserveViolated msg then
    pure { result with status := .monadReserveBalanceViolation, gasRefund := 0 }
  else pure result

def executeCallMessage : Run Result := do
  Run.check (.assertion "msg.kind")
    (msg.kind = .delegatecall ∨ msg.kind = .callcode ∨ msg.kind = .call)
  match ← machine.preCall msg with
  | some result => pure result
  | none =>
    let result ← machine.callBody message msg
    postCall result
    pure result

def newAddress (nonce : Nat) : Address :=
  if msg.kind = .create then machine.createContractAddress msg.sender nonce
  else machine.create2ContractAddress msg.sender msg.create2Salt (machine.config.keccak msg.input)

def initcodeMessage : Message :=
  { msg with kind := .call, flags := {}, recipient := address, input := [], create2Salt := 0,
             codeAddress := address }

def runInitcode : Run Result := do
  let result ← machine.vmExecute message (initcodeMessage msg address) msg.input
  if result.status = .success then machine.deployContractCode address result else pure result

def createBody : Run Result := do
  Run.op (.createContract address)
  Run.op (.setNonce address 1)
  machine.transferBalances msg address
  let result ← machine.runInitcode message msg address
  if ← machine.reserveViolated msg then
    pure { result with status := .monadReserveBalanceViolation }
  else pure result

def finishCreate (result : Result) : Run Result :=
  if result.status = .success then do
    Run.op .popAccept
    pure result
  else do
    rejectFrame
    pure { result with gasRefund := 0,
                       gasLeft := if result.status ≠ .revert then 0 else result.gasLeft }

def maxNonce : Nat := 2 ^ 64 - 1

/-- A creation without the balance counts as a transaction of the sender, from a revision
on. -/
def refuseCreate : Run Result := do
  Run.when (machine.traits.monadAtLeast .five && decide (msg.depth = 0)) do
    let nonce ← Run.op (.getNonce msg.sender)
    Run.check (.assertion "nonce != UINT64_MAX") (nonce ≠ maxNonce)
    Run.op (.setNonce msg.sender (nonce + 1))
  pure { status := .insufficientBalance, gasLeft := msg.gas }

def createIn : Run Result := do
  if ← Run.op (.accountHasCodeOrNonce address) then pure { status := .invalidInstruction }
  else do
    Run.op .push
    let result ← machine.createBody message msg address
    finishCreate result

def createAt (nonce : Nat) : Run Result := do
  Run.op (.setNonce msg.sender (nonce + 1))
  let _ ← Run.op (.accessAccount (machine.newAddress msg nonce))
  machine.createIn message msg (machine.newAddress msg nonce)

def executeCreateMessage : Run Result := do
  Run.check (.assertion "msg.kind") (msg.kind = .create ∨ msg.kind = .create2)
  if ← senderHasBalance msg then do
    let nonce ← Run.op (.getNonce msg.sender)
    if nonce = maxNonce then pure { status := .argumentOutOfRange, gasLeft := msg.gas }
    else machine.createAt message msg nonce
  else machine.refuseCreate msg

def hostCall : Run Result :=
  if msg.kind = .create ∨ msg.kind = .create2 then do
    let result ← machine.executeCreateMessage message msg
    pure (if result.status ≠ .revert then { result with output := [] } else result)
  else machine.executeCallMessage message msg

/-- The host that answers the code of a message, as deep as messages may still be nested:
code at depth 1024 sends none. -/
def host : Nat → Message → Run Result
  | 0, _ => Run.fail .depth
  | levels + 1, msg => machine.hostCall (host levels) msg

end Machine

end MonadChain.Execution
