import MonadChain.Execution.Account
import MonadChain.Lib.Program

/-!
state3/state.cpp: the operations of the state of one transaction, as programs over the members of
`State`. The journal and the block state that is read are chosen when a program is run. A failed
`MONAD_ASSERT` aborts the program. A `MONAD_ASSERT_THROW` is an answer of the operation, and what
the operation has written before it stays written. The calls of `rb_`, which tracks the reserve
balance, are left out: where that is on, a program asks for more of the operations below.
-/

namespace MonadChain.Execution

structure Log where
  data : List UInt8
  topics : List Hash
  address : Address
  deriving DecidableEq, Repr

/-- What is fixed in a transaction. A code is addressed by its hash: `codeOf` is what the
block state, the virtual machine and the database hold. -/
structure Config where
  incarnation : Incarnation
  cancun : Bool
  mip8 : Bool
  keccak : Code → Hash
  codeOf : Hash → Option Code

/-- Accesses to the journaled members: `current_`, `version_`, `dirty_` and `logs_`. -/
inductive JournalAction where
  | recent (address : Address)
  | current (address : Address) (fallback : AccountState)
  | modify (address : Address) (change : AccountState → AccountState)
  | sweep (reason : String) (change : AccountState → Option AccountState)
  | push
  | popAccept
  | popReject
  | logs
  | storeLog (log : Log)

@[reducible] def JournalAction.Answer : JournalAction → Type
  | .recent _ => Option AccountState
  | .current _ _ => AccountState
  | .logs => List Log
  | _ => Unit

abbrev journalActions : Effects := ⟨JournalAction, JournalAction.Answer⟩

inductive Access where
  | original (address : Address)
  | findOriginal (address : Address)
  | originalStorage (address : Address) (incarnation : Incarnation) (key : Key)
  | setValidateExactBalance (address : Address)
  | setMinBalance (address : Address) (value : Nat)
  | setOriginalNonce (address : Address) (nonce : Nat)
  | journal (action : JournalAction)
  | findCode (hash : Hash)
  | putCode (hash : Hash) (code : Code)

@[reducible] def Access.Answer : Access → Type
  | .original _ => OriginalAccountState
  | .findOriginal _ => Option OriginalAccountState
  | .originalStorage _ _ _ => Value
  | .journal action => action.Answer
  | .findCode _ => Option Code
  | _ => Unit

abbrev accesses : Effects := ⟨Access, Access.Answer⟩

abbrev Method (α : Type) : Type := Program accesses α

namespace State

def access (action : Access) : Method action.Answer := Program.perform (E := accesses) action

def journal (action : JournalAction) : Method action.Answer := access (.journal action)

def monadAssert (condition : Bool) (reason : String) : Method Unit :=
  if condition then .done () else .abort reason

/-! state.cpp, the states of an account -/

section

variable (address : Address)

def originalAccountState : Method OriginalAccountState :=
  access (.original address)

def recentAccountState : Method AccountState := do
  match ← journal (.recent address) with
  | some state => return state
  | none => return (← originalAccountState address).toAccountState

def currentAccountState : Method AccountState := do
  match ← journal (.recent address) with
  | some state => journal (.current address state)
  | none => journal (.current address (← originalAccountState address).toAccountState)

/-- An assignment through the reference that `currentAccountState` returned. -/
def modify (address : Address) (change : AccountState → AccountState) : Method Unit :=
  journal (.modify address change)

def recentAccount : Method (Option Account) := do
  return (← recentAccountState address).account

def accountExists : Method Bool := do
  return (← recentAccount address).isSome

def accountIsDead : Method Bool := do
  return isDead (← recentAccount address)

def accountHasCodeOrNonce : Method Bool := do
  match ← recentAccount address with
  | none => return false
  | some account => return 0 < account.nonce ∨ account.codeHash ≠ nullHash

def getNonce : Method Nat := do
  return ((← recentAccount address).map (·.nonce)).getD 0

def getBalance : Method Nat := do
  let account ← recentAccount address
  let _ ← originalAccountState address
  access (.setValidateExactBalance address)
  return (account.map (·.balance)).getD 0

def getOriginalBalance : Method Nat := do
  let original ← originalAccountState address
  access (.setValidateExactBalance address)
  return (original.account.map (·.balance)).getD 0

def getCodeHash : Method Hash := do
  return ((← recentAccount address).map (·.codeHash)).getD nullHash

def isDestructed : Method Bool := do
  return (← recentAccountState address).destructed

def isCurrentIncarnation (config : Config) (address : Address) : Method Bool := do
  match ← recentAccount address with
  | some account => return account.incarnation = config.incarnation
  | none => return false

def getStorage (key : Key) : Method Value := do
  match ← journal (.recent address) with
  | none =>
    match ← access (.findOriginal address) with
    | none => .abort "it2 != original_.end()"
    | some original =>
      match original.account with
      | none => .abort "account.has_value()"
      | some account => access (.originalStorage address account.incarnation key)
  | some state =>
    match state.account with
    | none => .abort "account.has_value()"
    | some account =>
      match state.storage.lookup key with
      | some value => return value
      | none =>
        match ← access (.findOriginal address) with
        | none => .abort "it2 != original_.end()"
        | some original =>
          if original.account.map (·.incarnation) ≠ some account.incarnation then return 0
          else access (.originalStorage address account.incarnation key)

def getTransientStorage (address : Address) (key : Key) : Method Value := do
  return (← recentAccountState address).getTransientStorage key

def isTouched : Method Bool := do
  return ((← journal (.recent address)).map (·.touched)).getD false

end

end State

namespace AccountState

/-- An account that does not exist is made with the incarnation of the transaction. -/
def create (config : Config) (state : AccountState) : AccountState :=
  { state with account := some (state.account.getD { incarnation := config.incarnation }) }

def withBalance (change : Nat → Nat) (state : AccountState) : AccountState :=
  { state with
    account := state.account.map fun account => { account with balance := change account.balance } }

def withNonce (nonce : Nat) (state : AccountState) : AccountState :=
  { state with account := state.account.map ({ · with nonce := nonce }) }

def withCodeHash (hash : Hash) (state : AccountState) : AccountState :=
  { state with account := state.account.map ({ · with codeHash := hash }) }

def withIncarnation (incarnation : Incarnation) (state : AccountState) : AccountState :=
  { state with account := state.account.map ({ · with incarnation := incarnation }) }

def touch (state : AccountState) : AccountState := { state with touched := true }

def destruct (state : AccountState) : AccountState := { state with destructed := true }

def balance (state : AccountState) : Nat := (state.account.map (·.balance)).getD 0

end AccountState

namespace State

section

variable (config : Config) (address : Address)

def setNonce (nonce : Nat) : Method Unit := do
  let _ ← currentAccountState address
  modify address fun state => (state.create config).withNonce nonce

def maxBalance : Nat := 2 ^ 256 - 1

def addToBalance (delta : Nat) : Method (Except String Unit) := do
  let state ← currentAccountState address
  modify address (·.create config)
  if maxBalance - delta < state.balance then return .error "balance overflow"
  modify address fun state => (state.withBalance (· + delta)).touch
  return .ok ()

def subtractFromBalance (delta : Nat) : Method (Except String Unit) := do
  let state ← currentAccountState address
  modify address (·.create config)
  if state.balance < delta then return .error "balance underflow"
  modify address fun state => (state.withBalance (· - delta)).touch
  return .ok ()

def setStorage (key : Key) (value : Value) : Method StorageStatus := do
  let state ← currentAccountState address
  match state.account with
  | none => .abort "account_state.account_"
  | some account =>
    let _ ← originalAccountState address
    let original ← access (.originalStorage address account.incarnation key)
    modify address fun state => (state.setStorage key value original).2
    return (state.setStorage key value original).1

def setTransientStorage (key : Key) (value : Value) : Method Unit := do
  let _ ← currentAccountState address
  modify address (·.setTransientStorage key value)

def touch : Method Unit := do
  let _ ← currentAccountState address
  modify address (·.touch)

def accessAccount : Method AccessStatus := do
  let state ← currentAccountState address
  modify address (·.access.2)
  return state.access.1

def accessStorage (key : Key) : Method AccessStatus := do
  let state ← currentAccountState address
  modify address fun state => (state.accessStorage key).2
  if config.mip8 then
    modify address fun state =>
      { state with pageTracker := (accessPage state.pageTracker key).2 }
    return (accessPage state.pageTracker key).1
  return (state.accessStorage key).1

def updatePage (key : Key) (status : StorageStatus) : Method PageStorageStatus := do
  let state ← currentAccountState address
  modify address fun state =>
    { state with pageTracker := (Execution.updatePage state.pageTracker key status).2 }
  return (Execution.updatePage state.pageTracker key status).1

section

variable (address beneficiary : Address)

/-- Moves the whole balance to the beneficiary; an exception of a transfer leaves the rest. -/
def moveBalance (balance : Nat) : Method (Except String Unit) := do
  if address ≠ beneficiary then
    match ← addToBalance config beneficiary balance with
    | .error reason => return .error reason
    | .ok () => subtractFromBalance config address balance
  else subtractFromBalance config address balance

/-- From Cancun on, an account of an earlier transaction that names itself keeps its balance. -/
def leaveBalance (balance : Nat) : Method (Except String Unit) := do
  if config.cancun = false ∨ address ≠ beneficiary then
    moveBalance config address beneficiary balance
  else
    if ← isCurrentIncarnation config address then
      moveBalance config address beneficiary balance
    else return .ok ()

def selfdestruct : Method (Except String (Bool × Nat)) := do
  let state ← currentAccountState address
  let balance ← getBalance address
  match ← leaveBalance config address beneficiary balance with
  | .error reason => return .error reason
  | .ok () =>
    modify address (·.destruct)
    return .ok (!state.destructed, balance)

end

def destructSuicide (state : AccountState) : Option AccountState :=
  if state.destructed then
    if config.cancun then
      match state.account with
      | none => none
      | some account =>
        if account.incarnation = config.incarnation then some { state with account := none }
        else some state
    else some { state with account := none }
  else some state

def destructSuicides : Method Unit :=
  journal (.sweep "account->incarnation" (destructSuicide config))

def destructDead (state : AccountState) : Option AccountState :=
  if state.touched ∧ isDead state.account then some { state with account := none } else some state

def destructTouchedDead : Method Unit := journal (.sweep "account" destructDead)

def blockCode (hash : Hash) : Method Code :=
  match config.codeOf hash with
  | some code => .done code
  | none => .abort "result"

def readCode (hash : Hash) : Method Code := do
  match ← access (.findCode hash) with
  | some code => return code
  | none => blockCode config hash

def getCode : Method Code := do
  match ← recentAccount address with
  | none => blockCode config nullHash
  | some account => readCode config account.codeHash

def getCodeSize : Method Nat := do
  match ← recentAccount address with
  | none => return 0
  | some account => return (← readCode config account.codeHash).length

def copyCode (offset size : Nat) : Method (List UInt8) := do
  match ← recentAccount address with
  | none => return []
  | some account => return ((← readCode config account.codeHash).drop offset).take size

def setCode (code : Code) : Method Unit := do
  let state ← currentAccountState address
  match state.account with
  | none => return ()
  | some _ =>
    access (.putCode (config.keccak code) code)
    modify address (·.withCodeHash (config.keccak code))

def createContract : Method Unit := do
  let state ← currentAccountState address
  match state.account with
  | some account =>
    monadAssert (account.nonce = 0) "account->nonce == 0"
    monadAssert (account.codeHash = nullHash) "account->code_hash == NULL_HASH"
    modify address (·.withIncarnation config.incarnation)
  | none => modify address (·.create config)

def createAccountNoRollback : Method Unit := do
  let state ← currentAccountState address
  monadAssert state.account.isNone "!account.has_value()"
  modify address
    (·.create { config with incarnation := ⟨config.incarnation.block, lastTx⟩ })

def setToStateIncarnation : Method Unit := do
  let _ ← currentAccountState address
  modify address fun state => (state.create config).withIncarnation config.incarnation

def setOriginalNonce (nonce : Nat) : Method Unit := do
  let _ ← originalAccountState address
  access (.setOriginalNonce address nonce)

def recordBalanceConstraintForDebit (debit : Nat) : Method Bool := do
  let account ← recentAccount address
  let balance := (account.map (·.balance)).getD 0
  let original ← originalAccountState address
  if debit ≤ balance then
    let diff := balance - debit
    let originalBalance := (original.account.map (·.balance)).getD 0
    if diff < originalBalance then access (.setMinBalance address (originalBalance - diff))
    return true
  access (.setValidateExactBalance address)
  return false

end

end State

inductive Op where
  | push
  | popAccept
  | popReject
  | accountExists (address : Address)
  | accountIsDead (address : Address)
  | accountHasCodeOrNonce (address : Address)
  | getNonce (address : Address)
  | getBalance (address : Address)
  | getOriginalBalance (address : Address)
  | getCodeHash (address : Address)
  | isDestructed (address : Address)
  | isCurrentIncarnation (address : Address)
  | getStorage (address : Address) (key : Key)
  | getTransientStorage (address : Address) (key : Key)
  | isTouched (address : Address)
  | setNonce (address : Address) (nonce : Nat)
  | addToBalance (address : Address) (delta : Nat)
  | subtractFromBalance (address : Address) (delta : Nat)
  | setStorage (address : Address) (key : Key) (value : Value)
  | setTransientStorage (address : Address) (key : Key) (value : Value)
  | touch (address : Address)
  | accessAccount (address : Address)
  | accessStorage (address : Address) (key : Key)
  | updatePage (address : Address) (key : Key) (status : StorageStatus)
  | selfdestruct (address beneficiary : Address)
  | destructSuicides
  | destructTouchedDead
  | readCode (hash : Hash)
  | getCode (address : Address)
  | getCodeSize (address : Address)
  | copyCode (address : Address) (offset size : Nat)
  | setCode (address : Address) (code : Code)
  | createContract (address : Address)
  | createAccountNoRollback (address : Address)
  | logs
  | storeLog (log : Log)
  | setToStateIncarnation (address : Address)
  | setOriginalNonce (address : Address) (nonce : Nat)
  | recordBalanceConstraintForDebit (address : Address) (debit : Nat)

@[reducible] def Op.Answer : Op → Type
  | .accountExists _ | .accountIsDead _ | .accountHasCodeOrNonce _ | .isDestructed _
  | .isCurrentIncarnation _ | .isTouched _ | .recordBalanceConstraintForDebit _ _ => Bool
  | .getNonce _ | .getBalance _ | .getOriginalBalance _ | .getCodeSize _ => Nat
  | .getCodeHash _ => Hash
  | .getStorage _ _ | .getTransientStorage _ _ => Value
  | .addToBalance _ _ | .subtractFromBalance _ _ => Except String Unit
  | .setStorage _ _ _ => StorageStatus
  | .accessAccount _ | .accessStorage _ _ => AccessStatus
  | .updatePage _ _ _ => PageStorageStatus
  | .selfdestruct _ _ => Except String (Bool × Nat)
  | .readCode _ | .getCode _ => Code
  | .copyCode _ _ _ => List UInt8
  | .logs => List Log
  | _ => Unit

abbrev operations : Effects := ⟨Op, Op.Answer⟩

def Op.method (config : Config) : (op : Op) → Method op.Answer
  | .push => State.journal .push
  | .popAccept => State.journal .popAccept
  | .popReject => State.journal .popReject
  | .accountExists address => State.accountExists address
  | .accountIsDead address => State.accountIsDead address
  | .accountHasCodeOrNonce address => State.accountHasCodeOrNonce address
  | .getNonce address => State.getNonce address
  | .getBalance address => State.getBalance address
  | .getOriginalBalance address => State.getOriginalBalance address
  | .getCodeHash address => State.getCodeHash address
  | .isDestructed address => State.isDestructed address
  | .isCurrentIncarnation address => State.isCurrentIncarnation config address
  | .getStorage address key => State.getStorage address key
  | .getTransientStorage address key => State.getTransientStorage address key
  | .isTouched address => State.isTouched address
  | .setNonce address nonce => State.setNonce config address nonce
  | .addToBalance address delta => State.addToBalance config address delta
  | .subtractFromBalance address delta => State.subtractFromBalance config address delta
  | .setStorage address key value => State.setStorage address key value
  | .setTransientStorage address key value => State.setTransientStorage address key value
  | .touch address => State.touch address
  | .accessAccount address => State.accessAccount address
  | .accessStorage address key => State.accessStorage config address key
  | .updatePage address key status => State.updatePage address key status
  | .selfdestruct address beneficiary => State.selfdestruct config address beneficiary
  | .destructSuicides => State.destructSuicides config
  | .destructTouchedDead => State.destructTouchedDead
  | .readCode hash => State.readCode config hash
  | .getCode address => State.getCode config address
  | .getCodeSize address => State.getCodeSize config address
  | .copyCode address offset size => State.copyCode config address offset size
  | .setCode address code => State.setCode config address code
  | .createContract address => State.createContract config address
  | .createAccountNoRollback address => State.createAccountNoRollback config address
  | .logs => State.journal .logs
  | .storeLog log => State.journal (.storeLog log)
  | .setToStateIncarnation address => State.setToStateIncarnation config address
  | .setOriginalNonce address nonce => State.setOriginalNonce address nonce
  | .recordBalanceConstraintForDebit address debit =>
    State.recordBalanceConstraintForDebit address debit

/-- A block state, as far as a transaction reads it. -/
structure World (W : Type) where
  readAccount : Address → W → Except String (Option Account × W)
  readStorage : Address → Incarnation → Key → W → Except String (Value × W)

structure StateOver (J W : Type) where
  original : Map Address OriginalAccountState
  code : Map Hash Code
  journal : J
  world : W

namespace StateOver

variable {J W : Type}

def readOriginal (world : World W) (address : Address) (state : StateOver J W) :
    Except String (OriginalAccountState × StateOver J W) :=
  match state.original.lookup address with
  | some original => .ok (original, state)
  | none =>
    match world.readAccount address state.world with
    | .error reason => .error reason
    | .ok (account, after) =>
      .ok ({ account := account },
        { state with original := state.original.insert address { account := account },
                     world := after })

def readOriginalStorage (world : World W) (address : Address) (incarnation : Incarnation)
    (key : Key) (state : StateOver J W) : Except String (Value × StateOver J W) :=
  match state.original.lookup address with
  | none => .error "it2 != original_.end()"
  | some original =>
    match original.storage.lookup key with
    | some value => .ok (value, state)
    | none =>
      match world.readStorage address incarnation key state.world with
      | .error reason => .error reason
      | .ok (value, after) =>
        let original := { original with storage := original.storage.insert key value }
        .ok (value,
          { state with original := state.original.insert address original, world := after })

def updateOriginal (address : Address)
    (change : OriginalAccountState → Except String OriginalAccountState) (state : StateOver J W) :
    Except String (Unit × StateOver J W) :=
  match state.original.lookup address with
  | none => .error "it != original_.end()"
  | some original =>
    match change original with
    | .error reason => .error reason
    | .ok original =>
      .ok ((), { state with original := state.original.insert address original })

section Spec

variable {world : World W} {address : Address} {state after : StateOver J W}
  {original : OriginalAccountState}

theorem readOriginal_ok (ran : state.readOriginal world address = .ok (original, after)) :
    state.original.lookup address = some original ∧ after = state ∨
      state.original.lookup address = none ∧ ∃ account block,
        world.readAccount address state.world = .ok (account, block) ∧
        original = { account := account } ∧
        after = { state with
          original := state.original.insert address { account := account }, world := block } := by
  unfold readOriginal at ran
  split at ran
  · next found =>
    cases ran
    exact .inl ⟨found, rfl⟩
  · next absent =>
    split at ran
    · cases ran
    · next account block read =>
      cases ran
      exact .inr ⟨absent, account, block, read, rfl, rfl⟩

theorem readOriginalStorage_ok {incarnation : Incarnation} {key : Key} {value : Value}
    (ran : state.readOriginalStorage world address incarnation key = .ok (value, after)) :
    ∃ original, state.original.lookup address = some original ∧
      (original.storage.lookup key = some value ∧ after = state ∨
        original.storage.lookup key = none ∧ ∃ block,
          world.readStorage address incarnation key state.world = .ok (value, block) ∧
          after = { state with
            original := state.original.insert address
              { original with storage := original.storage.insert key value }
            world := block }) := by
  unfold readOriginalStorage at ran
  split at ran
  · cases ran
  · next original found =>
    refine ⟨original, found, ?_⟩
    split at ran
    · next cached =>
      cases ran
      exact .inl ⟨cached, rfl⟩
    · next unread =>
      split at ran
      · cases ran
      · next value block read =>
        cases ran
        exact .inr ⟨unread, block, read, rfl⟩

theorem updateOriginal_ok {change : OriginalAccountState → Except String OriginalAccountState}
    {answer : Unit} (ran : state.updateOriginal address change = .ok (answer, after)) :
    ∃ original changed, state.original.lookup address = some original ∧
      change original = .ok changed ∧
      after = { state with original := state.original.insert address changed } := by
  unfold updateOriginal at ran
  split at ran
  · cases ran
  · next original found =>
    split at ran
    · cases ran
    · next changed applied =>
      cases ran
      exact ⟨original, changed, found, applied, rfl⟩

end Spec

end StateOver

namespace OriginalAccountState

def demandExactBalance (original : OriginalAccountState) : OriginalAccountState :=
  { original with validateExactBalance := true }

def raiseMinBalance (value : Nat) (original : OriginalAccountState) :
    Except String OriginalAccountState :=
  match original.account with
  | none => .error "account_.has_value()"
  | some account =>
    if account.balance < value then .error "account_->balance >= value"
    else .ok { original with minBalance := max original.minBalance value }

theorem raiseMinBalance_ok {value : Nat} {original changed : OriginalAccountState}
    (raised : original.raiseMinBalance value = .ok changed) :
    ∃ account, original.account = some account ∧ value ≤ account.balance ∧
      changed = { original with minBalance := max original.minBalance value } := by
  unfold raiseMinBalance at raised
  split at raised
  · cases raised
  · next account there =>
    split at raised
    · cases raised
    · next enough =>
      cases raised
      exact ⟨account, there, Nat.le_of_not_lt enough, rfl⟩

def withNonce (nonce : Nat) (original : OriginalAccountState) : OriginalAccountState :=
  { original with account := some { original.account.getD {} with nonce := nonce } }

end OriginalAccountState

namespace StateOver

variable {J W : Type}

def handler (journal : Program.Handler journalActions J) (world : World W) :
    Program.Handler accesses (StateOver J W)
  | .original address, state => state.readOriginal world address
  | .findOriginal address, state => .ok (state.original.lookup address, state)
  | .originalStorage address incarnation key, state =>
    state.readOriginalStorage world address incarnation key
  | .setValidateExactBalance address, state =>
    state.updateOriginal address fun original => .ok original.demandExactBalance
  | .setMinBalance address value, state =>
    state.updateOriginal address (·.raiseMinBalance value)
  | .setOriginalNonce address nonce, state =>
    state.updateOriginal address fun original => .ok (original.withNonce nonce)
  | .journal action, state =>
    match journal action state.journal with
    | .error reason => .error reason
    | .ok (answer, journal) => .ok (answer, { state with journal := journal })
  | .findCode hash, state => .ok (state.code.lookup hash, state)
  | .putCode hash code, state => .ok ((), { state with code := state.code.insert hash code })

theorem handler_journal_ok {journal : Program.Handler journalActions J} {world : World W}
    {action : JournalAction} {state after : StateOver J W} {answer : action.Answer}
    (ran : handler journal world (.journal action) state = .ok (answer, after)) :
    ∃ held, journal action state.journal = .ok (answer, held) ∧
      after = { state with journal := held } := by
  simp only [handler] at ran
  split at ran
  · cases ran
  · next answer held changed =>
    cases ran
    exact ⟨held, changed, rfl⟩

def interface (config : Config) (journal : Program.Handler journalActions J) (world : World W) :
    Program.Handler operations (StateOver J W) :=
  Program.handlerOf (Op.method config) (handler journal world)

def fresh (journal : J) (world : W) : StateOver J W :=
  { original := ∅, code := ∅, journal := journal, world := world }

def OverJournals {K : Type} (related : J → K → Prop) (state : StateOver J W)
    (image : StateOver K W) : Prop :=
  state.original = image.original ∧ state.code = image.code ∧ state.world = image.world ∧
    related state.journal image.journal

theorem agree_updateOriginal {K : Type} {related : J → K → Prop} {state : StateOver J W}
    {image : StateOver K W} (together : OverJournals related state image) (address : Address)
    (change : OriginalAccountState → Except String OriginalAccountState) :
    Program.Agree (OverJournals related) (state.updateOriginal address change)
      (image.updateOriginal address change) := by
  unfold updateOriginal
  rw [← together.1]
  cases state.original.lookup address with
  | none => exact rfl
  | some known =>
    dsimp only
    cases change known with
    | error reason => exact rfl
    | ok changed => exact ⟨rfl, rfl, together.2⟩

theorem simulates_journals {K : Type} (world : World W) {related : J → K → Prop}
    {journal : Program.Handler journalActions J} {other : Program.Handler journalActions K}
    (simulates : Program.Simulates related journal other) :
    Program.Simulates (OverJournals related) (handler journal world) (handler other world) := by
  intro action state image together
  have updates := agree_updateOriginal together
  obtain ⟨original, code, held, world'⟩ := state
  obtain ⟨original', code', seen, world''⟩ := image
  obtain ⟨rfl, rfl, rfl, alike⟩ := together
  cases action with
  | journal action =>
    have one := simulates action held seen alike
    simp only [handler]
    cases first : journal action held with
    | error reason =>
      cases second : other action seen with
      | error also =>
        rw [first, second] at one
        exact one
      | ok found =>
        rw [first, second] at one
        exact one.elim
    | ok found =>
      cases second : other action seen with
      | error also =>
        rw [first, second] at one
        exact one.elim
      | ok also =>
        rw [first, second] at one
        exact ⟨one.1, rfl, rfl, rfl, one.2⟩
  | original address =>
    simp only [handler, readOriginal]
    cases original.lookup address with
    | some known => exact ⟨rfl, rfl, rfl, rfl, alike⟩
    | none =>
      cases world.readAccount address world' with
      | error reason => exact rfl
      | ok found => exact ⟨rfl, rfl, rfl, rfl, alike⟩
  | findOriginal address | findCode hash | putCode hash code => exact ⟨rfl, rfl, rfl, rfl, alike⟩
  | originalStorage address incarnation key =>
    simp only [handler, readOriginalStorage]
    cases original.lookup address with
    | none => exact rfl
    | some known =>
      dsimp only
      cases known.storage.lookup key with
      | some value => exact ⟨rfl, rfl, rfl, rfl, alike⟩
      | none =>
        cases world.readStorage address incarnation key world' with
        | error reason => exact rfl
        | ok found => exact ⟨rfl, rfl, rfl, rfl, alike⟩
  | setValidateExactBalance address =>
    exact updates address fun original => .ok original.demandExactBalance
  | setMinBalance address value => exact updates address (·.raiseMinBalance value)
  | setOriginalNonce address nonce =>
    exact updates address fun original => .ok (original.withNonce nonce)

end StateOver

end MonadChain.Execution
