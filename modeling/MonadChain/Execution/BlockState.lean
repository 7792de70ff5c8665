import MonadChain.Execution.Journal

/-!
state2/block_state.cpp: the state of a block between its transactions. A read is two critical
sections with the database in between. `can_merge` compares what a transaction has read with the
block state, `merge` writes what it has written.
-/

namespace MonadChain.Execution

structure Db where
  readAccount : Address → Option Account
  readStorage : Address → Incarnation → Key → Value

structure StateDelta where
  account : Option Account × Option Account
  storage : Map Key (Value × Value) := ∅

structure BlockState where
  state : Map Address StateDelta := ∅

namespace BlockState

section

variable (db : Db) (address : Address)

def findAccount (block : BlockState) : Option (Option Account) :=
  (block.state.lookup address).map (·.account.2)

def emplaceAccount (result : Option Account) (block : BlockState) : Option Account × BlockState :=
  match block.state.lookup address with
  | some delta => (delta.account.2, block)
  | none => (result, ⟨block.state.insert address { account := (result, result) }⟩)

def readAccount (block : BlockState) : Option Account × BlockState :=
  match block.findAccount address with
  | some account => (account, block)
  | none => block.emplaceAccount address (db.readAccount address)

section

variable (incarnation : Incarnation) (key : Key)

def hasIncarnation (account : Option Account) : Bool :=
  account.map (·.incarnation) = some incarnation

inductive StorageLookup where
  | answer (value : Value)
  | database (readStorage : Bool)

def lookupStorage (block : BlockState) : Except String StorageLookup :=
  match block.state.lookup address with
  | none => .error "state_->find(it, address)"
  | some delta =>
    if hasIncarnation incarnation delta.account.2 then
      match delta.storage.lookup key with
      | some value => .ok (.answer value.2)
      | none => .ok (.database (hasIncarnation incarnation delta.account.1))
    else .ok (.answer 0)

def emplaceStorage (result : Value) (block : BlockState) : Except String (Value × BlockState) :=
  match block.state.lookup address with
  | none => .error "state_->find(it, address)"
  | some delta =>
    if hasIncarnation incarnation delta.account.2 then
      match delta.storage.lookup key with
      | some value => .ok (value.2, block)
      | none =>
        let delta := { delta with storage := delta.storage.insert key (result, result) }
        .ok (result, ⟨block.state.insert address delta⟩)
    else .ok (result, block)

def databaseStorage (readStorage : Bool) : Value :=
  if readStorage then db.readStorage address incarnation key else 0

end

def readStorage (incarnation : Incarnation) (key : Key)
    (block : BlockState) : Except String (Value × BlockState) :=
  match block.lookupStorage address incarnation key with
  | .error reason => .error reason
  | .ok (.answer value) => .ok (value, block)
  | .ok (.database readStorage) =>
    block.emplaceStorage address incarnation key
      (databaseStorage db address incarnation key readStorage)

/-- The block state as a transaction reads it when no other one is running. -/
def world : World BlockState where
  readAccount address block := .ok (block.readAccount db address)
  readStorage address incarnation key block := block.readStorage db address incarnation key

end

end BlockState

/-! state.cpp, `try_fix_account_mismatch` -/

abbrev TxState (W : Type) : Type := StateOver VersionJournal W

namespace TxState

variable {W : Type}

def adjustBalance (original actual recent : Nat) : Except String Nat :=
  if original < actual then .ok ((recent + (actual - original)) % 2 ^ 256)
  else if recent < original - actual then
    .error "recent->balance >= (original->balance - actual->balance)"
  else .ok (recent - (original - actual))

def rebalance (stack : VersionStack AccountState) (recent : Account) (balance : Nat) :
    VersionStack AccountState :=
  stack.assign { stack.recent with account := some { recent with balance := balance } }

/-- The last part of `try_fix_account_mismatch`: `none` is the answer false. -/
def adjustCurrent (address : Address) (original actual : Nat) (journal : VersionJournal) :
    Except String (Option VersionJournal) :=
  match journal.current.lookup address with
  | none => .ok (some journal)
  | some stack =>
    if stack.size ≠ 1 then .error "current_it->second.size() == 1"
    else
      match stack.recent.account with
      | none => .ok none
      | some recent =>
        match adjustBalance original actual recent.balance with
        | .error reason => .error reason
        | .ok balance =>
          .ok (some { journal with
            current := journal.current.insert address (rebalance stack recent balance) })

def sameButBalance (original actual : Option Account) : Bool :=
  match original, actual with
  | some original, some actual =>
    !isEmpty original && !isEmpty actual && original.codeHash = actual.codeHash &&
      original.incarnation = actual.incarnation && original.nonce = actual.nonce
  | _, _ => false

def tryFixAccountMismatch (relaxed : Bool) (address : Address) (actual : Option Account)
    (state : TxState W) : Except String (Bool × TxState W) :=
  match state.original.lookup address with
  | none => .error "original_it != original_.end()"
  | some original =>
    match original.account, actual with
    | some before, some now =>
      if sameButBalance (some before) (some now) = false then .ok (false, state)
      else if before.balance = now.balance then .error "original->balance != actual->balance"
      else if relaxed = false ∨ original.validateExactBalance ∨
          now.balance < original.minBalance then .ok (false, state)
      else
        match adjustCurrent address before.balance now.balance state.journal with
        | .error reason => .error reason
        | .ok none => .ok (false, state)
        | .ok (some journal) =>
          let fixed := { original with
            account := some { before with balance := now.balance }
            validateExactBalance := true }
          .ok (true,
            { state with original := state.original.insert address fixed,
                         journal := journal })
    | _, _ => .ok (false, state)

end TxState

namespace BlockState

variable {W : Type}

def storageMatches (delta : StateDelta) (storage : Map Key Value) : Bool :=
  storage.entries.all fun slot =>
    match delta.storage.lookup slot.1 with
    | some value => slot.2 = value.2
    | none => slot.2 = 0

/-- `can_merge`, over the addresses of `original`; the state comes back with fixed balances. -/
def canMergeAll (relaxed : Bool) (block : BlockState) :
    List Address → TxState W → Except String (Bool × TxState W)
  | [], state => .ok (true, state)
  | address :: rest, state =>
    match state.original.lookup address, block.state.lookup address with
    | none, _ => .error "original"
    | _, none => .error "state_->find(it, address)"
    | some original, some delta =>
      if original.account = delta.account.2 then
        if storageMatches delta original.storage then canMergeAll relaxed block rest state
        else .ok (false, state)
      else
        match state.tryFixAccountMismatch relaxed address delta.account.2 with
        | .error reason => .error reason
        | .ok (false, state) => .ok (false, state)
        | .ok (true, state) =>
          if storageMatches delta original.storage then canMergeAll relaxed block rest state
          else .ok (false, state)

def canMerge (relaxed : Bool) (block : BlockState) (state : TxState W) :
    Except String (Bool × TxState W) :=
  canMergeAll relaxed block state.original.keys state

def mergeStorage (storage : Map Key Value) (deltas : Map Key (Value × Value)) :
    Map Key (Value × Value) :=
  storage.entries.foldl
    (fun deltas slot => deltas.insert slot.1 (((deltas.lookup slot.1).map Prod.fst).getD 0, slot.2))
    deltas

def mergeAccount (address : Address) (written : AccountState) (block : BlockState) :
    Except String BlockState :=
  match block.state.lookup address with
  | none => .error "state_->find(it, address)"
  | some delta =>
    let storage := if written.account.isSome then mergeStorage written.storage delta.storage else ∅
    .ok ⟨block.state.insert address ⟨(delta.account.1, written.account), storage⟩⟩

/-- The accounts that a transaction has written; every stack has one entry. -/
def settled (current : Map Address (VersionStack AccountState)) :
    Except String (List (Address × AccountState)) :=
  current.entries.mapM fun entry =>
    if entry.2.size ≠ 1 then .error "stack.size() == 1"
    else if entry.2.version ≠ 0 then .error "stack.version() == 0"
    else .ok (entry.1, entry.2.recent)

def mergeAll : List (Address × AccountState) → BlockState → Except String BlockState
  | [], block => .ok block
  | (address, written) :: rest, block =>
    match block.mergeAccount address written with
    | .error reason => .error reason
    | .ok block => mergeAll rest block

def merge (block : BlockState) (state : TxState W) : Except String BlockState :=
  match settled state.journal.current with
  | .error reason => .error reason
  | .ok written => mergeAll written block

end BlockState

end MonadChain.Execution
