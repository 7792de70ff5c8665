import Mathlib.Algebra.GroupWithZero.Nat
import Mathlib.Data.List.AList

/-!
core/account.hpp, account_substate.hpp, page_tracker.hpp and account_state.hpp: the state of one
account in a transaction. Keys, values and hashes are numbers here; a balance is below 2^256.
-/

namespace MonadChain.Execution

abbrev Address : Type := Nat
abbrev Key : Type := Nat
abbrev Value : Type := Nat
abbrev Hash : Type := Nat
abbrev Code : Type := List UInt8

abbrev Map (K V : Type) : Type := AList fun _ : K => V

theorem lookup_insert_ite {K V : Type} [DecidableEq K] {map : Map K V} {key other : K} {value : V} :
    (map.insert key value).lookup other = if other = key then some value else map.lookup other := by
  split
  · rename_i here
    rw [here, AList.lookup_insert]
  · rename_i apart
    exact AList.lookup_insert_ne apart

structure Incarnation where
  block : Nat
  tx : Nat
  deriving DecidableEq, Repr

def lastTx : Nat := 2 ^ 24 - 1

def nullHash : Hash := 0xc5d2460186f7233c927e7db2dcc703c0e500b653ca82273b7bfad8045d85a470

structure Account where
  balance : Nat := 0
  codeHash : Hash := nullHash
  nonce : Nat := 0
  incarnation : Incarnation := ⟨0, 0⟩
  deriving DecidableEq, Repr

def isEmpty (account : Account) : Bool :=
  account.codeHash = nullHash ∧ account.nonce = 0 ∧ account.balance = 0

def isDead : Option Account → Bool
  | none => true
  | some account => isEmpty account

inductive AccessStatus where
  | cold | warm
  deriving DecidableEq, Repr

inductive StorageStatus where
  | assigned | added | deleted | modified | deletedAdded | modifiedDeleted | deletedRestored
  | addedDeleted | modifiedRestored
  deriving DecidableEq, Repr

/-! page_tracker.hpp -/

structure PageState where
  accessed : Bool := false
  dirty : Bool := false
  peakGrowth : Int := 0
  currentGrowth : Int := 0
  deriving DecidableEq, Repr

structure PageStorageStatus where
  firstPageWrite : Bool
  grewState : Bool
  deriving DecidableEq, Repr

abbrev PageTracker : Type := Map Key PageState

def computePageKey (key : Key) : Key := key >>> 7

def lookupPageState (pages : PageTracker) (pageKey : Key) : PageState :=
  (pages.lookup pageKey).getD {}

def accessPage (pages : PageTracker) (key : Key) : AccessStatus × PageTracker :=
  let page := lookupPageState pages (computePageKey key)
  if page.accessed then (.warm, pages)
  else (.cold, pages.insert (computePageKey key) { page with accessed := true })

/-- The growth counters are 16 bits wide. -/
def grow (growth by_ : Int) : Int := (growth + by_).bmod (2 ^ 16)

def growthOf : StorageStatus → Int
  | .added | .deletedAdded | .deletedRestored => 1
  | .deleted | .modifiedDeleted | .addedDeleted => -1
  | _ => 0

def updatePage (pages : PageTracker) (key : Key) (status : StorageStatus) :
    PageStorageStatus × PageTracker :=
  let page := lookupPageState pages (computePageKey key)
  let valueChanged := status ≠ .assigned
  let firstPageWrite := !page.dirty && valueChanged
  let current := grow page.currentGrowth (growthOf status)
  let grewState := page.peakGrowth < current
  let updated : PageState :=
    { page with
      dirty := page.dirty || valueChanged
      currentGrowth := current
      peakGrowth := if grewState then current else page.peakGrowth }
  (⟨firstPageWrite, grewState⟩,
    if valueChanged then pages.insert (computePageKey key) updated else pages)

/-! account_state.hpp -/

structure AccountState where
  account : Option Account
  destructed : Bool := false
  touched : Bool := false
  accessed : Bool := false
  accessedStorage : List Key := []
  storage : Map Key Value := ∅
  transientStorage : Map Key Value := ∅
  pageTracker : PageTracker := ∅

/-- The account as it was read from the block state, with the storage that was. -/
structure OriginalAccountState extends AccountState where
  validateExactBalance : Bool := false
  minBalance : Nat := 0

namespace AccountState

variable (state : AccountState) (key : Key)

def access : AccessStatus × AccountState :=
  (if state.accessed then .warm else .cold, { state with accessed := true })

def accessStorage : AccessStatus × AccountState :=
  if key ∈ state.accessedStorage then (.warm, state)
  else (.cold, { state with accessedStorage := key :: state.accessedStorage })

def getTransientStorage : Value :=
  (state.transientStorage.lookup key).getD 0

def setTransientStorage (value : Value) : AccountState :=
  { state with transientStorage := state.transientStorage.insert key value }

def zeroOutStatus (original current : Value) : StorageStatus :=
  if current = 0 then .assigned
  else if original = current then .deleted
  else if original = 0 then .addedDeleted
  else .modifiedDeleted

def setCurrentStatus (value original current : Value) : StorageStatus :=
  if current = 0 then
    if original = 0 then .added
    else if value = original then .deletedRestored
    else .deletedAdded
  else if original = current ∧ original ≠ value then .modified
  else if original = value ∧ original ≠ current then .modifiedRestored
  else .assigned

def setStorage (value original : Value) : StorageStatus × AccountState :=
  let current := (state.storage.lookup key).getD original
  let status := if value = 0 then zeroOutStatus original current
    else setCurrentStatus value original current
  (status, { state with storage := state.storage.insert key value })

end AccountState

end MonadChain.Execution
