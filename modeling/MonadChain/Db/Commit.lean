import MonadChain.Db.StoragePage
import MonadChain.Execution.BlockState
import MonadChain.Lib.Batch

/-!
ethereum/db/commit_builder.cpp, monad/db/page_commit_builder.cpp and what mpt makes of their
updates. Leaves are kept decoded, and a trie is the map from hashed keys to leaves. `keccak` is
any function.
-/

namespace MonadChain.Db

open Execution

/-! mpt/update.hpp -/

structure StorageUpdate (L : Type) where
  key : Hash
  value : Option L

structure AccountUpdate (L : Type) where
  key : Hash
  value : Option (Address × Account)
  incarnation : Bool
  next : List (StorageUpdate L)

def AccountUpdate.isDeletion {L : Type} (update : AccountUpdate L) : Bool :=
  update.value.isNone && update.next.isEmpty

structure AccountLeaf (L : Type) where
  account : Address × Account
  storage : Map Hash L := ∅

abbrev StateTrie (L : Type) : Type := Map Hash (AccountLeaf L)

section Upsert

variable {L : Type}

/-- A key that is not in the trie gets a new leaf, which must have a value. -/
def upsertSlot (old : Option L) (update : StorageUpdate L) : Except String (Option L) :=
  match old, update.value with
  | none, none => .error "update.value.has_value()"
  | _, value => .ok value

def upsertStorage (updates : List (StorageUpdate L)) (storage : Map Hash L) :
    Except String (Map Hash L) :=
  applyBatch StorageUpdate.key upsertSlot updates storage

/-- `create_new_trie_` where there is no account, `update_value_and_subtrie_` where there is
one. The builders give a value to every update that is no deletion. -/
def upsertAccount (old : Option (AccountLeaf L)) (update : AccountUpdate L) :
    Except String (Option (AccountLeaf L)) :=
  match old with
  | none =>
    match update.value with
    | none => .error "update.value.has_value()"
    | some account => (upsertStorage update.next ∅).map fun storage => some ⟨account, storage⟩
  | some leaf =>
    if update.isDeletion then .ok none
    else
      (upsertStorage update.next (if update.incarnation then ∅ else leaf.storage)).map
        fun storage => some ⟨update.value.getD leaf.account, storage⟩

def upsert (updates : List (AccountUpdate L)) (trie : StateTrie L) : Except String (StateTrie L) :=
  applyBatch AccountUpdate.key upsertAccount updates trie

end Upsert

/-! trie_db.cpp: reads -/

structure Encoding (L : Type) where
  decode : L → StoragePage
  lookupKey : Key → Key
  lookupOffset : Key → Fin 128

def computeSlotOffset (key : Key) : Fin 128 := ⟨key % 128, Nat.mod_lt _ (by decide)⟩

abbrev SlotLeaf : Type := Key × Value
abbrev PageLeaf : Type := Key × StoragePage

def slotEncoding : Encoding SlotLeaf where
  decode leaf := .single leaf.2
  lookupKey := id
  lookupOffset _ := 0

def pageEncoding : Encoding PageLeaf where
  decode leaf := leaf.2
  lookupKey := computePageKey
  lookupOffset := computeSlotOffset

section Reads

variable {L : Type} (keccak : Nat → Hash) (encoding : Encoding L)

def pageAt (storage : Map Hash L) (key : Key) : StoragePage :=
  match storage.lookup (keccak key) with
  | some leaf => encoding.decode leaf
  | none => .empty

variable (trie : StateTrie L) (address : Address)

def readAccount : Option Account :=
  (trie.lookup (keccak address)).map (·.account.2)

def loadStoragePage (key : Key) : StoragePage :=
  match trie.lookup (keccak address) with
  | some leaf => pageAt keccak encoding leaf.storage key
  | none => .empty

def readStorage (key : Key) : Value :=
  (loadStoragePage keccak encoding trie address (encoding.lookupKey key)).get
    (encoding.lookupOffset key)

/-- The database as the block state reads it; the trie has no incarnations in its keys. -/
def view : Execution.Db where
  readAccount := readAccount keccak trie
  readStorage address _ key := readStorage keccak encoding trie address key

end Reads

/-! proposal_post_state.hpp, proposal_state.hpp -/

structure StorageKey where
  address : Address
  incarnation : Incarnation
  key : Key
  deriving DecidableEq

structure ProposalPostState where
  accounts : Map Address (Option Account) := ∅
  storage : Map StorageKey StoragePage := ∅

namespace ProposalPostState

def tryReadAccount (state : ProposalPostState) (address : Address) : Option (Option Account) :=
  state.accounts.lookup address

def tryReadStorage (state : ProposalPostState) (address : Address) (incarnation : Incarnation)
    (key : Key) : Option StoragePage :=
  match state.accounts.lookup address with
  | some account =>
    if BlockState.hasIncarnation incarnation account then
      state.storage.lookup ⟨address, incarnation, key⟩
    else some .empty
  | none => state.storage.lookup ⟨address, incarnation, key⟩

def answer {L : Type} (state : ProposalPostState) (encoding : Encoding L) (address : Address)
    (incarnation : Incarnation) (key : Key) : Option Value :=
  (state.tryReadStorage address incarnation (encoding.lookupKey key)).map
    (·.get (encoding.lookupOffset key))

end ProposalPostState

structure TouchedLeaf (L : Type) where
  key : Key
  page : StoragePage
  value : Option L

structure CommitBuilder (L : Type) where
  updates : List (AccountUpdate L) := []
  postState : ProposalPostState := {}

def reincarnated (delta : StateDelta) : Bool :=
  match delta.account with
  | (some before, some account) => before.incarnation ≠ account.incarnation
  | _ => false

section Builder

variable {L : Type} (keccak : Nat → Hash)

def accountUpdate (address : Address) (delta : StateDelta) (touched : List (TouchedLeaf L)) :
    Option (AccountUpdate L) :=
  let next := (touched.map fun leaf => (⟨keccak leaf.key, leaf.value⟩ : StorageUpdate L)).reverse
  if next ≠ [] ∨ delta.account.1 ≠ delta.account.2 then
    some ⟨keccak address, delta.account.2.map (address, ·), reincarnated delta, next⟩
  else none

def recordedPages (address : Address) (delta : StateDelta) (touched : List (TouchedLeaf L)) :
    List (StorageKey × StoragePage) :=
  match delta.account.2 with
  | some account => touched.map fun leaf => (⟨address, account.incarnation, leaf.key⟩, leaf.page)
  | none => []

def addStateDeltas (touched : Address → StateDelta → List (TouchedLeaf L))
    (deltas : Map Address StateDelta) : CommitBuilder L where
  updates := (deltas.entries.filterMap fun entry =>
    accountUpdate keccak entry.1 entry.2 (touched entry.1 entry.2)).reverse
  postState :=
    { accounts := insertAll (deltas.entries.map fun entry => (entry.1, entry.2.account.2)) ∅
      storage := insertAll (deltas.entries.flatMap fun entry =>
        recordedPages entry.1 entry.2 (touched entry.1 entry.2)) ∅ }

end Builder

def touchedSlot (key : Key) (delta : Value × Value) : Option (TouchedLeaf SlotLeaf) :=
  if delta.1 ≠ delta.2 then
    some ⟨key, .single delta.2, if delta.2 = 0 then none else some (key, delta.2)⟩
  else none

def touchedSlots (_address : Address) (delta : StateDelta) : List (TouchedLeaf SlotLeaf) :=
  match delta.account.2 with
  | some _ => delta.storage.entries.filterMap fun slot => touchedSlot slot.1 slot.2
  | none => []

/-- Writes the changed slots to their pages; a page is read when its first slot is written. -/
def writePages (readPage : Key → StoragePage) :
    List (Sigma fun _ : Key => Value × Value) → Map Key StoragePage → Map Key StoragePage
  | [], pages => pages
  | slot :: rest, pages =>
    if slot.2.1 ≠ slot.2.2 then
      let pageKey := computePageKey slot.1
      let page := (pages.lookup pageKey).getD (readPage pageKey)
      writePages readPage rest
        (pages.insert pageKey (page.set (computeSlotOffset slot.1) slot.2.2))
    else writePages readPage rest pages

def touchedPage (pageKey : Key) (page : StoragePage) : TouchedLeaf PageLeaf :=
  ⟨pageKey, page, if page.isEmpty then none else some (pageKey, page)⟩

def touchedPages (readPage : Address → Key → StoragePage) (address : Address)
    (delta : StateDelta) : List (TouchedLeaf PageLeaf) :=
  match delta.account.2 with
  | some _ =>
    let start := if reincarnated delta then fun _ => StoragePage.empty else readPage address
    (writePages start delta.storage.entries ∅).entries.map fun entry =>
      touchedPage entry.1 entry.2
  | none => []

def slotCommit (keccak : Nat → Hash) (deltas : Map Address StateDelta) : CommitBuilder SlotLeaf :=
  addStateDeltas keccak touchedSlots deltas

/-- The builder reads the pages from the database that it writes to. -/
def pageCommit (keccak : Nat → Hash) (trie : StateTrie PageLeaf) (deltas : Map Address StateDelta) :
    CommitBuilder PageLeaf :=
  addStateDeltas keccak (touchedPages (loadStoragePage keccak pageEncoding trie)) deltas

end MonadChain.Db
