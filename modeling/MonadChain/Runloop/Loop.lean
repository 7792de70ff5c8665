import MonadChain.Runloop.Headers

/-!
`runloop_monad`: one round reads the two head pointers, walks back to the last finalized block,
proposes what the database has not executed yet, finalizes what consensus has finalized, and trims
the cache of senders. A failed assertion is `none`. Senders, receipts and tracing are left out; a
body always validates.
-/

namespace MonadChain.Runloop

/-- What the loop asks of the database: the proposals stored at each version, the
versions with a finalized state, and the latest of those. -/
structure Database where
  proposals : List (Nat × BlockId)
  finalizedAt : List Nat
  latestFinalized : Nat
  deriving DecidableEq, Repr

structure BlockCacheEntry where
  blockNumber : Nat
  parentId : BlockId
  deriving DecidableEq, Repr

abbrev BlockCache : Type := BlockId → Option BlockCacheEntry

inductive Call where
  | proposeBlock (id : BlockId)
  | finalize (block : Nat) (id : BlockId)
  deriving DecidableEq, Repr

structure Logged where
  head : BlockId
  call : Call
  deriving DecidableEq, Repr

structure State where
  db : Database
  cache : BlockCache
  finalizedBlockNum : Nat
  calls : List Logged

def State.record (state : State) (head : BlockId) (call : Call) : State :=
  { state with calls := state.calls ++ [⟨head, call⟩] }

def hasExecuted (db : Database) (block : BlockId × Header) : Bool :=
  decide ((block.2.seqno, block.1) ∈ db.proposals)

/-- `emplace` of a new key; an existing one fails the assertion. -/
def BlockCache.emplace (cache : BlockCache) (id : BlockId) (entry : BlockCacheEntry) :
    Option BlockCache :=
  if (cache id).isSome then none else some (Function.update cache id (some entry))

def BlockCache.ancestorsCached (cache : BlockCache) (h : Header) : Bool :=
  if 1 < h.number then
    match cache h.parentId with
    | none => false
    | some parent => if 2 < h.number then (cache parent.parentId).isSome else true
  else true

/-- The lookup of `TrieDb::set_block_and_prefix`: the first block reads the
finalized state, any other one the proposal of its parent. -/
def Database.readable (db : Database) (startBlockNum : Nat) (h : Header) : Bool :=
  if h.number = startBlockNum then decide (h.number - 1 ∈ db.finalizedAt)
  else decide ((h.number - 1, h.parentId) ∈ db.proposals)

def Database.commit (db : Database) (id : BlockId) (h : Header) : Option Database :=
  if h.number > 2 ^ 63 - 1 then none
  else if id = 0 then none
  else some { db with proposals := (h.number, id) :: db.proposals }

def Database.finalize (db : Database) (block : Nat) (id : BlockId) : Option Database :=
  if ¬ (block = db.latestFinalized ∨ block = db.latestFinalized + 1) then none
  else if id = 0 then none
  else if (block, id) ∉ db.proposals then none
  else some { db with finalizedAt := block :: db.finalizedAt, latestFinalized := block }

def proposeBlock (startBlockNum : Nat) (id : BlockId) (h : Header) (state : State) :
    Option State := do
  let cache ← state.cache.emplace id ⟨h.number, h.parentId⟩
  if ¬ cache.ancestorsCached h then none
  else if ¬ state.db.readable startBlockNum h then none
  else
    let db ← state.db.commit id h
    some { state with db := db, cache := cache }

def executeAll (startBlockNum : Nat) (head : BlockId) :
    List (BlockId × Header) → State → Option State
  | [], state => some state
  | (id, h) :: rest, state =>
    (proposeBlock startBlockNum id h (state.record head (.proposeBlock id))).bind
      (executeAll startBlockNum head rest)

def finalizeBlock (head : BlockId) (id : BlockId) (h : Header) (state : State) : Option State :=
  (state.db.finalize h.seqno id).map fun db =>
    { state.record head (.finalize h.seqno id) with db := db, finalizedBlockNum := h.seqno }

def finalizeAll (head : BlockId) : List (BlockId × Header) → State → Option State
  | [], state => some state
  | (id, h) :: rest, state => (finalizeBlock head id h state).bind (finalizeAll head rest)

/-- The `erase_if` after a batch that ended with the given block. -/
def BlockCache.trim (cache : BlockCache) (lastFinalized : Nat) : BlockCache :=
  fun id => (cache id).filter fun entry =>
    !(decide (1 < lastFinalized) && decide (entry.blockNumber < lastFinalized - 1))

def trimAfter (toFinalize : List (BlockId × Header)) (state : State) : State :=
  match toFinalize.getLast? with
  | none => state
  | some (_, h) => { state with cache := state.cache.trim h.seqno }

/-- What the callback of the finalized head does to `to_execute`. -/
def queueFinalized (db : Database) (toExecute : List (BlockId × Header))
    (block : BlockId × Header) : List (BlockId × Header) :=
  if hasExecuted db block then toExecute else block :: toExecute

/-- What the callback of the proposed head does to `to_execute`: a branch that does
not start at the finalized head is dropped when its lowest block is seen. -/
def queueProposed (db : Database) (finalizedHead : BlockId)
    (toExecute : List (BlockId × Header)) (block : BlockId × Header) :
    List (BlockId × Header) :=
  if block.2.seqno = db.latestFinalized + 1 ∧ finalizedHead ≠ block.2.parentId then []
  else queueFinalized db toExecute block

structure Observation where
  finalizedHead : BlockId
  proposedHead : BlockId
  deriving DecidableEq, Repr

/-- The blocks to execute, given those between the last finalized block and the
finalized head. -/
def toExecute (ledger : Ledger) (endBlockNum : Nat) (observed : Observation) (db : Database)
    (seen : List (BlockId × Header)) : Option (List (BlockId × Header)) :=
  let behind := seen.foldl (queueFinalized db) []
  if seen.isEmpty then
    (forEachHeader ledger observed.proposedHead db.latestFinalized endBlockNum).map
      (List.foldl (queueProposed db observed.finalizedHead) behind)
  else some behind

def round (ledger : Ledger) (startBlockNum endBlockNum : Nat) (state : State)
    (observed : Observation) : Option State := do
  let seen ← forEachHeader ledger observed.finalizedHead state.db.latestFinalized endBlockNum
  let pending ← toExecute ledger endBlockNum observed state.db seen
  let executed ← executeAll startBlockNum observed.finalizedHead pending state
  let finalized ← finalizeAll observed.finalizedHead seen.reverse executed
  some (trimAfter seen.reverse finalized)

/-- The `while` loop over the observations made until `stop` is set. -/
def rounds (ledger : Ledger) (startBlockNum endBlockNum : Nat) :
    List Observation → State → Option State
  | [], state => some state
  | observed :: rest, state =>
    if state.finalizedBlockNum < endBlockNum then
      (round ledger startBlockNum endBlockNum state observed).bind
        (rounds ledger startBlockNum endBlockNum rest)
    else some state

def fillCache : List (BlockId × Header) → BlockCache → Option BlockCache
  | [], cache => some cache
  | (id, h) :: rest, cache => (cache.emplace id ⟨h.seqno, h.parentId⟩).bind (fillCache rest)

def cacheStart (lastFinalized : Nat) : Nat :=
  if lastFinalized > 2 then lastFinalized - 2 else 0

/-- `runloop_monad`, started at the block after the latest finalized one. -/
def runloopMonad (ledger : Ledger) (db : Database) (endBlockNum : Nat)
    (openedHead : BlockId) (observations : List Observation) : Option State := do
  let seen ← forEachHeader ledger openedHead (cacheStart db.latestFinalized) db.latestFinalized
  let cache ← fillCache seen fun _ => none
  rounds ledger (db.latestFinalized + 1) endBlockNum observations
    { db := db, cache := cache, finalizedBlockNum := db.latestFinalized, calls := [] }

end MonadChain.Runloop
