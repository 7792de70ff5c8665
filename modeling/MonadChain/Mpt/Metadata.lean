import MonadChain.Mpt.RootOffsets

/-!
mpt/detail/db_metadata.hpp and the operations of db_metadata_context.cpp, on copy 0 and then on
copy 1. The asserts of a release build are kept: `none` is a violated one. The intent log of the
timeline switches, the dirty flags and the padding are left out here.
-/

namespace MonadChain.Mpt

/-! db_metadata.hpp -/

def invalidChunkId : Nat := 0xfffff

def nullChunk : Nat := 2 ^ 32 - 1

def maxCount : Nat := 2 ^ 20 - 1

structure ChunkInfo where
  prevChunkId : Nat := invalidChunkId
  inFastList : Bool := false
  inSlowList : Bool := false
  insertionCount : Nat := 0
  nextChunkId : Nat := invalidChunkId
  deriving DecidableEq, Repr

structure IdPair where
  begin : Nat := nullChunk
  «end» : Nat := nullChunk
  deriving DecidableEq, Repr

inductive ChunkList where
  | free | fast | slow
  deriving DecidableEq, Repr

inductive TimelineId where
  | primary | secondary
  deriving DecidableEq, Repr

/-- The physical rings: `root_offsets` and `secondary_timeline`. -/
inductive RingIdx where
  | a | b
  deriving DecidableEq, Repr

def RingIdx.other : RingIdx → RingIdx
  | .a => .b
  | .b => .a

structure TimelineState where
  autoExpireVersion : Int := 0
  stateMachineKind : Nat := 0
  deriving DecidableEq, Repr

structure Metadata where
  chunkInfoCount : Nat
  capacityInFreeList : Nat := 0
  rootOffsets : Ring
  rootOffsetsState : TimelineState := {}
  startOfWipOffsetFast : Offset
  startOfWipOffsetSlow : Offset
  historyLength : Nat
  latestFinalizedVersion : Nat := invalidBlockNum
  latestVerifiedVersion : Nat := invalidBlockNum
  latestVotedVersion : Nat := invalidBlockNum
  latestProposedVersion : Nat := invalidBlockNum
  latestVotedBlockId : Nat := 0
  latestProposedBlockId : Nat := 0
  secondaryTimeline : Ring
  secondaryTimelineState : TimelineState := {}
  primaryRingIdx : RingIdx := .a
  secondaryTimelineActive : Bool := false
  freeList : IdPair := {}
  fastList : IdPair := {}
  slowList : IdPair := {}
  chunkInfo : Nat → ChunkInfo := fun _ => {}

namespace Metadata

section

variable (m : Metadata) (tid : TimelineId)

def list : ChunkList → IdPair
  | .free => m.freeList
  | .fast => m.fastList
  | .slow => m.slowList

def setList (pair : IdPair) : ChunkList → Metadata
  | .free => { m with freeList := pair }
  | .fast => { m with fastList := pair }
  | .slow => { m with slowList := pair }

def setChunk (idx : Nat) (info : ChunkInfo) : Metadata :=
  { m with chunkInfo := Function.update m.chunkInfo idx info }

/-- `append_`. The masks are those of 20-bit chunk ids. -/
def appendChunk (list : ChunkList) (idx : Nat) : Option Metadata :=
  let info : ChunkInfo := { inFastList := list = .fast, inSlowList := list = .slow }
  let pair := m.list list
  if m.chunkInfoCount ≤ idx then none
  else if pair.end = nullChunk then
    if pair.begin = nullChunk then
      some ((m.setList ⟨idx, idx⟩ list).setChunk idx info)
    else none
  else
    let tail := m.chunkInfo pair.end
    let insertionCount := tail.insertionCount + 1
    if pair.end < 2 ^ 20 ∧ pair.end < m.chunkInfoCount ∧ insertionCount < maxCount ∧
        tail.nextChunkId = invalidChunkId then
      some (((m.setChunk pair.end { tail with nextChunkId := idx }).setList
        { pair with «end» := idx } list).setChunk idx
          { info with prevChunkId := pair.end, insertionCount })
    else none

def listOf (info : ChunkInfo) : ChunkList :=
  if info.inFastList then .fast else if info.inSlowList then .slow else .free

/-- `remove_`, which is for the ends of a list only. -/
def removeChunk (idx : Nat) : Option Metadata :=
  let info := m.chunkInfo idx
  let list := listOf info
  let pair := m.list list
  if m.chunkInfoCount ≤ idx then none
  else if info.prevChunkId = invalidChunkId ∧ info.nextChunkId = invalidChunkId then
    if pair.begin = idx ∧ pair.end = idx then some (m.setList {} list) else none
  else if info.prevChunkId = invalidChunkId then
    if pair.begin = idx ∧ info.nextChunkId < m.chunkInfoCount then
      some ((m.setChunk info.nextChunkId
        { m.chunkInfo info.nextChunkId with prevChunkId := invalidChunkId }).setList
          { pair with begin := info.nextChunkId } list)
    else none
  else if info.nextChunkId = invalidChunkId then
    if pair.end = idx ∧ info.prevChunkId < m.chunkInfoCount then
      some ((m.setChunk info.prevChunkId
        { m.chunkInfo info.prevChunkId with nextChunkId := invalidChunkId }).setList
          { pair with «end» := info.prevChunkId } list)
    else none
  else none

def freeCapacityAdd (bytes : Nat) : Metadata :=
  { m with capacityInFreeList := (m.capacityInFreeList + bytes) % 2 ^ 64 }

def freeCapacitySub (bytes : Nat) : Metadata :=
  { m with capacityInFreeList := (m.capacityInFreeList + (2 ^ 64 - bytes % 2 ^ 64)) % 2 ^ 64 }

def ring : RingIdx → Ring
  | .a => m.rootOffsets
  | .b => m.secondaryTimeline

def setRing (ring : Ring) : RingIdx → Metadata
  | .a => { m with rootOffsets := ring }
  | .b => { m with secondaryTimeline := ring }

def modifyRing (idx : RingIdx) (step : Ring → Option Ring) : Option Metadata := do
  let ring ← step (m.ring idx)
  return m.setRing ring idx

def ringIdx : TimelineId → RingIdx
  | .primary => m.primaryRingIdx
  | .secondary => m.primaryRingIdx.other

def timelineRing : Ring := m.ring (m.ringIdx tid)

def timelineActive : TimelineId → Bool
  | .primary => true
  | .secondary => m.secondaryTimelineActive

def dbHistoryRangeLowerBound : Nat :=
  if m.timelineActive tid = false then invalidBlockNum
  else if (m.timelineRing tid).maxVersion = invalidBlockNum then invalidBlockNum
  else (m.timelineRing tid).versionLowerBound

def dbHistoryMaxVersion : Nat :=
  if m.timelineActive tid = false then invalidBlockNum else (m.timelineRing tid).maxVersion

def dbHistoryMinValidVersion : Nat :=
  m.dbHistoryRangeLowerBound tid

def getRootOffsetAtVersion (version : Nat) (tid : TimelineId) : Option Offset :=
  if m.timelineActive tid = false then none
  else if m.dbHistoryRangeLowerBound tid = invalidBlockNum ∨
      version < m.dbHistoryRangeLowerBound tid ∨ (m.timelineRing tid).maxVersion < version then none
  else (m.timelineRing tid).slot version

def setTimelineState (change : TimelineState → TimelineState) : RingIdx → Metadata
  | .a => { m with rootOffsetsState := change m.rootOffsetsState }
  | .b => { m with secondaryTimelineState := change m.secondaryTimelineState }

end

end Metadata

/-! db_metadata_context.cpp -/

/-- `copies_`. Queries read the front copy. -/
structure DbMetadataContext where
  front : Metadata
  back : Metadata

namespace DbMetadataContext

section

variable (ctx : DbMetadataContext)

def both (step : Metadata → Option Metadata) : Option DbMetadataContext := do
  let front ← step ctx.front
  let back ← step ctx.back
  return ⟨front, back⟩

def appendRootOffset (rootOffset : Option Offset) (tid : TimelineId) : Option DbMetadataContext :=
  ctx.both (·.modifyRing (ctx.front.ringIdx tid) (·.push rootOffset))

/-- The end of `do_` in `update_root_offset`: whether the last version is gone is
asked of the front copy, whichever copy is written. -/
def resetIfLast (front m : Metadata) (i : Nat) (rootOffset : Option Offset) (tid : TimelineId) :
    Option Metadata :=
  if rootOffset = none ∧ i = front.dbHistoryMaxVersion tid ∧
      i = front.dbHistoryMinValidVersion tid then
    m.modifyRing (front.ringIdx tid) (·.resetAll 0)
  else some m

def updateRootOffset (i : Nat) (rootOffset : Option Offset)
    (tid : TimelineId) : Option DbMetadataContext := do
  let idx := ctx.front.ringIdx tid
  let assigned ← ctx.front.modifyRing idx (·.assign i rootOffset)
  let front ← resetIfLast assigned assigned i rootOffset tid
  let assigned ← ctx.back.modifyRing idx (·.assign i rootOffset)
  let back ← resetIfLast front assigned i rootOffset tid
  return ⟨front, back⟩

def fastForwardNextVersion (newVersion : Nat) (tid : TimelineId) : Option DbMetadataContext :=
  ctx.both (·.modifyRing (ctx.front.ringIdx tid) (·.fastForward newVersion))

def advanceDbOffsetsTo (fastOffset slowOffset : Offset) : Option DbMetadataContext :=
  let main := ctx.front
  if fastOffset.id < main.chunkInfoCount ∧ (main.chunkInfo fastOffset.id).inFastList ∧
      slowOffset.id < main.chunkInfoCount ∧ (main.chunkInfo slowOffset.id).inSlowList then
    ctx.both fun m => some
      { m with startOfWipOffsetFast := fastOffset, startOfWipOffsetSlow := slowOffset }
  else none

def append (list : ChunkList) (idx capacity size : Nat) : Option DbMetadataContext := do
  let ctx ← ctx.both (·.appendChunk list idx)
  if list = .free then
    if size = 0 then ctx.both fun m => some (m.freeCapacityAdd capacity) else none
  else some ctx

def remove (idx capacity size : Nat) : Option DbMetadataContext := do
  let info := ctx.front.chunkInfo idx
  let ctx ← ctx.both (·.removeChunk idx)
  if info.inFastList = false ∧ info.inSlowList = false then
    if size = 0 then ctx.both fun m => some (m.freeCapacitySub capacity) else none
  else some ctx

def updateHistoryLengthMetadata (historyLen : Nat) : Option DbMetadataContext :=
  let front := ctx.front
  ctx.both fun m =>
    let capacity := (m.ring (front.ringIdx .primary)).capacity
    if 0 < historyLen ∧ historyLen ≤ capacity ∧ (front.timelineActive .secondary = true →
        (m.ring (front.ringIdx .secondary)).capacity = capacity) then
      some { m with historyLength := historyLen }
    else none

end

end DbMetadataContext

inductive MetadataOp where
  | appendRootOffset (rootOffset : Option Offset) (tid : TimelineId)
  | updateRootOffset (i : Nat) (rootOffset : Option Offset) (tid : TimelineId)
  | fastForwardNextVersion (newVersion : Nat) (tid : TimelineId)
  | advanceDbOffsetsTo (fastOffset slowOffset : Offset)
  | append (list : ChunkList) (idx capacity size : Nat)
  | remove (idx capacity size : Nat)
  | setLatestFinalizedVersion (version : Nat)
  | setLatestVerifiedVersion (version : Nat)
  | setLatestVoted (version blockId : Nat)
  | setLatestProposed (version blockId : Nat)
  | setAutoExpireVersionMetadata (tid : TimelineId) (version : Int)
  | setStateMachineKind (tid : TimelineId) (kind : Nat)
  | updateHistoryLengthMetadata (historyLen : Nat)

namespace MetadataOp

def run : MetadataOp → DbMetadataContext → Option DbMetadataContext
  | .appendRootOffset rootOffset tid, ctx => ctx.appendRootOffset rootOffset tid
  | .updateRootOffset i rootOffset tid, ctx => ctx.updateRootOffset i rootOffset tid
  | .fastForwardNextVersion newVersion tid, ctx => ctx.fastForwardNextVersion newVersion tid
  | .advanceDbOffsetsTo fastOffset slowOffset, ctx => ctx.advanceDbOffsetsTo fastOffset slowOffset
  | .append list idx capacity size, ctx => ctx.append list idx capacity size
  | .remove idx capacity size, ctx => ctx.remove idx capacity size
  | .setLatestFinalizedVersion version, ctx =>
    ctx.both fun m => some { m with latestFinalizedVersion := version }
  | .setLatestVerifiedVersion version, ctx =>
    ctx.both fun m => some { m with latestVerifiedVersion := version }
  | .setLatestVoted version blockId, ctx =>
    ctx.both fun m => some { m with latestVotedVersion := version, latestVotedBlockId := blockId }
  | .setLatestProposed version blockId, ctx =>
    ctx.both fun m => some
      { m with latestProposedVersion := version, latestProposedBlockId := blockId }
  | .setAutoExpireVersionMetadata tid version, ctx =>
    ctx.both fun m => some (m.setTimelineState
      (fun state => { state with autoExpireVersion := version }) (ctx.front.ringIdx tid))
  | .setStateMachineKind tid kind, ctx =>
    ctx.both fun m => some (m.setTimelineState
      (fun state => { state with stateMachineKind := kind }) (ctx.front.ringIdx tid))
  | .updateHistoryLengthMetadata historyLen, ctx => ctx.updateHistoryLengthMetadata historyLen

def runAll (ops : List MetadataOp) (ctx : DbMetadataContext) : Option DbMetadataContext :=
  ops.foldlM (fun ctx op => op.run ctx) ctx

end MetadataOp

/-! init_new_pool -/

structure NewPool where
  chunkCount : Nat
  chunkCapacity : Nat → Nat
  ringTotal : Nat
  cnvCapacity : Nat
  historyLen : Option Nat := none
  initialInsertionCount : Nat := 0

namespace NewPool

def ringCapacity (pool : NewPool) : Nat := pool.ringTotal * (pool.cnvCapacity / 2 / 8)

/-- The assertions of the constructor on the sizes of the pool. -/
def Constructed (pool : NewPool) : Prop :=
  3 ≤ pool.chunkCount ∧ 528512 + pool.chunkCount * 8 ≤ pool.cnvCapacity / 2 ∧
    pool.chunkCount < 2 ^ 20 ∧ 0 < pool.ringTotal ∧
    pool.ringTotal &&& (pool.ringTotal - 1) = 0 ∧ pool.ringTotal ≤ 32 - 1

instance (pool : NewPool) : Decidable pool.Constructed := inferInstanceAs (Decidable (_ ∧ _))

/-- The zeroed metadata, with empty lists and all ring chunks in the first ring. -/
def blank (pool : NewPool) : Metadata where
  chunkInfoCount := pool.chunkCount
  rootOffsets := { capacity := pool.ringCapacity }
  startOfWipOffsetFast := ⟨0, 0, 0⟩
  startOfWipOffsetSlow := ⟨0, 0, 0⟩
  historyLength := pool.ringCapacity
  latestFinalizedVersion := 0
  latestVerifiedVersion := 0
  latestVotedVersion := 0
  latestProposedVersion := 0
  secondaryTimeline := { capacity := 0 }

def appendFirst (pool : NewPool) (list : ChunkList) (idx : Nat) (ctx : DbMetadataContext) :
    Option DbMetadataContext := do
  let ctx ← ctx.append list idx (pool.chunkCapacity idx) 0
  if pool.initialInsertionCount ≠ 0 then
    ctx.both fun m => some (m.setChunk idx
      { m.chunkInfo idx with insertionCount := pool.initialInsertionCount % 2 ^ 20 })
  else some ctx

def rest (pool : NewPool) (fast slow : Nat) (free : List Nat) : List MetadataOp :=
  free.map (fun idx => .append .free idx (pool.chunkCapacity idx) 0) ++
  [ .advanceDbOffsetsTo ⟨fast, 0, 0⟩ ⟨slow, 0, 0⟩
  , .setLatestFinalizedVersion invalidBlockNum
  , .setLatestVerifiedVersion invalidBlockNum
  , .setLatestVoted invalidBlockNum 0
  , .setLatestProposed invalidBlockNum 0
  , .setAutoExpireVersionMetadata .primary 0
  , .setAutoExpireVersionMetadata .secondary 0 ] ++
  pool.historyLen.toList.map .updateHistoryLengthMetadata

/-- The chunks are taken in reverse order. -/
def init (pool : NewPool) : Option DbMetadataContext :=
  match (List.range pool.chunkCount).reverse with
  | fast :: slow :: free =>
    if pool.Constructed then do
      let ctx ← pool.appendFirst .fast fast ⟨pool.blank, pool.blank⟩
      let ctx ← pool.appendFirst .slow slow ctx
      MetadataOp.runAll (pool.rest fast slow free) ctx
    else none
  | _ => none

theorem init_ok {pool : NewPool} {after : DbMetadataContext} (done : pool.init = some after) :
    pool.Constructed ∧ ∃ fast slow free first second,
      (List.range pool.chunkCount).reverse = fast :: slow :: free ∧
      pool.appendFirst .fast fast ⟨pool.blank, pool.blank⟩ = some first ∧
      pool.appendFirst .slow slow first = some second ∧
      MetadataOp.runAll (pool.rest fast slow free) second = some after := by
  unfold init at done
  split at done
  · rename_i fast slow free chunks
    split at done
    · rename_i constructed
      obtain ⟨first, one, others⟩ := Option.bind_eq_some_iff.mp done
      obtain ⟨second, two, ran⟩ := Option.bind_eq_some_iff.mp others
      exact ⟨constructed, fast, slow, free, first, second, chunks, one, two, ran⟩
    · cases done
  · cases done

end NewPool

end MonadChain.Mpt
