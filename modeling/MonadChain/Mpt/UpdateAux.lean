import MonadChain.Mpt.Metadata

/-!
The operations of update_aux.cpp and trie.cpp that change the version history, with the chunks
they free. What the node writers do before a root is recorded is given by the caller, and so is
the value of each root on disk.
-/

namespace MonadChain.Mpt

def maxOffset : Nat := 2 ^ 28 - 1

def diskPageBits : Nat := 9

/-- `node_disk_pages_spare_15::to_pages`, ten bits of count and five of shift. -/
def Offset.toPages (o : Offset) : Nat :=
  ((o.spare % 2 ^ 10) <<< (o.spare / 2 ^ 10 % 2 ^ 5)) % 2 ^ 32

/-- `virtual_chunk_offset_t`, without the spare bits that comparisons ignore. -/
structure VirtualOffset where
  isInFastList : Bool
  count : Nat
  offset : Nat
  deriving DecidableEq, Repr

namespace VirtualOffset

def invalid : VirtualOffset := ⟨true, maxCount, maxOffset⟩

def lt (a b : VirtualOffset) : Bool :=
  (!a.isInFastList && b.isInFastList) ||
    a.isInFastList == b.isInFastList &&
      (a.count < b.count || a.count == b.count && a.offset < b.offset)

end VirtualOffset

abbrev CompactOffset : Type := Nat

def invalidCompactOffset : CompactOffset := 2 ^ 32 - 1

def CompactOffset.getCount (v : CompactOffset) : Nat := v / 2 ^ 12

structure CompactOffsetPair where
  fast : CompactOffset := invalidCompactOffset
  slow : CompactOffset := invalidCompactOffset
  deriving DecidableEq, Repr

namespace Metadata

section

variable (m : Metadata)

def chunkAt (idx : Nat) : Option ChunkInfo :=
  if idx < m.chunkInfoCount then some (m.chunkInfo idx) else none

def listEnd (list : ChunkList) : Option ChunkInfo :=
  if (m.list list).end = nullChunk then none else m.chunkAt (m.list list).end

def versionIsValidOndisk (version : Nat) (tid : TimelineId) : Bool :=
  (m.getRootOffsetAtVersion version tid).isSome

def getAutoExpireVersionMetadata (tid : TimelineId) : Int :=
  match m.ringIdx tid with
  | .a => m.rootOffsetsState.autoExpireVersion
  | .b => m.secondaryTimelineState.autoExpireVersion

def physicalToVirtual : Option Offset → Option VirtualOffset
  | none => some .invalid
  | some o => do
    let info ← m.chunkAt o.id
    if info.inFastList || info.inSlowList then
      return ⟨info.inFastList, info.insertionCount, o.offset⟩
    else return .invalid

/-- `post_root_fast_offset_`. The inner option is the one of the source. -/
def postRootFastOffset : Option Offset → Option (Option Offset)
  | none => some none
  | some root => do
    let info ← m.chunkAt root.id
    if info.inFastList = false then return none
    else
      let bytesToRead := (root.toPages <<< diskPageBits) % 2 ^ 32
      if maxOffset < root.offset + bytesToRead then none
      else
        let rounded := (root.offset + bytesToRead) / 2 ^ diskPageBits * 2 ^ diskPageBits
        if maxOffset ≤ rounded then
          return some { root with id := info.nextChunkId, offset := 0 }
        else return some { root with offset := rounded }

end

end Metadata

/-- The metadata with what the other members refer to: the storage pool's chunks, the
value of each root on disk and the offsets of the node writers. -/
structure UpdateAux where
  ctx : DbMetadataContext
  chunkCapacity : Nat → Nat
  chunkSize : Nat → Nat
  rootValue : Offset → Option CompactOffsetPair
  nodeWriterFast : Offset
  nodeWriterSlow : Offset

namespace UpdateAux

section

variable (aux : UpdateAux) (version : Nat) (tid : TimelineId)

def main : Metadata := aux.ctx.front

def onContext (step : DbMetadataContext → Option DbMetadataContext) : Option UpdateAux := do
  let ctx ← step aux.ctx
  return { aux with ctx }

/-- `remove`, `destroy_contents` and `append` to the free list. -/
def giveBack (idx : Nat) : Option UpdateAux := do
  let aux ← aux.onContext (·.remove idx (aux.chunkCapacity idx) (aux.chunkSize idx))
  let aux := { aux with chunkSize := Function.update aux.chunkSize idx 0 }
  aux.onContext (·.append .free idx (aux.chunkCapacity idx) (aux.chunkSize idx))

/-- The loop of `free_chunks_from_ci_till_count`. Each turn takes a chunk off its list;
running off the list is a failure. -/
def freeTillCount (aux : UpdateAux) (countBefore : Nat) : Nat → Nat → Option UpdateAux
  | 0, _ => none
  | fuel + 1, idx => do
    let info ← aux.main.chunkAt idx
    if info.insertionCount < countBefore then
      let aux ← aux.giveBack idx
      aux.freeTillCount countBefore fuel info.nextChunkId
    else some aux

def freeCompactedChunks (countFast countSlow : Nat) : Option UpdateAux := do
  let fastEnd ← aux.main.listEnd .fast
  let slowEnd ← aux.main.listEnd .slow
  if countFast ≤ fastEnd.insertionCount ∧ countSlow ≤ slowEnd.insertionCount then
    let fuel := aux.main.chunkInfoCount + 1
    let aux ← aux.freeTillCount countFast fuel (aux.main.list .fast).begin
    aux.freeTillCount countSlow fuel (aux.main.list .slow).begin
  else none

def lowerBoundary (combinedMin : CompactOffsetPair) (tid : TimelineId) : Option CompactOffsetPair :=
  let minVer := aux.main.dbHistoryMinValidVersion tid
  if aux.main.timelineActive tid = false ∨ minVer = invalidBlockNum then some combinedMin
  else
    match aux.main.getRootOffsetAtVersion minVer tid with
    | none => if tid = .primary then none else some combinedMin
    | some root => do
      let offsets ← aux.rootValue root
      return ⟨min offsets.fast combinedMin.fast, min offsets.slow combinedMin.slow⟩

def releaseUnreferencedChunks : Option UpdateAux := do
  let first ← aux.lowerBoundary {} .primary
  let combinedMin ← aux.lowerBoundary first .secondary
  if combinedMin.fast = invalidCompactOffset then some aux
  else if combinedMin.slow = invalidCompactOffset then none
  else
    aux.freeCompactedChunks (CompactOffset.getCount combinedMin.fast)
      (CompactOffset.getCount combinedMin.slow)

/-- The loop of `clear_root_offsets_up_to_and_including`, with its number of turns. -/
def clearLoop (version : Nat) (tid : TimelineId) :
    Nat → DbMetadataContext → Option DbMetadataContext
  | 0, _ => none
  | fuel + 1, ctx =>
    let v := ctx.front.dbHistoryRangeLowerBound tid
    if v ≠ invalidBlockNum ∧ v ≤ version then do
      let ctx ← ctx.updateRootOffset v none tid
      clearLoop version tid fuel ctx
    else some ctx

/-- Each turn moves the lower bound of the ring or leaves it empty. -/
def clearRootOffsetsUpToAndIncluding : Option UpdateAux :=
  aux.onContext (clearLoop version tid ((aux.main.timelineRing tid).nextVersion + 1))

def eraseVersionsUpToAndIncluding : Option UpdateAux := do
  let aux ← aux.clearRootOffsetsUpToAndIncluding version tid
  aux.releaseUnreferencedChunks

/-- What has been written when a root is recorded: the chunks taken from the free list
meanwhile, the size of each chunk, the root's offset and value, and the writers. -/
structure RootWrite where
  taken : List (ChunkList × Nat)
  chunkSize : Nat → Nat
  offsetWrittenTo : Offset
  value : CompactOffsetPair
  fast : Offset
  slow : Offset

def takeChunk (chunk : ChunkList × Nat) : Option UpdateAux := do
  let (list, idx) := chunk
  let aux ← aux.onContext (·.remove idx (aux.chunkCapacity idx) (aux.chunkSize idx))
  aux.onContext (·.append list idx (aux.chunkCapacity idx) (aux.chunkSize idx))

/-- `async_write_node_set_spare` and `flush_buffered_writes`. -/
def writeRoot (write : RootWrite) : Option UpdateAux := do
  let aux ← write.taken.foldlM takeChunk aux
  return { aux with
    chunkSize := write.chunkSize
    rootValue := Function.update aux.rootValue write.offsetWrittenTo (some write.value)
    nodeWriterFast := write.fast
    nodeWriterSlow := write.slow }

def sub64 (a b : Nat) : Nat := (a + (2 ^ 64 - b)) % 2 ^ 64

def writeFirst (offset : Offset) (version : Nat) (tid : TimelineId) : Option UpdateAux := do
  let aux ← aux.onContext (·.fastForwardNextVersion version tid)
  let aux ← aux.onContext (·.appendRootOffset (some offset) tid)
  if aux.main.dbHistoryRangeLowerBound tid = version then some aux else none

def rewrite (offset : Offset) (version : Nat) (tid : TimelineId) : Option UpdateAux := do
  let maxVersionInDb := aux.main.dbHistoryMaxVersion tid
  let length := aux.main.historyLength
  if version < (if length ≤ maxVersionInDb then maxVersionInDb - length + 1 else 0) then none
  else
    let prevLowerBound := aux.main.dbHistoryRangeLowerBound tid
    let aux ← aux.onContext (·.updateRootOffset version (some offset) tid)
    if aux.main.dbHistoryRangeLowerBound tid = min version prevLowerBound then some aux else none

/-- Versions that the new one pushes out of the history are erased first. -/
def makeRoom : Option UpdateAux :=
  let length := aux.main.historyLength
  if length ≤ sub64 version (aux.main.dbHistoryMinValidVersion tid) then do
    let aux ← aux.eraseVersionsUpToAndIncluding (sub64 version length) tid
    if sub64 version (aux.main.dbHistoryMinValidVersion tid) < aux.main.historyLength then some aux
    else none
  else some aux

def writeNewRootNode (write : RootWrite) (version : Nat) (tid : TimelineId) : Option UpdateAux := do
  let aux ← aux.writeRoot write
  let aux ← aux.onContext (·.advanceDbOffsetsTo aux.nodeWriterFast aux.nodeWriterSlow)
  let maxVersionInDb := aux.main.dbHistoryMaxVersion tid
  if maxVersionInDb = invalidBlockNum then aux.writeFirst write.offsetWrittenTo version tid
  else if version ≤ maxVersionInDb then aux.rewrite write.offsetWrittenTo version tid
  else if version = maxVersionInDb + 1 then do
    let aux ← aux.makeRoom version tid
    aux.onContext (·.appendRootOffset (some write.offsetWrittenTo) tid)
  else none

def toInt64 : Int := if version < 2 ^ 63 then version else version - 2 ^ 64

/-- The end of `move_trie_version_forward`: the expiry version moves with the trie. -/
def moveAutoExpire (src dest : Nat) (tid : TimelineId) : Option UpdateAux :=
  if aux.main.getAutoExpireVersionMetadata tid = toInt64 src then
    aux.onContext (MetadataOp.setAutoExpireVersionMetadata tid (toInt64 dest)).run
  else some aux

def eraseOutdated (dest : Nat) (tid : TimelineId) : Option UpdateAux :=
  if aux.main.historyLength ≤ dest then
    aux.eraseVersionsUpToAndIncluding (dest - aux.main.historyLength) tid
  else some aux

def moveTrieVersionForward (src dest : Nat) (tid : TimelineId) : Option UpdateAux := do
  if aux.main.versionIsValidOndisk src tid ∧ src < dest ∧ dest ≠ invalidBlockNum ∧
      aux.main.dbHistoryMaxVersion tid ≤ dest then
    let offset := aux.main.getRootOffsetAtVersion src tid
    let aux ← aux.onContext (·.updateRootOffset src none tid)
    let aux ← aux.eraseOutdated dest tid
    let aux ← aux.onContext (·.fastForwardNextVersion dest tid)
    let aux ← aux.onContext (·.appendRootOffset offset tid)
    if dest = aux.main.dbHistoryMaxVersion tid ∧ aux.main.versionIsValidOndisk dest tid then
      aux.moveAutoExpire src dest tid
    else none
  else none

section

variable (m : Metadata)

/-- `check_root_past_offsets` of `rewind_to_match_offsets`: the root of the newest version
lies before the writer of its list. -/
def rootPastOffsets : Option Offset → Option Unit
  | none => some ()
  | some root => do
    let virtualRoot ← m.physicalToVirtual (some root)
    let info ← m.chunkAt root.id
    let writer :=
      if info.inFastList then m.startOfWipOffsetFast else m.startOfWipOffsetSlow
    let virtualWriter ← m.physicalToVirtual (some writer)
    if virtualRoot ≠ .invalid ∧ virtualWriter ≠ .invalid ∧ virtualRoot.lt virtualWriter then
      some ()
    else none

def newestRoot (tid : TimelineId) : Option Offset :=
  (m.timelineRing tid).slot (m.timelineRing tid).maxVersion

def checkNewestRoots : Option Unit := do
  rootPastOffsets m (newestRoot m .primary)
  if m.timelineActive .secondary ∧ (m.timelineRing .secondary).maxVersion ≠ invalidBlockNum then
    rootPastOffsets m (newestRoot m .secondary)
  else some ()

/-- Chunks at the end of a list are freed until the writer's chunk is the last one. -/
def freeBehind (aux : UpdateAux) (list : ChunkList) (id : Nat) : Nat → Option UpdateAux
  | 0 => none
  | fuel + 1 =>
    let last := (aux.main.list list).end
    if last = id then some aux
    else do
      let aux ← aux.giveBack last
      aux.freeBehind list id fuel

def trim (o : Offset) : UpdateAux :=
  { aux with chunkSize := Function.update aux.chunkSize o.id (min (aux.chunkSize o.id) o.offset) }

def resetNodeWriters : Option UpdateAux :=
  let fast := aux.main.startOfWipOffsetFast
  let slow := aux.main.startOfWipOffsetSlow
  if fast.offset ≤ aux.chunkSize fast.id ∧ slow.offset ≤ aux.chunkSize slow.id then
    some { aux with nodeWriterFast := fast, nodeWriterSlow := slow }
  else none

def rewindToMatchOffsets : Option UpdateAux := do
  let fast := aux.main.startOfWipOffsetFast
  let slow := aux.main.startOfWipOffsetSlow
  let fastInfo ← aux.main.chunkAt fast.id
  let slowInfo ← aux.main.chunkAt slow.id
  if fastInfo.inFastList ∧ slowInfo.inSlowList then
    checkNewestRoots aux.main
    let fuel := aux.main.chunkInfoCount + 1
    let aux ← aux.freeBehind .fast fast.id fuel
    let aux ← (aux.trim fast).freeBehind .slow slow.id fuel
    (aux.trim slow).resetNodeWriters
  else none

def rewindRing (front : Metadata) (version : Nat) (tid : TimelineId) (needed : Bool)
    (m : Metadata) : Option Metadata :=
  if needed then m.modifyRing (front.ringIdx tid) (·.rewindToVersion version) else some m

/-- Step 1 of `rewind_to_version`, on one copy. -/
def rewindRings (front : Metadata) (version : Nat) (primary secondary : Bool) (m : Metadata) :
    Option Metadata := do
  let m ← rewindRing front version .primary primary m
  rewindRing front version .secondary secondary m

def rewindConsensus (ctx : DbMetadataContext) : Option DbMetadataContext :=
  let finalized := ctx.front.latestFinalizedVersion
  MetadataOp.runAll
    ((if finalized ≠ invalidBlockNum ∧ version < finalized then
        [.setLatestFinalizedVersion version] else []) ++
      [ .setLatestVerifiedVersion invalidBlockNum
      , .setLatestVoted invalidBlockNum 0
      , .setLatestProposed invalidBlockNum 0 ]) ctx

/-- `consider`: the later of two offsets in the fast list. -/
def consider (cutoff candidate : Option Offset) : Option (Option Offset) :=
  match candidate, cutoff with
  | none, _ => some cutoff
  | some _, none => some candidate
  | some _, some _ => do
    let virtualCandidate ← m.physicalToVirtual candidate
    let virtualCutoff ← m.physicalToVirtual cutoff
    return if virtualCutoff.lt virtualCandidate then candidate else cutoff

def cutoffFast (version : Nat) (secondaryActive : Bool) : Option (Option Offset) := do
  let candidate ← m.postRootFastOffset (m.getRootOffsetAtVersion version .primary)
  let cutoff ← consider m none candidate
  if secondaryActive ∧ (m.timelineRing .secondary).maxVersion ≠ invalidBlockNum then
    let root ← newestRoot m .secondary
    let candidate ← m.postRootFastOffset (some root)
    consider m cutoff candidate
  else some cutoff

def advanceToCutoff (ctx : DbMetadataContext) : Option Offset → Option DbMetadataContext
  | none => some ctx
  | some cutoff => ctx.advanceDbOffsetsTo cutoff ctx.front.startOfWipOffsetSlow

def needsRewind (version : Nat) (tid : TimelineId) : Bool :=
  m.dbHistoryMaxVersion tid ≠ invalidBlockNum ∧ version < m.dbHistoryMaxVersion tid

end

def rewindToVersion : Option UpdateAux := do
  let main := aux.main
  let primary := needsRewind main version .primary
  let secondary := needsRewind main version .secondary
  if main.versionIsValidOndisk version .primary ∨ main.versionIsValidOndisk version .secondary then
    if primary = false ∧ secondary = false then some aux
    else
      let aux ← aux.onContext (·.both (rewindRings main version primary secondary))
      let aux ← aux.onContext (rewindConsensus version)
      let cutoff ← cutoffFast aux.main version (main.timelineActive .secondary)
      let aux ← aux.onContext (advanceToCutoff · cutoff)
      aux.rewindToMatchOffsets
  else none

end

end UpdateAux

end MonadChain.Mpt
