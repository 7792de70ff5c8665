import MonadChain.Mpt.CopyAgreement
import MonadChain.Mpt.RingWindow

/-!
The version history. For the callers of `UpdateAux` a timeline is a map from versions to root
offsets: a root is written at a version, old versions are erased, a version is moved forward, and
a rewind drops what is above it. The ring of the front copy implements that map.
-/

namespace MonadChain.Mpt

open Option Metadata Function UpdateAux DbMetadataContext

variable {a b m next front : Metadata} {step : Ring → Option Ring} {rootOffset : Option Offset}
  {offset root : Offset} {fuel length dest src : Nat}

namespace History

section

variable (map : History) (version : Nat)

def IsNew : Prop := ∀ v, map v ≠ none → v < version

def eraseUpTo : History :=
  fun v => if v ≤ version then none else map v

def rewind : History :=
  fun v => if version < v then none else map v

/-- A new version pushes those out that are `length` or more below it. -/
noncomputable def write (length version : Nat) (root : Offset) : History :=
  open Classical in
  fun v =>
    if v = version then some root
    else if map.IsNew version ∧ v + length ≤ version then none
    else map v

def move (length src dest : Nat) : History :=
  fun v =>
    if v = dest then map src
    else if v = src ∨ v + length ≤ dest then none
    else map v

def trim (length version : Nat) : History :=
  fun v => if v + length ≤ version then none else map v

end

variable {map : History} {version : Nat}

theorem ite_none_eq_self {gone : Nat → Prop} [DecidablePred gone]
    (stay : ∀ v, map v ≠ none → ¬gone v) : (fun v => if gone v then none else map v) = map := by
  funext v
  split
  · rename_i out
    by_contra valid
    exact stay v (Ne.symm valid) out
  · rfl

theorem eraseUpTo_sub (le : length ≤ version) :
    map.eraseUpTo (version - length) = map.trim length version := by
  funext v
  exact if_congr (by omega) rfl rfl

theorem trim_eq_self (stay : ∀ v, map v ≠ none → version < v + length) :
    map.trim length version = map :=
  ite_none_eq_self fun v valid => (stay v valid).not_ge

open Classical in
theorem write_of_new (new : map.IsNew version) :
    map.write length version root = update (map.trim length version) version (some root) := by
  funext v
  by_cases here : v = version
  · rw [here, update_self]
    exact if_pos rfl
  · rw [update_of_ne here]
    exact (if_neg here).trans (if_congr (and_iff_right new) rfl rfl)

theorem write_eq_update (stay : ∀ v, map v ≠ none → map.IsNew version → version < v + length) :
    map.write length version root = update map version (some root) := by
  by_cases new : map.IsNew version
  · rw [write_of_new new, trim_eq_self fun v valid => stay v valid new]
  · funext v
    by_cases here : v = version
    · rw [here, update_self]
      exact if_pos rfl
    · rw [update_of_ne here]
      exact (if_neg here).trans (if_neg fun both => new both.1)

theorem move_eq (atSrc : map src = some root) :
    map.move length src dest =
      update (trim (update map src none) length dest) dest (some root) := by
  funext v
  unfold move
  by_cases here : v = dest
  · rw [here, update_self, if_pos rfl, atSrc]
  · rw [update_of_ne here, if_neg here, trim, update_apply]
    split_ifs <;> tauto

end History

structure Versions where
  length : Nat
  history : TimelineId → History

namespace Versions

def change (versions : Versions) (tid : TimelineId) (step : Nat → History → History) : Versions :=
  { versions with
    history := Function.update versions.history tid
      (step versions.length (versions.history tid)) }

end Versions

inductive AuxOp where
  | writeNewRootNode (write : UpdateAux.RootWrite) (version : Nat) (tid : TimelineId)
  | moveTrieVersionForward (src dest : Nat) (tid : TimelineId)
  | eraseVersionsUpToAndIncluding (version : Nat) (tid : TimelineId)
  | rewindToVersion (version : Nat)
  | updateHistoryLength (historyLen : Nat)

namespace AuxOp

def run : AuxOp → UpdateAux → Option UpdateAux
  | writeNewRootNode write version tid, aux => aux.writeNewRootNode write version tid
  | moveTrieVersionForward src dest tid, aux => aux.moveTrieVersionForward src dest tid
  | eraseVersionsUpToAndIncluding version tid, aux => aux.eraseVersionsUpToAndIncluding version tid
  | rewindToVersion version, aux => aux.rewindToVersion version
  | updateHistoryLength historyLen, aux => aux.onContext (·.updateHistoryLengthMetadata historyLen)

noncomputable def apply : AuxOp → Versions → Versions
  | writeNewRootNode write version tid, versions =>
    versions.change tid fun length map => map.write length version write.offsetWrittenTo
  | moveTrieVersionForward src dest tid, versions =>
    versions.change tid fun length map => map.move length src dest
  | eraseVersionsUpToAndIncluding version tid, versions =>
    versions.change tid fun _ map => map.eraseUpTo version
  | rewindToVersion version, versions =>
    { versions with history := fun tid => (versions.history tid).rewind version }
  | updateHistoryLength historyLen, versions => { versions with length := historyLen }

noncomputable def applyAll (ops : List AuxOp) (versions : Versions) : Versions :=
  ops.foldl (fun versions op => op.apply versions) versions

/-- Versions are block numbers, of which `INVALID_BLOCK_NUM` is none, and a timeline is
rewound only to a version that is valid on it. -/
def Admissible (aux : UpdateAux) : AuxOp → Prop
  | writeNewRootNode _ version _ => version < invalidBlockNum
  | moveTrieVersionForward _ dest _ => dest ≤ invalidBlockNum
  | rewindToVersion version => ∀ tid, UpdateAux.needsRewind aux.main version tid = true →
      aux.main.versionIsValidOndisk version tid = true
  | _ => True

inductive Runs : UpdateAux → List AuxOp → UpdateAux → Prop
  | nil (aux : UpdateAux) : Runs aux [] aux
  | cons {aux next final : UpdateAux} {op : AuxOp} {ops : List AuxOp} :
      op.Admissible aux → op.run aux = some next → Runs next ops final → Runs aux (op :: ops) final

end AuxOp

/-- The ring holds the history, and its bounds are the first and the last version. -/
structure Ring.Represents (ring : Ring) (map : History) : Prop where
  tracks : ring.Tracks map
  tight : ring.Tight map
  top : 0 < ring.nextVersion → map (ring.nextVersion - 1) ≠ none

theorem Ring.Represents.settled {ring : Ring} {map : History} (represents : ring.Represents map) :
    ring.Settled map :=
  ⟨represents.tracks, represents.tight⟩

namespace Metadata

structure Records (m : Metadata) (versions : Versions) : Prop where
  length : m.historyLength = versions.length
  positive : 0 < m.historyLength
  rings : ∀ tid, m.timelineActive tid = true →
    (m.timelineRing tid).Represents (versions.history tid) ∧
    m.historyLength ≤ (m.timelineRing tid).capacity

structure OnlyOn (tid : TimelineId) (before after : Metadata) : Prop where
  rings : ∀ other, other ≠ tid → after.timelineRing other = before.timelineRing other
  ringIdx : ∀ tid, after.ringIdx tid = before.ringIdx tid
  active : ∀ tid, after.timelineActive tid = before.timelineActive tid
  length : after.historyLength = before.historyLength

theorem OnlyOn.refl (tid : TimelineId) (m : Metadata) : OnlyOn tid m m :=
  ⟨fun _ _ => rfl, fun _ => rfl, fun _ => rfl, rfl⟩

theorem OnlyOn.trans {tid : TimelineId} {c : Metadata} (first : OnlyOn tid a b)
    (second : OnlyOn tid b c) : OnlyOn tid a c where
  rings := fun other ne => (second.rings other ne).trans (first.rings other ne)
  ringIdx := fun tid => (second.ringIdx tid).trans (first.ringIdx tid)
  active := fun tid => (second.active tid).trans (first.active tid)
  length := second.length.trans first.length

theorem OnlyOn.of_sameRings {tid : TimelineId} (same : SameRings a b) :
    OnlyOn tid a b where
  rings := fun other _ => same.timelineRing other
  ringIdx := same.ringIdx
  active := same.timelineActive
  length := same.length

theorem onlyOn_setRing (m : Metadata) (ring : Ring) (tid : TimelineId) :
    OnlyOn tid m (m.setRing ring (m.ringIdx tid)) where
  rings := by
    intro other ne
    -- The two timelines have different rings, whichever is the primary one.
    cases tid <;> cases other <;> cases primary : m.primaryRingIdx <;>
      first
        | exact absurd rfl ne
        | simp [timelineRing, ringIdx, primary, RingIdx.other, setRing, Metadata.ring]
  ringIdx := fun other => ringIdx_setRing m ring _ other
  active := fun other => timelineActive_setRing m ring _ other
  length := by cases m.ringIdx tid <;> rfl

end Metadata

open Metadata (OnlyOn)

namespace DbMetadataContext

variable {ctx after : DbMetadataContext} {tid : TimelineId} {map : History} {i version : Nat}

theorem modifyRing_onlyOn (done : m.modifyRing (m.ringIdx tid) step = some next) :
    step (m.timelineRing tid) = some (next.timelineRing tid) ∧ OnlyOn tid m next := by
  obtain ⟨ring, stepped, same⟩ := modifyRing_eq done
  rw [same, timelineRing_setRing]
  exact ⟨stepped, onlyOn_setRing _ _ _⟩

theorem both_modifyRing_front
    (done : ctx.both (·.modifyRing (ctx.front.ringIdx tid) step) = some after) :
    step (ctx.front.timelineRing tid) = some (after.front.timelineRing tid) ∧
    OnlyOn tid ctx.front after.front :=
  modifyRing_onlyOn (both_front done)

theorem bounds_of_active (active : m.timelineActive tid = true)
    (known : (m.timelineRing tid).maxVersion ≠ invalidBlockNum) :
    m.dbHistoryMaxVersion tid = (m.timelineRing tid).maxVersion ∧
    m.dbHistoryRangeLowerBound tid = (m.timelineRing tid).versionLowerBound := by
  simp [dbHistoryMaxVersion, dbHistoryRangeLowerBound, active, known]

theorem bounds_of_empty (empty : (m.timelineRing tid).maxVersion = invalidBlockNum) :
    m.dbHistoryMaxVersion tid = invalidBlockNum ∧
    m.dbHistoryRangeLowerBound tid = invalidBlockNum := by
  simp [dbHistoryMaxVersion, dbHistoryRangeLowerBound, empty]

theorem updateRootOffset_front (done : ctx.updateRootOffset i rootOffset tid = some after) :
    ∃ assigned,
      ctx.front.modifyRing (ctx.front.ringIdx tid) (·.assign i rootOffset) = some assigned ∧
      resetIfLast assigned assigned i rootOffset tid = some after.front := by
  simp only [updateRootOffset, bind_eq_bind, bind_eq_some_iff] at done
  obtain ⟨assigned, stored, front, first, other, -, back, -, finished⟩ := done
  cases finished
  exact ⟨assigned, stored, first⟩

theorem updateRootOffset_some_front (done : ctx.updateRootOffset i (some offset) tid = some after) :
    (ctx.front.timelineRing tid).assign i (some offset) = some (after.front.timelineRing tid) ∧
    OnlyOn tid ctx.front after.front := by
  obtain ⟨assigned, stored, first⟩ := updateRootOffset_front done
  cases first
  exact modifyRing_onlyOn stored

theorem updateRootOffset_none_front (active : ctx.front.timelineActive tid = true)
    (known : i ≠ invalidBlockNum) (done : ctx.updateRootOffset i none tid = some after) :
    (ctx.front.timelineRing tid).clearVersion i = some (after.front.timelineRing tid) ∧
    OnlyOn tid ctx.front after.front := by
  obtain ⟨assigned, stored, first⟩ := updateRootOffset_front done
  obtain ⟨ring, stepped, same⟩ := modifyRing_eq stored
  have only : OnlyOn tid ctx.front assigned := by
    rw [same]
    exact onlyOn_setRing _ _ _
  have written : assigned.timelineRing tid = ring := by
    rw [same, timelineRing_setRing]
  have stillActive : assigned.timelineActive tid = true := (only.active tid).trans active
  -- The two queries of the source ask for the bounds of this ring.
  have last : (none = (none : Option Offset) ∧ i = assigned.dbHistoryMaxVersion tid ∧
      i = assigned.dbHistoryMinValidVersion tid) ↔ i = ring.maxVersion ∧
        i = ring.versionLowerBound := by
    by_cases empty : ring.maxVersion = invalidBlockNum
    · have none_left := bounds_of_empty
        (show (assigned.timelineRing tid).maxVersion = invalidBlockNum by rw [written, empty])
      rw [none_left.1, empty]
      simp [known]
    · have bounds := bounds_of_active stillActive (by rw [written]; exact empty)
      rw [dbHistoryMinValidVersion, bounds.1, bounds.2, written]
      simp
  have cleared : (ctx.front.timelineRing tid).clearVersion i =
      if i = ring.maxVersion ∧ i = ring.versionLowerBound then ring.resetAll 0 else some ring := by
    rw [Ring.clearVersion, timelineRing, stepped]
    rfl
  rw [cleared]
  unfold resetIfLast at first
  by_cases gone : i = ring.maxVersion ∧ i = ring.versionLowerBound
  · rw [if_pos (last.2 gone)] at first
    obtain ⟨reset, emptied, same'⟩ := modifyRing_eq first
    rw [if_pos gone, same', timelineRing_setRing, ← emptied]
    refine ⟨?_, only.trans (onlyOn_setRing _ _ _)⟩
    rw [← written]
    rfl
  · rw [if_neg (fun bad => gone (last.1 bad))] at first
    cases first
    rw [if_neg gone, written]
    exact ⟨rfl, only⟩

theorem eraseUpTo_update (low : i ≤ version) :
    History.eraseUpTo (update map i none) version = map.eraseUpTo version := by
  funext v
  unfold History.eraseUpTo
  split
  · rfl
  · rw [update_of_ne (by omega)]

structure Erased (tid : TimelineId) (version : Nat) (before after : Metadata) (map : History) :
    Prop where
  only : OnlyOn tid before after
  settled : (after.timelineRing tid).Settled (map.eraseUpTo version)
  capacity : (after.timelineRing tid).capacity = (before.timelineRing tid).capacity
  next : (after.timelineRing tid).nextVersion = 0 ∨
    (after.timelineRing tid).nextVersion = (before.timelineRing tid).nextVersion ∧
    version < (after.timelineRing tid).versionLowerBound

section

variable (active : ctx.front.timelineActive tid = true)
  (settled : (ctx.front.timelineRing tid).Settled map)

include active settled

theorem clearLoop_spec (done : clearLoop version tid fuel ctx = some after) :
    Erased tid version ctx.front after.front map := by
  induction fuel generalizing ctx map with
  | zero => cases done
  | succ fuel ih =>
    simp only [clearLoop] at done
    rcases settled.maxVersion_eq with ⟨empty, none_left⟩ | ⟨known, last⟩
    · rw [(bounds_of_empty empty).2, if_neg (by simp)] at done
      cases done
      have same : map.eraseUpTo version = map := History.ite_none_eq_self fun v valid =>
        absurd (settled.bounded v valid).2 (by omega)
      exact ⟨OnlyOn.refl _ _, same.symm ▸ settled, rfl, Or.inl none_left⟩
    rw [(bounds_of_active active known).2] at done
    have numbers := settled.numbers
    have low := (settled.tight (by omega)).1
    have valid_number : (ctx.front.timelineRing tid).versionLowerBound ≠ invalidBlockNum := by
      unfold invalidBlockNum
      omega
    by_cases more : (ctx.front.timelineRing tid).versionLowerBound ≤ version
    · rw [if_pos ⟨valid_number, more⟩] at done
      obtain ⟨middle, first, others⟩ := bind_eq_some_iff.1 done
      obtain ⟨cleared, only⟩ := updateRootOffset_none_front active valid_number first
      obtain ⟨kept, capacity, next⟩ := settled.clearVersion le_rfl low cleared
      obtain ⟨only', settled', capacity', next'⟩ :=
        ih ((only.active tid).trans active) kept others
      rw [eraseUpTo_update more] at settled'
      refine ⟨only.trans only', settled', capacity'.trans capacity, ?_⟩
      rcases next' with gone | ⟨same, above⟩
      · exact Or.inl gone
      · rcases next with gone | ⟨same', -⟩
        · exact Or.inl (same.trans gone)
        · exact Or.inr ⟨same.trans same', above⟩
    · rw [if_neg (fun both => more both.2)] at done
      cases done
      have same : map.eraseUpTo version = map := History.ite_none_eq_self fun v valid =>
        (lt_of_lt_of_le (Nat.lt_of_not_le more) (settled.bounded v valid).1).not_ge
      exact ⟨OnlyOn.refl _ _, same.symm ▸ settled, rfl, Or.inr ⟨rfl, by omega⟩⟩

end

theorem clearLoop_inactive (inactive : ctx.front.timelineActive tid = false)
    (done : clearLoop version tid fuel ctx = some after) : after = ctx := by
  cases fuel with
  | zero => cases done
  | succ fuel =>
    simp only [clearLoop, dbHistoryRangeLowerBound, inactive, if_true] at done
    exact (some.inj done).symm

end DbMetadataContext

namespace UpdateAux

open DbMetadataContext

section Timeline

variable {aux after : UpdateAux} {tid : TimelineId} {map : History} {version : Nat}

abbrev Turned (tid : TimelineId) (before after : Metadata) (map : History) : Prop :=
  OnlyOn tid before after ∧ (after.timelineRing tid).Represents map ∧
    (after.timelineRing tid).capacity = (before.timelineRing tid).capacity

theorem erase_spec (active : aux.main.timelineActive tid = true)
    (settled : (aux.main.timelineRing tid).Settled map)
    (done : aux.eraseVersionsUpToAndIncluding version tid = some after) :
    Erased tid version aux.main after.main map := by
  simp only [eraseVersionsUpToAndIncluding, bind_eq_bind, bind_eq_some_iff] at done
  obtain ⟨middle, cleared, released⟩ := done
  have same := releaseUnreferencedChunks_keeps middle _ released
  have erased : Erased tid version aux.main middle.main map :=
    clearLoop_spec active settled (onContext_eq cleared).1
  obtain ⟨only, kept, capacity, next⟩ := erased
  rw [← same.timelineRing] at kept capacity next
  exact ⟨only.trans (OnlyOn.of_sameRings same), kept, capacity, next⟩

theorem erase_inactive (inactive : aux.main.timelineActive tid = false)
    (done : aux.eraseVersionsUpToAndIncluding version tid = some after) :
    OnlyOn tid aux.main after.main := by
  simp only [eraseVersionsUpToAndIncluding, bind_eq_bind, bind_eq_some_iff] at done
  obtain ⟨middle, cleared, released⟩ := done
  have unchanged := clearLoop_inactive inactive (onContext_eq cleared).1
  have same := releaseUnreferencedChunks_keeps middle _ released
  rw [main, unchanged] at same
  exact OnlyOn.of_sameRings same

theorem erase_represents (active : aux.main.timelineActive tid = true)
    (represents : (aux.main.timelineRing tid).Represents map)
    (done : aux.eraseVersionsUpToAndIncluding version tid = some after) :
    Turned tid aux.main after.main (map.eraseUpTo version) := by
  obtain ⟨only, ⟨tracks, tight⟩, capacity, next⟩ := erase_spec active represents.settled done
  refine ⟨only, ⟨tracks, tight, fun some_left => ?_⟩, capacity⟩
  rcases next with gone | ⟨same, above⟩
  · omega
  · have bounds := (tight some_left).1
    rw [History.eraseUpTo, if_neg (by omega), same]
    exact represents.top (by omega)

/-- `fast_forward_next_version` and `append_root_offset`, when every version that is left
is less than a ring's length below the new one. -/
theorem land_spec {moved : UpdateAux} (settled : (aux.main.timelineRing tid).Settled map)
    (small : version < 2 ^ 64)
    (recent : ∀ v, map v ≠ none → version < v + (aux.main.timelineRing tid).capacity)
    (forwarded : aux.onContext (·.fastForwardNextVersion version tid) = some moved)
    (appended : moved.onContext (·.appendRootOffset (some offset) tid) = some after) :
    Turned tid aux.main after.main (update map version (some offset)) := by
  obtain ⟨forward, onlyForward⟩ := both_modifyRing_front (onContext_eq forwarded).1
  obtain ⟨push, onlyPush⟩ := both_modifyRing_front (onContext_eq appended).1
  obtain ⟨ready, next, room, capacity⟩ := settled.fastForward settled.tight small recent forward
  obtain ⟨written, counted, sameCapacity⟩ := ready.push_some (by rw [next]; exact room) push
  rw [next] at written counted
  refine ⟨onlyForward.trans onlyPush, ⟨written.toTracks, written.tight, fun _ => ?_⟩,
    sameCapacity.trans capacity⟩
  rw [main, counted, Nat.add_sub_cancel, update_self]
  simp

theorem writeFirst_spec (represents : (aux.main.timelineRing tid).Represents map)
    (none_left : (aux.main.timelineRing tid).nextVersion = 0) (number : version < invalidBlockNum)
    (done : aux.writeFirst offset version tid = some after) :
    Turned tid aux.main after.main (map.write length version offset) := by
  simp only [writeFirst, bind_eq_bind, bind_eq_some_iff] at done
  obtain ⟨moved, forwarded, pushed, appended, finished⟩ := done
  split at finished
  · cases finished
    have empty := represents.tracks.empty_of none_left
    rw [History.write_eq_update (fun v valid => absurd (congrFun empty v) valid)]
    exact land_spec represents.settled (lt_trans number (by decide))
      (fun v valid => absurd (congrFun empty v) valid) forwarded appended
  · cases finished

theorem writeFirst_inactive (inactive : aux.main.timelineActive tid = false)
    (number : version < invalidBlockNum) (done : aux.writeFirst offset version tid = some after) :
    False := by
  simp only [writeFirst, bind_eq_bind, bind_eq_some_iff] at done
  obtain ⟨moved, forwarded, pushed, appended, finished⟩ := done
  have only := (both_modifyRing_front (onContext_eq forwarded).1).2.trans
    (both_modifyRing_front (onContext_eq appended).1).2
  have stillInactive : pushed.main.timelineActive tid = false := (only.active tid).trans inactive
  split at finished
  · rename_i lower
    rw [dbHistoryRangeLowerBound, if_pos stillInactive] at lower
    omega
  · cases finished

theorem rewrite_spec (active : aux.main.timelineActive tid = true)
    (represents : (aux.main.timelineRing tid).Represents map)
    (bounded : aux.main.historyLength ≤ (aux.main.timelineRing tid).capacity)
    (old : version < (aux.main.timelineRing tid).nextVersion)
    (done : aux.rewrite offset version tid = some after) :
    Turned tid aux.main after.main (map.write aux.main.historyLength version offset) := by
  simp only [rewrite] at done
  by_cases recent : version < (if aux.main.historyLength ≤ aux.main.dbHistoryMaxVersion tid then
      aux.main.dbHistoryMaxVersion tid - aux.main.historyLength + 1 else 0)
  · rw [if_pos recent] at done
    cases done
  rw [if_neg recent] at done
  obtain ⟨updated, stored, finished⟩ := bind_eq_some_iff.1 done
  split at finished
  · cases finished
    rcases represents.tracks.maxVersion_eq with ⟨-, none_left⟩ | ⟨known, last⟩
    · omega
    rw [(bounds_of_active active known).1] at recent
    have fits : (aux.main.timelineRing tid).nextVersion ≤
        version + (aux.main.timelineRing tid).capacity := by
      split at recent <;> omega
    obtain ⟨stepped, only⟩ := updateRootOffset_some_front (onContext_eq stored).1
    obtain ⟨⟨tracks, tight⟩, next, capacity⟩ := represents.tracks.assign_some old fits stepped
    have top := represents.top (by omega)
    rw [History.write_eq_update (fun v _ new => by
      have := new _ top
      omega)]
    refine ⟨only, ⟨tracks, tight, fun _ => ?_⟩, capacity⟩
    have same : (after.main.timelineRing tid).nextVersion =
        (aux.main.timelineRing tid).nextVersion := next
    rw [same]
    by_cases newest : (aux.main.timelineRing tid).nextVersion - 1 = version
    · rw [newest, update_self]
      simp
    · rw [update_of_ne newest]
      exact top
  · cases finished

theorem sub64_of_le {a b : Nat} (le : b ≤ a) (small : a < 2 ^ 64) : sub64 a b = a - b := by
  unfold sub64
  omega

theorem makeRoom_spec (active : aux.main.timelineActive tid = true)
    (represents : (aux.main.timelineRing tid).Represents map)
    (some_left : 0 < (aux.main.timelineRing tid).nextVersion) (number : version < invalidBlockNum)
    (next : version = (aux.main.timelineRing tid).nextVersion)
    (done : aux.makeRoom version tid = some after) :
    OnlyOn tid aux.main after.main ∧
    (after.main.timelineRing tid).Tracks (map.trim aux.main.historyLength version) ∧
    (after.main.timelineRing tid).nextVersion = version ∧
    version < (after.main.timelineRing tid).versionLowerBound + aux.main.historyLength ∧
    (after.main.timelineRing tid).capacity = (aux.main.timelineRing tid).capacity := by
  have tracks := represents.tracks
  have small : version < 2 ^ 64 := lt_trans number (by decide)
  have low := (represents.tight some_left).1
  rcases tracks.maxVersion_eq with ⟨-, none_left⟩ | ⟨known, -⟩
  · omega
  unfold makeRoom at done
  rw [dbHistoryMinValidVersion, (bounds_of_active active known).2,
    sub64_of_le (by omega) small] at done
  dsimp only at done
  split at done
  · rename_i exceeds
    rw [sub64_of_le (by omega) small] at done
    obtain ⟨erased, erase, finished⟩ := bind_eq_some_iff.1 done
    split at finished
    · rename_i enough
      cases finished
      obtain ⟨only, kept, capacity, next'⟩ := erase_spec active represents.settled erase
      rw [only.length] at enough
      have stays : (after.main.timelineRing tid).nextVersion = version ∧
          version < (after.main.timelineRing tid).versionLowerBound + aux.main.historyLength := by
        rcases next' with gone | ⟨same, above⟩
        · -- An empty ring has no lower bound, and the assertion does not hold.
          have empty : (after.main.timelineRing tid).maxVersion = invalidBlockNum := if_pos gone
          rw [dbHistoryMinValidVersion, (bounds_of_empty empty).2] at enough
          unfold sub64 invalidBlockNum at enough
          unfold invalidBlockNum at number
          omega
        · exact ⟨same.trans next.symm, by omega⟩
      rw [History.eraseUpTo_sub (by omega)] at kept
      exact ⟨only, kept.toTracks, stays.1, stays.2, capacity⟩
    · cases finished
  · rename_i within
    cases done
    rw [History.trim_eq_self fun v valid => by
      have := (tracks.bounded v valid).1
      omega]
    exact ⟨OnlyOn.refl _ _, tracks, next.symm, by omega, rfl⟩

theorem append_spec (active : aux.main.timelineActive tid = true)
    (represents : (aux.main.timelineRing tid).Represents map)
    (bounded : aux.main.historyLength ≤ (aux.main.timelineRing tid).capacity)
    (some_left : 0 < (aux.main.timelineRing tid).nextVersion) (number : version < invalidBlockNum)
    (next : version = (aux.main.timelineRing tid).nextVersion) {roomy : UpdateAux}
    (room : aux.makeRoom version tid = some roomy)
    (done : roomy.onContext (·.appendRootOffset (some offset) tid) = some after) :
    Turned tid aux.main after.main (map.write aux.main.historyLength version offset) := by
  obtain ⟨only, tracks, next', above, capacity⟩ :=
    makeRoom_spec active represents some_left number next room
  obtain ⟨stepped, only'⟩ := both_modifyRing_front (onContext_eq done).1
  obtain ⟨settled, next'', capacity'⟩ :=
    tracks.push_some (by rw [next', capacity]; omega) stepped
  rw [next'] at settled next''
  have new : map.IsNew version := fun v valid => by
    rw [next]
    exact (represents.tracks.bounded v valid).2
  rw [History.write_of_new new]
  refine ⟨only.trans only', ⟨settled.toTracks, settled.tight, fun _ => ?_⟩,
    capacity'.trans capacity⟩
  have count : (after.main.timelineRing tid).nextVersion = version + 1 := next''
  simp [count]

theorem writeNewRootNode_spec {write : RootWrite} (recorded : aux.main.timelineActive tid = true →
      (aux.main.timelineRing tid).Represents map ∧
      aux.main.historyLength ≤ (aux.main.timelineRing tid).capacity)
    (number : version < invalidBlockNum)
    (done : aux.writeNewRootNode write version tid = some after) :
    aux.main.timelineActive tid = true ∧ Turned tid aux.main after.main
      (map.write aux.main.historyLength version write.offsetWrittenTo) := by
  simp only [writeNewRootNode, bind_eq_bind, bind_eq_some_iff] at done
  obtain ⟨written, nodes, advanced, offsets, done⟩ := done
  have same : SameRings aux.main advanced.main :=
    (writeRoot_keeps aux write _ nodes).trans
      (advanceDbOffsetsTo_framed (onContext_eq offsets).1).sameRings
  have only : OnlyOn tid aux.main advanced.main := OnlyOn.of_sameRings same
  cases activity : aux.main.timelineActive tid with
  | false =>
    -- The first write of a timeline asserts its lower bound, and this one has none.
    exfalso
    have inactive : advanced.main.timelineActive tid = false := (only.active tid).trans activity
    have nothing : advanced.main.dbHistoryMaxVersion tid = invalidBlockNum := by
      simp [dbHistoryMaxVersion, inactive]
    rw [if_pos nothing] at done
    exact writeFirst_inactive inactive number done
  | true =>
    obtain ⟨represents, bounded⟩ := recorded activity
    have active : advanced.main.timelineActive tid = true := (only.active tid).trans activity
    rw [← same.timelineRing tid] at represents bounded
    rw [← same.length] at bounded
    rw [Turned, ← same.timelineRing tid, ← same.length]
    suffices goal : Turned tid advanced.main after.main
        (map.write advanced.main.historyLength version write.offsetWrittenTo) from
      ⟨rfl, only.trans goal.1, goal.2⟩
    rcases represents.tracks.maxVersion_eq with ⟨empty, none_left⟩ | ⟨known, last⟩
    · rw [if_pos (bounds_of_empty empty).1] at done
      exact writeFirst_spec represents none_left number done
    rw [(bounds_of_active active known).1, if_neg known] at done
    split at done
    · exact rewrite_spec active represents bounded (by omega) done
    split at done
    · rename_i next
      obtain ⟨roomy, room, appended⟩ := bind_eq_some_iff.1 done
      exact append_spec active represents bounded (by omega) number (by omega) room appended
    · cases done

theorem getRootOffsetAtVersion_eq (active : m.timelineActive tid = true)
    (settled : (m.timelineRing tid).Settled map) (v : Nat) :
    m.getRootOffsetAtVersion v tid = map v := by
  unfold getRootOffsetAtVersion
  rw [if_neg (by simp [active])]
  rcases settled.maxVersion_eq with ⟨empty, none_left⟩ | ⟨known, last⟩
  · rw [if_pos (Or.inl (bounds_of_empty empty).2)]
    exact (settled.above (by omega)).symm
  · have low := (settled.tight (by omega)).1
    have numbers := settled.numbers
    have bound : (m.timelineRing tid).versionLowerBound ≠ invalidBlockNum := by
      unfold invalidBlockNum
      omega
    rw [(bounds_of_active active known).2]
    split
    · rename_i outside
      rcases outside with invalid | early | late
      · exact absurd invalid bound
      · exact (settled.below early).symm
      · exact (settled.above (by omega)).symm
    · rename_i inside
      exact settled.slot_eq (by omega) (by omega)

theorem eraseOutdated_spec (active : aux.main.timelineActive tid = true)
    (settled : (aux.main.timelineRing tid).Settled map)
    (done : aux.eraseOutdated dest tid = some after) :
    OnlyOn tid aux.main after.main ∧
    (after.main.timelineRing tid).Settled (map.trim aux.main.historyLength dest) ∧
    (after.main.timelineRing tid).capacity = (aux.main.timelineRing tid).capacity := by
  unfold eraseOutdated at done
  split at done
  · obtain ⟨only, kept, capacity, -⟩ := erase_spec active settled done
    rw [History.eraseUpTo_sub (by omega)] at kept
    exact ⟨only, kept, capacity⟩
  · cases done
    rw [History.trim_eq_self fun v _ => by omega]
    exact ⟨OnlyOn.refl _ _, settled, rfl⟩

theorem moveAutoExpire_sameRings
    (done : aux.moveAutoExpire src dest tid = some after) : SameRings aux.main after.main := by
  unfold moveAutoExpire at done
  split at done
  · have keeps : (MetadataOp.setAutoExpireVersionMetadata tid (toInt64 dest)).KeepsRings := trivial
    exact (MetadataOp.run_framed keeps (onContext_eq done).1).sameRings
  · cases done
    exact SameRings.refl _

theorem moveTrieVersionForward_spec
    (recorded : aux.main.timelineActive tid = true →
      (aux.main.timelineRing tid).Represents map ∧
      aux.main.historyLength ≤ (aux.main.timelineRing tid).capacity)
    (number : dest ≤ invalidBlockNum)
    (done : aux.moveTrieVersionForward src dest tid = some after) :
    aux.main.timelineActive tid = true ∧
      Turned tid aux.main after.main (map.move aux.main.historyLength src dest) := by
  simp only [moveTrieVersionForward] at done
  split at done
  · rename_i allowed
    have valid := allowed.1
    have active : aux.main.timelineActive tid = true := by
      by_contra inactive
      rw [versionIsValidOndisk, getRootOffsetAtVersion,
        if_pos (Bool.eq_false_of_not_eq_true inactive)] at valid
      cases valid
    obtain ⟨represents, bounded⟩ := recorded active
    have lookup := getRootOffsetAtVersion_eq active represents.settled
    obtain ⟨root, atSrc⟩ : ∃ root, map src = some root := by
      rw [versionIsValidOndisk, lookup] at valid
      exact isSome_iff_exists.1 valid
    rw [lookup, atSrc] at done
    obtain ⟨cleared, clear, done⟩ := bind_eq_some_iff.1 done
    obtain ⟨trimmed, trim, done⟩ := bind_eq_some_iff.1 done
    obtain ⟨moved, forwarded, done⟩ := bind_eq_some_iff.1 done
    obtain ⟨pushed, appended, done⟩ := bind_eq_some_iff.1 done
    split at done
    · have within := represents.tracks.bounded src (by rw [atSrc]; simp)
      have known : src ≠ invalidBlockNum := by
        have := represents.tracks.numbers
        omega
      obtain ⟨stepped, onlyClear⟩ := updateRootOffset_none_front active known (onContext_eq clear).1
      obtain ⟨settled, sameSize, -⟩ := represents.tracks.clearVersion within.1 within.2 stepped
      obtain ⟨onlyTrim, restSettled, restSize⟩ :=
        eraseOutdated_spec ((onlyClear.active tid).trans active) settled trim
      have length : cleared.main.historyLength = aux.main.historyLength := onlyClear.length
      have size : (trimmed.main.timelineRing tid).capacity =
          (aux.main.timelineRing tid).capacity := restSize.trans sameSize
      rw [length] at restSettled
      obtain ⟨onlyLand, landed, landedSize⟩ := land_spec restSettled
        (lt_of_le_of_lt number (by decide)) (fun v left => by
          by_contra far
          exact left (if_pos (by omega))) forwarded appended
      have same := moveAutoExpire_sameRings done
      rw [← History.move_eq atSrc] at landed
      rw [Turned, same.timelineRing]
      exact ⟨active, ((onlyClear.trans onlyTrim).trans onlyLand).trans (OnlyOn.of_sameRings same),
        landed, landedSize.trans size⟩
    · cases done
  · cases done

def Rewound (needed : Bool) (version : Nat) (before after : Ring) : Prop :=
  if needed = true then before.rewindToVersion version = some after else after = before

theorem rewindRing_spec {needed : Bool} (sameIdx : m.ringIdx tid = front.ringIdx tid)
    (done : rewindRing front version tid needed m = some next) :
    OnlyOn tid m next ∧ Rewound needed version (m.timelineRing tid) (next.timelineRing tid) := by
  unfold Rewound
  rw [rewindRing, ← sameIdx] at done
  split at done
  · rename_i need
    obtain ⟨stepped, only⟩ := modifyRing_onlyOn done
    rw [if_pos need]
    exact ⟨only, stepped⟩
  · rename_i fine
    cases done
    rw [if_neg fine]
    exact ⟨OnlyOn.refl _ _, rfl⟩

theorem rewindRings_spec {primary secondary : Bool}
    (done : rewindRings m version primary secondary m = some next) :
    (∀ tid, next.timelineActive tid = m.timelineActive tid) ∧
    next.historyLength = m.historyLength ∧
    Rewound primary version (m.timelineRing .primary) (next.timelineRing .primary) ∧
    Rewound secondary version (m.timelineRing .secondary) (next.timelineRing .secondary) := by
  simp only [rewindRings, bind_eq_bind, bind_eq_some_iff] at done
  obtain ⟨middle, first, second⟩ := done
  obtain ⟨only, rewound⟩ := rewindRing_spec rfl first
  obtain ⟨onlyOther, rewoundOther⟩ := rewindRing_spec (only.ringIdx .secondary) second
  rw [only.rings .secondary (by decide)] at rewoundOther
  rw [← onlyOther.rings .primary (by decide)] at rewound
  exact ⟨fun tid => (onlyOther.active tid).trans (only.active tid),
    onlyOther.length.trans only.length, rewound, rewoundOther⟩

theorem rewound_represents {ring : Ring} (active : m.timelineActive tid = true)
    (represents : (m.timelineRing tid).Represents map)
    (valid : needsRewind m version tid = true → m.versionIsValidOndisk version tid = true)
    (rewound : Rewound (needsRewind m version tid) version (m.timelineRing tid) ring) :
    ring.Represents (map.rewind version) ∧ ring.capacity = (m.timelineRing tid).capacity := by
  unfold Rewound at rewound
  cases need : needsRewind m version tid with
  | true =>
    rw [need, if_pos rfl] at rewound
    have known : map version ≠ none := by
      have present := valid need
      rw [versionIsValidOndisk, getRootOffsetAtVersion_eq active represents.settled] at present
      intro absent
      rw [absent] at present
      cases present
    obtain ⟨⟨tracks, tight⟩, next, capacity⟩ := represents.tracks.rewindToVersion known rewound
    refine ⟨⟨tracks, tight, fun _ => ?_⟩, capacity⟩
    rw [next, Nat.add_sub_cancel, History.rewind, if_neg (lt_irrefl version)]
    exact known
  | false =>
    rw [need, if_neg (by simp)] at rewound
    have same : map.rewind version = map := History.ite_none_eq_self fun v present => by
      have within := represents.tracks.bounded v present
      rcases represents.tracks.maxVersion_eq with ⟨-, none_left⟩ | ⟨known, last⟩
      · omega
      · rw [needsRewind, (bounds_of_active active known).1] at need
        simp only [decide_eq_false_iff_not, not_and, not_lt] at need
        omega
    rw [rewound, same]
    exact ⟨represents, rfl⟩

theorem rewindConsensus_sameRings {ctx next : DbMetadataContext}
    (done : rewindConsensus version ctx = some next) : SameRings ctx.front next.front := by
  refine MetadataOp.runAll_sameRings (fun op mem => ?_) done
  simp only [List.mem_append, List.mem_cons, List.not_mem_nil, or_false] at mem
  rcases mem with mem | rfl | rfl | rfl
  · split at mem
    · rw [List.mem_singleton.1 mem]
      trivial
    · cases mem
  · trivial
  · trivial
  · trivial

theorem advanceToCutoff_sameRings {ctx next : DbMetadataContext} {cutoff : Option Offset}
    (done : advanceToCutoff ctx cutoff = some next) : SameRings ctx.front next.front := by
  cases cutoff with
  | none =>
    cases done
    exact SameRings.refl _
  | some cutoff => exact (advanceDbOffsetsTo_framed done).sameRings

end Timeline

variable {aux after : UpdateAux} {versions : Versions} {version : Nat}

theorem rewound_records (records : aux.main.Records versions)
    (valid : (AuxOp.rewindToVersion version).Admissible aux)
    (active : ∀ tid, next.timelineActive tid = aux.main.timelineActive tid)
    (length : next.historyLength = aux.main.historyLength)
    (rewound : ∀ tid, Rewound (needsRewind aux.main version tid) version
      (aux.main.timelineRing tid) (next.timelineRing tid)) :
    next.Records ((AuxOp.rewindToVersion version).apply versions) where
  length := length.trans records.length
  positive := by rw [length]; exact records.positive
  rings := by
    intro tid isActive
    rw [active] at isActive
    obtain ⟨represents, bounded⟩ := records.rings tid isActive
    obtain ⟨kept, capacity⟩ := rewound_represents isActive represents (valid tid) (rewound tid)
    rw [length, capacity]
    exact ⟨kept, bounded⟩

theorem records_of_sameRings (records : m.Records versions)
    (same : SameRings m next) : next.Records versions where
  length := same.length.trans records.length
  positive := by rw [same.length]; exact records.positive
  rings := by
    intro tid active
    rw [same.timelineActive] at active
    rw [same.timelineRing, same.length]
    exact records.rings tid active

theorem rewindToVersion_records (records : aux.main.Records versions)
    (valid : (AuxOp.rewindToVersion version).Admissible aux)
    (done : aux.rewindToVersion version = some after) :
    after.main.Records ((AuxOp.rewindToVersion version).apply versions) ∧
    ∀ tid, after.main.timelineActive tid = aux.main.timelineActive tid := by
  simp only [rewindToVersion] at done
  split at done
  · split at done
    · rename_i nothing
      cases done
      refine ⟨rewound_records records valid (fun _ => rfl) rfl fun tid => ?_, fun _ => rfl⟩
      have fine : needsRewind aux.main version tid = false := by
        cases tid
        · exact nothing.1
        · exact nothing.2
      rw [Rewound, fine, if_neg (by simp)]
    · obtain ⟨cut, rings, done⟩ := bind_eq_some_iff.1 done
      obtain ⟨known, consensus, done⟩ := bind_eq_some_iff.1 done
      obtain ⟨cutoff, -, done⟩ := bind_eq_some_iff.1 done
      obtain ⟨advanced, offsets, done⟩ := bind_eq_some_iff.1 done
      have same : SameRings cut.main after.main :=
        ((rewindConsensus_sameRings (onContext_eq consensus).1).trans
          (advanceToCutoff_sameRings (onContext_eq offsets).1)).trans
          (rewindToMatchOffsets_keeps advanced after done)
      obtain ⟨active, length, primary, secondary⟩ :=
        rewindRings_spec (both_front (onContext_eq rings).1)
      have rewound : cut.main.Records ((AuxOp.rewindToVersion version).apply versions) :=
        rewound_records records valid active length fun tid => by
          cases tid
          · exact primary
          · exact secondary
      exact ⟨records_of_sameRings rewound same,
        fun tid => (same.timelineActive tid).trans (active tid)⟩
  · cases done

theorem change_records {tid : TimelineId} {step : Nat → History → History}
    (records : aux.main.Records versions) (only : OnlyOn tid aux.main after.main)
    (changed : aux.main.timelineActive tid = true →
      (after.main.timelineRing tid).Represents
        (step aux.main.historyLength (versions.history tid)) ∧
      (after.main.timelineRing tid).capacity = (aux.main.timelineRing tid).capacity) :
    after.main.Records (versions.change tid step) where
  length := only.length.trans records.length
  positive := by rw [only.length]; exact records.positive
  rings := by
    intro other active
    rw [only.active] at active
    rw [only.length]
    obtain ⟨represents, bounded⟩ := records.rings other active
    by_cases same : other = tid
    · obtain ⟨changedTo, capacity⟩ := changed (same ▸ active)
      rw [records.length] at changedTo
      rw [same, capacity, Versions.change]
      dsimp only
      rw [update_self]
      exact ⟨changedTo, same ▸ bounded⟩
    · rw [only.rings other same, Versions.change]
      dsimp only
      rw [update_of_ne same]
      exact ⟨represents, bounded⟩

theorem updateHistoryLength_records {ctx next : DbMetadataContext} {historyLen : Nat}
    (records : ctx.front.Records versions)
    (done : ctx.updateHistoryLengthMetadata historyLen = some next) :
    next.front.Records { versions with length := historyLen } ∧
    ∀ tid, next.front.timelineActive tid = ctx.front.timelineActive tid := by
  simp only [updateHistoryLengthMetadata] at done
  have stepped := both_front done
  split at stepped
  · rename_i allowed
    obtain ⟨positive, bounded, equal⟩ := allowed
    have changed := some.inj stepped
    have rings : ∀ tid, next.front.timelineRing tid = ctx.front.timelineRing tid := by
      intro tid
      rw [← changed]
      rfl
    have active : ∀ tid, next.front.timelineActive tid = ctx.front.timelineActive tid := by
      intro tid
      rw [← changed]
      cases tid <;> rfl
    have length : next.front.historyLength = historyLen := by rw [← changed]
    refine ⟨⟨length, by rw [length]; exact positive, fun tid isActive => ?_⟩, active⟩
    rw [active] at isActive
    rw [rings, length]
    refine ⟨(records.rings tid isActive).1, ?_⟩
    cases tid with
    | primary => exact bounded
    | secondary => exact (equal isActive).symm ▸ bounded
  · cases stepped

end UpdateAux

namespace AuxOp

open UpdateAux

variable {aux after final : UpdateAux} {versions : Versions}

theorem run_records {op : AuxOp} (records : aux.main.Records versions)
    (admissible : op.Admissible aux) (done : op.run aux = some after) :
    after.main.Records (op.apply versions) ∧
    ∀ tid, after.main.timelineActive tid = aux.main.timelineActive tid := by
  cases op with
  | writeNewRootNode write version tid =>
    obtain ⟨-, only, represents⟩ :=
      writeNewRootNode_spec (records.rings tid) admissible done
    simp only [apply]
    exact ⟨change_records records only fun _ => represents, only.active⟩
  | moveTrieVersionForward src dest tid =>
    obtain ⟨-, only, represents⟩ :=
      moveTrieVersionForward_spec (records.rings tid) admissible done
    simp only [apply]
    exact ⟨change_records records only fun _ => represents, only.active⟩
  | eraseVersionsUpToAndIncluding version tid =>
    have only : OnlyOn tid aux.main after.main := by
      cases activity : aux.main.timelineActive tid with
      | false => exact erase_inactive activity done
      | true => exact (erase_represents activity (records.rings tid activity).1 done).1
    simp only [apply]
    exact ⟨change_records records only fun active =>
      (erase_represents active (records.rings tid active).1 done).2, only.active⟩
  | rewindToVersion version => exact rewindToVersion_records records admissible done
  | updateHistoryLength historyLen =>
    simp only [run] at done
    exact updateHistoryLength_records records (onContext_eq done).1

theorem runs_records {ops : List AuxOp} (records : aux.main.Records versions)
    (runs : Runs aux ops final) :
    final.main.Records (applyAll ops versions) ∧
    ∀ tid, final.main.timelineActive tid = aux.main.timelineActive tid := by
  induction runs generalizing versions with
  | nil aux => exact ⟨records, fun _ => rfl⟩
  | cons admissible ran _ ih =>
    obtain ⟨next, active⟩ := run_records records admissible ran
    obtain ⟨recorded, stillActive⟩ := ih next
    exact ⟨recorded, fun tid => (stillActive tid).trans (active tid)⟩

end AuxOp

namespace NewPool

variable {pool : NewPool} {ctx after : DbMetadataContext}

theorem blank_records (power : ∃ k, pool.ringCapacity = 2 ^ k) :
    pool.blank.Records ⟨pool.ringCapacity, fun _ _ => none⟩ where
  length := rfl
  positive := by
    obtain ⟨k, size⟩ := power
    show 0 < pool.ringCapacity
    rw [size]
    exact Nat.two_pow_pos k
  rings := by
    intro tid active
    cases tid with
    | primary =>
      refine ⟨⟨⟨power, le_rfl, Nat.zero_le _, Nat.two_pow_pos 64, fun _ _ _ => rfl,
        fun v valid => absurd rfl valid⟩, fun some_left => absurd some_left (lt_irrefl 0),
        fun some_left => absurd some_left (lt_irrefl 0)⟩, le_rfl⟩
    | secondary => cases active

theorem init_records (power : ∃ k, pool.ringCapacity = 2 ^ k) (done : pool.init = some after) :
    ∃ length, after.front.Records ⟨length, fun _ _ => none⟩ := by
  obtain ⟨-, fast, slow, free, first, second, -, fastAppended, slowAppended, ran⟩ := init_ok done
  rw [rest, MetadataOp.runAll, List.foldlM_append] at ran
  obtain ⟨third, others, last⟩ := bind_eq_some_iff.1 ran
  have kept : SameRings second.front third.front := by
    refine MetadataOp.runAll_sameRings (fun op mem => ?_) others
    simp only [List.mem_append, List.mem_map, List.mem_cons, List.not_mem_nil, or_false] at mem
    rcases mem with ⟨_, -, rfl⟩ | rfl | rfl | rfl | rfl | rfl | rfl | rfl <;> trivial
  have records := records_of_sameRings (blank_records power)
    (((appendFirst_framed fastAppended).sameRings.trans
      (appendFirst_framed slowAppended).sameRings).trans kept)
  cases length : pool.historyLen with
  | none =>
    rw [length] at last
    cases last
    exact ⟨_, records⟩
  | some historyLen =>
    rw [length] at last
    obtain ⟨next, ran, finished⟩ := bind_eq_some_iff.1 last
    cases finished
    exact ⟨_, (updateHistoryLength_records records ran).1⟩

end NewPool

/-- The ring is a map from versions to root offsets. After any run of the operations, a
lookup gives what the map has; the two bounds are its first and last version; and the
versions it has are never further apart than the ring is long. -/
theorem ring_implements_history {start final : UpdateAux} {versions : Versions}
    {ops : List AuxOp} (records : start.main.Records versions)
    (runs : AuxOp.Runs start ops final) {tid : TimelineId}
    (active : start.main.timelineActive tid = true) :
    let map := (AuxOp.applyAll ops versions).history tid
    (∀ v, final.main.getRootOffsetAtVersion v tid = map v) ∧
    ((∃ v, map v ≠ none) →
      IsLeast {v | map v ≠ none} (final.main.dbHistoryMinValidVersion tid) ∧
      IsGreatest {v | map v ≠ none} (final.main.dbHistoryMaxVersion tid) ∧
      final.main.dbHistoryMaxVersion tid - final.main.dbHistoryMinValidVersion tid + 1 ≤
        (final.main.timelineRing tid).capacity) ∧
    ∀ u v, map u ≠ none → map v ≠ none →
      (final.main.timelineRing tid).place u = (final.main.timelineRing tid).place v → u = v := by
  intro map
  obtain ⟨recorded, activity⟩ := AuxOp.runs_records records runs
  have finalActive : final.main.timelineActive tid = true := (activity tid).trans active
  obtain ⟨represents, -⟩ := recorded.rings tid finalActive
  have tracks : (final.main.timelineRing tid).Tracks map := represents.tracks
  have fits := tracks.fits
  refine ⟨getRootOffsetAtVersion_eq finalActive represents.settled, ?_, ?_⟩
  · rintro ⟨v, valid⟩
    have within := tracks.bounded v valid
    rcases tracks.maxVersion_eq with ⟨-, none_left⟩ | ⟨known, last⟩
    · omega
    have top : map ((final.main.timelineRing tid).nextVersion - 1) ≠ none :=
      represents.top (by omega)
    obtain ⟨low, settled⟩ := represents.tight (by omega)
    have bottom : map (final.main.timelineRing tid).versionLowerBound ≠ none := by
      rcases settled with one | valid
      · rw [show (final.main.timelineRing tid).versionLowerBound =
          (final.main.timelineRing tid).nextVersion - 1 by omega]
        exact top
      · exact valid
    rw [dbHistoryMinValidVersion, (bounds_of_active finalActive known).1,
      (bounds_of_active finalActive known).2]
    refine ⟨⟨bottom, fun u present => (tracks.bounded u present).1⟩,
      ⟨?_, fun u present => ?_⟩, by omega⟩
    · rw [show (final.main.timelineRing tid).maxVersion =
        (final.main.timelineRing tid).nextVersion - 1 by omega]
      exact top
    · have := (tracks.bounded u present).2
      omega
  · intro u v validU validV samePlace
    have withinU := tracks.bounded u validU
    have withinV := tracks.bounded v validV
    rw [tracks.place_eq, tracks.place_eq] at samePlace
    exact CircularWindow.cell_injective withinU.1 (by omega) withinV.1 (by omega) samePlace

def writeAndMove : List AuxOp :=
  [ .writeNewRootNode
      { taken := [], chunkSize := fun _ => 512, offsetWrittenTo := ⟨2, 0, 1⟩, value := ⟨0, 0⟩,
        fast := ⟨2, 512, 0⟩, slow := ⟨1, 0, 0⟩ } 5 .primary
  , .moveTrieVersionForward 5 9 .primary ]

def smallAux (ctx : DbMetadataContext) : UpdateAux where
  ctx := ctx
  chunkCapacity := fun _ => 2 ^ 28
  chunkSize := fun _ => 0
  rootValue := fun _ => none
  nodeWriterFast := ⟨2, 0, 0⟩
  nodeWriterSlow := ⟨1, 0, 0⟩

theorem ring_implements_history_sample : ∃ start final length,
    start.main.Records ⟨length, fun _ _ => none⟩ ∧ AuxOp.Runs start writeAndMove final ∧
    final.main.getRootOffsetAtVersion 9 .primary = some ⟨2, 0, 1⟩ ∧
    final.main.getRootOffsetAtVersion 5 .primary = none := by
  have completes : (smallPool.init.bind fun ctx =>
      writeAndMove.foldlM (fun aux op => op.run aux) (smallAux ctx)).isSome = true := by
    decide +kernel
  obtain ⟨final, ran⟩ := isSome_iff_exists.1 completes
  obtain ⟨ctx, initialised, ran⟩ := bind_eq_some_iff.1 ran
  obtain ⟨length, records⟩ := NewPool.init_records ⟨24, by decide⟩ initialised
  have runs : AuxOp.Runs (smallAux ctx) writeAndMove final := by
    obtain ⟨written, first, rest⟩ := bind_eq_some_iff.1 ran
    obtain ⟨moved, second, finished⟩ := bind_eq_some_iff.1 rest
    cases finished
    have writable : 5 < invalidBlockNum := by decide
    have movable : 9 ≤ invalidBlockNum := by decide
    exact .cons writable first (.cons movable second (.nil _))
  have recorded : (smallAux ctx).main.Records ⟨length, fun _ _ => none⟩ := records
  have active : (smallAux ctx).main.timelineActive .primary = true := rfl
  have lookup := (ring_implements_history recorded runs active).1
  refine ⟨smallAux ctx, final, length, recorded, runs, ?_, ?_⟩
  · rw [lookup]
    simp [AuxOp.applyAll, writeAndMove, AuxOp.apply, Versions.change, History.move, History.write]
  · rw [lookup]
    simp [AuxOp.applyAll, writeAndMove, AuxOp.apply, Versions.change, History.move]

end MonadChain.Mpt
