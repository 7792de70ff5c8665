import MonadChain.Lib.Bitset
import MonadChain.Staking.Registration

/-!
What a snapshot does to the validator sets. The consensus set and its view move to the snapshot
set, the top candidates become the consensus set, and the validators with a flag leave the
execution set. The removals run from the highest index down.
-/

namespace MonadChain.Staking

open StorageArray EpochViews List

variable {valId : ValId} {t : State}

namespace EpochViews

theorem clear_valset (count : Nat) (views : EpochViews) (all : views.valset.length = count) :
    (clear count views).valset.toList = [] := by
  induction count generalizing views with
  | zero =>
    rw [clear, ← length_eq_zero_iff, length_toList]
    exact all
  | succ count ih =>
    apply ih
    exact Nat.pred_eq_of_eq_succ all

theorem clear_view (count : Nat) (views : EpochViews) (all : views.valset.length = count)
    (valId : ValId) :
    (clear count views).view valId =
      if valId ∈ views.valset.toList then {} else views.view valId := by
  induction count generalizing views with
  | zero =>
    have none : views.valset.toList = [] := by
      rw [← length_eq_zero_iff, length_toList]
      exact all
    simp [clear, none]
  | succ count ih =>
    have members := views.valset.toList_pop (by omega)
    have shorter : views.valset.pop.2.length = count := by
      simp only [pop]
      omega
    rw [clear, ih _ shorter, members]
    by_cases last : valId = views.valset.pop.1
    · simp [last]
    · simp [last]

variable (views : EpochViews)

theorem addAll_valset (entry : ValId → ConsensusView) (added : List ValId) :
    (views.addAll entry added).valset.toList = views.valset.toList ++ added := by
  induction added generalizing views with
  | nil => simp [addAll]
  | cons valId rest ih =>
    rw [addAll, ih]
    simp [add]

theorem addAll_view (entry : ValId → ConsensusView) (added : List ValId) (valId : ValId) :
    (views.addAll entry added).view valId =
      if valId ∈ added then entry valId else views.view valId := by
  induction added generalizing views with
  | nil => simp [addAll]
  | cons first rest ih =>
    rw [addAll, ih]
    by_cases inRest : valId ∈ rest
    · simp [inRest]
    · by_cases here : valId = first
      · simp [here, add]
      · simp [here, add]

end EpochViews

structure Views (valset : StorageArray ValId) (view : ValId → ConsensusView) : Prop where
  nodup : valset.toList.Nodup
  size : valset.toList.length ≤ activeValsetSize
  present : ∀ valId, valId ∈ valset.toList → (view valId).stake ≠ 0
  absent : ∀ valId, valId ∉ valset.toList → view valId = {}
  fair : ∀ valId, (view valId).commission ≤ maxCommission

theorem Views.stake_ne_zero_iff {valset : StorageArray ValId} {view : ValId → ConsensusView}
    (views : Views valset view) (valId : ValId) :
    (view valId).stake ≠ 0 ↔ valId ∈ valset.toList := by
  constructor
  · intro staked
    by_contra outside
    rw [views.absent valId outside] at staked
    exact staked rfl
  · exact views.present valId

namespace State

variable (s : State)

theorem rotateViews_valsetSnapshot :
    s.rotateViews.valsetSnapshot.toList = s.valsetConsensus.toList := by
  simp only [rotateViews, addAll_valset]
  rw [clear_valset _ ⟨_, _⟩ rfl, nil_append]

theorem rotateViews_snapshotView (consensus : Views s.valsetConsensus s.consensusView)
    (snapshot : Views s.valsetSnapshot s.snapshotView) :
    s.rotateViews.snapshotView = s.consensusView := by
  funext valId
  simp only [rotateViews, addAll_view]
  split
  · rfl
  · rename_i outside
    rw [clear_view _ ⟨_, _⟩ rfl, consensus.absent valId outside]
    split
    · rfl
    · rename_i notOld
      exact snapshot.absent valId notOld

theorem rotateViews_valsetConsensus : s.rotateViews.valsetConsensus.toList = s.topCandidates := by
  simp only [rotateViews, addAll_valset]
  rw [clear_valset _ ⟨_, _⟩ rfl, nil_append]

theorem rotateViews_consensusView (consensus : Views s.valsetConsensus s.consensusView)
    (valId : ValId) : s.rotateViews.consensusView valId =
      if valId ∈ s.topCandidates then
        ⟨(s.valExecution valId).stake, (s.valExecution valId).commission⟩ else {} := by
  simp only [rotateViews, addAll_view]
  split
  · rfl
  · rw [clear_view _ ⟨_, _⟩ rfl]
    split
    · rfl
    · rename_i outside
      exact consensus.absent valId outside

theorem snapshotTaken_valsetSnapshot :
    s.snapshotTaken.valsetSnapshot.toList = s.valsetConsensus.toList :=
  (congrArg (·.valsetSnapshot.toList) (snapshotTaken_eq s)).trans s.rotateViews_valsetSnapshot

theorem snapshotTaken_snapshotView (consensus : Views s.valsetConsensus s.consensusView)
    (snapshot : Views s.valsetSnapshot s.snapshotView) :
    s.snapshotTaken.snapshotView = s.consensusView :=
  (congrArg (·.snapshotView) (snapshotTaken_eq s)).trans
    (s.rotateViews_snapshotView consensus snapshot)

theorem snapshotTaken_valsetConsensus : s.snapshotTaken.valsetConsensus.toList = s.topCandidates :=
  (congrArg (·.valsetConsensus.toList) (snapshotTaken_eq s)).trans s.rotateViews_valsetConsensus

theorem snapshotTaken_consensusView (consensus : Views s.valsetConsensus s.consensusView)
    (valId : ValId) : s.snapshotTaken.consensusView valId =
      if valId ∈ s.topCandidates then
        ⟨(s.valExecution valId).stake, (s.valExecution valId).commission⟩ else {} :=
  (congrArg (·.consensusView valId) (snapshotTaken_eq s)).trans
    (s.rotateViews_consensusView consensus valId)

variable {s}

theorem mem_topCandidates (member : valId ∈ s.topCandidates) :
    valId ∈ s.valsetExecution.toList ∧ (s.valExecution valId).flags = validatorFlagsOk := by
  have sorted := mem_of_mem_take member
  have candidate := (perm_insertionSort _ _).mem_iff.mp sorted
  have filtered := mem_filter.mp candidate
  exact ⟨filtered.1, of_decide_eq_true filtered.2⟩

theorem nodup_topCandidates (nodup : s.valsetExecution.toList.Nodup) : s.topCandidates.Nodup := by
  have candidates : s.candidates.Nodup := nodup.filter _
  have sorted := (perm_insertionSort s.rankedBefore s.candidates).nodup_iff.mpr candidates
  exact sorted.sublist (take_sublist _ _)

theorem length_topCandidates : s.topCandidates.length ≤ activeValsetSize :=
  length_take_le _ _

def marked (s : State) (valId : ValId) : Prop :=
  s.valBitsetBucket (bucketOf valId) &&& maskOf valId ≠ 0

theorem bucketOf_eq (valId : ValId) : bucketOf valId = valId.toNat / 256 :=
  Nat.shiftRight_eq_div_pow valId.toNat 8

theorem maskOf_eq (valId : ValId) : maskOf valId = 1#256 <<< (valId.toNat % 256) :=
  congrArg (1#256 <<< ·) (Nat.and_two_pow_sub_one_eq_mod valId.toNat 8)

theorem marked_iff : s.marked valId ↔ Bitset.Contains s.valBitsetBucket valId.toNat := by
  rw [marked, bucketOf_eq, maskOf_eq]
  exact Iff.rfl

theorem addToValset_bitset (valId : ValId) :
    (s.addToValset valId).1.valBitsetBucket = Bitset.insert s.valBitsetBucket valId.toNat := by
  simp only [addToValset, Bitset.insert, bucketOf_eq, maskOf_eq]

theorem removeFromValset_bitset (valId : ValId) :
    (s.removeFromValset valId).valBitsetBucket = Bitset.erase s.valBitsetBucket valId.toNat := by
  simp only [removeFromValset, Bitset.erase, bucketOf_eq, maskOf_eq]

theorem removedAt_marked (index : Nat) (valId : ValId) :
    (s.removedAt index).marked valId ↔
      valId ≠ s.valsetExecution.slots index ∧ s.marked valId := by
  have bits : (s.removedAt index).valBitsetBucket =
      Bitset.erase s.valBitsetBucket (s.valsetExecution.slots index).toNat :=
    removeFromValset_bitset _
  rw [marked_iff, marked_iff, bits, Bitset.contains_erase _ (by decide), ne_eq, UInt64.toNat_inj]

theorem removedAll_spec (indices : List Nat) (descending : indices.Pairwise (· > ·))
    (bounded : ∀ index ∈ indices, index < s.valsetExecution.length)
    (nodup : s.valsetExecution.toList.Nodup) :
    (s.removedAll indices).valsetExecution.toList.Nodup ∧
    (∀ valId, valId ∈ (s.removedAll indices).valsetExecution.toList ↔
      valId ∈ s.valsetExecution.toList ∧
        ∀ index ∈ indices, valId ≠ s.valsetExecution.slots index) ∧
    ∀ valId, (s.removedAll indices).marked valId ↔
      s.marked valId ∧ ∀ index ∈ indices, valId ≠ s.valsetExecution.slots index := by
  induction indices generalizing s with
  | nil => exact ⟨nodup, by simp [removedAll], by simp [removedAll]⟩
  | cons index rest ih =>
    obtain ⟨below, descending⟩ := pairwise_cons.mp descending
    have inside := bounded index mem_cons_self
    have slots : ∀ other ∈ rest,
        (s.removedAt index).valsetExecution.slots other = s.valsetExecution.slots other :=
      fun other member =>
        slots_swapRemove _ index other inside (below other member)
    have shorter : ∀ other ∈ rest, other < (s.removedAt index).valsetExecution.length := by
      intro other member
      have smaller := below other member
      have length : (s.removedAt index).valsetExecution.length =
        s.valsetExecution.length - 1 := rfl
      omega
    have members := mem_swapRemove s.valsetExecution index inside nodup
    obtain ⟨unique, listed, bits⟩ := ih (s := s.removedAt index) descending shorter
      (nodup_swapRemove _ index inside nodup)
    have others : ∀ valId,
        (∀ other ∈ rest, valId ≠ (s.removedAt index).valsetExecution.slots other) ↔
          ∀ other ∈ rest, valId ≠ s.valsetExecution.slots other := by
      intro valId
      exact forall₂_congr fun other member => by rw [slots other member]
    refine ⟨unique, ?_, ?_⟩
    · intro valId
      rw [removedAll, listed, others, forall_mem_cons, ← and_assoc]
      exact and_congr_left fun _ => members valId
    · intro valId
      rw [removedAll, bits, others, forall_mem_cons, removedAt_marked, ← and_assoc,
        and_comm (a := s.marked valId)]

theorem marked_congr (bits : t.valBitsetBucket = s.valBitsetBucket) (valId : ValId) :
    t.marked valId ↔ s.marked valId := by
  rw [marked, marked, bits]

theorem valsetAfter_spec {flags : BitVec 64} (array : t.valsetExecution = s.valsetAfter valId flags)
    (bitset : t.valBitsetBucket = s.bitsetAfter valId flags)
    (nodup : s.valsetExecution.toList.Nodup)
    (bits : ∀ other, other ∈ s.valsetExecution.toList ↔ s.marked other) :
    t.valsetExecution.toList.Nodup ∧
    (∀ other, other ∈ t.valsetExecution.toList ↔
      flags = validatorFlagsOk ∧ other = valId ∨ other ∈ s.valsetExecution.toList) ∧
    ∀ other, other ∈ t.valsetExecution.toList ↔ t.marked other := by
  by_cases fine : flags = validatorFlagsOk
  · have inserted : t.valBitsetBucket = Bitset.insert s.valBitsetBucket valId.toNat := by
      rw [bitset, ← addToValset_bitset]
      exact if_pos fine
    have marks : ∀ other, t.marked other ↔ other = valId ∨ s.marked other := by
      intro other
      rw [marked_iff, marked_iff, inserted, Bitset.contains_insert _ (by decide), UInt64.toNat_inj]
    by_cases missing : s.valBitsetBucket (bucketOf valId) &&& maskOf valId = 0
    · have pushed : t.valsetExecution.toList = s.valsetExecution.toList ++ [valId] := by
        rw [array, valsetAfter, if_pos ⟨fine, missing⟩, toList_push]
      have outside : valId ∉ s.valsetExecution.toList :=
        fun inside => (bits valId).mp inside missing
      refine ⟨?_, ?_, ?_⟩
      · rw [pushed, nodup_append]
        exact ⟨nodup, nodup_singleton valId, by
          rintro other inside _ last rfl
          exact outside (mem_singleton.mp last ▸ inside)⟩
      · intro other
        simp [pushed, fine, or_comm]
      · intro other
        simp [pushed, marks, bits, or_comm]
    · have same : t.valsetExecution = s.valsetExecution := by
        rw [array, valsetAfter, if_neg (fun both => missing both.2)]
      have present : valId ∈ s.valsetExecution.toList := (bits valId).mpr missing
      rw [same]
      refine ⟨nodup, ?_, ?_⟩
      · intro other
        constructor
        · exact .inr
        · rintro (⟨-, rfl⟩ | inside)
          · exact present
          · exact inside
      · intro other
        rw [marks, bits]
        constructor
        · exact .inr
        · rintro (rfl | inside)
          · exact (bits other).mp present
          · exact inside
  · have same : t.valsetExecution = s.valsetExecution := by
      rw [array, valsetAfter, if_neg (fun both => fine both.1)]
    have sameBits : t.valBitsetBucket = s.valBitsetBucket := by
      rw [bitset, bitsetAfter, if_neg fine]
    rw [same]
    refine ⟨nodup, ?_, ?_⟩
    · intro other
      simp [fine]
    · intro other
      rw [bits, marked_congr sameBits]

theorem mem_removals {index : Nat} : index ∈ s.removals.reverse ↔
    index < s.valsetExecution.length ∧
      (s.valExecution (s.valsetExecution.slots index)).flags ≠ validatorFlagsOk := by
  rw [mem_reverse, removals, mem_filter, mem_range]
  exact and_congr_right fun _ => decide_eq_true_iff

theorem removals_descending : s.removals.reverse.Pairwise (· > ·) := by
  rw [pairwise_reverse]
  exact pairwise_lt_range.filter _

theorem snapshotTaken_execution (nodup : s.valsetExecution.toList.Nodup)
    (bits : ∀ valId, valId ∈ s.valsetExecution.toList ↔ s.marked valId) :
    s.snapshotTaken.valsetExecution.toList.Nodup ∧
    (∀ valId, valId ∈ s.snapshotTaken.valsetExecution.toList ↔
      valId ∈ s.valsetExecution.toList ∧ (s.valExecution valId).flags = validatorFlagsOk) ∧
    ∀ valId, valId ∈ s.snapshotTaken.valsetExecution.toList ↔ s.snapshotTaken.marked valId := by
  obtain ⟨unique, listed, marks⟩ := removedAll_spec (s := s.rotateViews) s.removals.reverse
    removals_descending (fun index member => (mem_removals.mp member).1) nodup
  refine ⟨unique, ?_, ?_⟩
  · intro valId
    refine (listed valId).trans (and_congr_right fun member => ?_)
    constructor
    · intro apart
      by_contra flagged
      obtain ⟨index, inside, found⟩ := mem_toList.mp member
      subst found
      exact apart index (mem_removals.mpr ⟨inside, flagged⟩) rfl
    · rintro fine index removed rfl
      exact (mem_removals.mp removed).2 fine
  · intro valId
    exact ((listed valId).trans (and_congr_left fun _ => bits valId)).trans (marks valId).symm

end State

end MonadChain.Staking
