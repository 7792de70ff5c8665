import MonadChain.Staking.Valsets

/-!
What `syscall_snapshot` leaves behind, from any reachable state: the best validators of the
execution set are the new consensus set, and the validators with a flag are gone from the
execution set.
-/

namespace MonadChain.Staking

namespace State

def outranks (s : State) (left right : ValId) : Prop :=
  (s.valExecution right).stake < (s.valExecution left).stake ∨
    (s.valExecution left).stake = (s.valExecution right).stake ∧ left < right

variable {s : State}

theorem rankedBefore_total (left right : ValId) :
    s.rankedBefore left right ∨ s.rankedBefore right left := by
  rcases Nat.lt_trichotomy (s.valExecution left).stake (s.valExecution right).stake with
    less | same | more
  · exact .inr (.inl less)
  · rcases UInt64.le_total left right with before | after
    · exact .inl (.inr ⟨same, before⟩)
    · exact .inr (.inr ⟨same.symm, after⟩)
  · exact .inl (.inl more)

theorem rankedBefore_trans {first second third : ValId} (one : s.rankedBefore first second)
    (two : s.rankedBefore second third) : s.rankedBefore first third := by
  rcases one with more | ⟨same, before⟩
  · rcases two with next | ⟨equal, -⟩
    · exact .inl (Nat.lt_trans next more)
    · exact .inl (equal ▸ more)
  · rcases two with next | ⟨equal, after⟩
    · exact .inl (same ▸ next)
    · exact .inr ⟨same.trans equal, UInt64.le_trans before after⟩

theorem outranks_of_ne {left right : ValId} (ranked : s.rankedBefore left right)
    (differ : left ≠ right) : s.outranks left right := by
  rcases ranked with more | ⟨same, before⟩
  · exact .inl more
  · exact .inr ⟨same, UInt64.lt_of_le_of_ne before differ⟩

theorem candidates_sorted (nodup : s.valsetExecution.toList.Nodup) :
    (s.candidates.insertionSort s.rankedBefore).Pairwise s.outranks := by
  have total : Std.Total s.rankedBefore := ⟨rankedBefore_total⟩
  have trans : IsTrans ValId s.rankedBefore := ⟨fun _ _ _ => rankedBefore_trans⟩
  have sorted := List.pairwise_insertionSort s.rankedBefore s.candidates
  have distinct : (s.candidates.insertionSort s.rankedBefore).Nodup :=
    (List.perm_insertionSort s.rankedBefore s.candidates).nodup_iff.mpr (nodup.filter _)
  exact (sorted.and distinct).imp fun both => outranks_of_ne both.1 both.2

end State

open Outcome

theorem snapshot_taken (s : State) (input : Bytes) (value : Nat) :
    Holds (syscallSnapshot input value) s (fun _ after => after = s.snapshotTaken)
      (fun _ _ => value ≠ 0 ∨ input ≠ [] ∨ s.inEpochDelayPeriod = true) := by
  simp only [syscallSnapshot, holds_bind, holds_failIf, holds_get, holds_modify]
  refine ⟨.inl, fun _ => ⟨fun extra => .inr (.inl extra), fun _ =>
    ⟨fun delayed => .inr (.inr delayed), fun _ => ?_⟩⟩⟩
  apply (removeAll_spec s.removals.reverse (removals_le s)).mono
  · rintro _ after rfl
    rfl
  · exact fun _ _ impossible => impossible.elim

variable {crypto : Crypto} {balance : Address → Nat} {s : State}

theorem snapshot_selects_top (reachable : Reachable crypto (emptyContract balance) s)
    (outside : s.inEpochDelayPeriod = false) :
    (∃ after, syscallSnapshot [] 0 s = .ok () after) ∧
    ∀ (input : Bytes) (value : Nat) (after : State),
      syscallSnapshot input value s = .ok () after →
      after.valsetSnapshot.toList = s.valsetConsensus.toList ∧
      after.snapshotView = s.consensusView ∧
      (∃ ordered : List ValId,
        ordered.Perm (s.valsetExecution.toList.filter fun valId =>
          (s.valExecution valId).flags = validatorFlagsOk) ∧
        ordered.Pairwise s.outranks ∧
        after.valsetConsensus.toList = ordered.take (min 200 ordered.length)) ∧
      (∀ valId ∈ after.valsetConsensus.toList, after.consensusView valId =
        ⟨(s.valExecution valId).stake, (s.valExecution valId).commission⟩) ∧
      (∀ valId, valId ∉ after.valsetConsensus.toList → after.consensusView valId = {}) ∧
      (∀ valId, valId ∉ after.valsetSnapshot.toList → after.snapshotView valId = {}) ∧
      after.valsetExecution.toList.Nodup ∧
      (∀ valId, valId ∈ after.valsetExecution.toList ↔ valId ∈ s.valsetExecution.toList ∧
        (s.valExecution valId).flags = validatorFlagsOk) ∧
      ∀ valId, valId ∉ after.valsetExecution.toList →
        after.valBitsetBucket (bucketOf valId) &&& maskOf valId = 0 := by
  have registry := Registry.empty balance
  have valsets := (Valsets.empty balance).evolved registry (reachable.evolves registry)
  constructor
  · have spec := snapshot_taken s [] 0
    cases result : syscallSnapshot [] 0 s with
    | ok _ after => exact ⟨after, rfl⟩
    | error failure failed =>
      rcases spec.of_error result with paid | extra | delayed
      · exact absurd rfl paid
      · exact absurd rfl extra
      · rw [outside] at delayed
        cases delayed
  intro input value after taken
  have same : after = s.snapshotTaken := (snapshot_taken s input value).of_ok taken
  subst same
  have consensus := s.snapshotTaken_valsetConsensus
  have snapshotView := s.snapshotTaken_snapshotView valsets.consensus valsets.snapshot
  obtain ⟨nodup, members, bits⟩ := State.snapshotTaken_execution valsets.nodup valsets.bits
  refine ⟨s.snapshotTaken_valsetSnapshot, snapshotView, ?_, ?_, ?_, ?_, nodup, members, ?_⟩
  · refine ⟨s.candidates.insertionSort s.rankedBefore, List.perm_insertionSort _ _,
      State.candidates_sorted valsets.nodup, ?_⟩
    rw [consensus, ← List.take_eq_take_min]
    rfl
  · intro valId member
    rw [consensus] at member
    rw [s.snapshotTaken_consensusView valsets.consensus, if_pos member]
  · intro valId missing
    rw [consensus] at missing
    rw [s.snapshotTaken_consensusView valsets.consensus, if_neg missing]
  · intro valId missing
    rw [s.snapshotTaken_valsetSnapshot] at missing
    rw [snapshotView]
    exact valsets.consensus.absent valId missing
  · intro valId missing
    by_contra set
    exact missing ((bits valId).mpr set)

theorem snapshot_selects_top_sample :
    (sampleRun samplePositions).inEpochDelayPeriod = false ∧
      ∃ after, syscallSnapshot [] 0 (sampleRun samplePositions) = .ok () after ∧
        after.valsetConsensus.toList = [2, 1] := by
  have outside : (sampleRun samplePositions).inEpochDelayPeriod = false := by decide +kernel
  obtain ⟨⟨after, taken⟩, sets⟩ :=
    snapshot_selects_top (sampleRun_reachable samplePositions) outside
  refine ⟨outside, after, taken, ?_⟩
  obtain ⟨-, -, ⟨ordered, perm, sorted, chosen⟩, -⟩ := sets _ _ after taken
  have enrolled : (sampleRun samplePositions).valsetExecution.toList.filter (fun valId =>
      ((sampleRun samplePositions).valExecution valId).flags = validatorFlagsOk) = [1, 2] := by
    decide +kernel
  rw [enrolled] at perm
  obtain ⟨first, second, rfl⟩ := List.length_eq_two.mp perm.length_eq
  have higher := List.rel_of_pairwise_cons sorted (List.mem_singleton_self second)
  unfold State.outranks at higher
  have known : (first = 1 ∨ first = 2) ∧ (second = 1 ∨ second = 2) := by
    simpa using perm.subset
  rcases known with ⟨rfl | rfl, rfl | rfl⟩
  · exact absurd higher (by decide +kernel)
  · exact absurd higher (by decide +kernel)
  · exact chosen
  · exact absurd higher (by decide +kernel)

end MonadChain.Staking
