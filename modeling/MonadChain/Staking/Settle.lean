import MonadChain.Staking.Rules

/-!
`pull_delegator_up_to_date` runs promotions, compounds and one settlement, in
that order, and leaves the delegator with nothing due. Its failures have a cause
in the state: no assumption on the state is made here.
-/

namespace MonadChain.Staking

open Maps Outcome State

variable {s : State} {returns : Unit → State → Prop} {fails : Failure → State → Prop}

variable {valId : ValId} {stake current last : Nat}

theorem holds_decrement {returns : Nat → State → Prop} (epoch : Nat) (valId : ValId) :
    Holds (decrementAccumulatorRefcount epoch valId) s returns fails ↔
      returns (s.held epoch valId) (s.dropReference epoch valId) := by
  simp only [decrementAccumulatorRefcount, holds_bind, holds_get, holds_ite, holds_modify,
    holds_pure]
  by_cases empty : (s.accumulatedRewardPerToken epoch valId).refcount = 0
  · simp [held, dropReference, RefCountedAccumulator.held, RefCountedAccumulator.dropped, empty]
  · simp [held, dropReference, RefCountedAccumulator.held,
      RefCountedAccumulator.dropped, empty, releaseAccumulator]

theorem holds_rewardInvariant (valId : ValId) (rewards : Nat) :
    Holds (rewardInvariant valId rewards) s returns fails ↔
      (rewards ≤ (s.valExecution valId).unclaimedRewards →
        returns () (s.updateValidator valId fun val =>
          { val with unclaimedRewards := val.unclaimedRewards - rewards })) ∧
      ((s.valExecution valId).unclaimedRewards < rewards →
        fails (.staking .solvencyError) s) := by
  simp only [rewardInvariant, holds_bind, holds_get, holds_failIf, holds_checkedSub, holds_modify,
    not_lt]
  constructor
  · rintro ⟨short, enough⟩
    exact ⟨fun covered => (enough covered).1 covered, short⟩
  · rintro ⟨enough, short⟩
    exact ⟨short, fun covered => ⟨enough, fun uncovered => absurd covered uncovered⟩⟩

def SettlementFails (s : State) (valId : ValId) (stake current last : Nat)
    (failure : Failure) : Prop :=
  failure.expected = true ∨ (failure = .math .underflow ∧ current < last) ∨
    (failure = .staking .solvencyError ∧ last ≤ current ∧
      (s.valExecution valId).unclaimedRewards < rewardsOf stake current last)

theorem SettlementFails.fault {failure : Failure}
    (settlement : Settlement s valId stake current last)
    (failed : SettlementFails s valId stake current last failure) : Fault s failure := by
  rcases failed with listed | ⟨rfl, short⟩ | ⟨rfl, ordered, short⟩
  · exact .expected listed
  · exact .disordered settlement short
  · exact .insolvent settlement ordered short

theorem calculateRewards_fails {error : MathError}
    (failure : calculateRewards stake current last = .error error) :
    SettlementFails s valId stake current last (.math error) := by
  rcases calculateRewards_error failure with ⟨rfl, short⟩ | rfl
  · exact .inr (.inl ⟨rfl, short⟩)
  · exact .inl rfl

theorem dropReference_infoLog (s : State) (epoch : Nat) (valId : ValId) :
    (s.dropReference epoch valId).infoLog = s.infoLog ∨
      (s.accumulatedRewardPerToken epoch valId).refcount = 0 := by
  by_cases empty : (s.accumulatedRewardPerToken epoch valId).refcount = 0
  · exact .inr empty
  · exact .inl (if_neg empty)

theorem compoundDelta_spec (valId : ValId) (address : Address) :
    Holds (compoundDelta valId address) s
      (fun _ after => after = s.compounded valId address ∧
        (s.delegator valId address).accumulatedRewardPerToken ≤
          s.held (s.delegator valId address).deltaEpoch valId ∧
        s.compoundRewards valId address ≤ (s.valExecution valId).unclaimedRewards)
      (fun failure after =>
        SettlementFails s valId (s.delegator valId address).stake
          (s.held (s.delegator valId address).deltaEpoch valId)
          (s.delegator valId address).accumulatedRewardPerToken failure ∧
        (after.infoLog = s.infoLog ∨ (s.accumulatedRewardPerToken
          (s.delegator valId address).deltaEpoch valId).refcount = 0)) := by
  have silent := dropReference_infoLog s (s.delegator valId address).deltaEpoch valId
  simp only [compoundDelta, applyCompound, recordRewards, countSettlement, holds_bind, holds_get,
    holds_decrement, holds_checkedAdd, holds_ofMath (calculateRewards _ _ _), holds_modify,
    holds_pure,
    holds_rewardInvariant]
  refine ⟨?_, fun error failure => ⟨calculateRewards_fails failure, silent⟩⟩
  intro rewards computed
  obtain ⟨rfl, ordered⟩ := calculateRewards_ok computed
  refine ⟨fun _ => ⟨fun solvent => ⟨fun _ => ?_, ?_⟩, ?_⟩, ?_⟩
  · refine ⟨?_, ordered, solvent⟩
    simp [compounded, payFromPool, updateDelegator, updateValidator,
      updateHistory, dropReference, compoundRewards, held, promoteDelta]
  · exact fun _ => ⟨.inl rfl, silent⟩
  · intro short
    exact ⟨.inr (.inr ⟨rfl, ordered, short⟩), silent⟩
  · exact fun _ => ⟨.inl rfl, silent⟩

theorem settleStake_spec (valId : ValId) (address : Address) :
    Holds (settleStake valId address) s
      (fun _ after => after = s.settled valId address ∧
        (s.delegator valId address).accumulatedRewardPerToken ≤
          (s.valExecution valId).accumulatedRewardPerToken ∧
        s.stakeRewards valId address ≤ (s.valExecution valId).unclaimedRewards ∧
        (s.delegator valId address).rewards + s.stakeRewards valId address < 2 ^ 256)
      (fun failure after =>
        SettlementFails s valId (s.delegator valId address).stake
          (s.valExecution valId).accumulatedRewardPerToken
          (s.delegator valId address).accumulatedRewardPerToken failure ∧
        after.infoLog = s.infoLog) := by
  simp only [settleStake, recordRewards, countSettlement, holds_bind, holds_get, holds_checkedAdd,
    holds_ofMath (calculateRewards _ _ _), holds_modify, holds_rewardInvariant]
  refine ⟨?_, fun error failure => ⟨calculateRewards_fails failure, trivial⟩⟩
  intro rewards computed
  obtain ⟨rfl, ordered⟩ := calculateRewards_ok computed
  refine ⟨fun solvent => ⟨fun recorded => ?_, ?_⟩, ?_⟩
  · refine ⟨?_, ordered, solvent, recorded⟩
    simp [settled, payFromPool, updateDelegator, updateValidator, updateHistory, stakeRewards]
  · exact fun _ => ⟨.inl rfl, rfl⟩
  · intro short
    exact ⟨.inr (.inr ⟨rfl, ordered, short⟩), rfl⟩

variable (revision : MonadRevision)

theorem compounded_active (s : State) (valId : ValId) (address : Address) (epoch : Nat) :
    (s.compounded valId address).isEpochActive epoch ↔ s.isEpochActive epoch := Iff.rfl

theorem compounded_delegator (s : State) (valId : ValId) (address : Address) :
    (s.compounded valId address).delegator valId address =
      { promoteDelta (s.delegator valId address) with
        stake := (s.delegator valId address).stake + (s.delegator valId address).deltaStake
        accumulatedRewardPerToken := s.held (s.delegator valId address).deltaEpoch valId
        rewards := (s.delegator valId address).rewards + s.compoundRewards valId address } := by
  simp [compounded, updateDelegator, payFromPool, dropReference]

theorem not_active_zero (s : State) : ¬ s.isEpochActive 0 := fun active => active.1 rfl

theorem compoundDelta_moves (valId : ValId) (address : Address)
    (active : s.isEpochActive (s.delegator valId address).deltaEpoch) :
    Holds (compoundDelta valId address) s
      (fun _ after => after = s.compounded valId address ∧ Moves revision 0 s after)
      (Failed revision s) := by
  apply (compoundDelta_spec valId address).mono
  · rintro _ after ⟨rfl, ordered, solvent⟩
    exact ⟨rfl, .single (.compound s valId address active ordered solvent)⟩
  · rintro failure after ⟨failed, silent⟩
    refine ⟨0, s, le_rfl, .refl s, failed.fault (.compound valId address active), ?_⟩
    exact silent.imp_right fun empty => .inl ⟨valId, address, active, empty⟩

theorem compoundPending_spec (valId : ValId) (address : Address)
    (promoted : canPromoteDelta (s.delegator valId address) s.epoch →
      (s.delegator valId address).nextDeltaEpoch = 0 ∧
        (s.delegator valId address).nextDeltaStake = 0) :
    Holds (compoundPending valId address) s
      (fun _ after => after = s.compoundedPending valId address ∧ Moves revision 0 s after ∧
        after.Idle valId address) (Failed revision s) := by
  simp only [compoundPending, holds_bind, holds_get, holds_onlyIf, holds_assertThrow]
  constructor
  · -- both slots are active: the first compound moves the second slot up
    intro next
    refine ⟨fun delta => ?_,
      fun idle => .here (.skipped next idle fun ready => (promoted ready).1) rfl⟩
    apply (compoundDelta_moves revision valId address delta).mono
    · rintro _ once ⟨rfl, first⟩
      refine ⟨fun _ => ?_, fun idle => absurd delta idle⟩
      have moved : ((s.compounded valId address).delegator valId address).deltaEpoch =
          (s.delegator valId address).nextDeltaEpoch := by
        simp [compounded_delegator, promoteDelta]
      apply (compoundDelta_moves revision valId address
        (by rw [moved, compounded_active]; exact next)).mono
      · rintro _ twice ⟨rfl, second⟩
        refine ⟨by simp [compoundedPending, next, delta], by simpa using first.trans second, ?_⟩
        constructor <;> simp [compounded_delegator, promoteDelta, not_active_zero]
      · intro failure after failed
        exact failed.later le_rfl first
    · exact fun _ _ failed => failed
  · intro idleNext
    refine ⟨fun delta => ?_, fun idleDelta => ?_⟩
    · apply (compoundDelta_moves revision valId address delta).mono
      · rintro _ once ⟨rfl, first⟩
        refine ⟨by simp [compoundedPending, idleNext, delta], first, ?_⟩
        constructor
        · simpa [compounded_delegator, promoteDelta, compounded_active] using idleNext
        · simp [compounded_delegator, promoteDelta, not_active_zero]
        · simp [compounded_delegator, promoteDelta]
      · exact fun _ _ failed => failed
    · exact ⟨by simp [compoundedPending, idleNext, idleDelta], .refl s,
        idleDelta, idleNext, promoted⟩

theorem readied_moves (s : State) (valId : ValId) (address : Address) :
    Moves revision 0 s (s.readied valId address) := by
  unfold readied
  split
  · rename_i ready
    exact .single (.promote s valId address ready)
  · exact .refl s

theorem readied_promoted (s : State) (valId : ValId) (address : Address) :
    canPromoteDelta ((s.readied valId address).delegator valId address)
        (s.readied valId address).epoch →
      ((s.readied valId address).delegator valId address).nextDeltaEpoch = 0 ∧
        ((s.readied valId address).delegator valId address).nextDeltaStake = 0 := by
  unfold readied
  split
  · intro _
    simp [promoted, updateDelegator, promoteDelta]
  · rename_i blocked
    exact fun ready => absurd ready blocked

theorem settled_delegator (s : State) (valId : ValId) (address : Address) :
    (s.settled valId address).delegator valId address =
      { s.delegator valId address with
        accumulatedRewardPerToken := (s.valExecution valId).accumulatedRewardPerToken
        rewards := (s.delegator valId address).rewards + s.stakeRewards valId address } := by
  simp [settled, updateDelegator, payFromPool]

theorem settled_pulled {address : Address} (idle : s.Idle valId address)
    (recorded : (s.delegator valId address).rewards + s.stakeRewards valId address < 2 ^ 256) :
    (s.settled valId address).Pulled valId address := by
  constructor
  · constructor
    · rw [settled_delegator]; exact idle.delta
    · rw [settled_delegator]; exact idle.next
    · rw [settled_delegator]; exact idle.promoted
  · intro _
    simp [settled, updateDelegator, payFromPool]
  · intro _
    rw [settled_delegator]
    exact recorded

theorem holds_pull (valId : ValId) (address : Address) :
    Holds (pullDelegatorUpToDate valId address) s returns fails ↔
      Holds (compoundPending valId address) (s.readied valId address) (fun _ middle =>
          ((middle.delegator valId address).stake ≠ 0 →
            Holds (settleStake valId address) middle returns fails) ∧
          (¬ (middle.delegator valId address).stake ≠ 0 → returns () middle)) fails := by
  simp only [pullDelegatorUpToDate, holds_bind, holds_get, holds_onlyIf, holds_modify,
    readied, promoted]
  split <;> simp_all

theorem pull_spec (valId : ValId) (address : Address) :
    Holds (pullDelegatorUpToDate valId address) s
      (fun _ after => after = s.pulled valId address ∧ Moves revision 0 s after ∧
        after.Pulled valId address) (Failed revision s) := by
  have ready := readied_moves revision s valId address
  rw [holds_pull]
  apply (compoundPending_spec revision valId address
    (readied_promoted s valId address)).mono
  · rintro _ middle ⟨rfl, compounds, idle⟩
    have moves := ready.trans compounds
    constructor
    · intro staked
      apply (settleStake_spec valId address).mono
      · rintro _ after ⟨rfl, ordered, solvent, recorded⟩
        refine ⟨by simp only [pulled, if_pos staked], ?_, settled_pulled idle recorded⟩
        exact moves.trans (.single (.settle _ valId address idle staked ordered solvent))
      · rintro failure after ⟨failed, silent⟩
        exact .later le_rfl moves (.here (failed.fault (.stake valId address idle staked)) silent)
    · intro empty
      refine ⟨by simp only [pulled, if_neg empty], moves, idle, ?_, ?_⟩
      · exact fun staked => absurd staked empty
      · exact fun staked => absurd staked empty
  · intro failure after failed
    exact failed.later le_rfl ready

end MonadChain.Staking
