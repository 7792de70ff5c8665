import MonadChain.Staking.Handlers

/-!
What one operation does to the staking state: a sequence of actions, an epoch change, or nothing
but a failure with a reason. `Registry` is the part of the storage layout this needs.
-/

namespace MonadChain.Staking

open Maps Outcome Function

variable (revision : MonadRevision) {s : State} (crypto : Crypto) (input : Bytes) (value : Nat)

/-- Validator ids are handed out in order, and nothing is stored under an id
that has not been handed out. -/
structure Registry (s : State) : Prop where
  known : ∀ valId, (s.valExecution valId).exists ↔ valId ≠ 0 ∧ valId ≤ s.lastValId
  room : s.lastValId < 0xFFFFFFFFFFFFFFFF
  blank : ∀ valId, ¬ (s.valExecution valId).exists → s.valExecution valId = {} ∧
    ∀ address, s.delegator valId address = {} ∧ ∀ id, s.withdrawalRequest valId address id = {}
  mapped : ∀ address, s.valId address ≠ 0 → (s.valExecution (s.valId address)).exists

theorem Registry.unused (registry : Registry s) : ¬ (s.valExecution (s.lastValId + 1)).exists := by
  rw [registry.known, not_and]
  intro _
  have room := registry.room
  simp only [UInt64.le_iff_toNat_le, UInt64.lt_iff_toNat_lt, UInt64.toNat_add] at *
  simp at *
  omega

theorem blank_pulled {valId : ValId} {address : Address}
    (blank : s.delegator valId address = {}) : s.Pulled valId address := by
  refine ⟨⟨?_, ?_, ?_⟩, ?_, ?_⟩
  · rw [blank]; exact not_active_zero s
  · rw [blank]; exact not_active_zero s
  · rw [blank]; exact fun _ => ⟨rfl, rfl⟩
  · rw [blank]; exact fun staked => absurd rfl staked
  · rw [blank]; exact fun staked => absurd rfl staked

theorem delegate_blank (valId : ValId) (stake : Nat) (address : Address)
    (blank : s.delegator valId address = {}) :
    Holds (delegate revision valId stake address) s
      (fun _ after => s.Joinable valId stake address ∧
        after = s.joined revision valId stake address)
      (fun failure after => failure.expected = true ∧ after.infoLog = s.infoLog) := by
  simp only [delegate, holds_bind, holds_get, holds_failIf, not_not]
  refine ⟨fun _ => ⟨rfl, trivial⟩, fun known => ⟨fun _ => ⟨rfl, trivial⟩, fun large => ?_⟩⟩
  apply (pull_blank valId address blank).mono
  · rintro _ _ rfl
    exact joinDelegation_spec revision valId stake address known large (blank_pulled blank)
  · exact fun _ _ impossible => impossible.elim

theorem precompileAddValidator_spec
    (blank : ∀ address, s.delegator (s.lastValId + 1) address = {}) :
    Binds revision s value (precompileAddValidator crypto revision input value) := by
  simp only [Binds, precompileAddValidator, holds_bind]
  refine decodeU256_decodes.next fun _ rest => ?_
  refine decodeU256_decodes.next fun _ rest => ?_
  refine decodeU256_decodes.next fun _ rest => ?_
  simp only [holds_ofAbi]
  refine ⟨fun message _ => ⟨fun secpSignature _ => ⟨fun blsSignature _ => ?_,
    fun _ _ => .listed rfl rfl⟩, fun _ _ => .listed rfl rfl⟩, fun _ _ => .listed rfl rfl⟩
  simp only [inputConsumed, holds_failIf, holds_get, holds_modify, holds_emit, holds_pure,
    loadChecked_isSome]
  refine passes rfl fun _ => passes rfl fun _ => passes rfl fun large => passes rfl fun _ =>
    passes rfl fun _ => passes rfl fun _ => passes rfl fun _ => passes rfl fun _ =>
    passes rfl fun _ => passes rfl fun fair => passes rfl fun taken => ?_
  have fresh := not_or.mp taken
  refine Holds.mono (delegate_blank revision _ _ _ ?_) ?_ ?_
  · exact blank _
  · rintro _ after ⟨joinable, rfl⟩
    exact .single (.enroll s _ _ _ _ _ _ (not_not.mp fresh.1) (not_not.mp fresh.2)
      (Nat.le_of_not_lt large) (Nat.le_of_not_lt fair) joinable)
  · rintro failure after ⟨expected, silent⟩
    exact .listed expected silent

section

variable (input : Bytes) (value : Nat)

theorem precompileGetDelegator_spec :
    Binds revision s value (precompileGetDelegator input value) := by
  apply nonpayable
  intro _
  simp only [holds_bind]
  refine decodeU64_decodes.next fun valId rest => ?_
  refine decodeAddress_decodes.next fun address rest => ?_
  simp only [inputConsumed, holds_failIf, holds_get, holds_pure]
  refine passes rfl fun _ => ?_
  apply (pull_spec revision valId address).mono
  · rintro _ after ⟨-, moves, -⟩
    exact moves
  · exact fun _ _ failed => failed

theorem getValset_spec (select : State → StorageArray ValId) :
    Binds revision s value (getValset input value select) := by
  apply nonpayable
  intro _
  simp only [holds_bind]
  refine decodeU32_decodes.next fun startIndex rest => ?_
  simp only [inputConsumed, holds_failIf, holds_get, holds_pure]
  exact passes rfl fun _ => passes rfl fun _ => .refl s

theorem precompileGetValidator_spec :
    Binds revision s value (precompileGetValidator input value) := by
  apply nonpayable
  intro _
  simp only [holds_bind]
  refine decodeU64_decodes.next fun valId rest => ?_
  simp only [inputConsumed, holds_failIf, holds_get, holds_pure]
  exact passes rfl fun _ => .refl s

theorem precompileGetDelegations_spec :
    Binds revision s value (precompileGetDelegations revision input value) := by
  apply nonpayable
  intro _
  simp only [holds_bind]
  refine decodeAddress_decodes.next fun delegator rest => ?_
  refine decodeU64_decodes.next fun startValId rest => ?_
  simp only [inputConsumed, holds_failIf, holds_get, holds_pure]
  exact passes rfl fun _ => .refl s

theorem precompileGetDelegators_spec :
    Binds revision s value (precompileGetDelegators revision input value) := by
  apply nonpayable
  intro _
  simp only [holds_bind]
  refine decodeU64_decodes.next fun valId rest => ?_
  refine decodeAddress_decodes.next fun delegator rest => ?_
  simp only [inputConsumed, holds_failIf, holds_get, holds_pure]
  exact passes rfl fun _ => .refl s

theorem precompileGetWithdrawalRequest_spec :
    Binds revision s value (precompileGetWithdrawalRequest input value) := by
  apply nonpayable
  intro _
  simp only [holds_bind]
  refine decodeU64_decodes.next fun valId rest => ?_
  refine decodeAddress_decodes.next fun delegator rest => ?_
  refine decodeU8_decodes.next fun withdrawalId rest => ?_
  simp only [inputConsumed, holds_failIf, holds_get, holds_pure]
  exact passes rfl fun _ => .refl s

end

theorem precompileGetEpoch_spec : Binds revision s value (precompileGetEpoch value) := by
  apply nonpayable
  intro _
  exact .refl s

theorem precompileGetProposerValId_spec :
    Binds revision s value (precompileGetProposerValId value) := by
  apply nonpayable
  intro _
  exact .refl s

theorem precompileFallback_spec : Binds revision s value precompileFallback := by
  exact .listed rfl rfl

theorem precompileMethod_spec (signature : Nat) (input : Bytes) (sender : Address) (value : Nat)
    (registry : Registry s) (different : sender ≠ stakingCa) :
    Binds revision s value ((precompileMethod crypto revision signature).1 input sender value) := by
  unfold precompileMethod
  split
  · exact precompileAddValidator_spec revision crypto input value
      fun address => ((registry.blank _ registry.unused).2 address).1
  · exact precompileDelegate_spec revision input sender value
  · exact precompileUndelegate_spec revision input sender value
  · exact precompileCompound_spec revision input sender value
  · exact precompileWithdraw_spec revision input sender value different
  · exact precompileClaimRewards_spec revision input sender value different
  · exact precompileChangeCommission_spec revision input sender value
  · exact precompileExternalReward_spec revision input sender value
  · exact precompileGetEpoch_spec revision value
  · split
    · exact precompileGetProposerValId_spec revision value
    · exact precompileFallback_spec revision value
  · exact precompileGetValidator_spec revision input value
  · exact precompileGetDelegator_spec revision input value
  · exact precompileGetWithdrawalRequest_spec revision input value
  · exact getValset_spec revision input value _
  · exact getValset_spec revision input value _
  · exact getValset_spec revision input value _
  · exact precompileGetDelegations_spec revision input value
  · exact precompileGetDelegators_spec revision input value
  · exact precompileFallback_spec revision value

theorem precompileDispatch_spec (calldata input : Bytes) (sender : Address) (value : Nat)
    (registry : Registry s) (different : sender ≠ stakingCa) :
    Binds revision s value
      ((precompileDispatch crypto revision calldata).1 input sender value) := by
  unfold precompileDispatch
  split
  · exact precompileFallback_spec revision value
  · exact precompileMethod_spec revision crypto _ input sender value registry different

theorem checkCallPrecompile_spec (message : Message) (registry : Registry s) :
    Holds (checkCallPrecompile crypto revision message) s
      (fun _ after => Moves revision 0 s after) (Failed revision s) := by
  simp only [checkCallPrecompile, holds_bind, holds_addToBalance]
  refine ⟨fun _ => ?_, fun _ => .listed rfl rfl⟩
  have credited : Moves revision message.value s _ :=
    (Path.single (.balances s (update s.balance stakingCa
      (s.balance stakingCa + message.value)))).relabel (by simp)
  have nonneg : (0 : Int) ≤ message.value := Int.natCast_nonneg _
  split
  · rw [holds_throw]
    exact .later nonneg credited (.listed rfl rfl)
  · split
    · rw [holds_throw]
      exact .later nonneg credited (.listed rfl rfl)
    · refine (precompileDispatch_spec revision crypto message.input _ message.sender message.value
        ?_ message.notSelf).mono ?_ ?_
      · exact ⟨registry.known, registry.room, registry.blank, registry.mapped⟩
      · intro _ after bound
        exact (credited.trans bound).relabel (Int.add_right_neg _)
      · intro failure after failed
        exact failed.later nonneg credited

theorem holds_creditCommission {returns : Unit → State → Prop} {fails : Failure → State → Prop}
    (valId : ValId) (commission : Nat) :
    Holds (creditCommission valId commission) s returns fails ↔
      ((s.delegator valId (s.valExecution valId).authAddress).rewards + commission < 2 ^ 256 →
        returns () (s.commissionCredited valId commission)) ∧
      (¬ (s.delegator valId (s.valExecution valId).authAddress).rewards + commission < 2 ^ 256 →
        fails (.math .overflow) s) := by
  simp only [creditCommission, holds_bind, holds_get, holds_checkedAdd, holds_modify]
  rfl

theorem commissionCredited_thisEpochView (s : State) (valId other : ValId) (commission : Nat) :
    (s.commissionCredited valId commission).thisEpochView other = s.thisEpochView other := rfl

theorem rewarded_thisEpochView (s : State) (valId other : ValId) («from» : Address) (reward : Nat) :
    (s.rewarded valId «from» reward).thisEpochView other = s.thisEpochView other := rfl

theorem syscallReward_spec (rawReward : Nat) (registry : Registry s) :
    Holds (syscallReward revision input rawReward) s
      (fun _ after => Moves revision 0 s after) (Failed revision s) := by
  simp only [syscallReward, holds_bind]
  refine (fixed_decodes 20).next fun author rest => ?_
  simp only [holds_failIf, holds_get, loadChecked_isNone, mintTokens, holds_addToBalance,
    holds_ofMath (splitCommission _ _), holds_creditCommission, holds_onlyIf, holds_modify]
  refine passes rfl fun _ => passes rfl fun mapped => passes rfl fun active =>
    ⟨fun _ => ⟨?_, ?_⟩, fun _ => .listed rfl rfl⟩
  · rintro ⟨commission, delReward⟩ split
    have shares := (splitCommission_ok split).1
    have known := registry.mapped _ mapped
    refine ⟨fun _ => ?_, fun _ => .listed rfl rfl⟩
    have minted : Moves revision rawReward s _ :=
      (Path.single (.balances s (update s.balance stakingCa
        (s.balance stakingCa + rawReward)))).relabel (by simp)
    have credited := minted.trans (.single (.commission _ _ commission known))
    refine Holds.mono (applyReward_spec _ systemSender delReward _ rfl active) ?_ ?_
    · rintro _ after rfl
      have rewarded := (credited.trans (.single (.reward _ _ systemSender delReward known
        active))).relabel (show _ = (0 : Int) by omega)
      refine ⟨fun _ => ?_, fun _ => rewarded⟩
      refine rewarded.trans (.single (.propose _ _ (.inr ?_)))
      rw [rewarded_thisEpochView, commissionCredited_thisEpochView]
      exact active
    · rintro failure after ⟨rfl, -, silent⟩
      exact .listed rfl silent
  · intro error failure
    rcases splitCommission_error failure with ⟨rfl, high⟩ | ⟨rfl, _⟩
    · exact .here (.overcharged high) rfl
    · exact .listed rfl rfl

inductive DistributionFails (s : State) (fees : Nat) : Failure → Prop
  | unknown (absent : ¬ (s.valExecution s.proposerValId).exists) :
      DistributionFails s fees (.staking .unknownValidator)
  | inactive (known : (s.valExecution s.proposerValId).exists)
      (idle : (s.thisEpochView s.proposerValId).stake = 0) :
      DistributionFails s fees (.staking .notInValidatorSet)
  | overcharged (high : mon < (s.thisEpochView s.proposerValId).commission) :
      DistributionFails s fees (.math .underflow)
  | overflow (large : 2 ^ 256 ≤ fees * (s.thisEpochView s.proposerValId).commission ∨
      (∃ commission ≤ fees, 2 ^ 256 ≤ (s.delegator s.proposerValId
        (s.valExecution s.proposerValId).authAddress).rewards + commission) ∨
      ∃ reward ≤ fees, RewardOverflows s s.proposerValId reward) :
      DistributionFails s fees (.math .overflow)

theorem distributeToProposer_spec (fees : Nat) (credited : fees ≤ s.balance stakingCa) :
    Holds (distributeToProposer fees) s
      (fun _ after => Moves revision (-fees) s after ∧ (s.valExecution s.proposerValId).exists)
      (fun failure after => DistributionFails s fees failure ∧ after.infoLog = s.infoLog) := by
  simp only [distributeToProposer, holds_bind, holds_get, holds_failIf,
    holds_ofMath (splitCommission _ _),
    holds_creditCommission, not_not]
  refine ⟨fun absent => ⟨.unknown absent, trivial⟩, fun known =>
    ⟨fun idle => ⟨.inactive known idle, trivial⟩, fun active => ⟨?_, ?_⟩⟩⟩
  · rintro ⟨commission, delReward⟩ split
    have shares := (splitCommission_ok split).1
    refine ⟨fun _ => ?_, fun large => ⟨.overflow (.inr (.inl ⟨commission, by omega,
      Nat.le_of_not_lt large⟩)), trivial⟩⟩
    have paid : Moves revision (-commission) s _ :=
      .single (.commission s s.proposerValId commission known)
    rw [holds_ite]
    constructor
    · intro _
      rw [holds_subtractFromBalance]
      refine ⟨fun covered => ?_, fun short => absurd (le_trans (by omega) credited) short⟩
      refine ⟨(paid.trans (.single (.balances _ _))).relabel ?_, known⟩
      rw [update_self]
      push_cast [covered]
      omega
    · intro _
      refine Holds.mono (applyReward_spec _ priorityFeeDistAddress delReward _ rfl active) ?_ ?_
      · rintro _ after rfl
        exact ⟨(paid.trans (.single (.reward _ _ priorityFeeDistAddress delReward known
          active))).relabel (by omega), known⟩
      · rintro failure after ⟨rfl, large, silent⟩
        exact ⟨.overflow (.inr (.inr ⟨delReward, by omega, large⟩)), silent⟩
  · intro error failure
    rcases splitCommission_error failure with ⟨rfl, high⟩ | ⟨rfl, large⟩
    · exact ⟨.overcharged high, trivial⟩
    · exact ⟨.overflow (.inl large), trivial⟩

def State.feesCredited (s : State) : State :=
  { s.drained with
    balance := Function.update s.drained.balance stakingCa
      (s.balance stakingCa + s.balance priorityFeeDistAddress) }

theorem distAddress_ne_stakingCa : stakingCa ≠ priorityFeeDistAddress := by decide

theorem drained_moves (s : State) : Moves revision 0 s s.drained := by
  have moved : Moves revision _ s _ := .single (.balances s s.drained.balance)
  refine moved.relabel ?_
  simp [State.drained, update_of_ne distAddress_ne_stakingCa]

theorem creditAndDistribute_spec :
    Holds (creditAndDistribute (s.balance priorityFeeDistAddress)) s.drained
      (fun _ after => Moves revision 0 s after ∧ (s.valExecution s.proposerValId).exists)
      (fun failure after => after.infoLog = s.infoLog ∧
        (failure = .assertion "balance overflow" ∧
            2 ^ 256 ≤ s.balance stakingCa + s.balance priorityFeeDistAddress ∨
          DistributionFails s.feesCredited (s.balance priorityFeeDistAddress) failure)) := by
  have kept : s.drained.balance stakingCa = s.balance stakingCa := by
    simp [State.drained, update_of_ne distAddress_ne_stakingCa]
  simp only [creditAndDistribute, holds_bind, holds_addToBalance, kept]
  refine ⟨fun _ => ?_, fun large => ⟨rfl, .inl ⟨trivial, Nat.le_of_not_lt large⟩⟩⟩
  have credited : Moves revision (s.balance priorityFeeDistAddress) s s.feesCredited := by
    have moved := (drained_moves revision s).trans (.single (.balances _ s.feesCredited.balance))
    refine moved.relabel ?_
    simp [State.feesCredited, kept]
  refine Holds.mono (Holds.from_eq s.feesCredited rfl
    (distributeToProposer_spec revision _ ?_)) ?_ ?_
  · simp [State.feesCredited]
  · rintro _ after ⟨bound, known⟩
    exact ⟨(credited.trans bound).relabel (Int.add_right_neg _), known⟩
  · rintro failure after ⟨failed, silent⟩
    exact ⟨silent, .inr failed⟩

theorem distributePriorityFees_spec :
    Holds distributePriorityFees s
      (fun _ after => Moves revision 0 s after ∧
        ((s.valExecution s.proposerValId).exists ∨ after = s.drained))
      (fun failure after => after.infoLog = s.infoLog ∧
        (failure = .assertion "balance overflow" ∧
            2 ^ 256 ≤ s.balance stakingCa + s.balance priorityFeeDistAddress ∨
          failure = .assertion "fee distribution error" ∧
            ∃ cause, cause ≠ .staking .unknownValidator ∧
              DistributionFails s.feesCredited (s.balance priorityFeeDistAddress) cause)) := by
  have distribution := creditAndDistribute_spec (s := s) revision
  by_cases none : s.balance priorityFeeDistAddress = 0
  · have same : s.drained = s := by
      rw [State.drained, ← none, update_eq_self]
    simp only [Holds, distributePriorityFees, none, if_true]
    exact ⟨.refl s, .inr same.symm⟩
  · cases result : creditAndDistribute (s.balance priorityFeeDistAddress) s.drained with
    | ok _ after =>
      simp only [Holds, distributePriorityFees, none, if_false, result] at distribution ⊢
      exact ⟨distribution.1, .inl distribution.2⟩
    | error failure failed =>
      simp only [Holds, distributePriorityFees, none, if_false, result] at distribution ⊢
      obtain ⟨silent, ⟨rfl, large⟩ | fails⟩ := distribution
      · exact ⟨silent, .inl ⟨rfl, large⟩⟩
      · cases fails with
        | unknown absent =>
          have same : { s.drained with infoLog := failed.infoLog } = s.drained := by
            rw [silent]
            rfl
          exact ⟨same ▸ drained_moves revision s, .inr same⟩
        | inactive known idle =>
          exact ⟨silent, .inr ⟨rfl, _, by decide, .inactive known idle⟩⟩
        | overcharged high => exact ⟨silent, .inr ⟨rfl, _, by decide, .overcharged high⟩⟩
        | overflow large => exact ⟨silent, .inr ⟨rfl, _, by decide, .overflow large⟩⟩

theorem removeAll_spec (indices : List Nat) (bound : indices.length ≤ s.valsetExecution.length) :
    Holds (removeAll indices) s (fun _ after => after = s.removedAll indices)
      (fun _ _ => False) := by
  induction indices generalizing s with
  | nil => exact rfl
  | cons index rest ih =>
    simp only [removeAll, removeFromExecution, holds_bind, holds_get, holds_modify,
      holds_assertThrow]
    refine ⟨fun _ => ?_, fun empty => empty (Nat.lt_of_lt_of_le (Nat.succ_pos _) bound)⟩
    apply ih
    have shorter : (s.valsetExecution.swapRemove index).length =
        s.valsetExecution.length - 1 := rfl
    simp only [State.removeFromValset, shorter]
    rw [List.length_cons] at bound
    omega

theorem removals_le (s : State) :
    s.removals.reverse.length ≤ s.rotateViews.valsetExecution.length := by
  rw [List.length_reverse]
  exact (List.length_filter_le ..).trans (List.length_range ..).le

theorem syscallSnapshot_spec :
    Holds (syscallSnapshot input value) s
      (fun _ after => Moves revision 0 s after) (Failed revision s) := by
  simp only [syscallSnapshot, holds_bind, holds_failIf, holds_get, holds_modify]
  refine passes rfl fun _ => passes rfl fun _ => passes rfl fun first => ?_
  apply (removeAll_spec s.removals.reverse (removals_le s)).mono
  · rintro _ after rfl
    exact .single (.snapshot s (Bool.eq_false_of_not_eq_true first))
  · exact fun _ _ impossible => impossible.elim

theorem syscallOnEpochChange_spec :
    Holds (syscallOnEpochChange input value) s
      (fun _ after => ∃ nextEpoch, s.epoch < nextEpoch ∧ nextEpoch < 2 ^ 64 ∧
        after = (s.logged (.epochChanged s.epoch nextEpoch)).enterEpoch nextEpoch)
      (Failed revision s) := by
  simp only [syscallOnEpochChange, holds_bind, holds_failIf]
  refine passes rfl fun _ => ?_
  rw [holds_ofAbi]
  constructor
  · rintro ⟨nextEpoch, rest⟩ decoded
    have fits := abiDecodeFixed_lt (by decide) decoded
    exact passes rfl fun _ => passes rfl fun later => ⟨nextEpoch, Nat.lt_of_not_le later, fits, rfl⟩
  · exact fun _ _ => .listed rfl rfl

inductive Transition (revision : MonadRevision) : State → State → Prop
  | actions {before after : State} (moves : Moves revision 0 before after) :
      Transition revision before after
  | epochChange (before : State) (nextEpoch : Nat) (later : before.epoch < nextEpoch)
      (fits : nextEpoch < 2 ^ 64) :
      Transition revision before
        ((before.logged (.epochChanged before.epoch nextEpoch)).enterEpoch nextEpoch)

theorem execute_spec (operation : Operation) (registry : Registry s) :
    Holds (operation.execute crypto revision) s
      (fun _ after => Transition revision s after) (Failed revision s) := by
  cases operation with
  | call message =>
    simp only [Operation.execute, holds_bind, holds_pure]
    exact (checkCallPrecompile_spec revision crypto message registry).mono
      (fun _ _ moves => .actions moves) (fun _ _ failed => failed)
  | syscall calldata value =>
    simp only [Operation.execute, executeStakingSyscall, holds_bind, holds_failIf]
    refine passes rfl fun _ => ?_
    split
    · exact (syscallReward_spec revision _ value registry).mono
        (fun _ _ moves => .actions moves) (fun _ _ failed => failed)
    · exact (syscallSnapshot_spec revision _ value).mono
        (fun _ _ moves => .actions moves) (fun _ _ failed => failed)
    · apply (syscallOnEpochChange_spec revision _ value).mono
      · rintro _ after ⟨nextEpoch, later, fits, rfl⟩
        exact .epochChange s nextEpoch later fits
      · exact fun _ _ failed => failed
    · rw [holds_throw]
      exact .listed rfl rfl
  | blockPrelude =>
    simp only [Operation.execute, executeBlockPrelude, holds_onlyIf, holds_modify]
    exact ⟨fun _ => .actions (.single (.propose s 0 (.inl rfl))), fun _ => .actions (.refl s)⟩
  | distributePriorityFees =>
    apply (distributePriorityFees_spec revision).mono
    · exact fun _ _ distributed => .actions distributed.1
    · rintro failure after ⟨silent, ⟨rfl, -⟩ | ⟨rfl, -⟩⟩
      · exact .listed rfl silent
      · exact .listed rfl silent
  | otherBalances balance =>
    have moved : Moves revision _ s _ := .single (.balances s
      (update balance stakingCa (s.balance stakingCa)))
    exact .actions (moved.relabel (by simp))

/-- A step is a transition, or a failure with a reason that is undone. -/
theorem step_cases (operation : Operation) (registry : Registry s) :
    Transition revision s (step crypto revision operation s) ∨
      ∃ failure failed, operation.execute crypto revision s = .error failure failed ∧
        Failed revision s failure failed ∧
        step crypto revision operation s = { s with infoLog := failed.infoLog } := by
  have spec := execute_spec revision crypto operation registry
  cases result : operation.execute crypto revision s with
  | ok _ after =>
    left
    simp only [step, result]
    exact spec.of_ok result
  | error failure failed =>
    right
    exact ⟨failure, failed, rfl, spec.of_error result, by simp only [step, result]⟩

end MonadChain.Staking
