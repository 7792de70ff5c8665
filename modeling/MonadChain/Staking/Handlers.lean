import MonadChain.Staking.Settle

/-!
Each precompile method is a sequence of actions. The lemmas here run the source
code of a method once; every later result about a method goes through them.
-/

namespace MonadChain.Staking

open Maps Outcome State Function

variable (revision : MonadRevision) {s : State} {returns : Unit → State → Prop}
  {fails : Failure → State → Prop}

variable {valId : ValId} {address : Address} {Key Ptr : Type} (input : Bytes) (msgSender : Address)
  (value : Nat)

theorem pulled_keeps (invariant : State → Prop)
    (promoted : ∀ s, invariant s → invariant (s.promoted valId address))
    (compounded : ∀ s, invariant s → invariant (s.compounded valId address))
    (settled : ∀ s, invariant s → invariant (s.settled valId address))
    (holds : invariant s) : invariant (s.pulled valId address) := by
  have ready : invariant (s.readied valId address) := by
    unfold readied
    split
    · exact promoted s holds
    · exact holds
  have pending : invariant ((s.readied valId address).compoundedPending valId address) := by
    simp only [compoundedPending]
    split <;> split
    · exact compounded _ (compounded _ ready)
    · exact compounded _ ready
    · exact compounded _ ready
    · exact ready
  simp only [pulled]
  split
  · exact settled _ pending
  · exact pending

theorem pulled_withdrawalRequest (s : State) (valId : ValId) (address : Address) :
    (s.pulled valId address).withdrawalRequest = s.withdrawalRequest := by
  apply pulled_keeps fun t => t.withdrawalRequest = s.withdrawalRequest
  · exact fun _ same => same
  · exact fun _ same => same
  · exact fun _ same => same
  · rfl

theorem payFromPool_authAddress (s : State) (valId other : ValId) (address : Address)
    (rewards : Nat) : ((s.payFromPool valId address rewards).valExecution other).authAddress =
      (s.valExecution other).authAddress := by
  by_cases same : other = valId
  · subst same
    simp [payFromPool]
  · simp [payFromPool, same]

theorem pulled_authAddress (s : State) (valId other : ValId) (address : Address) :
    ((s.pulled valId address).valExecution other).authAddress =
      (s.valExecution other).authAddress := by
  apply pulled_keeps fun t =>
    (t.valExecution other).authAddress = (s.valExecution other).authAddress
  · exact fun _ same => same
  · intro t same
    exact (payFromPool_authAddress _ valId other address _).trans same
  · intro t same
    exact (payFromPool_authAddress _ valId other address _).trans same
  · rfl

theorem holds_addPendingStake (valId : ValId) (stake : Nat) (address : Address) :
    Holds (addPendingStake valId stake address) s returns fails ↔
      ((s.delegator valId address).pendingStake s.inEpochDelayPeriod + stake < 2 ^ 256 →
        returns () (s.withPending valId stake address)) ∧
      (¬ (s.delegator valId address).pendingStake s.inEpochDelayPeriod + stake < 2 ^ 256 →
        fails (.math .overflow) s) := by
  simp only [addPendingStake, holds_bind, holds_get, holds_ite, holds_checkedAdd, holds_modify,
    holds_onlyIf]
  by_cases delay : s.inEpochDelayPeriod = true
  · by_cases fresh : (s.delegator valId address).nextDeltaEpoch = 0 <;>
      simp [delay, fresh, withPending, referenced, updateDelegator, Delegator.pendingStake,
        Delegator.pendingEpoch, Delegator.withPending, incrementAccumulatorRefcount,
          getActivationEpoch]
  · by_cases fresh : (s.delegator valId address).deltaEpoch = 0 <;>
      simp [delay, fresh, withPending, referenced, updateDelegator, Delegator.pendingStake,
        Delegator.pendingEpoch, Delegator.withPending, incrementAccumulatorRefcount,
          getActivationEpoch]

theorem enterValset_eq (s : State) (valId : ValId) : s.enterValset valId = { s with
        valsetExecution := s.valsetAfter valId (s.valExecution valId).flags
        valBitsetBucket := s.bitsetAfter valId (s.valExecution valId).flags } := by
  by_cases ok : (s.valExecution valId).flags = validatorFlagsOk
  · by_cases unset : s.valBitsetBucket (bucketOf valId) &&& maskOf valId = 0
    · simp [enterValset, valsetAfter, bitsetAfter, addToValset, if_pos ok, unset]
    · simp only [enterValset, valsetAfter, bitsetAfter, addToValset, if_pos ok, unset, and_false,
        decide_false, Bool.false_eq_true, if_false]
  · simp [enterValset, valsetAfter, bitsetAfter, ok]

theorem reportStatus_eq (s before : State) (valId : ValId) : s.reportStatus before valId = { s with
        logs := s.logs ++ statusReport valId (before.valExecution valId).flags
          (s.valExecution valId).flags } := by
  unfold reportStatus statusReport
  by_cases same : (s.valExecution valId).flags = (before.valExecution valId).flags <;> simp [same]

theorem holds_addValidatorStake (valId : ValId) (stake : Nat) (address : Address) :
    Holds (addValidatorStake revision valId stake address) s returns fails ↔
      ((s.valExecution valId).stake + stake < 2 ^ 256 →
        returns () (s.withValidatorStake revision valId stake address)) ∧
      (¬ (s.valExecution valId).stake + stake < 2 ^ 256 → fails (.math .overflow) s) := by
  simp only [addValidatorStake, holds_bind, holds_get, holds_checkedAdd, holds_modify,
    updateValidator, reportStatus_eq, enterValset_eq, update_self,
    update_idem, withValidatorStake]
  rfl

theorem holds_linkedListInsert [DecidableEq Ptr] (T : LinkedListTrait Key Ptr)
    (key : Key) (thisPtr : Ptr) : Holds (linkedListInsert T key thisPtr) s returns fails ↔
      (thisPtr = T.empty ∨ thisPtr = T.sentinel → fails (.staking .invalidInput) s) ∧
      (¬ (thisPtr = T.empty ∨ thisPtr = T.sentinel) →
        returns () { s with listNode := T.insert s.listNode key thisPtr }) := by
  simp [linkedListInsert]

theorem joinDelegation_spec (valId : ValId) (stake : Nat) (address : Address)
    (known : (s.valExecution valId).exists) (large : ¬ stake < dustThreshold)
    (pulled : s.Pulled valId address) :
    Holds (joinDelegation revision valId stake address) s
      (fun _ after => s.Joinable valId stake address ∧
        after = s.joined revision valId stake address)
      (fun failure after => failure.expected = true ∧ after.infoLog = s.infoLog) := by
  simp only [joinDelegation, holds_bind, holds_get, holds_addPendingStake, holds_emit,
    holds_addValidatorStake, holds_linkedListInsert]
  refine ⟨fun pendingFits => ⟨fun stakeFits => ⟨fun _ => ⟨rfl, rfl⟩, fun entry =>
    ⟨fun _ => ⟨rfl, rfl⟩, fun key => ⟨?_, rfl⟩⟩⟩, fun _ => ⟨rfl, rfl⟩⟩, fun _ => ⟨rfl, trivial⟩⟩
  exact {
    known := known
    large := Nat.le_of_not_lt large
    pulled := pulled
    pendingFits := pendingFits
    stakeFits := stakeFits
    address := not_or.mp entry
    validator := not_or.mp key }

theorem delegate_spec (valId : ValId) (stake : Nat) (address : Address) :
    Holds (delegate revision valId stake address) s
      (fun _ after => Moves revision (-stake) s after) (Failed revision s) := by
  simp only [delegate, holds_bind, holds_get, holds_failIf, not_not]
  refine ⟨fun _ => .listed rfl rfl, fun known => ⟨fun _ => .listed rfl rfl, fun large => ?_⟩⟩
  apply (pull_spec revision valId address).mono
  · rintro _ middle ⟨same, moves, pulled⟩
    have knownStill : (middle.valExecution valId).exists := by
      unfold ValExecution.exists at known ⊢
      rwa [same, pulled_authAddress]
    apply (joinDelegation_spec revision valId stake address knownStill large pulled).mono
    · rintro _ after ⟨joinable, rfl⟩
      simpa using moves.trans (.single (.join middle valId stake address joinable))
    · rintro failure after ⟨expected, silent⟩
      exact .later le_rfl moves (.listed expected silent)
  · exact fun _ _ failed => failed

theorem readied_blank (blank : s.delegator valId address = {}) : s.readied valId address = s := by
  have same : promoteDelta (s.delegator valId address) = s.delegator valId address := by
    rw [blank]
    rfl
  unfold readied promoted updateDelegator
  rw [same, update2_eq_self, ite_self]

theorem pull_blank (valId : ValId) (address : Address) (blank : s.delegator valId address = {}) :
    Holds (pullDelegatorUpToDate valId address) s (fun _ after => after = s)
      (fun _ _ => False) := by
  rw [holds_pull, readied_blank blank]
  simp [compoundPending, blank, not_active_zero]

/-! Methods. The value of a call is freed before the method runs. -/

abbrev Binds (s : State) (value : Nat) (method : Contract Bytes) : Prop :=
  Holds method s (fun _ after => Moves revision (-value) s after) (Failed revision s)

theorem nonpayable {value : Nat} {method : Contract Bytes}
    (free : value = 0 → Holds method s (fun _ after => Moves revision 0 s after)
      (Failed revision s)) :
    Binds revision s value (do functionNotPayable value; method) := by
  simp only [Binds, functionNotPayable, holds_bind, holds_failIf, not_not]
  refine ⟨fun _ => .listed rfl rfl, fun zero => ?_⟩
  subst zero
  exact free rfl

theorem precompileDelegate_spec :
    Binds revision s value (precompileDelegate revision input msgSender value) := by
  simp only [Binds, precompileDelegate, holds_bind]
  refine decodeU64_decodes.next fun valId rest => ?_
  simp only [inputConsumed, holds_failIf, holds_onlyIf, holds_pure]
  refine ⟨fun _ => .listed rfl rfl, fun _ => ⟨fun _ => ?_, fun zero => ?_⟩⟩
  · exact delegate_spec revision valId value msgSender
  · rw [not_not.mp zero]
    exact .refl s

theorem splitStake_spec (valStake delStake amount : Nat) :
    Holds (splitStake valStake delStake amount) s
      (fun split after => after = s ∧ split = (split.1, valStake - split.1, delStake - split.1) ∧
        amount ≤ split.1 ∧ split.1 ≤ delStake ∧ split.1 ≤ valStake ∧
        (delStake - split.1 = 0 ∨ dustThreshold ≤ delStake - split.1))
      (fun failure after => after = s ∧
        (failure.expected = true ∨ (failure = .math .underflow ∧ valStake < delStake))) := by
  simp only [splitStake, holds_bind, holds_failIf, holds_checkedSub, holds_checkedAdd, holds_ite,
    holds_pure, true_and]
  refine ⟨fun _ => .inl rfl, fun enough => ⟨fun bounded => ⟨fun covered => ⟨fun dust => ?_,
    fun large => ?_⟩, fun short => absurd (Nat.le_of_not_lt enough) short⟩, fun short => ?_⟩⟩
  · -- dust is swept: the whole stake leaves
    refine ⟨fun _ => ⟨fun rest => ⟨?_, ?_⟩, fun short => ?_⟩, fun _ => .inl rfl⟩
    · simp only [Prod.mk.injEq, true_and]
      omega
    · omega
    · exact .inr (by omega)
  · exact ⟨le_rfl, covered, bounded, .inr (Nat.le_of_not_lt large)⟩
  · exact .inr (by omega)

theorem holds_linkedListRemove [DecidableEq Ptr] (T : LinkedListTrait Key Ptr)
    (key : Key) (thisPtr : Ptr) : Holds (linkedListRemove T key thisPtr) s returns fails ↔
      (thisPtr ≠ T.empty ∧ thisPtr ≠ T.sentinel →
        returns () { s with listNode := T.remove s.listNode key thisPtr }) ∧
      (¬ (thisPtr ≠ T.empty ∧ thisPtr ≠ T.sentinel) →
        fails (.assertion "invalid list entry") s) := by
  simp [linkedListRemove]

def BadEntry (valId : ValId) (address : Address) : Prop :=
  (address = 0 ∨ address = BitVec.allOnes 160) ∨ (valId = 0 ∨ valId = 0xFFFFFFFFFFFFFFFF)

theorem freeDelegator_spec (valId : ValId) (msgSender : Address) :
    Holds (freeDelegator valId msgSender) s (fun _ after => after = s.freed valId msgSender)
      (fun failure after => after.infoLog = s.infoLog ∧
        failure = .assertion "invalid list entry" ∧ BadEntry valId msgSender) := by
  have addressBad : ¬ (msgSender ≠ delegatorList.empty ∧ msgSender ≠ delegatorList.sentinel) →
      BadEntry valId msgSender :=
    fun bad => .inl (by simpa [delegatorList, or_iff_not_imp_left] using bad)
  have validatorBad : ¬ (valId ≠ validatorList.empty ∧ valId ≠ validatorList.sentinel) →
      BadEntry valId msgSender :=
    fun bad => .inr (by simpa [validatorList, or_iff_not_imp_left] using bad)
  simp only [freeDelegator, holds_bind, holds_get, holds_onlyIf, holds_modify,
    holds_linkedListRemove, updateDelegator]
  refine ⟨fun stake => ⟨fun total => ⟨fun _ => ⟨fun _ => ?_, ?_⟩, ?_⟩, fun total => ?_⟩,
    fun stake => ⟨fun total => ⟨fun _ => ⟨fun _ => ?_, ?_⟩, ?_⟩, fun total => ?_⟩⟩
  · simp [freed, stake, total]
  · exact fun bad => ⟨trivial, trivial, validatorBad bad⟩
  · exact fun bad => ⟨trivial, trivial, addressBad bad⟩
  · simp [freed, stake, total]
  · simp [freed, stake, total]
  · exact fun bad => ⟨trivial, trivial, validatorBad bad⟩
  · exact fun bad => ⟨trivial, trivial, addressBad bad⟩
  · simp [freed, stake, total]

theorem bookUndelegation_spec (valId : ValId) (amount : Nat) (withdrawalId : WithdrawalId)
    (msgSender : Address) :
    Holds (bookUndelegation revision valId amount ((s.valExecution valId).stake - amount)
        ((s.delegator valId msgSender).stake - amount) withdrawalId msgSender) s
      (fun _ after => after = s.left revision valId amount withdrawalId msgSender)
      (fun failure after => after.infoLog = s.infoLog ∧
        failure = .assertion "invalid list entry" ∧ BadEntry valId msgSender) := by
  simp only [bookUndelegation, holds_bind, holds_get, holds_emit, holds_modify]
  refine Holds.from_eq _ ?_ (freeDelegator_spec valId msgSender)
  simp [updateValidator, reportStatus_eq, updateDelegator, openWithdrawal, logged,
    incrementAccumulatorRefcount, booked, referenced, getActivationEpoch, ValExecution.setFlags]

theorem undelegate_spec (valId : ValId) (amount : Nat) (withdrawalId : WithdrawalId)
    (msgSender : Address) (positive : amount ≠ 0) :
    Holds (undelegate revision valId amount withdrawalId msgSender) s
      (fun _ after => Moves revision 0 s after) (Failed revision s) := by
  simp only [undelegate, holds_bind, holds_get, holds_failIf, not_not, loadChecked_isSome, ne_eq]
  refine ⟨fun _ => .listed rfl rfl, fun known => ⟨fun _ => .listed rfl rfl, fun fresh => ?_⟩⟩
  apply (pull_spec revision valId msgSender).mono
  · rintro _ middle ⟨rfl, moves, settled⟩
    apply (splitStake_spec _ _ amount).mono
    · rintro ⟨final, valStake, delStake⟩ same ⟨rfl, shares, least, covered, bounded, noDust⟩
      simp only [Prod.mk.injEq, true_and] at shares least covered bounded noDust
      obtain ⟨rfl, rfl⟩ := shares
      have leavable : (s.pulled valId msgSender).Leavable valId final withdrawalId msgSender := {
        known := by
          unfold ValExecution.exists at known ⊢
          rwa [pulled_authAddress]
        fresh := by rwa [pulled_withdrawalRequest]
        pulled := settled
        positive := by omega
        covered := covered
        noDust := noDust
        bounded := bounded }
      apply (bookUndelegation_spec revision valId final withdrawalId msgSender).mono
      · rintro _ after rfl
        simpa using moves.trans (.single (.leave _ valId final withdrawalId msgSender leavable))
      · rintro failure after ⟨silent, rfl, bad⟩
        have staked : ((s.pulled valId msgSender).delegator valId msgSender).stake ≠ 0 := by omega
        exact .later le_rfl moves (.here (.badListEntry staked bad) silent)
    · rintro failure after ⟨rfl, listed | ⟨rfl, short⟩⟩
      · exact .later le_rfl moves (.listed listed rfl)
      · exact .later le_rfl moves (.here (.overdrawn short) rfl)
  · exact fun _ _ failed => failed

theorem precompileUndelegate_spec :
    Binds revision s value (precompileUndelegate revision input msgSender value) := by
  apply nonpayable
  intro _
  simp only [holds_bind]
  refine decodeU64_decodes.next fun valId rest => ?_
  refine decodeU256_decodes.next fun stake rest => ?_
  refine decodeU8_decodes.next fun withdrawalId rest => ?_
  simp only [inputConsumed, holds_failIf, holds_onlyIf, holds_pure]
  refine ⟨fun _ => .listed rfl rfl, fun _ => ⟨fun positive => ?_, fun _ => .refl s⟩⟩
  exact undelegate_spec revision valId stake withdrawalId msgSender positive

theorem precompileCompound_spec :
    Binds revision s value (precompileCompound revision input msgSender value) := by
  apply nonpayable
  intro _
  simp only [holds_bind]
  refine decodeU64_decodes.next fun valId rest => ?_
  simp only [inputConsumed, holds_failIf]
  refine ⟨fun _ => .listed rfl rfl, fun _ => ?_⟩
  apply (pull_spec revision valId msgSender).mono
  · rintro _ middle ⟨-, pull, -⟩
    have taken := pull.trans (.single (.takeRewards middle valId msgSender))
    simp only [countPaid, holds_get, holds_modify, holds_onlyIf, holds_bind, holds_emit, holds_pure]
    constructor
    · intro _
      have logged := taken.trans (.single (.log _
        (.claimRewards valId msgSender (middle.delegator valId msgSender).rewards middle.epoch)))
      refine (delegate_spec revision valId (middle.delegator valId msgSender).rewards
        msgSender).mono ?_ ?_
      · intro _ after moves
        simpa using logged.trans moves
      · intro failure after failed
        exact failed.later (by simp) logged
    · intro zero
      exact taken.relabel (by rw [not_not.mp zero]; rfl)
  · exact fun _ _ failed => failed

theorem sendTokens_spec (recipient : Address) (amount : Nat) (different : recipient ≠ stakingCa) :
    Holds (sendTokens recipient amount) s
      (fun _ after => ∃ balance, after = { s with balance := balance } ∧
        (balance stakingCa : Int) - s.balance stakingCa = -amount)
      (fun failure after => after.infoLog = s.infoLog ∧ (failure.expected = true ∨
        (failure = .assertion "balance underflow" ∧ s.balance stakingCa < amount))) := by
  simp only [sendTokens, holds_bind, holds_addToBalance, holds_subtractFromBalance,
    update_of_ne different.symm]
  refine ⟨fun _ => ⟨fun covered => ⟨_, rfl, ?_⟩, fun short => ⟨trivial, .inr ⟨trivial, ?_⟩⟩⟩,
    fun _ => ⟨trivial, .inl rfl⟩⟩
  · rw [update_self]
    omega
  · exact Nat.lt_of_not_le short

theorem precompileClaimRewards_spec (different : msgSender ≠ stakingCa) :
    Binds revision s value (precompileClaimRewards input msgSender value) := by
  apply nonpayable
  intro _
  simp only [holds_bind]
  refine decodeU64_decodes.next fun valId rest => ?_
  simp only [inputConsumed, holds_failIf]
  refine ⟨fun _ => .listed rfl rfl, fun _ => ?_⟩
  apply (pull_spec revision valId msgSender).mono
  · rintro _ middle ⟨-, pull, -⟩
    simp only [countPaid, holds_get, holds_onlyIf, holds_bind, holds_pure]
    refine ⟨fun _ => ?_, fun _ => pull⟩
    apply (sendTokens_spec msgSender _ different).mono
    · rintro _ sent ⟨balance, rfl, change⟩
      have sent := pull.trans (.single (.balances middle balance))
      have taken := sent.trans (.single (.takeRewards { middle with balance := balance } valId
        msgSender))
      have logged := taken.trans (.single (.log _
        (.claimRewards valId msgSender (middle.delegator valId msgSender).rewards middle.epoch)))
      exact logged.relabel (by simp only [change]; simp)
    · rintro failure after ⟨silent, expected | ⟨rfl, short⟩⟩
      · exact .later le_rfl pull (.listed expected silent)
      · exact .later le_rfl pull (.here (.unfundedRewards short) silent)
  · exact fun _ _ failed => failed

theorem payWithdrawal_spec (valId : ValId) (withdrawalId : WithdrawalId) (msgSender : Address)
    (amount : Nat) (different : msgSender ≠ stakingCa) :
    Holds (payWithdrawal valId withdrawalId msgSender amount) s
      (fun _ after => Moves revision (-amount) s after)
      (fun failure after => after.infoLog = s.infoLog ∧ (failure.expected = true ∨
        (failure = .assertion "withdrawal insolvent" ∧ s.balance stakingCa < amount))) := by
  simp only [payWithdrawal, holds_bind, holds_get, holds_assertThrow, holds_emit]
  refine ⟨fun funded => ?_, fun short => ⟨trivial, .inr ⟨trivial, Nat.lt_of_not_le short⟩⟩⟩
  apply (sendTokens_spec msgSender amount different).mono
  · rintro _ sent ⟨balance, rfl, change⟩
    have paid : Moves revision _ s _ := .single (.balances s balance)
    have logged := paid.trans (.single (.log _
      (.withdraw valId msgSender withdrawalId amount s.epoch)))
    exact logged.relabel (by rw [change, add_zero])
  · rintro failure after ⟨silent, expected | ⟨rfl, short⟩⟩
    · exact ⟨silent, .inl expected⟩
    · exact absurd funded (Nat.not_le_of_lt short)

theorem withdraw_spec (valId : ValId) (withdrawalId : WithdrawalId) (msgSender : Address)
    (different : msgSender ≠ stakingCa) :
    Holds (withdraw valId withdrawalId msgSender) s
      (fun _ after => Moves revision 0 s after) (Failed revision s) := by
  simp only [withdraw, holds_bind, holds_get, holds_failIf, holds_modify, holds_decrement,
    holds_ofMath (calculateRewards _ _ _), countSettlement, holds_rewardInvariant, holds_checkedAdd,
    countPaid,
    loadChecked_isNone, not_not]
  refine ⟨fun _ => .listed rfl rfl, fun used => ⟨fun _ => .listed rfl rfl, fun ready => ?_⟩⟩
  have settlement := Settlement.withdrawal valId msgSender withdrawalId used ready
  -- whatever fails after the decrement fails for a reason in the state before it
  have failed : ∀ {failure : Failure} {after : State}, Fault s failure →
      after.infoLog = (s.dropReference
        (s.withdrawalRequest valId msgSender withdrawalId).epoch valId).infoLog →
      Failed revision s failure after := by
    intro failure after fault same
    refine ⟨0, s, le_rfl, .refl s, fault, ?_⟩
    rw [same]
    exact (dropReference_infoLog s _ valId).imp_right fun empty =>
      .inr ⟨valId, msgSender, withdrawalId, used, empty⟩
  refine ⟨?_, fun error failure => failed ((calculateRewards_fails failure).fault settlement) rfl⟩
  intro rewards computed
  obtain ⟨rfl, ordered⟩ := calculateRewards_ok computed
  refine ⟨fun solvent => ⟨fun _ => ?_, fun _ => failed (.expected rfl) rfl⟩,
    fun short => failed (.insolvent settlement ordered short) rfl⟩
  have withdrawn : Moves revision _ s _ :=
    .single (.withdraw s valId msgSender withdrawalId used ready ordered solvent)
  apply Holds.mono (Holds.from_eq (s.withdrawn valId msgSender withdrawalId) ?_
    (payWithdrawal_spec revision valId withdrawalId msgSender _ different))
  · intro _ after paid
    exact (withdrawn.trans paid).relabel (Int.add_right_neg _)
  · rintro failure after ⟨silent, expected | ⟨rfl, short⟩⟩
    · exact failed (.expected expected) silent
    · exact failed (.unfundedWithdrawal solvent short) silent
  · simp [State.withdrawn, State.rewardsPaid, State.payFromPool, State.updateHistory,
      State.updateValidator, State.dropReference, State.withdrawalRewards, State.held]

theorem precompileWithdraw_spec (different : msgSender ≠ stakingCa) :
    Binds revision s value (precompileWithdraw input msgSender value) := by
  apply nonpayable
  intro _
  simp only [holds_bind]
  refine decodeU64_decodes.next fun valId rest => ?_
  refine decodeU8_decodes.next fun withdrawalId rest => ?_
  simp only [inputConsumed, holds_failIf, holds_pure]
  refine ⟨fun _ => .listed rfl rfl, fun _ => ?_⟩
  exact withdraw_spec revision valId withdrawalId msgSender different

theorem precompileChangeCommission_spec :
    Binds revision s value (precompileChangeCommission input msgSender value) := by
  apply nonpayable
  intro _
  simp only [holds_bind]
  refine decodeU64_decodes.next fun valId rest => ?_
  refine decodeU256_decodes.next fun newCommission rest => ?_
  simp only [inputConsumed, holds_failIf, holds_get, holds_onlyIf, holds_bind, holds_modify,
    holds_emit, holds_pure, not_not]
  refine ⟨fun _ => .listed rfl rfl, fun _ => ⟨fun _ => .listed rfl rfl, fun known =>
    ⟨fun _ => .listed rfl rfl, fun _ => ⟨fun _ => .listed rfl rfl, fun fair =>
      ⟨fun _ => ?_, fun _ => .refl s⟩⟩⟩⟩⟩
  have changed : Moves revision _ s _ :=
    .single (.changeCommission s valId newCommission known (Nat.le_of_not_lt fair))
  have logged := changed.trans (.single (.log _
    (.commissionChanged valId (s.valExecution valId).commission newCommission)))
  exact logged

def RewardOverflows (s : State) (valId : ValId) (reward : Nat) : Prop :=
  2 ^ 256 ≤ reward * unitBias ∨
    2 ^ 256 ≤ (s.valExecution valId).accumulatedRewardPerToken + s.accIncrease valId reward ∨
    2 ^ 256 ≤ (s.valExecution valId).unclaimedRewards + reward

theorem applyReward_spec (valId : ValId) («from» : Address) (reward activeStake : Nat)
    (same : activeStake = (s.thisEpochView valId).stake) (active : activeStake ≠ 0) :
    Holds (applyReward valId «from» reward activeStake) s
      (fun _ after => after = s.rewarded valId «from» reward)
      (fun failure after => failure = .math .overflow ∧ RewardOverflows s valId reward ∧
        after.infoLog = s.infoLog) := by
  subst same
  simp only [applyReward, holds_bind, holds_ofMath (checkedMulDiv _ _ _), holds_get,
    holds_checkedAdd,
    holds_modify, holds_emit]
  refine ⟨fun rewardAcc product => ?_, fun error failure => ?_⟩
  · obtain ⟨rfl, -, -⟩ := checkedMulDiv_ok product
    refine ⟨fun _ => ⟨fun _ => ?_, fun large => ?_⟩, fun large => ?_⟩
    · simp [rewarded, updateValidator, accIncrease]
    · exact ⟨trivial, .inr (.inr (Nat.le_of_not_lt large)), rfl⟩
    · exact ⟨trivial, .inr (.inl (Nat.le_of_not_lt large)), trivial⟩
  · rcases checkedMulDiv_error failure with ⟨rfl, large⟩ | ⟨_, zero⟩
    · exact ⟨rfl, .inl large, trivial⟩
    · exact absurd zero active

theorem precompileExternalReward_spec :
    Binds revision s value (precompileExternalReward input msgSender value) := by
  simp only [Binds, precompileExternalReward, holds_bind]
  refine decodeU64_decodes.next fun valId rest => ?_
  simp only [inputConsumed, holds_failIf, holds_get, holds_pure, not_not]
  refine ⟨fun _ => .listed rfl rfl, fun _ => ⟨fun _ => .listed rfl rfl, fun known =>
    ⟨fun _ => .listed rfl rfl, fun active => ⟨fun _ => .listed rfl rfl, fun _ =>
      ⟨fun _ => .listed rfl rfl, fun _ => ?_⟩⟩⟩⟩⟩
  apply (applyReward_spec valId msgSender value _ rfl active).mono
  · rintro _ after rfl
    exact .single (.reward s valId msgSender value known active)
  · rintro failure after ⟨rfl, -, silent⟩
    exact .listed rfl silent

end MonadChain.Staking
