import MonadChain.Staking.PendingStake
import Mathlib.Algebra.Group.Action.Defs

/-!
Reference counts of the accumulators. The slot of an epoch counts the pending positions and open
withdrawals that wait for it. Slot 0 is used only after the activation epoch has wrapped: there
the source never gives back the reference of a delegation.
-/

namespace MonadChain.Staking

open Maps Outcome Delegator Function Finset

variable {del : Delegator} {id : WithdrawalId} {request : WithdrawalRequest} {other : ValId}
  {val : ValExecution} {slot epoch : Nat} {freed : Int}

/-- A used slot refers to the accumulator of its epoch. Epoch 0 marks an empty
slot. -/
def slotReference (epoch slot : Nat) : Nat := if slot = epoch ∧ epoch ≠ 0 then 1 else 0

def slotStake (slot stake : Nat) : Nat := if slot = 0 then 0 else stake

def Delegator.references (epoch : Nat) (del : Delegator) : Nat :=
  slotReference epoch del.deltaEpoch + slotReference epoch del.nextDeltaEpoch

def WithdrawalRequest.references (epoch : Nat) (request : WithdrawalRequest) : Nat :=
  if request ≠ {} ∧ request.epoch = epoch then 1 else 0

def State.references (s : State) (epoch : Nat) (valId : ValId) : Nat :=
  ∑ address, (s.delegator valId address).references epoch +
    ∑ address, ∑ id, (s.withdrawalRequest valId address id).references epoch

def Delegator.kept (del : Delegator) : Nat :=
  del.stake + slotStake del.deltaEpoch del.deltaStake +
    slotStake del.nextDeltaEpoch del.nextDeltaStake

def State.keptStake (s : State) (valId : ValId) : Nat :=
  ∑ address, (s.delegator valId address).kept

structure References (s : State) : Prop where
  counted : ∀ epoch valId, epoch ≠ 0 →
    (s.accumulatedRewardPerToken epoch valId).refcount = s.references epoch valId
  cleared : ∀ epoch valId, epoch ≠ 0 → s.references epoch valId = 0 →
    s.accumulatedRewardPerToken epoch valId = {}
  wrapped : ∀ valId, ∃ lost, (s.accumulatedRewardPerToken 0 valId).refcount =
    s.references 0 valId + lost ∧
      s.keptStake valId + dustThreshold * lost ≤ (s.valExecution valId).stake
  fits : ∀ valId, (s.valExecution valId).stake < 2 ^ 256

variable {revision : MonadRevision} {regime : Regime} {s t : State} {valId : ValId}
  {address : Address}

def positionReferences (epoch : Nat) (del : Delegator) (request : WithdrawalRequest) : Nat :=
  del.references epoch + request.references epoch

section

variable (delegators : t.delegator = update2 s.delegator valId address del)

include delegators

theorem references_change
    (requests : t.withdrawalRequest = update3 s.withdrawalRequest valId address id request)
    (epoch : Nat) :
    t.references epoch valId + positionReferences epoch (s.delegator valId address)
        (s.withdrawalRequest valId address id) =
      s.references epoch valId + positionReferences epoch del request := by
  have slots := row_update2 s.delegator (references epoch) valId address del
  have opened := plane_update3 s.withdrawalRequest (WithdrawalRequest.references epoch) valId
    address id request
  unfold State.references positionReferences
  rw [delegators, requests]
  omega

theorem keptStake_change :
    t.keptStake valId + (s.delegator valId address).kept = s.keptStake valId + del.kept := by
  unfold State.keptStake
  rw [delegators]
  exact row_update2 s.delegator kept valId address del

end

theorem references_le (s : State) (epoch : Nat) (valId : ValId) :
    s.references epoch valId ≤ 2 ^ 160 * 258 := by
  have slots : ∑ address, (s.delegator valId address).references epoch ≤ ∑ _ : Address, 2 := by
    apply sum_le_sum
    intro address _
    unfold references slotReference
    split_ifs <;> omega
  have opened : ∑ address, ∑ id, (s.withdrawalRequest valId address id).references epoch ≤
      ∑ _ : Address, ∑ _ : WithdrawalId, 1 := by
    apply sum_le_sum
    intro address _
    apply sum_le_sum
    intro id _
    unfold WithdrawalRequest.references
    split_ifs <;> omega
  have addresses : Fintype.card Address = 2 ^ 160 :=
    FinEnum.card_eq_fintypeCard.symm.trans (FinEnum.card_bitVec 160)
  have ids : Fintype.card WithdrawalId = 2 ^ 8 :=
    FinEnum.card_eq_fintypeCard.symm.trans FinEnum.card_UInt8
  simp only [sum_const, card_univ, addresses, ids, smul_eq_mul] at slots opened
  unfold State.references
  omega

namespace References

structure At (s : State) (valId : ValId) : Prop where
  counted : ∀ epoch, epoch ≠ 0 →
    (s.accumulatedRewardPerToken epoch valId).refcount = s.references epoch valId
  cleared : ∀ epoch, epoch ≠ 0 → s.references epoch valId = 0 →
    s.accumulatedRewardPerToken epoch valId = {}
  wrapped : ∃ lost, (s.accumulatedRewardPerToken 0 valId).refcount =
    s.references 0 valId + lost ∧
      s.keptStake valId + dustThreshold * lost ≤ (s.valExecution valId).stake
  fits : (s.valExecution valId).stake < 2 ^ 256

theorem one (inv : References s) (valId : ValId) : At s valId :=
  ⟨(inv.counted · valId), (inv.cleared · valId), inv.wrapped valId, inv.fits valId⟩

theorem of_at (each : ∀ valId, At s valId) : References s :=
  ⟨fun epoch valId => (each valId).counted epoch, fun epoch valId => (each valId).cleared epoch,
    fun valId => (each valId).wrapped, fun valId => (each valId).fits⟩

theorem At.congr (inv : At s valId) (delegators : t.delegator valId = s.delegator valId)
    (requests : t.withdrawalRequest valId = s.withdrawalRequest valId)
    (slots : ∀ epoch, (t.accumulatedRewardPerToken epoch valId).refcount =
        (s.accumulatedRewardPerToken epoch valId).refcount ∧
      (s.accumulatedRewardPerToken epoch valId = {} →
        t.accumulatedRewardPerToken epoch valId = {}))
    (stake : (t.valExecution valId).stake = (s.valExecution valId).stake) : At t valId := by
  have counts : ∀ epoch, t.references epoch valId = s.references epoch valId := by
    intro epoch
    unfold State.references
    rw [delegators, requests]
  constructor
  · intro epoch used
    rw [(slots epoch).1, counts]
    exact inv.counted epoch used
  · intro epoch used none
    rw [counts] at none
    exact (slots epoch).2 (inv.cleared epoch used none)
  · unfold State.keptStake
    rw [(slots 0).1, counts, delegators, stake]
    exact inv.wrapped
  · rw [stake]
    exact inv.fits

theorem congr (inv : References s) (delegators : t.delegator = s.delegator)
    (requests : t.withdrawalRequest = s.withdrawalRequest)
    (slots : t.accumulatedRewardPerToken = s.accumulatedRewardPerToken)
    (stakes : ∀ valId, (t.valExecution valId).stake = (s.valExecution valId).stake) :
    References t :=
  of_at fun valId => (inv.one valId).congr (congrFun delegators valId) (congrFun requests valId)
    (fun _ => by rw [slots]; exact ⟨rfl, id⟩) (stakes valId)

/-- One position, its validator and one accumulator slot change together. `lost`
counts references that no position holds. -/
theorem change (inv : References s) (valId : ValId) (address : Address) (id : WithdrawalId)
    (slotEpoch lost : Nat) {slot : RefCountedAccumulator}
    (validators : t.valExecution = update s.valExecution valId val)
    (delegators : t.delegator = update2 s.delegator valId address del)
    (requests : t.withdrawalRequest = update3 s.withdrawalRequest valId address id request)
    (slots : t.accumulatedRewardPerToken = update2 s.accumulatedRewardPerToken slotEpoch valId slot)
    (others : ∀ epoch, epoch ≠ slotEpoch → positionReferences epoch del request =
      positionReferences epoch (s.delegator valId address) (s.withdrawalRequest valId address id))
    (moved : slot.refcount + positionReferences slotEpoch (s.delegator valId address)
        (s.withdrawalRequest valId address id) =
      (s.accumulatedRewardPerToken slotEpoch valId).refcount +
        positionReferences slotEpoch del request + lost) (unnumbered : slotEpoch ≠ 0 → lost = 0)
    (cleared : slotEpoch ≠ 0 → slot.refcount = 0 → slot = {})
    (stake : del.kept + dustThreshold * lost + (s.valExecution valId).stake ≤
      (s.delegator valId address).kept + val.stake)
    (fits : val.stake < 2 ^ 256) : References t := by
  have counts := references_change delegators requests
  have kept := keptStake_change delegators
  have slotHere : t.accumulatedRewardPerToken slotEpoch valId = slot := by
    rw [slots, update2_self]
  have slotThere : ∀ epoch, epoch ≠ slotEpoch → t.accumulatedRewardPerToken epoch valId =
      s.accumulatedRewardPerToken epoch valId := by
    intro epoch different
    rw [slots, update2_outer_ne _ _ _ _ different]
  have valHere : t.valExecution valId = val := by
    rw [validators, update_self]
  refine of_at fun other => ?_
  by_cases here : other = valId
  · subst here
    constructor
    · intro epoch used
      have before := inv.counted epoch other used
      have change := counts epoch
      by_cases hit : epoch = slotEpoch
      · subst hit
        rw [slotHere]
        omega
      · have := others epoch hit
        rw [slotThere epoch hit]
        omega
    · intro epoch used none
      have before := inv.counted epoch other used
      have change := counts epoch
      by_cases hit : epoch = slotEpoch
      · subst hit
        rw [slotHere]
        exact cleared used (by omega)
      · have same := others epoch hit
        rw [slotThere epoch hit]
        exact inv.cleared epoch other used (by omega)
    · obtain ⟨before, count, bound⟩ := inv.wrapped other
      have change := counts 0
      rw [valHere]
      by_cases hit : slotEpoch = 0
      · subst hit
        rw [slotHere]
        refine ⟨before + lost, by omega, ?_⟩
        rw [Nat.mul_add]
        omega
      · have := unnumbered hit
        have same := others 0 (Ne.symm hit)
        rw [slotThere 0 (Ne.symm hit)]
        exact ⟨before, by omega, by omega⟩
    · rw [valHere]
      exact fits
  · refine (inv.one other).congr ?_ ?_ (fun epoch => ?_) ?_
    · rw [delegators, update2_other _ _ _ here]
    · rw [requests, update3_other _ _ _ _ here]
    · rw [slots, update2_inner_ne _ _ _ _ here]
      exact ⟨rfl, fun empty => empty⟩
    · rw [validators, update_of_ne here]

end References

@[simp] theorem slotReference_empty (epoch : Nat) : slotReference epoch 0 = 0 := by
  unfold slotReference
  split_ifs <;> omega

@[simp] theorem slotStake_empty (stake : Nat) : slotStake 0 stake = 0 := rfl

theorem slotStake_used (used : slot ≠ 0) (stake : Nat) :
    slotStake slot stake = stake := if_neg used

theorem slotReference_self (used : epoch ≠ 0) : slotReference epoch epoch = 1 :=
  if_pos ⟨rfl, used⟩

theorem slotReference_other (different : epoch ≠ slot) :
    slotReference epoch slot = 0 := if_neg fun hit => different hit.1.symm

theorem references_promoted (unused : del.deltaEpoch = 0) (epoch : Nat) :
    (promoteDelta del).references epoch = del.references epoch := by
  simp [references, promoteDelta, unused]

theorem kept_promoted (unused : del.deltaEpoch = 0) : (promoteDelta del).kept = del.kept := by
  simp [kept, promoteDelta, unused]

theorem references_compounded (s : State) (valId : ValId) (address : Address) (epoch : Nat) :
    (s.compoundedRecord valId address).references epoch +
        slotReference epoch (s.delegator valId address).deltaEpoch =
      (s.delegator valId address).references epoch := by
  simp [State.compoundedRecord, references, promoteDelta, Nat.add_comm]

theorem kept_compounded (used : (s.delegator valId address).deltaEpoch ≠ 0) :
    (s.compoundedRecord valId address).kept = (s.delegator valId address).kept := by
  simp [State.compoundedRecord, kept, promoteDelta, slotStake_used used]

theorem references_withPending (del : Delegator) (delay : Bool) (stake activation epoch : Nat) :
    (del.withPending delay stake activation).references epoch +
        slotReference epoch (del.pendingEpoch delay) =
      del.references epoch + slotReference epoch activation := by
  cases delay
  · simp only [references, withPending, pendingEpoch, Bool.false_eq_true, ↓reduceIte]
    omega
  · simp only [references, withPending, pendingEpoch, ↓reduceIte]
    omega

theorem kept_withPending (del : Delegator) (delay : Bool) (stake activation : Nat) :
    (del.withPending delay stake activation).kept +
        slotStake (del.pendingEpoch delay) (del.pendingStake delay) =
      del.kept + slotStake activation (del.pendingStake delay + stake) := by
  cases delay
  · simp only [kept, withPending, pendingEpoch, pendingStake, Bool.false_eq_true, ↓reduceIte]
    omega
  · simp only [kept, withPending, pendingEpoch, pendingStake, ↓reduceIte]
    omega

theorem references_request («open» : request ≠ {}) (epoch : Nat) :
    request.references epoch = if request.epoch = epoch then 1 else 0 := by
  simp [WithdrawalRequest.references, «open»]

theorem references_none (epoch : Nat) : WithdrawalRequest.references epoch {} = 0 := by
  simp [WithdrawalRequest.references]

theorem delegator_references_le (s : State) (epoch : Nat) (valId : ValId) (address : Address) :
    (s.delegator valId address).references epoch ≤ s.references epoch valId :=
  (le_sum (fun address => (s.delegator valId address).references epoch) address).trans
    (Nat.le_add_right _ _)

theorem request_references_le (s : State) (epoch : Nat) (valId : ValId) (address : Address)
    (id : WithdrawalId) :
    (s.withdrawalRequest valId address id).references epoch ≤ s.references epoch valId :=
  ((le_sum (fun id => (s.withdrawalRequest valId address id).references epoch) id).trans
    (le_sum (fun address => ∑ id, (s.withdrawalRequest valId address id).references epoch)
      address)).trans (Nat.le_add_left _ _)

theorem dropped_refcount {acc : RefCountedAccumulator} (used : acc.refcount ≠ 0) :
    acc.dropped.refcount + 1 = acc.refcount ∧ (acc.dropped.refcount = 0 → acc.dropped = {}) := by
  unfold RefCountedAccumulator.dropped RefCountedAccumulator.released
  rw [if_neg used]
  split
  · rename_i last
    exact ⟨by simp only; omega, fun _ => rfl⟩
  · rename_i more
    exact ⟨by simp only; omega, fun none => absurd none more⟩

namespace References

section

variable (inv : References s)

include inv

theorem refcount_ge (epoch : Nat) (valId : ValId) :
    s.references epoch valId ≤ (s.accumulatedRewardPerToken epoch valId).refcount := by
  by_cases zero : epoch = 0
  · obtain ⟨lost, count, -⟩ := inv.wrapped valId
    rw [zero]
    omega
  · exact (inv.counted epoch valId zero).ge

theorem refcount_next (epoch : Nat) (valId : ValId) :
    ((s.accumulatedRewardPerToken epoch valId).refcount + 1) % 2 ^ 256 =
      (s.accumulatedRewardPerToken epoch valId).refcount + 1 := by
  have bound := references_le s epoch valId
  apply Nat.mod_eq_of_lt
  by_cases zero : epoch = 0
  · obtain ⟨lost, count, stake⟩ := inv.wrapped valId
    have fits := inv.fits valId
    have threshold : dustThreshold = 10 ^ 9 := rfl
    rw [zero] at bound ⊢
    rw [threshold] at stake
    omega
  · have := inv.counted epoch valId zero
    omega

theorem delta_held (active : s.isEpochActive (s.delegator valId address).deltaEpoch) :
    (s.accumulatedRewardPerToken (s.delegator valId address).deltaEpoch valId).refcount ≠ 0 := by
  have count := inv.refcount_ge (s.delegator valId address).deltaEpoch valId
  have held := delegator_references_le s (s.delegator valId address).deltaEpoch valId address
  have one : 1 ≤ (s.delegator valId address).references (s.delegator valId address).deltaEpoch := by
    rw [references, slotReference_self active.1]
    exact Nat.le_add_right 1 _
  omega

theorem request_held («open» : s.withdrawalRequest valId address id ≠ {}) :
    (s.accumulatedRewardPerToken
      (s.withdrawalRequest valId address id).epoch valId).refcount ≠ 0 := by
  have count := inv.refcount_ge (s.withdrawalRequest valId address id).epoch valId
  have held := request_references_le s (s.withdrawalRequest valId address id).epoch valId address id
  rw [references_request «open», if_pos rfl] at held
  omega

theorem not_dangling : ¬ Dangling s := by
  rintro (⟨valId, address, active, empty⟩ | ⟨valId, address, id, «open», empty⟩)
  · exact inv.delta_held active empty
  · exact inv.request_held «open» empty

theorem sameSlots (valId : ValId) (address : Address)
    (validators : t.valExecution = update s.valExecution valId val)
    (delegators : t.delegator = update2 s.delegator valId address del)
    (requests : t.withdrawalRequest = s.withdrawalRequest)
    (slots : t.accumulatedRewardPerToken = s.accumulatedRewardPerToken)
    (stake : val.stake = (s.valExecution valId).stake)
    (references : ∀ epoch, del.references epoch = (s.delegator valId address).references epoch)
    (kept : del.kept = (s.delegator valId address).kept) : References t := by
  refine inv.change valId address 0 0 0 validators delegators
    (requests.trans (update3_eq_self s.withdrawalRequest valId address 0).symm)
    (slots.trans (update2_eq_self s.accumulatedRewardPerToken 0 valId).symm) ?_ ?_ ?_ ?_ ?_ ?_
  · intro epoch _
    rw [positionReferences, references]
    rfl
  · rw [positionReferences, positionReferences, references, Nat.add_zero]
  · exact fun used => absurd rfl used
  · exact fun used => absurd rfl used
  · rw [kept, stake]
    omega
  · rw [stake]
    exact inv.fits valId

theorem compounded (active : s.isEpochActive (s.delegator valId address).deltaEpoch) :
    References (s.compounded valId address) := by
  have used := active.1
  obtain ⟨fewer, cleared⟩ := dropped_refcount (inv.delta_held active)
  refine inv.change valId address 0 (s.delegator valId address).deltaEpoch 0 rfl
    (compounded_record s valId address)
    (update3_eq_self s.withdrawalRequest valId address 0).symm rfl ?_ ?_ (fun _ => rfl)
    (fun _ => cleared) ?_ ?_
  · intro epoch different
    have count := references_compounded s valId address epoch
    rw [slotReference_other different] at count
    simp only [positionReferences]
    omega
  · have count := references_compounded s valId address (s.delegator valId address).deltaEpoch
    rw [slotReference_self used] at count
    simp only [positionReferences]
    omega
  · rw [kept_compounded used]
    simp only [State.dropReference]
    omega
  · exact inv.fits valId

theorem withdrawn («open» : s.withdrawalRequest valId address id ≠ {}) :
    References (s.withdrawn valId address id) := by
  obtain ⟨fewer, cleared⟩ := dropped_refcount (inv.request_held «open»)
  refine inv.change valId address id (s.withdrawalRequest valId address id).epoch 0 rfl
    (update2_eq_self s.delegator valId address).symm rfl rfl ?_ ?_ (fun _ => rfl)
    (fun _ => cleared) ?_ ?_
  · intro epoch different
    rw [positionReferences, positionReferences, references_none, references_request «open»,
      if_neg (Ne.symm different)]
  · rw [positionReferences, positionReferences, references_none, references_request «open»,
      if_pos rfl]
    omega
  · simp only [State.dropReference]
    omega
  · exact inv.fits valId

theorem left {amount : Nat} {withdrawalId : WithdrawalId}
    (leavable : s.Leavable valId amount withdrawalId address) :
    References (s.left revision valId amount withdrawalId address) := by
  have positive := leavable.positive
  have covered := leavable.covered
  have fits := inv.fits valId
  have count := inv.refcount_next s.getActivationEpoch valId
  have opened : ({ amount := amount
                   acc := (s.delegator valId address).accumulatedRewardPerToken
                   epoch := s.getActivationEpoch } : WithdrawalRequest) ≠ {} := by
    intro blank
    have : amount = 0 := congrArg WithdrawalRequest.amount blank
    omega
  refine inv.change valId address withdrawalId s.getActivationEpoch 0 rfl
    (left_delegator s valId address amount withdrawalId) rfl rfl ?_ ?_ (fun _ => rfl) ?_ ?_ ?_
  · intro epoch different
    rw [positionReferences, positionReferences, leavable.fresh, references_none,
      references_request opened, if_neg (Ne.symm different)]
    rfl
  · rw [positionReferences, positionReferences, leavable.fresh, references_none,
      references_request opened, if_pos rfl, count]
    have same : (s.reduced valId amount address).references s.getActivationEpoch =
        (s.delegator valId address).references s.getActivationEpoch := rfl
    dsimp only
    omega
  · intro _ empty
    simp only [count] at empty
    omega
  · simp only [State.reduced, kept, ValExecution.setFlags]
    omega
  · simp only [ValExecution.setFlags]
    omega

end

theorem pendingEpoch_cases (schedule : Schedule s) (idle : s.Idle valId address) :
    (s.delegator valId address).pendingEpoch s.inEpochDelayPeriod = 0 ∨
      (s.delegator valId address).pendingEpoch s.inEpochDelayPeriod = s.getActivationEpoch := by
  have scheduled := schedule.delegators valId address
  have deltaFits := scheduled.deltaFits
  have nextFits := scheduled.nextFits
  obtain ⟨delta, next⟩ := idle.slots schedule
  rw [getActivationEpoch_eq]
  unfold pendingEpoch activationDelay
  split
  · rcases next with unused | ⟨used, -⟩
    · exact .inl unused
    · right
      rw [Nat.mod_eq_of_lt (by omega), used]
  · rcases delta with unused | used
    · exact .inl unused
    · right
      rw [Nat.mod_eq_of_lt (by omega), used]

theorem pendingStake_empty (schedule : Schedule s) (idle : s.Idle valId address)
    (unused : (s.delegator valId address).pendingEpoch s.inEpochDelayPeriod = 0)
    (numbered : s.getActivationEpoch ≠ 0) :
    (s.delegator valId address).pendingStake s.inEpochDelayPeriod = 0 := by
  have scheduled := schedule.delegators valId address
  have epochFits := schedule.epochFits
  have deltaFits := scheduled.deltaFits
  obtain ⟨delta, next⟩ := idle.slots schedule
  rw [getActivationEpoch_eq] at numbered
  cases delay : s.inEpochDelayPeriod with
  | true =>
    rw [delay] at unused numbered
    simp only [pendingEpoch, pendingStake, activationDelay, ↓reduceIte]
      at unused numbered ⊢
    rcases scheduled.nextNumbered unused with empty | wrapped
    · exact empty
    · -- at the very last epoch the pull has moved the slot up
      rw [delay] at wrapped
      simp only [Exhausted, activationDelay, ↓reduceIte] at wrapped
      exact (idle.promoted ⟨by omega, by omega⟩).2
  | false =>
    rw [delay] at unused numbered
    simp only [pendingEpoch, pendingStake, activationDelay,
      Bool.false_eq_true, ↓reduceIte] at unused numbered ⊢
    rcases scheduled.deltaNumbered unused with empty | wrapped
    · exact empty
    · rw [delay] at wrapped
      simp only [Exhausted, activationDelay, Bool.false_eq_true, ↓reduceIte] at wrapped
      exact absurd (by rw [show s.epoch + 1 = 2 ^ 64 by omega, Nat.mod_self]) numbered

section

variable (inv : References s)

include inv

theorem joined (schedule : Schedule s) {stake : Nat} (joinable : s.Joinable valId stake address) :
    References (s.joined revision valId stake address) := by
  have large := joinable.large
  have stakeFits := joinable.stakeFits
  have idle := joinable.pulled.toIdle
  have kept := kept_withPending (s.delegator valId address) s.inEpochDelayPeriod stake
    s.getActivationEpoch
  have counts := references_withPending (s.delegator valId address) s.inEpochDelayPeriod stake
    s.getActivationEpoch
  by_cases unused : (s.delegator valId address).pendingEpoch s.inEpochDelayPeriod = 0
  · -- a fresh slot takes a new reference
    have count := inv.refcount_next s.getActivationEpoch valId
    have slots : (s.joined revision valId stake address).accumulatedRewardPerToken =
        s.referenced valId := if_pos unused
    simp only [unused, slotReference_empty] at counts
    refine inv.change valId address 0 s.getActivationEpoch
      (if s.getActivationEpoch = 0 then 1 else 0) rfl rfl
      (update3_eq_self s.withdrawalRequest valId address 0).symm slots ?_ ?_
      (fun numbered => if_neg numbered) ?_ ?_ stakeFits
    · intro epoch different
      have := counts epoch
      rw [slotReference_other different] at this
      simp only [positionReferences]
      omega
    · have := counts s.getActivationEpoch
      simp only [positionReferences, count]
      by_cases numbered : s.getActivationEpoch = 0
      · rw [numbered, slotReference_empty] at this
        rw [numbered, if_pos rfl]
        omega
      · rw [slotReference_self numbered] at this
        rw [if_neg numbered]
        omega
    · intro _ empty
      simp only [count] at empty
      omega
    · simp only [ValExecution.clearFlags, State.logged, State.withPending]
      by_cases numbered : s.getActivationEpoch = 0
      · rw [numbered, slotStake_empty] at kept
        rw [numbered, if_pos rfl]
        omega
      · rw [slotStake_used numbered, pendingStake_empty schedule idle unused numbered] at kept
        rw [if_neg numbered]
        omega
  · have same := (pendingEpoch_cases schedule idle).resolve_left unused
    have numbered : s.getActivationEpoch ≠ 0 := same ▸ unused
    have slots : (s.joined revision valId stake address).accumulatedRewardPerToken =
        s.accumulatedRewardPerToken := if_neg unused
    rw [same, slotStake_used numbered, slotStake_used numbered] at kept
    simp only [same, Nat.add_right_cancel_iff] at counts
    refine inv.change valId address 0 s.getActivationEpoch 0 rfl rfl
      (update3_eq_self s.withdrawalRequest valId address 0).symm
      (slots.trans (update2_eq_self s.accumulatedRewardPerToken s.getActivationEpoch valId).symm)
      ?_ ?_ (fun _ => rfl) ?_ ?_ stakeFits
    · intro epoch _
      simp only [positionReferences, counts]
    · simp [positionReferences, counts]
    · intro _ empty
      exact inv.cleared _ valId numbered (by rw [← inv.counted _ valId numbered]; exact empty)
    · simp only [ValExecution.clearFlags, State.logged, State.withPending]
      omega

theorem kept (schedule : Schedule s) (action : Action revision freed s t) : References t := by
  cases action with
  | promote _ valId address ready =>
    exact inv.sameSlots valId address (update_eq_self valId s.valExecution).symm rfl rfl
      rfl rfl (references_promoted ready.1) (kept_promoted ready.1)
  | compound _ valId address active _ _ => exact inv.compounded active
  | settle _ valId address _ _ _ _ =>
    exact inv.sameSlots valId address rfl rfl rfl rfl rfl (fun _ => rfl) rfl
  | takeRewards _ valId address =>
    exact inv.sameSlots valId address (update_eq_self valId s.valExecution).symm rfl rfl
      rfl rfl (fun _ => rfl) rfl
  | join _ valId stake address joinable => exact inv.joined schedule joinable
  | enroll _ secp bls keys auth commission stake _ _ _ _ joinable =>
    have registered : References (s.registered secp bls keys auth commission) :=
      inv.congr rfl rfl rfl fun other =>
        validator_field s (s.lastValId + 1) other ValExecution.stake rfl
    exact registered.joined (schedule.congr rfl rfl rfl rfl) joinable
  | leave _ valId amount withdrawalId address leavable => exact inv.left leavable
  | withdraw _ valId address withdrawalId «open» _ _ _ => exact inv.withdrawn «open»
  | balances _ balance | propose _ valId _ | log _ event =>
    exact inv.congr rfl rfl rfl (fun _ => rfl)
  | commission _ valId commission _ =>
    exact inv.sameSlots valId (s.valExecution valId).authAddress
      (update_eq_self valId s.valExecution).symm rfl rfl rfl rfl (fun _ => rfl) rfl
  | reward _ valId _ reward _ _ | changeCommission _ valId commission _ _ =>
    exact inv.congr rfl rfl rfl fun other => validator_field s valId other ValExecution.stake rfl
  | snapshot _ _ =>
    rw [snapshotTaken_eq]
    exact inv.congr rfl rfl rfl (fun _ => rfl)

theorem epochChange (nextEpoch : Nat) : References (s.enterEpoch nextEpoch) := by
  have slot : ∀ epoch valId,
      ((s.enterEpoch nextEpoch).accumulatedRewardPerToken epoch valId).refcount =
          (s.accumulatedRewardPerToken epoch valId).refcount ∧
        (s.accumulatedRewardPerToken epoch valId = {} →
          (s.enterEpoch nextEpoch).accumulatedRewardPerToken epoch valId = {}) := by
    intro epoch valId
    rw [enterEpoch_eq]
    simp only [refreshAccumulators_slot, refreshed]
    split_ifs with touched unused
    · exact ⟨rfl, id⟩
    · exact ⟨rfl, fun empty => absurd empty unused⟩
    · exact ⟨rfl, id⟩
  refine of_at fun valId => (inv.one valId).congr ?_ ?_ (slot · valId) ?_ <;> rw [enterEpoch_eq]

theorem changed (schedule : Schedule s) (change : Change regime s t) : References t := by
  cases change with
  | action _ action => exact inv.kept schedule action
  | epochChange _ nextEpoch _ _ _ =>
    have logged : References (s.logged (.epochChanged s.epoch nextEpoch)) :=
      inv.congr rfl rfl rfl (fun _ => rfl)
    exact logged.epochChange nextEpoch
  | infoLog _ lines => exact inv.congr rfl rfl rfl (fun _ => rfl)

theorem evolved (schedule : Schedule s) (evolves : Evolves regime s t) : References t := by
  induction evolves with
  | refl => exact inv
  | tail earlier change ih => exact ih.changed (schedule.evolved earlier) change

end

theorem empty (balance : Address → Nat) : References (emptyContract balance) := by
  have none : ∀ epoch valId, (emptyContract balance).references epoch valId = 0 := by
    intro epoch valId
    simp [State.references, emptyContract, Delegator.references, WithdrawalRequest.references]
  constructor
  · intro epoch valId _
    rw [none]
    rfl
  · exact fun _ _ _ _ => rfl
  · intro valId
    refine ⟨0, ?_, ?_⟩
    · rw [none]
      rfl
    · simp [State.keptStake, emptyContract, Delegator.kept]
  · intro valId
    simp [emptyContract]

end References

/-- Positions of a validator that wait for `epoch`: delegators in either slot, and
open withdrawals. -/
def State.waiting (s : State) (epoch : Nat) (valId : ValId) : Nat :=
  (Finset.univ.filter fun address => (s.delegator valId address).deltaEpoch = epoch).card +
    (Finset.univ.filter fun address => (s.delegator valId address).nextDeltaEpoch = epoch).card +
    (Finset.univ.filter fun position : Address × WithdrawalId =>
      s.withdrawalRequest valId position.1 position.2 ≠ {} ∧
        (s.withdrawalRequest valId position.1 position.2).epoch = epoch).card

theorem waiting_eq (s : State) (used : epoch ≠ 0) (valId : ValId) :
    s.waiting epoch valId = s.references epoch valId := by
  unfold State.waiting State.references references WithdrawalRequest.references
    slotReference
  rw [card_filter, card_filter, card_filter, Fintype.sum_prod_type, ← sum_add_distrib]
  simp [used]

theorem infoLog_action (inv : References s) (action : Action revision freed s t) :
    t.infoLog = s.infoLog := by
  cases action with
  | compound _ valId address active _ _ => exact if_neg (inv.delta_held active)
  | withdraw _ valId address withdrawalId «open» _ _ _ => exact if_neg (inv.request_held «open»)
  | snapshot _ _ => rw [snapshotTaken_eq]; rfl
  | _ => rfl

theorem infoLog_moves (inv : References s) (schedule : Schedule s)
    (moves : Moves revision freed s t) : t.infoLog = s.infoLog := by
  induction moves with
  | refl => rfl
  | tail earlier final ih =>
    have onward : Evolves .free _ _ := .ofMoves trivial earlier
    rw [infoLog_action (inv.evolved schedule onward) final, ih inv schedule]

variable {crypto : Crypto} {balance : Address → Nat}

theorem infoLog_step (inv : References s) (schedule : Schedule s) (registry : Registry s)
    (step : Step crypto revision s t) : t.infoLog = s.infoLog := by
  cases step with
  | run operation =>
    rcases step_cases revision crypto operation registry with
      transition | ⟨failure, failed, -, reason, undone⟩
    · generalize Staking.step crypto revision operation s = after at transition
      cases transition with
      | actions moves => exact infoLog_moves inv schedule moves
      | epochChange nextEpoch _ _ => rw [enterEpoch_eq]; rfl
    · obtain ⟨freed, middle, -, moves, -, silent | dangling⟩ := reason
      · rw [undone]
        exact silent.trans (infoLog_moves inv schedule moves)
      · have onward : Evolves .free s middle := .ofMoves trivial moves
        exact absurd dangling (inv.evolved schedule onward).not_dangling

/-- Every used accumulator counts the positions that wait for it and is cleared
with the last one. A decrement of a zero count would have left a log line. -/
theorem refcounts_exact (reachable : Reachable crypto (emptyContract balance) s) :
    (∀ epoch valId, epoch ≠ 0 →
      (s.accumulatedRewardPerToken epoch valId).refcount = s.waiting epoch valId ∧
      (s.waiting epoch valId = 0 → s.accumulatedRewardPerToken epoch valId = {})) ∧
    s.infoLog = [] := by
  have registry := Registry.empty balance
  have schedule := Schedule.empty balance
  have start := References.empty balance
  constructor
  · intro epoch valId used
    have inv := start.evolved schedule (reachable.evolves registry)
    rw [waiting_eq s used]
    exact ⟨inv.counted epoch valId used, inv.cleared epoch valId used⟩
  · induction reachable with
    | refl => rfl
    | tail earlier last ih =>
      obtain ⟨revision, step⟩ := last
      have evolves := Reachable.evolves earlier registry
      rw [infoLog_step (start.evolved schedule evolves) (schedule.evolved evolves)
        (registry.evolved evolves) step, ih]

theorem refcounts_exact_sample :
    ((sampleRun samplePositions).accumulatedRewardPerToken 1 1).refcount = 2 ∧
      (sampleRun (samplePositions ++ [takeSnapshot, changeEpoch 1,
        claimSample 0xcc (by decide)])).infoLog = [] :=
  ⟨by decide +kernel, (refcounts_exact (sampleRun_reachable _)).2⟩

end MonadChain.Staking
