import MonadChain.Staking.Transitions

/-!
The registry of validators is kept by every action and epoch change, so every
operation of a run is a transition in the sense of `step_cases`.
-/

namespace MonadChain.Staking

open Maps State Function

variable {revision : MonadRevision} {s t : State}

variable {γ : Type}

section Fields

variable (s : State) (valId other : ValId) (address : Address)

theorem refreshAccumulator_eq (epoch : Nat) : s.refreshAccumulator epoch valId =
    { s with
      accumulatedRewardPerToken :=
        (s.refreshAccumulator epoch valId).accumulatedRewardPerToken } := by
  unfold refreshAccumulator
  split <;> rfl

theorem refreshAccumulators_eq (nextEpoch : Nat) (members : List ValId) :
    s.refreshAccumulators nextEpoch members = { s with
      accumulatedRewardPerToken :=
          (s.refreshAccumulators nextEpoch members).accumulatedRewardPerToken } := by
  induction members generalizing s with
  | nil => rfl
  | cons valId rest ih =>
    simp only [refreshAccumulators]
    rw [ih, refreshAccumulator_eq, refreshAccumulator_eq]

def refreshed (acc : Nat) (slot : RefCountedAccumulator) : RefCountedAccumulator :=
  if slot = {} then slot else { slot with value := acc }

theorem refreshed_refreshed (acc : Nat) (slot : RefCountedAccumulator) :
    refreshed acc (refreshed acc slot) = refreshed acc slot := by
  unfold refreshed
  split
  · rfl
  · split <;> rfl

theorem refreshAccumulator_slot (epoch e : Nat) :
    (s.refreshAccumulator epoch valId).accumulatedRewardPerToken e other =
      if e = epoch ∧ other = valId then
        refreshed (s.valExecution other).accumulatedRewardPerToken
          (s.accumulatedRewardPerToken e other) else s.accumulatedRewardPerToken e other := by
  unfold refreshAccumulator
  split
  · rename_i used
    rw [loadChecked_isSome] at used
    simp only [update2_apply]
    split
    · rename_i hit
      rw [hit.1, hit.2]
      exact (if_neg used).symm
    · rfl
  · rename_i unused
    rw [loadChecked_isSome, not_not] at unused
    split
    · rename_i hit
      rw [hit.1, hit.2]
      exact (if_pos unused).symm
    · rfl

theorem refreshAccumulators_slot (nextEpoch e : Nat) (members : List ValId) :
    (s.refreshAccumulators nextEpoch members).accumulatedRewardPerToken e other =
      if other ∈ members ∧ (e = nextEpoch ∨ e = epochAfter nextEpoch 1) then
        refreshed (s.valExecution other).accumulatedRewardPerToken
          (s.accumulatedRewardPerToken e other) else s.accumulatedRewardPerToken e other := by
  induction members generalizing s with
  | nil => simp [refreshAccumulators]
  | cons valId rest ih =>
    have validators : ((s.refreshAccumulator nextEpoch valId).refreshAccumulator
        (epochAfter nextEpoch 1) valId).valExecution = s.valExecution := by
      rw [refreshAccumulator_eq, refreshAccumulator_eq]
    have validatorsOnce : (s.refreshAccumulator nextEpoch valId).valExecution =
        s.valExecution := by
      rw [refreshAccumulator_eq]
    have slot : ((s.refreshAccumulator nextEpoch valId).refreshAccumulator
        (epochAfter nextEpoch 1) valId).accumulatedRewardPerToken e other =
          if other = valId ∧ (e = nextEpoch ∨ e = epochAfter nextEpoch 1) then
            refreshed (s.valExecution other).accumulatedRewardPerToken
              (s.accumulatedRewardPerToken e other)
          else s.accumulatedRewardPerToken e other := by
      rw [refreshAccumulator_slot, refreshAccumulator_slot, validatorsOnce]
      by_cases same : other = valId
      · by_cases first : e = nextEpoch
        · by_cases second : e = epochAfter nextEpoch 1
          · rw [if_pos ⟨second, same⟩, if_pos ⟨first, same⟩, if_pos ⟨same, .inl first⟩,
              refreshed_refreshed]
          · rw [if_neg (fun hit => second hit.1), if_pos ⟨first, same⟩, if_pos ⟨same, .inl first⟩]
        · by_cases second : e = epochAfter nextEpoch 1
          · rw [if_pos ⟨second, same⟩, if_neg (fun hit => first hit.1), if_pos ⟨same, .inr second⟩]
          · rw [if_neg (fun hit => second hit.1), if_neg (fun hit => first hit.1),
              if_neg (fun hit => hit.2.elim first second)]
      · simp [same]
    simp only [refreshAccumulators]
    rw [ih, slot, validators]
    by_cases near : e = nextEpoch ∨ e = epochAfter nextEpoch 1
    · by_cases same : other = valId
      · simp [same, near, refreshed_refreshed]
      · simp [same]
    · simp [near]

theorem enterEpoch_eq (nextEpoch : Nat) : s.enterEpoch nextEpoch =
    { s with
      accumulatedRewardPerToken :=
        (s.refreshAccumulators nextEpoch s.valsetSnapshot.toList).accumulatedRewardPerToken
      inEpochDelayPeriod := false
      epoch := nextEpoch } := by
  unfold enterEpoch
  rw [refreshAccumulators_eq]

theorem removedAll_eq (indices : List Nat) : s.removedAll indices =
    { s with
      valsetExecution := (s.removedAll indices).valsetExecution
      valBitsetBucket := (s.removedAll indices).valBitsetBucket } := by
  induction indices generalizing s with
  | nil => rfl
  | cons index rest ih =>
    rw [removedAll, ih]
    rfl

theorem snapshotTaken_eq : s.snapshotTaken =
    { s.rotateViews with
      valsetExecution := s.snapshotTaken.valsetExecution
      valBitsetBucket := s.snapshotTaken.valBitsetBucket
      inEpochDelayPeriod := true } := by
  unfold snapshotTaken
  rw [removedAll_eq]

theorem rewarded_eq (sender : Address) (reward : Nat) : s.rewarded valId sender reward =
    { s with
      valExecution := (s.rewarded valId sender reward).valExecution
      history := (s.rewarded valId sender reward).history
      logs := (s.rewarded valId sender reward).logs } := rfl

theorem withdrawn_eq (withdrawalId : WithdrawalId) : s.withdrawn valId address withdrawalId =
    { s with
      valExecution := (s.withdrawn valId address withdrawalId).valExecution
      withdrawalRequest := (s.withdrawn valId address withdrawalId).withdrawalRequest
      accumulatedRewardPerToken :=
        (s.withdrawn valId address withdrawalId).accumulatedRewardPerToken
      history := (s.withdrawn valId address withdrawalId).history
      infoLog := (s.withdrawn valId address withdrawalId).infoLog } := rfl

theorem validator_field (field : ValExecution → γ) {val : ValExecution}
    (same : field val = field (s.valExecution valId)) :
    field (update s.valExecution valId val other) = field (s.valExecution other) := by
  by_cases hit : other = valId
  · subst hit
    rw [update_self, same]
  · rw [update_of_ne hit]

def State.compoundedRecord (s : State) (valId : ValId) (address : Address) : Delegator :=
  let del := s.delegator valId address
  { promoteDelta del with
    stake := del.stake + del.deltaStake
    accumulatedRewardPerToken := s.held del.deltaEpoch valId
    rewards := del.rewards + s.compoundRewards valId address }

theorem compounded_record : (s.compounded valId address).delegator =
    update2 s.delegator valId address (s.compoundedRecord valId address) := rfl

def State.reduced (s : State) (valId : ValId) (amount : Nat) (address : Address) : Delegator :=
  let del := s.delegator valId address
  { del with
    stake := del.stake - amount
    accumulatedRewardPerToken :=
      if del.stake - amount = 0 then 0 else del.accumulatedRewardPerToken }

theorem left_delegator (amount : Nat) (withdrawalId : WithdrawalId) :
    (s.left revision valId amount withdrawalId address).delegator =
      update2 s.delegator valId address (s.reduced valId amount address) := by
  simp [left, freed, booked, reduced]

end Fields

theorem Registry.congr (registry : Registry s) (last : t.lastValId = s.lastValId)
    (map : t.valId = s.valId)
    (auth : ∀ valId, (t.valExecution valId).authAddress = (s.valExecution valId).authAddress)
    (blank : ∀ valId, ¬ (s.valExecution valId).exists → t.valExecution valId = {} ∧
      ∀ address, t.delegator valId address = {} ∧ ∀ id, t.withdrawalRequest valId address id = {}) :
    Registry t := by
  have same : ∀ valId, (t.valExecution valId).exists ↔ (s.valExecution valId).exists := by
    intro valId
    unfold ValExecution.exists
    rw [auth]
  constructor
  · intro valId
    rw [same, last]
    exact registry.known valId
  · rw [last]
    exact registry.room
  · intro valId absent
    exact blank valId (fun known => absent ((same valId).mpr known))
  · intro address used
    rw [map] at used ⊢
    exact (same _).mpr (registry.mapped address used)

theorem Registry.change (registry : Registry s) (valId : ValId)
    (known : (s.valExecution valId).exists) (last : t.lastValId = s.lastValId)
    (map : t.valId = s.valId)
    (auth : (t.valExecution valId).authAddress = (s.valExecution valId).authAddress)
    (validators : ∀ other, other ≠ valId → t.valExecution other = s.valExecution other)
    (delegators : ∀ other, other ≠ valId → t.delegator other = s.delegator other)
    (requests : ∀ other, other ≠ valId → t.withdrawalRequest other = s.withdrawalRequest other) :
    Registry t := by
  apply registry.congr last map
  · intro other
    by_cases same : other = valId
    · rw [same, auth]
    · rw [validators other same]
  · intro other absent
    have different : other ≠ valId := by
      rintro rfl
      exact absent known
    rw [validators other different, delegators other different, requests other different]
    exact registry.blank other absent

theorem Registry.changeDelegator (registry : Registry s) (valId : ValId) (address : Address)
    (del : Delegator) (blank : s.delegator valId address = {} → del = {})
    (last : t.lastValId = s.lastValId) (map : t.valId = s.valId)
    (validators : t.valExecution = s.valExecution)
    (requests : t.withdrawalRequest = s.withdrawalRequest)
    (delegators : t.delegator = update2 s.delegator valId address del) : Registry t := by
  apply registry.congr last map
  · intro other
    rw [validators]
  · intro other absent
    have before := registry.blank other absent
    rw [validators, delegators, requests]
    refine ⟨before.1, fun a => ⟨?_, (before.2 a).2⟩⟩
    rw [update2_apply]
    split
    · rename_i hit
      exact blank (by rw [← hit.1, ← hit.2]; exact (before.2 a).1)
    · exact (before.2 a).1

theorem Registry.known_of_record (registry : Registry s) {valId : ValId} {address : Address}
    (used : s.delegator valId address ≠ {}) : (s.valExecution valId).exists := by
  by_contra absent
  exact used ((registry.blank valId absent).2 address).1

theorem Registry.known_of_request (registry : Registry s) {valId : ValId} {address : Address}
    {withdrawalId : WithdrawalId} (used : s.withdrawalRequest valId address withdrawalId ≠ {}) :
    (s.valExecution valId).exists := by
  by_contra absent
  exact used (((registry.blank valId absent).2 address).2 withdrawalId)

theorem update2_other (map : ValId → Address → γ) {valId other : ValId}
    (address : Address) (value : γ) (different : other ≠ valId) :
    update2 map valId address value other = map other := by
  funext a
  exact update2_outer_ne map address a value different

theorem update3_other (map : ValId → Address → WithdrawalId → γ)
    {valId other : ValId} (address : Address) (id : WithdrawalId) (value : γ)
    (different : other ≠ valId) : update3 map valId address id value other = map other := by
  funext a i
  rw [update3_apply, if_neg (fun hit => different hit.1)]

section

variable (registry : Registry s)

include registry

theorem Registry.joined (valId : ValId) (stake : Nat)
    (address : Address) (known : (s.valExecution valId).exists) :
    Registry (s.joined revision valId stake address) := by
  refine registry.change valId known rfl rfl ?_ ?_ ?_ ?_
  · simp [State.joined, State.listed, State.withValidatorStake, ValExecution.clearFlags,
      State.logged, State.withPending]
  · intro other different
    simp [State.joined, State.listed, State.withValidatorStake, State.logged, State.withPending,
      different]
  · intro other different
    exact update2_other _ _ _ different
  · exact fun _ _ => rfl

theorem Registry.left (valId : ValId) (amount : Nat)
    (withdrawalId : WithdrawalId) (address : Address) (known : (s.valExecution valId).exists) :
    Registry (s.left revision valId amount withdrawalId address) := by
  refine registry.change valId known rfl rfl ?_ ?_ ?_ ?_
  · simp [State.left, State.freed, State.booked, ValExecution.setFlags]
  · intro other different
    simp [State.left, State.freed, State.booked, different]
  · intro other different
    funext a
    simp [State.left, State.freed, State.booked, update2_outer_ne _ _ _ _ different]
  · intro other different
    exact update3_other _ _ _ _ different

theorem Registry.registered (secp bls : Address) (keys : KeysPacked)
    {auth : Address} (commission : Nat) (valid : auth ≠ 0)
    (room : s.lastValId + 1 ≠ 0xFFFFFFFFFFFFFFFF) :
    Registry (s.registered secp bls keys auth commission) := by
  have unused := registry.unused
  have below := registry.room
  -- the new validator exists, all others are as before
  have self : ((s.registered secp bls keys auth commission).valExecution
      (s.lastValId + 1)).exists := by
    simpa [State.registered, State.logged, State.registerValidator, ValExecution.exists] using valid
  have other : ∀ valId, valId ≠ s.lastValId + 1 →
      (s.registered secp bls keys auth commission).valExecution valId = s.valExecution valId := by
    intro valId different
    simp [State.registered, State.logged, State.registerValidator, different]
  have last : (s.registered secp bls keys auth commission).lastValId = s.lastValId + 1 := rfl
  constructor
  · intro valId
    by_cases same : valId = s.lastValId + 1
    · subst same
      simp only [self, last, true_iff]
      simp only [UInt64.lt_iff_toNat_lt, ne_eq, ← UInt64.toNat_inj, UInt64.toNat_add] at below ⊢
      simp at below ⊢
      omega
    · rw [other valId same, registry.known, last]
      simp only [UInt64.lt_iff_toNat_lt, UInt64.le_iff_toNat_le, ne_eq, ← UInt64.toNat_inj,
        UInt64.toNat_add] at below same ⊢
      simp at below same ⊢
      omega
  · rw [last]
    simp only [UInt64.lt_iff_toNat_lt, ne_eq, ← UInt64.toNat_inj, UInt64.toNat_add] at below room ⊢
    simp at below room ⊢
    omega
  · intro valId absent
    have different : valId ≠ s.lastValId + 1 := by
      rintro rfl
      exact absent self
    rw [other valId different] at absent ⊢
    exact registry.blank valId absent
  · intro address used
    by_cases hit : address = secp
    · have new : (s.registered secp bls keys auth commission).valId address = s.lastValId + 1 := by
        simp [State.registered, State.logged, State.registerValidator, hit]
      rw [new]
      exact self
    · have old : (s.registered secp bls keys auth commission).valId address = s.valId address := by
        simp [State.registered, State.logged, State.registerValidator, hit]
      rw [old] at used ⊢
      have known := registry.mapped address used
      have different : s.valId address ≠ s.lastValId + 1 := by
        intro same
        rw [same] at known
        exact unused known
      rwa [other _ different]

theorem Registry.known_of_active {valId : ValId} {address : Address}
    (active : s.isEpochActive (s.delegator valId address).deltaEpoch) :
    (s.valExecution valId).exists := by
  apply registry.known_of_record
  intro blank
  rw [blank] at active
  exact not_active_zero s active

theorem Registry.known_of_stake {valId : ValId} {address : Address}
    (staked : (s.delegator valId address).stake ≠ 0) : (s.valExecution valId).exists := by
  apply registry.known_of_record
  intro blank
  rw [blank] at staked
  exact staked rfl

theorem Registry.kept {freed : Int} (action : Action revision freed s t) : Registry t := by
  cases action with
  | promote _ valId address ready =>
    refine registry.changeDelegator valId address _ ?_ rfl rfl rfl rfl rfl
    intro blank
    rw [blank]
    rfl
  | compound _ valId address active _ _ =>
    refine registry.change valId (registry.known_of_active active) rfl rfl ?_ ?_ ?_ ?_
    · exact payFromPool_authAddress _ valId valId address _
    · intro other different
      exact update_of_ne different ..
    · intro other different
      exact update2_other _ _ _ different
    · exact fun _ _ => rfl
  | settle _ valId address _ staked _ _ =>
    refine registry.change valId (registry.known_of_stake staked) rfl rfl ?_ ?_ ?_ ?_
    · exact payFromPool_authAddress _ valId valId address _
    · intro other different
      exact update_of_ne different ..
    · intro other different
      exact update2_other _ _ _ different
    · exact fun _ _ => rfl
  | takeRewards _ valId address =>
    refine registry.changeDelegator valId address _ ?_ rfl rfl rfl rfl rfl
    intro blank
    rw [blank]
  | join _ valId stake address joinable =>
    exact registry.joined valId stake address joinable.known
  | enroll _ secp bls keys auth commission stake _ _ _ _ joinable =>
    have known := joinable.known
    have valid : auth ≠ 0 := by
      simpa [State.registered, State.logged, State.registerValidator, ValExecution.exists]
        using known
    exact (registry.registered secp bls keys commission valid joinable.validator.2).joined _ _ _
      known
  | leave _ valId amount withdrawalId address leavable =>
    exact registry.left valId amount withdrawalId address leavable.known
  | withdraw _ valId address withdrawalId used _ _ _ =>
    refine registry.change valId (registry.known_of_request used) rfl rfl ?_ ?_ ?_ ?_
    · exact payFromPool_authAddress _ valId valId address _
    · intro other different
      exact update_of_ne different ..
    · exact fun _ _ => rfl
    · intro other different
      exact update3_other _ _ _ _ different
  | balances _ balance | propose _ valId _ | log _ event =>
    exact registry.congr rfl rfl (fun _ => rfl) registry.blank
  | commission _ valId commission known =>
    refine registry.change valId known rfl rfl rfl (fun _ _ => rfl) ?_ (fun _ _ => rfl)
    intro other different
    exact update2_other _ _ _ different
  | reward _ valId _ reward known _ =>
    refine registry.change valId known rfl rfl ?_ ?_ (fun _ _ => rfl) (fun _ _ => rfl)
    · simp [State.rewarded, State.logged, State.rewardFallsDue, State.updateValidator]
    · intro other different
      exact update_of_ne different ..
  | changeCommission _ valId commission known _ =>
    refine registry.change valId known rfl rfl ?_ ?_ (fun _ _ => rfl) (fun _ _ => rfl)
    · simp [State.updateValidator]
    · intro other different
      exact update_of_ne different ..
  | snapshot _ _ =>
    rw [snapshotTaken_eq]
    exact registry.congr rfl rfl (fun _ => rfl) registry.blank

theorem Registry.epochChange (nextEpoch : Nat) : Registry (s.enterEpoch nextEpoch) := by
  rw [enterEpoch_eq]
  exact registry.congr rfl rfl (fun _ => rfl) registry.blank

end

end MonadChain.Staking
