import MonadChain.Staking.EpochViews
import MonadChain.Staking.Stakes

/-!
The validator sets in step with each other. The execution set, its bitset and the flags of the
validators are written by different operations. A validator without flags is in the execution set,
and only such validators enter the consensus set.
-/

namespace MonadChain.Staking

open Maps State Function ValExecution

variable {stake amount : Nat} {withdrawalId : WithdrawalId} {freed : Int} {del : Delegator}

theorem activeValidatorStake_pos (revision : MonadRevision) :
    0 < activeValidatorStake revision := by
  unfold activeValidatorStake
  split <;> decide

namespace ValExecution

def stakeTooLow (val : ValExecution) : Prop := val.flags &&& validatorFlagsStakeTooLow ≠ 0

def withdrawn (val : ValExecution) : Prop := val.flags &&& validatorFlagWithdrawn ≠ 0

section Flags

variable (val : ValExecution) (revision : MonadRevision) (address : Address) (nextEpochStake : Nat)

theorem stakeTooLow_iff : val.stakeTooLow ↔ val.flags.getLsbD 0 = true :=
  @Bitset.mask_bit 64 val.flags 0 (by decide)

theorem withdrawn_iff : val.withdrawn ↔ val.flags.getLsbD 1 = true :=
  @Bitset.mask_bit 64 val.flags 1 (by decide)

theorem clearFlags_stakeTooLow :
    (val.clearFlags revision address nextEpochStake).stakeTooLow ↔
      val.stakeTooLow ∧ val.stake < activeValidatorStake revision := by
  rw [stakeTooLow_iff, stakeTooLow_iff]
  by_cases enough : activeValidatorStake revision ≤ val.stake <;>
    by_cases auth : val.authAddress = address ∧ minAuthAddressStake ≤ nextEpochStake <;>
    simp [clearFlags, enough, auth, clearFlag, validatorFlagsStakeTooLow, validatorFlagWithdrawn,
      Nat.lt_of_not_le]

theorem clearFlags_withdrawn :
    (val.clearFlags revision address nextEpochStake).withdrawn ↔
      val.withdrawn ∧ ¬ (val.authAddress = address ∧ minAuthAddressStake ≤ nextEpochStake) := by
  rw [withdrawn_iff, withdrawn_iff]
  by_cases enough : activeValidatorStake revision ≤ val.stake <;>
    by_cases auth : val.authAddress = address ∧ minAuthAddressStake ≤ nextEpochStake <;>
    simp [clearFlags, enough, auth, clearFlag, validatorFlagsStakeTooLow, validatorFlagWithdrawn]

theorem setFlags_stakeTooLow :
    (val.setFlags revision address nextEpochStake).stakeTooLow ↔
      val.stakeTooLow ∨ val.stake < activeValidatorStake revision := by
  rw [stakeTooLow_iff, stakeTooLow_iff]
  by_cases low : val.stake < activeValidatorStake revision <;>
    by_cases auth : address = val.authAddress ∧ nextEpochStake < minAuthAddressStake <;>
    simp [setFlags, low, auth, setFlag, validatorFlagsStakeTooLow, validatorFlagWithdrawn]

theorem setFlags_withdrawn :
    (val.setFlags revision address nextEpochStake).withdrawn ↔
      val.withdrawn ∨ address = val.authAddress ∧ nextEpochStake < minAuthAddressStake := by
  rw [withdrawn_iff, withdrawn_iff]
  by_cases auth : address = val.authAddress ∧ nextEpochStake < minAuthAddressStake <;>
    by_cases low : val.stake < activeValidatorStake revision <;>
    simp [setFlags, low, auth, setFlag, validatorFlagsStakeTooLow, validatorFlagWithdrawn]

theorem flags_of_setFlags
    (fine : (val.setFlags revision address nextEpochStake).flags = validatorFlagsOk) :
    val.flags = validatorFlagsOk := by
  have unset : ∀ flags flag, setFlag flags flag = validatorFlagsOk → flags = validatorFlagsOk :=
    fun flags flag zero => (BitVec.or_eq_zero_iff.mp zero).1
  simp only [setFlags] at fine
  split_ifs at fine
  · exact unset _ _ (unset _ _ fine)
  · exact unset _ _ fine
  · exact unset _ _ fine
  · exact fine

theorem not_stakeTooLow_of_fine (fine : val.flags = validatorFlagsOk) : ¬ val.stakeTooLow := by
  rw [stakeTooLow_iff, fine]
  decide

end Flags

end ValExecution

/-- Only joining and the snapshot write to the sets. -/
structure State.SameSets (t s : State) : Prop where
  execution : t.valsetExecution = s.valsetExecution
  bitset : t.valBitsetBucket = s.valBitsetBucket
  consensus : t.valsetConsensus = s.valsetConsensus
  consensusView : t.consensusView = s.consensusView
  snapshot : t.valsetSnapshot = s.valsetSnapshot
  snapshotView : t.snapshotView = s.snapshotView

def State.joinedValidator (s : State) (revision : MonadRevision) (valId : ValId) (stake : Nat)
    (address : Address) : ValExecution :=
  { s.valExecution valId with stake := (s.valExecution valId).stake + stake }.clearFlags revision
    address ((s.withPending valId stake address).delegator valId address).getNextEpochStake

def State.leftValidator (s : State) (revision : MonadRevision) (valId : ValId) (amount : Nat)
    (address : Address) : ValExecution :=
  { s.valExecution valId with stake := (s.valExecution valId).stake - amount }.setFlags revision
    address { s.delegator valId address with
      stake := (s.delegator valId address).stake - amount }.getNextEpochStake

theorem State.joined_valExecution (s : State) (revision : MonadRevision) (valId : ValId)
    (stake : Nat) (address : Address) : (s.joined revision valId stake address).valExecution =
      update s.valExecution valId (s.joinedValidator revision valId stake address) := rfl

theorem State.left_valExecution (s : State) (revision : MonadRevision) (valId : ValId)
    (amount : Nat) (withdrawalId : WithdrawalId) (address : Address) :
    (s.left revision valId amount withdrawalId address).valExecution =
      update s.valExecution valId (s.leftValidator revision valId amount address) := rfl

theorem State.registered_of_ne {s : State} {valId : ValId} {secp bls auth : Address}
    {keys : KeysPacked} {commission : Nat} (old : valId ≠ s.lastValId + 1) :
    (s.registered secp bls keys auth commission).valExecution valId = s.valExecution valId :=
  update_of_ne old ..

structure Valsets (s : State) : Prop where
  nodup : s.valsetExecution.toList.Nodup
  bits : ∀ valId, valId ∈ s.valsetExecution.toList ↔ s.marked valId
  known : ∀ valId ∈ s.valsetExecution.toList, (s.valExecution valId).exists
  listed : ∀ valId, (s.valExecution valId).exists →
    (s.valExecution valId).flags = validatorFlagsOk → valId ∈ s.valsetExecution.toList
  healthy : ∀ valId, (s.valExecution valId).exists → ¬ (s.valExecution valId).stakeTooLow →
    (s.valExecution valId).stake ≠ 0
  fair : ∀ valId, (s.valExecution valId).commission ≤ maxCommission
  consensus : Views s.valsetConsensus s.consensusView
  snapshot : Views s.valsetSnapshot s.snapshotView
  enrolled : ∀ valId ∈ s.valsetConsensus.toList, valId ∈ s.valsetExecution.toList
  veterans : ∀ valId ∈ s.valsetSnapshot.toList, (s.valExecution valId).exists

variable {revision : MonadRevision} {regime : Regime} {s t : State} {valId : ValId}
  {address : Address}

namespace Valsets

section

variable (valsets : Valsets s)

include valsets

theorem congr (sets : t.SameSets s)
    (profiles : ∀ valId, (t.valExecution valId).SameProfile (s.valExecution valId))
    (fair : ∀ valId, (t.valExecution valId).commission ≤ maxCommission) : Valsets t := by
  obtain ⟨execution, bitset, consensus, consensusView, snapshot, snapshotView⟩ := sets
  have known : ∀ valId, (t.valExecution valId).exists ↔ (s.valExecution valId).exists := by
    intro valId
    rw [ValExecution.exists, ValExecution.exists, (profiles valId).auth]
  constructor
  · rw [execution]
    exact valsets.nodup
  · intro valId
    rw [execution, marked_congr bitset]
    exact valsets.bits valId
  · intro valId member
    rw [known]
    exact valsets.known valId (execution ▸ member)
  · intro valId
    rw [known, (profiles valId).flags, execution]
    exact valsets.listed valId
  · intro valId
    rw [known, (profiles valId).stake, ValExecution.stakeTooLow, (profiles valId).flags]
    exact valsets.healthy valId
  · exact fair
  · rw [consensus, consensusView]
    exact valsets.consensus
  · rw [snapshot, snapshotView]
    exact valsets.snapshot
  · rw [consensus, execution]
    exact valsets.enrolled
  · intro valId member
    rw [known]
    exact valsets.veterans valId (snapshot ▸ member)

theorem update (valId : ValId) {val : ValExecution} (sets : t.SameSets s)
    (validators : t.valExecution = update s.valExecution valId val)
    (profile : val.SameProfile (s.valExecution valId)) (fair : val.commission ≤ maxCommission) :
    Valsets t := by
  apply valsets.congr sets
  · intro other
    rw [validators]
    exact profile.updated other
  · rw [validators]
    exact (forall_update_iff _ fun _ (val : ValExecution) => val.commission ≤ maxCommission).mpr
      ⟨fair, fun other _ => valsets.fair other⟩

theorem unchanged (sets : t.SameSets s) (validators : t.valExecution = s.valExecution) :
    Valsets t := by
  apply valsets.congr sets
  · intro valId
    rw [validators]
    exact ⟨rfl, rfl, rfl⟩
  · rw [validators]
    exact valsets.fair

theorem revised (registered : (s.valExecution valId).exists) {val : ValExecution}
    (validators : t.valExecution = Function.update s.valExecution valId val)
    (nodup : t.valsetExecution.toList.Nodup) (members : ∀ other, other ∈ t.valsetExecution.toList ↔
      val.flags = validatorFlagsOk ∧ other = valId ∨ other ∈ s.valsetExecution.toList)
    (bits : ∀ other, other ∈ t.valsetExecution.toList ↔ t.marked other)
    (consensus : (t.valsetConsensus, t.consensusView) = (s.valsetConsensus, s.consensusView))
    (snapshot : (t.valsetSnapshot, t.snapshotView) = (s.valsetSnapshot, s.snapshotView))
    (auth : val.authAddress = (s.valExecution valId).authAddress)
    (commission : val.commission = (s.valExecution valId).commission)
    (healthy : ¬ val.stakeTooLow → val.stake ≠ 0) : Valsets t := by
  obtain ⟨consensus, consensusView⟩ := Prod.mk.inj consensus
  obtain ⟨snapshot, snapshotView⟩ := Prod.mk.inj snapshot
  have known : ∀ other, (t.valExecution other).exists ↔ (s.valExecution other).exists := by
    intro other
    rw [ValExecution.exists, ValExecution.exists, validators,
      validator_field s valId other ValExecution.authAddress auth]
  constructor
  · exact nodup
  · exact bits
  · intro other member
    rw [known]
    rcases (members other).mp member with ⟨-, rfl⟩ | before
    · exact registered
    · exact valsets.known other before
  · intro other registered fine
    rw [members]
    by_cases here : other = valId
    · subst here
      rw [validators, Function.update_self] at fine
      exact .inl ⟨fine, rfl⟩
    · rw [validators, Function.update_of_ne here] at fine
      exact .inr (valsets.listed other ((known other).mp registered) fine)
  · intro other registered high
    by_cases here : other = valId
    · subst here
      rw [validators, Function.update_self] at high ⊢
      exact healthy high
    · rw [validators, Function.update_of_ne here] at high ⊢
      exact valsets.healthy other ((known other).mp registered) high
  · intro other
    rw [validators, validator_field s valId other ValExecution.commission commission]
    exact valsets.fair other
  · rw [consensus, consensusView]
    exact valsets.consensus
  · rw [snapshot, snapshotView]
    exact valsets.snapshot
  · intro other member
    rw [consensus] at member
    exact (members other).mpr (.inr (valsets.enrolled other member))
  · intro other member
    rw [snapshot] at member
    exact (known other).mpr (valsets.veterans other member)

theorem joined (joinable : s.Joinable valId stake address) :
    Valsets (s.joined revision valId stake address) := by
  have positive := activeValidatorStake_pos revision
  have array : (s.joined revision valId stake address).valsetExecution =
      s.valsetAfter valId (s.joinedValidator revision valId stake address).flags := rfl
  have bitset : (s.joined revision valId stake address).valBitsetBucket =
      s.bitsetAfter valId (s.joinedValidator revision valId stake address).flags := rfl
  obtain ⟨nodup, members, bits⟩ :=
    State.valsetAfter_spec array bitset valsets.nodup valsets.bits
  apply valsets.revised joinable.known (s.joined_valExecution ..) nodup members bits _ _ rfl rfl
  · intro high
    rw [State.joinedValidator, clearFlags_stakeTooLow, not_and_or, not_lt] at high
    show (s.valExecution valId).stake + stake ≠ 0
    rcases high with before | enough
    · have staked := valsets.healthy valId joinable.known before
      omega
    · have above : activeValidatorStake revision ≤ (s.valExecution valId).stake + stake := enough
      omega
  · simp only [State.joined, State.listed, State.withValidatorStake, State.logged,
      State.withPending]
  · simp only [State.joined, State.listed, State.withValidatorStake, State.logged,
      State.withPending]

theorem left (leavable : s.Leavable valId amount withdrawalId address) :
    Valsets (s.left revision valId amount withdrawalId address) := by
  have positive := activeValidatorStake_pos revision
  have members : ∀ other, other ∈ s.valsetExecution.toList ↔
      (s.leftValidator revision valId amount address).flags = validatorFlagsOk ∧ other = valId ∨
        other ∈ s.valsetExecution.toList := by
    intro other
    constructor
    · exact .inr
    · rintro (⟨fine, rfl⟩ | member)
      · have before := flags_of_setFlags _ _ _ _ fine
        exact valsets.listed other leavable.known before
      · exact member
  apply valsets.revised leavable.known (s.left_valExecution ..) valsets.nodup members
    valsets.bits _ _ rfl rfl
  · intro high
    rw [State.leftValidator, setFlags_stakeTooLow, not_or, not_lt] at high
    have above : activeValidatorStake revision ≤
        (s.leftValidator revision valId amount address).stake := high.2
    omega
  · simp only [State.left, State.freed, State.booked]
  · simp only [State.left, State.freed, State.booked]

theorem registered (registry : Registry s) (secp bls : Address) (keys : KeysPacked) (auth : Address)
    {commission : Nat} (fair : commission ≤ maxCommission) :
    Valsets (s.registered secp bls keys auth commission) := by
  have unused := registry.unused
  have old : ∀ valId, (s.valExecution valId).exists →
      (s.registered secp bls keys auth commission).valExecution valId = s.valExecution valId := by
    intro valId known
    refine registered_of_ne ?_
    rintro rfl
    exact unused known
  have kept : ∀ valId, (s.valExecution valId).exists →
      ((s.registered secp bls keys auth commission).valExecution valId).exists := by
    intro valId known
    rw [old valId known]
    exact known
  constructor
  · exact valsets.nodup
  · exact valsets.bits
  · intro valId member
    exact kept valId (valsets.known valId member)
  · intro valId known fine
    by_cases new : valId = s.lastValId + 1
    · subst new
      simp [State.registered, State.logged, State.registerValidator, validatorFlagsStakeTooLow,
        validatorFlagsOk] at fine
    · rw [registered_of_ne new] at known fine
      exact valsets.listed valId known fine
  · intro valId known high
    by_cases new : valId = s.lastValId + 1
    · subst new
      simp [State.registered, State.logged, State.registerValidator, validatorFlagsStakeTooLow,
        stakeTooLow] at high
    · rw [registered_of_ne new] at known high ⊢
      exact valsets.healthy valId known high
  · intro valId
    by_cases new : valId = s.lastValId + 1
    · subst new
      simpa [State.registered, State.logged, State.registerValidator] using fair
    · rw [registered_of_ne new]
      exact valsets.fair valId
  · exact valsets.consensus
  · exact valsets.snapshot
  · exact valsets.enrolled
  · intro valId member
    exact kept valId (valsets.veterans valId member)

theorem snapshotTaken : Valsets s.snapshotTaken := by
  obtain ⟨nodup, members, bits⟩ := snapshotTaken_execution valsets.nodup valsets.bits
  have validators : s.snapshotTaken.valExecution = s.valExecution := by
    rw [snapshotTaken_eq]
    rfl
  have consensus := s.snapshotTaken_valsetConsensus
  have consensusView := s.snapshotTaken_consensusView valsets.consensus
  have snapshot := s.snapshotTaken_valsetSnapshot
  have snapshotView := s.snapshotTaken_snapshotView valsets.consensus valsets.snapshot
  have top : ∀ valId ∈ s.topCandidates, valId ∈ s.snapshotTaken.valsetExecution.toList :=
    fun valId member => (members valId).mpr (mem_topCandidates member)
  constructor
  · exact nodup
  · exact bits
  · intro valId member
    rw [validators]
    exact valsets.known valId ((members valId).mp member).1
  · intro valId
    rw [validators, members]
    intro known fine
    exact ⟨valsets.listed valId known fine, fine⟩
  · rw [validators]
    exact valsets.healthy
  · rw [validators]
    exact valsets.fair
  · constructor
    · rw [consensus]
      exact nodup_topCandidates valsets.nodup
    · rw [consensus]
      exact length_topCandidates
    · intro valId member
      rw [consensus] at member
      obtain ⟨inside, fine⟩ := mem_topCandidates member
      rw [consensusView, if_pos member]
      exact valsets.healthy valId (valsets.known valId inside)
        ((s.valExecution valId).not_stakeTooLow_of_fine fine)
    · intro valId outside
      rw [consensus] at outside
      rw [consensusView, if_neg outside]
    · intro valId
      rw [consensusView]
      split
      · exact valsets.fair valId
      · exact Nat.zero_le _
  · have old := valsets.consensus
    rw [snapshotView]
    constructor
    · rw [snapshot]
      exact old.nodup
    · rw [snapshot]
      exact old.size
    · rw [snapshot]
      exact old.present
    · rw [snapshot]
      exact old.absent
    · exact old.fair
  · intro valId member
    rw [consensus] at member
    exact top valId member
  · intro valId member
    rw [snapshot] at member
    rw [validators]
    exact valsets.known valId (valsets.enrolled valId member)

theorem kept (registry : Registry s) (action : Action revision freed s t) : Valsets t := by
  have fair := valsets.fair
  cases action with
  | promote _ valId address _ | takeRewards _ valId address | balances _ balance
  | commission _ valId commission _ | propose _ valId _ | log _ event =>
    exact valsets.unchanged ⟨rfl, rfl, rfl, rfl, rfl, rfl⟩ rfl
  | compound _ valId address _ _ _ | settle _ valId address _ _ _ _ =>
    exact valsets.update valId ⟨rfl, rfl, rfl, rfl, rfl, rfl⟩ rfl ⟨rfl, rfl, rfl⟩ (fair valId)
  | join _ valId stake address joinable => exact valsets.joined joinable
  | enroll _ secp bls keys auth commission stake _ _ _ allowed joinable =>
    exact (valsets.registered registry secp bls keys auth allowed).joined joinable
  | leave _ valId amount withdrawalId address leavable => exact valsets.left leavable
  | withdraw _ valId address withdrawalId _ _ _ _ =>
    rw [withdrawn_eq]
    exact valsets.update valId ⟨rfl, rfl, rfl, rfl, rfl, rfl⟩ rfl ⟨rfl, rfl, rfl⟩ (fair valId)
  | reward _ valId _ reward _ _ =>
    rw [rewarded_eq]
    exact valsets.update valId ⟨rfl, rfl, rfl, rfl, rfl, rfl⟩ rfl ⟨rfl, rfl, rfl⟩ (fair valId)
  | changeCommission _ valId commission _ allowed =>
    exact valsets.update valId ⟨rfl, rfl, rfl, rfl, rfl, rfl⟩ rfl ⟨rfl, rfl, rfl⟩ allowed
  | snapshot _ _ => exact valsets.snapshotTaken

theorem changed (registry : Registry s) (change : Change regime s t) : Valsets t := by
  cases change with
  | action _ action => exact valsets.kept registry action
  | epochChange _ nextEpoch _ _ _ =>
    rw [enterEpoch_eq]
    exact valsets.unchanged ⟨rfl, rfl, rfl, rfl, rfl, rfl⟩ rfl
  | infoLog _ lines => exact valsets.unchanged ⟨rfl, rfl, rfl, rfl, rfl, rfl⟩ rfl

theorem evolved (registry : Registry s) (evolves : Evolves regime s t) : Valsets t := by
  induction evolves with
  | refl => exact valsets
  | tail earlier change ih => exact ih.changed (registry.evolved earlier) change

end

theorem empty (balance : Address → Nat) : Valsets (emptyContract balance) := by
  have views : Views (.empty : StorageArray ValId) (fun _ => {}) :=
    ⟨List.nodup_nil, Nat.zero_le _, by simp, fun _ _ => rfl, fun _ => Nat.zero_le _⟩
  constructor
  · exact List.nodup_nil
  · intro valId
    simp [emptyContract, marked]
  · simp [emptyContract]
  · intro valId known
    exact absurd rfl known
  · intro valId known
    exact absurd rfl known
  · intro valId
    exact Nat.zero_le _
  · exact views
  · exact views
  · simp [emptyContract]
  · simp [emptyContract]

end Valsets

def StakeFlags (revision : MonadRevision) (s : State) : Prop :=
  ∀ valId, (s.valExecution valId).exists →
    ((s.valExecution valId).stakeTooLow ↔
      (s.valExecution valId).stake < activeValidatorStake revision)

namespace StakeFlags

section

variable (flags : StakeFlags revision s)

include flags

theorem congr (profiles : ∀ valId, (t.valExecution valId).SameProfile (s.valExecution valId)) :
    StakeFlags revision t := by
  intro valId known
  rw [ValExecution.exists, (profiles valId).auth] at known
  rw [ValExecution.stakeTooLow, (profiles valId).flags, (profiles valId).stake]
  exact flags valId known

theorem update (valId : ValId) {val : ValExecution}
    (validators : t.valExecution = update s.valExecution valId val)
    (flagged : val.exists → (val.stakeTooLow ↔ val.stake < activeValidatorStake revision)) :
    StakeFlags revision t := by
  intro other
  rw [validators]
  by_cases here : other = valId
  · subst here
    rw [update_self]
    exact flagged
  · rw [update_of_ne here]
    exact flags other

theorem joined (stake : Nat) (address : Address) :
    StakeFlags revision (s.joined revision valId stake address) := by
  apply flags.update valId (s.joined_valExecution ..)
  intro known
  have before := flags valId known
  rw [joinedValidator, clearFlags_stakeTooLow]
  have stakeAfter : (joinedValidator s revision valId stake address).stake =
      (s.valExecution valId).stake + stake := rfl
  -- more stake never brings the flag back
  have kept : (s.valExecution valId).stakeTooLow ∧
      (s.valExecution valId).stake + stake < activeValidatorStake revision ↔
        (s.valExecution valId).stake + stake < activeValidatorStake revision := by
    rw [before]
    omega
  exact kept

theorem left (amount : Nat) (withdrawalId : WithdrawalId)
    (address : Address) :
    StakeFlags revision (s.left revision valId amount withdrawalId address) := by
  apply flags.update valId (s.left_valExecution ..)
  intro known
  have before := flags valId known
  rw [leftValidator, setFlags_stakeTooLow]
  have stakeAfter : (leftValidator s revision valId amount address).stake =
      (s.valExecution valId).stake - amount := rfl
  have kept : (s.valExecution valId).stakeTooLow ∨
      (s.valExecution valId).stake - amount < activeValidatorStake revision ↔
        (s.valExecution valId).stake - amount < activeValidatorStake revision := by
    rw [before]
    omega
  exact kept

section

variable (registry : Registry s)

include registry

theorem registered (secp bls : Address) (keys : KeysPacked) (auth : Address) (commission : Nat) :
    StakeFlags revision (s.registered secp bls keys auth commission) := by
  have positive := activeValidatorStake_pos revision
  have blank := (registry.blank _ registry.unused).1
  refine flags.update (s.lastValId + 1) rfl ?_
  intro _
  rw [blank]
  simp [stakeTooLow, validatorFlagsStakeTooLow, positive]

theorem kept (change : StakeChange revision s t) : StakeFlags revision t := by
  cases change with
  | same profiles _ => exact flags.congr profiles
  | join valId stake address _ after =>
    rw [after]
    exact flags.joined stake address
  | enroll secp bls keys auth commission stake _ _ after =>
    rw [after]
    exact (flags.registered registry secp bls keys auth commission).joined stake auth
  | leave valId amount withdrawalId address _ after =>
    rw [after]
    exact flags.left amount withdrawalId address

theorem changed (change : Change (.under revision) s t) : StakeFlags revision t := by
  cases change with
  | action current action =>
    subst current
    exact flags.kept registry action.stakeChange
  | epochChange _ nextEpoch _ _ _ =>
    rw [enterEpoch_eq]
    exact flags.congr fun _ => ⟨rfl, rfl, rfl⟩
  | infoLog _ lines => exact flags.congr fun _ => ⟨rfl, rfl, rfl⟩

theorem evolved (evolves : Evolves (.under revision) s t) : StakeFlags revision t := by
  induction evolves with
  | refl => exact flags
  | tail earlier change ih => exact ih.changed (registry.evolved earlier) change

end

end

theorem empty (revision : MonadRevision) (balance : Address → Nat) :
    StakeFlags revision (emptyContract balance) := by
  intro valId known
  exact absurd rfl known

end StakeFlags

def AuthFlags (s : State) : Prop :=
  ∀ valId, (s.valExecution valId).exists →
    ((s.valExecution valId).withdrawn ↔
      (s.delegator valId (s.valExecution valId).authAddress).total < minAuthAddressStake)

namespace AuthFlags

theorem congr (flags : AuthFlags s)
    (profiles : ∀ valId, (t.valExecution valId).SameProfile (s.valExecution valId))
    (totals : ∀ valId address, (t.delegator valId address).total =
      (s.delegator valId address).total) : AuthFlags t := by
  intro valId known
  rw [ValExecution.exists, (profiles valId).auth] at known
  rw [ValExecution.withdrawn, (profiles valId).flags, (profiles valId).auth, totals]
  exact flags valId known

section

variable
  (others : ∀ other, other ≠ valId → (s.valExecution other).exists →
    ((s.valExecution other).withdrawn ↔
      (s.delegator other (s.valExecution other).authAddress).total < minAuthAddressStake))

include others

theorem update {val : ValExecution} (validators : t.valExecution = update s.valExecution valId val)
    (delegators : t.delegator = update2 s.delegator valId address del)
    (written : val.exists → (val.withdrawn ↔
      (update2 s.delegator valId address del valId val.authAddress).total < minAuthAddressStake)) :
    AuthFlags t := by
  intro other
  rw [validators, delegators]
  by_cases here : other = valId
  · subst here
    rw [update_self]
    exact written
  · rw [update_of_ne here, update2_other _ _ _ here]
    exact others other here

theorem joined (own :
    ((s.valExecution valId).withdrawn ↔
        (s.delegator valId (s.valExecution valId).authAddress).total < minAuthAddressStake) ∨
      ¬ (s.valExecution valId).withdrawn ∧ (s.valExecution valId).authAddress = address ∧
        minAuthAddressStake ≤ stake) (fits : (s.delegator valId address).total + stake < 2 ^ 256) :
    AuthFlags (s.joined revision valId stake address) := by
  have total : ((s.withPending valId stake address).delegator valId address).total =
      (s.delegator valId address).total + stake := by
    simp only [State.withPending, update2_self, Delegator.withPending]
    split <;> simp only [Delegator.total] <;> omega
  have delegators : (s.joined revision valId stake address).delegator =
      update2 s.delegator valId address
        ((s.withPending valId stake address).delegator valId address) := by
    simp [State.joined, State.listed, State.withValidatorStake, State.logged, State.withPending]
  apply AuthFlags.update others (s.joined_valExecution ..) delegators
  intro _
  have nextStake : ((s.withPending valId stake address).delegator valId address).getNextEpochStake =
      (s.delegator valId address).total + stake := by
    rw [Delegator.getNextEpochStake_eq (total ▸ fits), total]
  rw [State.joinedValidator, clearFlags_withdrawn, nextStake]
  change (s.valExecution valId).withdrawn ∧ ¬ ((s.valExecution valId).authAddress = address ∧ _) ↔
    (update2 s.delegator valId address _ valId (s.valExecution valId).authAddress).total < _
  by_cases auth : (s.valExecution valId).authAddress = address
  · rw [auth, update2_self, total]
    rw [auth] at own
    rcases own with flagged | ⟨unset, -, large⟩
    · rw [flagged]
      simp only [true_and]
      omega
    · simp only [unset, false_and, false_iff]
      omega
  · rw [update2_inner_ne _ _ _ _ auth]
    rcases own with flagged | ⟨-, same, -⟩
    · simp only [auth, false_and, not_false_eq_true, and_true]
      exact flagged
    · exact absurd same auth

end

theorem left (flags : AuthFlags s) (leavable : s.Leavable valId amount withdrawalId address)
    (fits : (s.delegator valId address).total < 2 ^ 256) :
    AuthFlags (s.left revision valId amount withdrawalId address) := by
  apply AuthFlags.update (fun other _ => flags other) (s.left_valExecution ..)
    (left_delegator s valId address amount withdrawalId)
  intro _
  have before := flags valId leavable.known
  have total := Stakes.reduced_total leavable
  rw [leftValidator, setFlags_withdrawn, Stakes.reduced_nextStake leavable fits]
  change (s.valExecution valId).withdrawn ∨ address = (s.valExecution valId).authAddress ∧ _ ↔
    (update2 s.delegator valId address _ valId (s.valExecution valId).authAddress).total < _
  by_cases auth : (s.valExecution valId).authAddress = address
  · rw [auth, update2_self, total]
    rw [auth] at before
    rw [before]
    simp only [true_and]
    omega
  · rw [update2_inner_ne _ _ _ _ auth]
    simp only [Ne.symm auth, false_and, or_false]
    exact before

section

variable (flags : AuthFlags s) (registry : Registry s) (schedule : Schedule s)
  (references : References s) (stakes : Stakes s)

include flags registry schedule references stakes

theorem kept (numbered : s.Numbered) (change : StakeChange revision s t) : AuthFlags t := by
  cases change with
  | same profiles totals => exact flags.congr profiles (totals schedule numbered)
  | join valId stake address joinable after =>
    rw [after]
    apply AuthFlags.joined (fun other _ => flags other) (.inl (flags valId joinable.known))
    have bound := le_sum (fun address => (s.delegator valId address).total) address
    have fits := joinable.stakeFits
    rw [stakes valId] at fits
    omega
  | enroll secp bls keys auth commission stake large joinable after =>
    rw [after]
    have blank := (registry.blank _ registry.unused).2 auth
    apply AuthFlags.joined
    · intro other different
      rw [registered_of_ne different]
      exact flags other
    · right
      simp [registered, logged, registerValidator, ValExecution.withdrawn,
        validatorFlagsStakeTooLow, validatorFlagWithdrawn, large]
    · have fits := joinable.stakeFits
      have empty : ((s.registered secp bls keys auth commission).delegator (s.lastValId + 1)
          auth).total = 0 := by
        change (s.delegator (s.lastValId + 1) auth).total = 0
        rw [blank.1]
        rfl
      omega
  | leave valId amount withdrawalId address leavable after =>
    rw [after]
    exact flags.left leavable (stakes.total_lt references valId address)

theorem changed (numbered : s.Numbered) (change : Change regime s t) : AuthFlags t := by
  cases change with
  | action _ action =>
    exact flags.kept registry schedule references stakes numbered action.stakeChange
  | epochChange _ nextEpoch _ _ _ =>
    rw [enterEpoch_eq]
    exact flags.congr (fun _ => ⟨rfl, rfl, rfl⟩) (fun _ _ => rfl)
  | infoLog _ lines => exact flags.congr (fun _ => ⟨rfl, rfl, rfl⟩) (fun _ _ => rfl)

theorem evolved (evolves : Evolves regime s t) (numbered : t.Numbered) : AuthFlags t := by
  induction evolves with
  | refl => exact flags
  | tail earlier change ih =>
    have before := change.numbered numbered
    exact (ih before).changed (registry.evolved earlier) (schedule.evolved earlier)
      (references.evolved schedule earlier) (stakes.evolved schedule earlier before) before change

end

theorem empty (balance : Address → Nat) : AuthFlags (emptyContract balance) := by
  intro valId known
  exact absurd rfl known

end AuthFlags

variable {crypto : Crypto} {balance : Address → Nat}

/-- The validator sets, the bitset, the flags and the views of a run under one
revision. The auth delegator's flag is exact while new stake can be numbered. -/
theorem valsets_in_step (reachable : ReachableUnder crypto revision (emptyContract balance) s) :
    s.valsetExecution.toList.Nodup ∧
    (∀ valId, valId ∈ s.valsetExecution.toList ↔
      s.valBitsetBucket (bucketOf valId) &&& maskOf valId ≠ 0) ∧
    (∀ valId, (s.valExecution valId).exists →
      (s.valExecution valId).flags = validatorFlagsOk → valId ∈ s.valsetExecution.toList) ∧
    (∀ valId, (s.valExecution valId).exists →
      ((s.valExecution valId).flags &&& validatorFlagsStakeTooLow ≠ 0 ↔
        (s.valExecution valId).stake < activeValidatorStake revision)) ∧
    (s.Numbered → ∀ valId, (s.valExecution valId).exists →
      ((s.valExecution valId).flags &&& validatorFlagWithdrawn ≠ 0 ↔
        (s.delegator valId (s.valExecution valId).authAddress).total < minAuthAddressStake)) ∧
    s.valsetConsensus.toList.Nodup ∧ s.valsetConsensus.length ≤ 200 ∧
    s.valsetSnapshot.toList.Nodup ∧ s.valsetSnapshot.length ≤ 200 ∧
    (∀ valId ∈ s.valsetConsensus.toList, valId ∈ s.valsetExecution.toList) ∧
    (∀ valId, (s.consensusView valId).stake ≠ 0 ↔ valId ∈ s.valsetConsensus.toList) ∧
    ∀ valId, (s.snapshotView valId).stake ≠ 0 ↔ valId ∈ s.valsetSnapshot.toList := by
  have registry := Registry.empty balance
  have evolves := reachable.evolves registry
  have valsets := (Valsets.empty balance).evolved registry evolves
  have stakeFlags := (StakeFlags.empty revision balance).evolved registry evolves
  have consensusSize := valsets.consensus.size
  have snapshotSize := valsets.snapshot.size
  rw [StorageArray.length_toList] at consensusSize snapshotSize
  refine ⟨valsets.nodup, valsets.bits, valsets.listed, stakeFlags, ?_, valsets.consensus.nodup,
    consensusSize, valsets.snapshot.nodup, snapshotSize, valsets.enrolled,
    valsets.consensus.stake_ne_zero_iff, valsets.snapshot.stake_ne_zero_iff⟩
  intro numbered
  exact (AuthFlags.empty balance).evolved registry (Schedule.empty balance)
    (References.empty balance) (Stakes.empty balance) evolves numbered

theorem valsets_in_step_sample :
    ReachableUnder sampleCrypto .ten (emptyContract sampleBalance)
      (sampleRun (samplePositions ++ [takeSnapshot])) ∧
    (sampleRun (samplePositions ++ [takeSnapshot])).valsetConsensus.length ≤ 200 :=
  ⟨sampleRun_under _, (valsets_in_step (sampleRun_under _)).2.2.2.2.2.2.1⟩

/-- At the last epoch the auth delegator loses its stake without the flag. -/
theorem valsets_in_step_stale :
    ∃ s, ReachableUnder sampleCrypto .ten (emptyContract sampleBalance) s ∧
      (s.valExecution 1).exists ∧
      (s.valExecution 1).flags &&& validatorFlagWithdrawn = 0 ∧
      (s.delegator 1 (s.valExecution 1).authAddress).total < minAuthAddressStake :=
  ⟨sampleRun (changeEpoch (2 ^ 64 - 1) :: samplePositions ++ [claimSample 0xaa (by decide)]),
    sampleRun_under _,
    by decide +kernel⟩

end MonadChain.Staking
