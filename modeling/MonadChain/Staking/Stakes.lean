import MonadChain.Staking.References

/-!
The stake of a validator is the stake of its delegators, active and pending.
Once the activation epoch wraps this fails: the source then drops pending stake
of a delegator that the validator still counts.
-/

namespace MonadChain.Staking

open Maps Outcome Delegator Function

variable {del : Delegator} {val : ValExecution}

def Delegator.total (del : Delegator) : Nat := del.stake + del.deltaStake + del.nextDeltaStake

theorem Delegator.getNextEpochStake_eq (fits : del.total < 2 ^ 256) :
    del.getNextEpochStake = del.total :=
  Nat.mod_eq_of_lt fits

def Stakes (s : State) : Prop :=
  ∀ valId, (s.valExecution valId).stake = ∑ address, (s.delegator valId address).total

variable {revision : MonadRevision} {regime : Regime} {s t : State} {valId : ValId}
  {address : Address} {amount : Nat} {withdrawalId : WithdrawalId}

structure ValExecution.SameProfile (val before : ValExecution) : Prop where
  auth : val.authAddress = before.authAddress
  flags : val.flags = before.flags
  stake : val.stake = before.stake

theorem ValExecution.SameProfile.updated
    (profile : val.SameProfile (s.valExecution valId)) (other : ValId) :
    (update s.valExecution valId val other).SameProfile (s.valExecution other) where
  auth := validator_field s valId other ValExecution.authAddress profile.auth
  flags := validator_field s valId other ValExecution.flags profile.flags
  stake := validator_field s valId other ValExecution.stake profile.stake

theorem total_update2 (delegators : t.delegator = update2 s.delegator valId address del)
    (total : del.total = (s.delegator valId address).total) (v : ValId) (a : Address) :
    (t.delegator v a).total = (s.delegator v a).total := by
  rw [delegators, update2_apply]
  split
  · rename_i here
    rw [here.1, here.2, total]
  · rfl

inductive StakeChange (revision : MonadRevision) (s t : State) : Prop
  | same
      (profiles : ∀ valId, (t.valExecution valId).SameProfile (s.valExecution valId))
      (totals : Schedule s → s.Numbered → ∀ valId address,
        (t.delegator valId address).total = (s.delegator valId address).total)
  | join (valId : ValId) (stake : Nat) (address : Address)
      (joinable : s.Joinable valId stake address)
      (after : t = s.joined revision valId stake address)
  | enroll (secp bls : Address) (keys : KeysPacked) (auth : Address) (commission stake : Nat)
      (large : minAuthAddressStake ≤ stake)
      (joinable : (s.registered secp bls keys auth commission).Joinable
        (s.lastValId + 1) stake auth)
      (after : t = (s.registered secp bls keys auth commission).joined revision
        (s.lastValId + 1) stake auth)
  | leave (valId : ValId) (amount : Nat) (withdrawalId : WithdrawalId) (address : Address)
      (leavable : s.Leavable valId amount withdrawalId address)
      (after : t = s.left revision valId amount withdrawalId address)

theorem StakeChange.records (validators : t.valExecution = update s.valExecution valId val)
    (delegators : t.delegator = update2 s.delegator valId address del)
    (profile : val.SameProfile (s.valExecution valId))
    (total : Schedule s → s.Numbered → del.total = (s.delegator valId address).total) :
    StakeChange revision s t := by
  apply StakeChange.same
  · intro other
    rw [validators]
    exact profile.updated other
  · intro schedule numbered
    exact total_update2 delegators (total schedule numbered)

theorem StakeChange.unchanged (validators : t.valExecution = s.valExecution)
    (delegators : t.delegator = s.delegator) : StakeChange revision s t := by
  apply StakeChange.same
  · intro other
    rw [validators]
    exact ⟨rfl, rfl, rfl⟩
  · intro _ _ valId address
    rw [delegators]

theorem Action.stakeChange {freed : Int} (action : Action revision freed s t) :
    StakeChange revision s t := by
  cases action with
  | promote _ valId address ready =>
    refine .records (update_eq_self valId s.valExecution).symm rfl ⟨rfl, rfl, rfl⟩ ?_
    intro schedule numbered
    have empty := schedule.delta_unused numbered ready.1
    simp only [total, promoteDelta]
    omega
  | compound _ valId address _ _ _ =>
    refine .records rfl (compounded_record s valId address) ⟨rfl, rfl, rfl⟩ ?_
    intro _ _
    simp only [State.compoundedRecord, total, promoteDelta]
    omega
  | settle _ valId address _ _ _ _ => exact .records rfl rfl ⟨rfl, rfl, rfl⟩ fun _ _ => rfl
  | takeRewards _ valId address | commission _ valId commission _ =>
    exact .records (update_eq_self valId s.valExecution).symm rfl ⟨rfl, rfl, rfl⟩
      fun _ _ => rfl
  | join _ valId stake address joinable => exact .join valId stake address joinable rfl
  | enroll _ secp bls keys auth commission stake _ _ large _ joinable =>
    exact .enroll secp bls keys auth commission stake large joinable rfl
  | leave _ valId amount withdrawalId address leavable =>
    exact .leave valId amount withdrawalId address leavable rfl
  | withdraw _ valId address withdrawalId _ _ _ _ =>
    exact .records rfl (update2_eq_self s.delegator valId address).symm ⟨rfl, rfl, rfl⟩
      fun _ _ => rfl
  | balances _ balance | propose _ valId _ | log _ event => exact .unchanged rfl rfl
  | reward _ valId _ reward _ _ =>
    exact .records rfl (update2_eq_self s.delegator valId 0).symm ⟨rfl, rfl, rfl⟩
      fun _ _ => rfl
  | changeCommission _ valId commission _ _ =>
    exact .records rfl (update2_eq_self s.delegator valId 0).symm ⟨rfl, rfl, rfl⟩
      fun _ _ => rfl
  | snapshot _ _ =>
    rw [snapshotTaken_eq]
    exact .unchanged rfl rfl

namespace Stakes

theorem congr (stakes : Stakes s)
    (same : ∀ valId, (t.valExecution valId).stake = (s.valExecution valId).stake)
    (totals : ∀ valId address, (t.delegator valId address).total =
      (s.delegator valId address).total) : Stakes t := by
  intro valId
  rw [same]
  simp only [totals]
  exact stakes valId

theorem change (stakes : Stakes s) (valId : ValId) (address : Address)
    (validators : t.valExecution = update s.valExecution valId val)
    (delegators : t.delegator = update2 s.delegator valId address del)
    (moved : del.total + (s.valExecution valId).stake =
      (s.delegator valId address).total + val.stake) : Stakes t := by
  intro other
  rw [validators, delegators]
  by_cases here : other = valId
  · subst here
    have row := row_update2 s.delegator total other address del
    have before := stakes other
    rw [update_self]
    omega
  · rw [update_of_ne here, update2_other _ _ _ here]
    exact stakes other

theorem joined (stakes : Stakes s) (valId : ValId) (stake : Nat) (address : Address) :
    Stakes (s.joined revision valId stake address) := by
  refine stakes.change valId address rfl rfl ?_
  simp only [ValExecution.clearFlags, State.logged, State.withPending, withPending]
  split <;> simp only [total] <;> omega

section

variable (leavable : s.Leavable valId amount withdrawalId address)

include leavable

theorem reduced_total :
    (s.reduced valId amount address).total = (s.delegator valId address).total - amount := by
  have covered := leavable.covered
  simp only [State.reduced, total]
  omega

theorem reduced_nextStake (fits : (s.delegator valId address).total < 2 ^ 256) :
    { s.delegator valId address with
      stake := (s.delegator valId address).stake - amount }.getNextEpochStake =
        (s.delegator valId address).total - amount := by
  have total := reduced_total leavable
  have smaller : (s.reduced valId amount address).total < 2 ^ 256 := by omega
  exact (Nat.mod_eq_of_lt smaller).trans total

theorem left (stakes : Stakes s) : Stakes (s.left revision valId amount withdrawalId address) := by
  have covered := leavable.covered
  have bounded := leavable.bounded
  refine stakes.change valId address rfl (left_delegator s valId address amount withdrawalId) ?_
  simp only [State.reduced, total, ValExecution.setFlags]
  omega

end

section

variable (stakes : Stakes s) (schedule : Schedule s)

include stakes schedule

theorem kept (numbered : s.Numbered) (change : StakeChange revision s t) : Stakes t := by
  cases change with
  | same profiles totals =>
    exact stakes.congr (fun valId => (profiles valId).stake) (totals schedule numbered)
  | join valId stake address _ after =>
    rw [after]
    exact stakes.joined valId stake address
  | enroll secp bls keys auth commission stake _ _ after =>
    rw [after]
    have registered : Stakes (s.registered secp bls keys auth commission) :=
      stakes.congr (fun other => validator_field s (s.lastValId + 1) other ValExecution.stake rfl)
        fun _ _ => rfl
    exact registered.joined _ _ _
  | leave valId amount withdrawalId address leavable after =>
    rw [after]
    exact stakes.left leavable

theorem changed (numbered : s.Numbered) (change : Change regime s t) : Stakes t := by
  cases change with
  | action _ action => exact stakes.kept schedule numbered action.stakeChange
  | epochChange _ nextEpoch _ _ _ =>
    rw [enterEpoch_eq]
    exact stakes.congr (fun _ => rfl) fun _ _ => rfl
  | infoLog _ lines => exact stakes.congr (fun _ => rfl) fun _ _ => rfl

theorem evolved (evolves : Evolves regime s t) (numbered : t.Numbered) : Stakes t := by
  induction evolves with
  | refl => exact stakes
  | tail earlier change ih =>
    have before := change.numbered numbered
    exact (ih before).changed (schedule.evolved earlier) before change

end

theorem empty (balance : Address → Nat) : Stakes (emptyContract balance) := by
  intro valId
  simp [emptyContract, total]

theorem total_lt (stakes : Stakes s) (references : References s) (valId : ValId)
    (address : Address) : (s.delegator valId address).total < 2 ^ 256 := by
  have fits := references.fits valId
  have bound := le_sum (fun address => (s.delegator valId address).total) address
  rw [stakes valId] at fits
  exact bound.trans_lt fits

end Stakes

end MonadChain.Staking
