import MonadChain.Staking.PendingStake

/-!
The balance of the staking contract covers its ledgers exactly. Every action
changes the surplus by its label, the actions of an operation free nothing in
total, and no action of a failing operation has spent more than was freed.
-/

namespace MonadChain.Staking

open Maps Outcome State

variable {freed : Int}

namespace State

def validatorFunds (s : State) : Nat :=
  ∑ valId, ((s.valExecution valId).stake + (s.valExecution valId).unclaimedRewards)

def recordedRewards (s : State) : Nat := ∑ valId, ∑ address, (s.delegator valId address).rewards

def openWithdrawals (s : State) : Nat :=
  ∑ valId, ∑ address, ∑ id, (s.withdrawalRequest valId address id).amount

/-- What the contract owes: stake and undistributed rewards of the validators,
rewards recorded for delegators, and open withdrawals. -/
def liabilities (s : State) : Nat := s.validatorFunds + s.recordedRewards + s.openWithdrawals

def surplus (s : State) : Int := s.balance stakingCa - s.liabilities

end State

variable {revision : MonadRevision} {s t : State} {valId : ValId} {address : Address}

theorem surplus_congr (validators : t.valExecution = s.valExecution)
    (delegators : t.delegator = s.delegator)
    (requests : t.withdrawalRequest = s.withdrawalRequest) (balance : t.balance = s.balance) :
    t.surplus = s.surplus := by
  unfold surplus liabilities validatorFunds recordedRewards
    openWithdrawals
  rw [validators, delegators, requests, balance]

def owed (val : ValExecution) (del : Delegator) (request : WithdrawalRequest) : Nat :=
  val.stake + val.unclaimedRewards + del.rewards + request.amount

theorem surplus_change (valId : ValId) (address : Address) (id : WithdrawalId)
    {val : ValExecution} {del : Delegator} {request : WithdrawalRequest}
    (validators : t.valExecution = Function.update s.valExecution valId val)
    (delegators : t.delegator = update2 s.delegator valId address del)
    (requests : t.withdrawalRequest = update3 s.withdrawalRequest valId address id request)
    (balance : t.balance = s.balance)
    (account : (owed (s.valExecution valId) (s.delegator valId address)
        (s.withdrawalRequest valId address id) : Int) = owed val del request + freed) :
    t.surplus = s.surplus + freed := by
  have funds : t.validatorFunds +
      ((s.valExecution valId).stake + (s.valExecution valId).unclaimedRewards) =
        s.validatorFunds + (val.stake + val.unclaimedRewards) := by
    unfold validatorFunds
    rw [validators]
    exact sum_update s.valExecution (fun val => val.stake + val.unclaimedRewards) valId val
  have recorded : t.recordedRewards + (s.delegator valId address).rewards =
      s.recordedRewards + del.rewards := by
    unfold recordedRewards
    rw [delegators]
    exact sum2_update2 s.delegator Delegator.rewards valId address del
  have withdrawals : t.openWithdrawals + (s.withdrawalRequest valId address id).amount =
      s.openWithdrawals + request.amount := by
    unfold openWithdrawals
    rw [requests]
    exact sum3_update3 s.withdrawalRequest WithdrawalRequest.amount valId address id request
  unfold owed at account
  unfold surplus liabilities
  rw [balance]
  omega

theorem surplus_joined (s : State) (valId : ValId) (stake : Nat) (address : Address) :
    (s.joined revision valId stake address).surplus = s.surplus + -stake := by
  have same : ((s.delegator valId address).withPending s.inEpochDelayPeriod stake
      s.getActivationEpoch).rewards = (s.delegator valId address).rewards := by
    unfold Delegator.withPending
    split <;> rfl
  refine surplus_change valId address 0 rfl rfl
    (update3_eq_self s.withdrawalRequest valId address 0).symm rfl ?_
  simp only [owed, ValExecution.clearFlags, logged, withPending, same]
  omega

theorem surplus_left {amount : Nat} {withdrawalId : WithdrawalId}
    (leavable : s.Leavable valId amount withdrawalId address) :
    (s.left revision valId amount withdrawalId address).surplus = s.surplus := by
  have bounded := leavable.bounded
  rw [← add_zero s.surplus]
  refine surplus_change valId address withdrawalId rfl
    (left_delegator s valId address amount withdrawalId) rfl rfl ?_
  simp only [owed, ValExecution.setFlags, reduced, leavable.fresh]
  omega

theorem surplus_action (action : Action revision freed s t) : t.surplus = s.surplus + freed := by
  cases action with
  | promote _ valId address ready =>
    refine surplus_change valId address 0 (Function.update_eq_self valId s.valExecution).symm rfl
      (update3_eq_self s.withdrawalRequest valId address 0).symm rfl ?_
    simp [owed, promoteDelta]
  | compound _ valId address _ _ solvent =>
    refine surplus_change valId address 0 rfl rfl
      (update3_eq_self s.withdrawalRequest valId address 0).symm rfl ?_
    simp only [owed, dropReference, payFromPool]
    omega
  | settle _ valId address _ _ _ solvent =>
    refine surplus_change valId address 0 rfl rfl
      (update3_eq_self s.withdrawalRequest valId address 0).symm rfl ?_
    simp only [owed, payFromPool]
    omega
  | takeRewards _ valId address =>
    refine surplus_change valId address 0 (Function.update_eq_self valId s.valExecution).symm rfl
      (update3_eq_self s.withdrawalRequest valId address 0).symm rfl ?_
    simp only [owed]
    omega
  | join _ valId stake address _ => exact surplus_joined s valId stake address
  | enroll _ secp bls keys auth commission stake _ _ _ _ _ =>
    rw [surplus_joined]
    have registered : (s.registered secp bls keys auth commission).surplus = s.surplus + 0 := by
      refine surplus_change (s.lastValId + 1) auth 0 rfl
        (update2_eq_self s.delegator (s.lastValId + 1) auth).symm
        (update3_eq_self s.withdrawalRequest (s.lastValId + 1) auth 0).symm rfl ?_
      simp [owed]
    rw [registered, add_zero]
  | leave _ valId amount withdrawalId address leavable =>
    rw [add_zero]
    exact surplus_left leavable
  | withdraw _ valId address withdrawalId _ _ _ solvent =>
    refine surplus_change valId address withdrawalId rfl
      (update2_eq_self s.delegator valId address).symm rfl rfl ?_
    simp only [owed, dropReference]
    omega
  | balances _ balance =>
    have same : ({ s with balance := balance } : State).liabilities = s.liabilities := rfl
    simp only [surplus, same]
    omega
  | commission _ valId commission _ =>
    refine surplus_change valId (s.valExecution valId).authAddress 0
      (Function.update_eq_self valId s.valExecution).symm rfl
      (update3_eq_self s.withdrawalRequest valId _ 0).symm rfl ?_
    simp only [owed]
    omega
  | reward _ valId sender reward _ _ =>
    refine surplus_change valId 0 0 rfl (update2_eq_self s.delegator valId 0).symm
      (update3_eq_self s.withdrawalRequest valId 0 0).symm rfl ?_
    simp only [owed]
    omega
  | propose _ valId _ | log _ event =>
    rw [add_zero]
    exact surplus_congr rfl rfl rfl rfl
  | changeCommission _ valId commission _ _ =>
    refine surplus_change valId 0 0 rfl (update2_eq_self s.delegator valId 0).symm
      (update3_eq_self s.withdrawalRequest valId 0 0).symm rfl ?_
    simp [owed]
  | snapshot _ _ =>
    rw [add_zero, snapshotTaken_eq]
    exact surplus_congr rfl rfl rfl rfl

theorem surplus_moves (moves : Moves revision freed s t) : t.surplus = s.surplus + freed :=
  moves.measure fun _ _ _ action => surplus_action action

variable {crypto : Crypto} {start : State} {balance : Address → Nat}

theorem surplus_step (step : Step crypto revision s t) (registry : Registry s) :
    t.surplus = s.surplus := by
  cases step with
  | run operation =>
    rcases step_cases revision crypto operation registry with
      transition | ⟨failure, failed, -, -, undone⟩
    · generalize step crypto revision operation s = after at transition
      cases transition with
      | actions moves => rw [surplus_moves moves, add_zero]
      | epochChange nextEpoch _ _ =>
        rw [enterEpoch_eq]
        exact surplus_congr rfl rfl rfl rfl
    · rw [undone]
      exact surplus_congr rfl rfl rfl rfl

theorem surplus_reachable (reachable : Reachable crypto start s) (registry : Registry start) :
    s.surplus = start.surplus := by
  induction reachable with
  | refl => rfl
  | tail earlier last ih =>
    obtain ⟨revision, step⟩ := last
    rw [surplus_step step (registry.evolved (Reachable.evolves earlier registry)), ih]

theorem liabilities_empty (balance : Address → Nat) : (emptyContract balance).liabilities = 0 := by
  simp [liabilities, validatorFunds, recordedRewards, openWithdrawals, emptyContract]

theorem surplus_empty (balance : Address → Nat) :
    (emptyContract balance).surplus = balance stakingCa := by
  unfold surplus
  rw [liabilities_empty]
  exact Int.sub_zero _

theorem unclaimed_le_funds (s : State) (valId : ValId) :
    (s.valExecution valId).unclaimedRewards ≤ s.validatorFunds :=
  (Nat.le_add_left _ _).trans (le_sum (fun valId =>
    (s.valExecution valId).stake + (s.valExecution valId).unclaimedRewards) valId)

theorem rewards_le_recorded (s : State) (valId : ValId) (address : Address) :
    (s.delegator valId address).rewards ≤ s.recordedRewards :=
  (le_sum (fun address => (s.delegator valId address).rewards) address).trans
    (le_sum (fun valId => ∑ address, (s.delegator valId address).rewards) valId)

theorem amount_le_withdrawals (s : State) (valId : ValId) (address : Address) (id : WithdrawalId) :
    (s.withdrawalRequest valId address id).amount ≤ s.openWithdrawals :=
  (le_sum (fun id => (s.withdrawalRequest valId address id).amount) id).trans
    ((le_sum (fun address => ∑ id, (s.withdrawalRequest valId address id).amount) address).trans
      (le_sum (fun valId => ∑ address, ∑ id, (s.withdrawalRequest valId address id).amount) valId))

theorem not_unfunded (covered : 0 ≤ s.surplus) :
    ¬ Fault s (.assertion "withdrawal insolvent") ∧
      ¬ Fault s (.assertion "balance underflow") := by
  unfold surplus liabilities at covered
  constructor
  · intro fault
    generalize named : Failure.assertion "withdrawal insolvent" = failure at fault
    cases fault with
    | expected listed =>
      subst named
      exact absurd listed (by decide)
    | unfundedWithdrawal solvent short =>
      rename_i valId address withdrawalId
      have pool := unclaimed_le_funds s valId
      have amount := amount_le_withdrawals s valId address withdrawalId
      omega
    | _ => simp at named
  · intro fault
    generalize named : Failure.assertion "balance underflow" = failure at fault
    cases fault with
    | expected listed =>
      subst named
      exact absurd listed (by decide)
    | unfundedRewards short =>
      rename_i valId address
      have recorded := rewards_le_recorded s valId address
      omega
    | _ => simp at named

/-- Only the position of one delegator with one validator has changed, and what
it took from the pool of that validator. -/
structure OnlyPosition (valId : ValId) (address : Address) (before after : State) : Prop where
  delegators : ∀ v a, ¬ (v = valId ∧ a = address) → after.delegator v a = before.delegator v a
  requests : after.withdrawalRequest = before.withdrawalRequest
  stakes : ∀ v, (after.valExecution v).stake = (before.valExecution v).stake
  pools : ∀ v, v ≠ valId →
    (after.valExecution v).unclaimedRewards = (before.valExecution v).unclaimedRewards

namespace OnlyPosition

variable {valId : ValId} {address : Address} {t : State}

theorem paid (only : OnlyPosition valId address s t) (rewards : Nat)
    (change : Delegator → Delegator) : OnlyPosition valId address s
      ((t.payFromPool valId address rewards).updateDelegator valId address change) := by
  refine ⟨fun v a other => ?_, only.requests, fun v => ?_, fun v other => ?_⟩
  · rw [← only.delegators v a other]
    exact if_neg other
  · rw [← only.stakes v]
    by_cases same : v = valId
    · subst same
      simp [updateDelegator, payFromPool]
    · simp [updateDelegator, payFromPool, same]
  · rw [← only.pools v other]
    simp [updateDelegator, payFromPool, other]

theorem pulled (s : State) (valId : ValId) (address : Address) :
    OnlyPosition valId address s (s.pulled valId address) := by
  apply pulled_keeps (OnlyPosition valId address s)
  · intro t only
    refine ⟨fun v a other => ?_, only.requests, only.stakes, only.pools⟩
    rw [← only.delegators v a other]
    exact if_neg other
  · intro t only
    have dropped : OnlyPosition valId address s
        (t.dropReference (t.delegator valId address).deltaEpoch valId) :=
      ⟨only.delegators, only.requests, only.stakes, only.pools⟩
    unfold compounded
    exact dropped.paid ..
  · intro t only
    unfold settled
    exact only.paid ..
  · exact ⟨fun _ _ _ => rfl, rfl, fun _ => rfl, fun _ _ => rfl⟩

end OnlyPosition

theorem pulled_balance (s : State) (valId : ValId) (address : Address) :
    (s.pulled valId address).balance = s.balance := by
  apply pulled_keeps fun t => t.balance = s.balance
  · exact fun _ same => same
  · exact fun _ same => same
  · exact fun _ same => same
  · rfl

theorem claimRewards_own (input : Bytes) (sender : Address) (value : Nat)
    (different : sender ≠ stakingCa) :
    Holds (precompileClaimRewards input sender value) s
      (fun _ after => value = 0 ∧ ∃ valId, OnlyPosition valId sender s after ∧
        after.balance stakingCa + ((s.pulled valId sender).delegator valId sender).rewards =
          s.balance stakingCa) (fun _ _ => True) := by
  simp only [precompileClaimRewards, functionNotPayable, inputConsumed, holds_bind, holds_failIf]
  refine ⟨fun _ => trivial, fun free => ?_⟩
  refine decodeU64_decodes.holds input (fun valId rest => ?_) (fun _ => trivial)
  refine ⟨fun _ => trivial, fun _ => ?_⟩
  apply (pull_spec .ten valId sender).mono
  · rintro _ middle ⟨same, -, -⟩
    have only := OnlyPosition.pulled s valId sender
    have funds := congrFun (pulled_balance s valId sender) stakingCa
    rw [← same] at only funds
    simp only [countPaid, holds_get, holds_onlyIf, holds_bind, holds_pure]
    constructor
    · intro _
      apply (sendTokens_spec sender _ different).mono
      · rintro _ sent ⟨balance, rfl, change⟩
        refine ⟨not_not.mp free, valId, ⟨fun v a other => ?_, only.requests, only.stakes,
          only.pools⟩, ?_⟩
        · rw [← only.delegators v a other]
          exact if_neg other
        · rw [← funds, ← same]
          simp only [updateDelegator, updateHistory]
          omega
      · exact fun _ _ _ => trivial
    · intro empty
      refine ⟨not_not.mp free, valId, only, ?_⟩
      rw [funds, ← same, not_not.mp empty, Nat.add_zero]
  · exact fun _ _ _ => trivial

/-- The contract holds what it started with and exactly what it owes, so no
withdrawal and no claim is paid out of other funds. -/
theorem balance_conserved (reachable : Reachable crypto (emptyContract balance) s) :
    s.balance stakingCa = balance stakingCa + s.liabilities ∧
    (∀ revision (operation : Operation) failed, operation.execute crypto revision s ≠
      .error (.assertion "withdrawal insolvent") failed) ∧
    ∀ input sender value, sender ≠ stakingCa →
      (∀ failed, precompileClaimRewards input sender value s ≠
        .error (.assertion "balance underflow") failed) ∧
      ∀ output after, precompileClaimRewards input sender value s = .ok output after →
        after.balance stakingCa = balance stakingCa + after.liabilities ∧
        ∃ valId, OnlyPosition valId sender s after ∧
          after.balance stakingCa + ((s.pulled valId sender).delegator valId sender).rewards =
            s.balance stakingCa := by
  have registry := Registry.empty balance
  have registryHere := registry.evolved (reachable.evolves registry)
  have conserved := surplus_reachable reachable registry
  rw [surplus_empty] at conserved
  refine ⟨?_, ?_, ?_⟩
  · unfold surplus at conserved
    omega
  · intro revision operation failed error
    obtain ⟨freed, middle, nonneg, moves, fault, -⟩ :=
      (execute_spec revision crypto operation registryHere).of_error error
    have covered := surplus_moves moves
    exact (not_unfunded (by omega)).1 fault
  · intro input sender value different
    constructor
    · intro failed error
      obtain ⟨freed, middle, nonneg, moves, fault, -⟩ :=
        (precompileClaimRewards_spec .ten input sender value different).of_error error
      have covered := surplus_moves moves
      exact (not_unfunded (by omega)).2 fault
    · intro output after result
      obtain ⟨rfl, own⟩ := (claimRewards_own input sender value different).of_ok result
      have moves := (precompileClaimRewards_spec .ten input sender 0 different).of_ok result
      have covered := surplus_moves moves
      refine ⟨?_, own⟩
      rw [conserved] at covered
      unfold surplus at covered
      omega

/-- The delegator of the first validator takes 3 of 5 out, after a reward of 1. -/
def withdrawals : List Operation :=
  samplePositions ++ [takeSnapshot, changeEpoch 1,
    .syscall (storeBe 4 0x791bdcf3 ++ storeBe 32 1) mon,
    callFrom 0xcc 0 (storeBe 4 0x5cf41514 ++ storeBe 32 1 ++ storeBe 32 (3 * mon) ++ storeBe 32 7)
      sample_ne, takeSnapshot, changeEpoch 2, changeEpoch 3,
    callFrom 0xcc 0 (storeBe 4 0xaed2ee73 ++ storeBe 32 1 ++ storeBe 32 7) sample_ne]

theorem balance_conserved_sample : (sampleRun withdrawals).liabilities = 50000003 * mon := by
  have conserved := (balance_conserved (sampleRun_reachable withdrawals)).1
  have held : (sampleRun withdrawals).balance stakingCa = 50000003 * mon := by decide +kernel
  rw [held, sampleBalance, Nat.zero_add] at conserved
  exact conserved.symm

end MonadChain.Staking
