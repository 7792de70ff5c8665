import MonadChain.Staking.Schedule

/-!
The pending stake of a delegator as a state machine: its two slots, the
assertion of `pull_delegator_up_to_date`, and a second pull that finds nothing
left to do.
-/

namespace MonadChain.Staking

open Maps Outcome State

variable {s : State} {valId : ValId} {address : Address}

theorem calculateRewards_same (stake acc : Nat) : calculateRewards stake acc acc = .ok 0 := by
  simp [calculateRewards, checkedSub, checkedMulDiv, checkedMul, checkedDiv, bind, Except.bind,
    unitBias]

theorem stakeRewards_current (current : (s.delegator valId address).accumulatedRewardPerToken =
    (s.valExecution valId).accumulatedRewardPerToken) : s.stakeRewards valId address = 0 := by
  simp [stakeRewards, rewardsOf, current]

theorem promoteDelta_empty {del : Delegator} (deltaEpoch : del.deltaEpoch = 0)
    (delta : del.deltaStake = 0) (nextEpoch : del.nextDeltaEpoch = 0)
    (next : del.nextDeltaStake = 0) : promoteDelta del = del := by
  cases del
  simp_all [promoteDelta]

theorem readied_idle (idle : s.Idle valId address)
    (numbered : (s.delegator valId address).deltaEpoch = 0 →
      (s.delegator valId address).deltaStake = 0) : s.readied valId address = s := by
  unfold readied
  split
  · rename_i ready
    obtain ⟨nextEpoch, nextStake⟩ := idle.promoted ready
    have same := promoteDelta_empty ready.1 (numbered ready.1) nextEpoch nextStake
    simp [promoted, updateDelegator, same]
  · rfl

theorem settled_current (current : (s.delegator valId address).accumulatedRewardPerToken =
    (s.valExecution valId).accumulatedRewardPerToken) :
    { s.settled valId address with history := s.history } = s := by
  have same : { s.delegator valId address with
      accumulatedRewardPerToken := (s.valExecution valId).accumulatedRewardPerToken } =
        s.delegator valId address := by
    rw [← current]
  simp [settled, updateDelegator, payFromPool, stakeRewards_current current, same]

theorem pull_again (pulled : s.Pulled valId address)
    (numbered : (s.delegator valId address).deltaEpoch = 0 →
      (s.delegator valId address).deltaStake = 0) :
    ∃ again, pullDelegatorUpToDate valId address s = .ok () again ∧
      { again with history := s.history } = s := by
  have run : Holds (pullDelegatorUpToDate valId address) s
      (fun _ again => { again with history := s.history } = s) fun _ _ => False := by
    rw [holds_pull, readied_idle pulled.toIdle numbered]
    simp only [compoundPending, holds_bind, holds_get, holds_onlyIf]
    refine ⟨fun next => absurd next pulled.next, fun _ =>
      ⟨fun delta => absurd delta pulled.delta, fun _ => ⟨fun staked => ?_, fun _ => trivial⟩⟩⟩
    have current := pulled.current staked
    have unchanged := settled_current current
    simp only [settleStake, recordRewards, countSettlement, holds_bind, holds_get,
      holds_checkedAdd, holds_ofMath (calculateRewards _ _ _), holds_modify, holds_rewardInvariant]
    rw [current, calculateRewards_same]
    refine ⟨?_, fun _ impossible => by cases impossible⟩
    intro rewards zero
    cases zero
    refine ⟨fun _ => ⟨fun _ => ?_, fun above => above (pulled.recorded staked)⟩,
      fun short => absurd short (Nat.not_lt_zero _)⟩
    simpa [settled, payFromPool, updateDelegator, updateValidator,
      updateHistory, stakeRewards_current current] using unchanged
  obtain ⟨_, again, result, same⟩ := run.returned
  exact ⟨again, result, same⟩

theorem State.Numbered.not_exhausted (numbered : s.Numbered) :
    ¬ Exhausted s.epoch s.inEpochDelayPeriod := by
  have bounds := activationDelay_le s.inEpochDelayPeriod
  unfold State.Numbered at numbered
  unfold Exhausted
  omega

section

variable (schedule : Schedule s) (numbered : s.Numbered)

include schedule numbered

theorem Schedule.delta_unused (unused : (s.delegator valId address).deltaEpoch = 0) :
    (s.delegator valId address).deltaStake = 0 :=
  ((schedule.delegators valId address).deltaNumbered unused).resolve_right numbered.not_exhausted

theorem Schedule.next_unused (unused : (s.delegator valId address).nextDeltaEpoch = 0) :
    (s.delegator valId address).nextDeltaStake = 0 :=
  ((schedule.delegators valId address).nextNumbered unused).resolve_right numbered.not_exhausted

theorem Schedule.not_skipped : ¬ Fault s (.assertion "staking compound logic error") := by
  intro fault
  generalize named : Failure.assertion "staking compound logic error" = failure at fault
  cases fault with
  | expected listed =>
    subst named
    exact absurd listed (by decide)
  | skipped next delta promoted =>
    rename_i valId address
    have scheduled := schedule.delegators valId address
    by_cases unused : (s.delegator valId address).deltaEpoch = 0
    · have ready : canPromoteDelta (s.delegator valId address) s.epoch := by
        refine ⟨unused, ?_⟩
        have active := next.2
        unfold State.Numbered at numbered
        unfold epochAfter
        omega
      exact next.1 (promoted ready)
    · have order := scheduled.consecutive unused next.1
      have active := next.2
      exact delta ⟨unused, by omega⟩
  | _ => simp at named

end

variable {crypto : Crypto} {balance : Address → Nat}

/-- The pending stake of every delegator, the unreachable assertion, and a pull that leaves
nothing to do. Where the epochs can still be numbered, a slot is used with its epoch only. The
settlements counted in `history` are no data of the contract. -/
theorem pending_stake_scheduled (reachable : Reachable crypto (emptyContract balance) s) :
    (∀ valId address, let del := s.delegator valId address
      (del.deltaStake = 0 → del.deltaEpoch = 0) ∧
      (del.nextDeltaStake = 0 → del.nextDeltaEpoch = 0) ∧
      (s.Numbered → (del.deltaEpoch = 0 → del.deltaStake = 0) ∧
        (del.nextDeltaEpoch = 0 → del.nextDeltaStake = 0)) ∧
      del.deltaEpoch ≤ s.epoch + 1 ∧ del.nextDeltaEpoch ≤ s.epoch + 2 ∧
      (del.deltaEpoch ≠ 0 → del.nextDeltaEpoch ≠ 0 →
        del.nextDeltaEpoch = del.deltaEpoch + 1) ∧
      Sized del.stake ∧ Sized del.deltaStake ∧ Sized del.nextDeltaStake) ∧
    (s.Numbered → ∀ revision (operation : Operation) failed,
      operation.execute crypto revision s ≠
        .error (.assertion "staking compound logic error") failed) ∧
    ∀ valId address after, pullDelegatorUpToDate valId address s = .ok () after →
      ¬ after.isEpochActive (after.delegator valId address).deltaEpoch ∧
      ¬ after.isEpochActive (after.delegator valId address).nextDeltaEpoch ∧
      (s.Numbered → ∃ again, pullDelegatorUpToDate valId address after = .ok () again ∧
        { again with history := after.history } = after) := by
  have registry := Registry.empty balance
  have evolves := reachable.evolves registry
  have schedule := (Schedule.empty balance).evolved evolves
  refine ⟨?_, ?_, ?_⟩
  · intro valId address
    have scheduled := schedule.delegators valId address
    have bounds := activationDelay_le s.inEpochDelayPeriod
    have nextSoon := scheduled.nextSoon
    exact ⟨scheduled.deltaUsed, scheduled.nextUsed,
      fun numbered => ⟨schedule.delta_unused numbered, schedule.next_unused numbered⟩,
      scheduled.deltaSoon, by omega,
      scheduled.consecutive, scheduled.stakeSized, scheduled.deltaSized, scheduled.nextSized⟩
  · intro numbered revision operation failed error
    obtain ⟨middle, onward, sameEpoch, fault⟩ :=
      fault_of_error .free (registry.evolved evolves) trivial error
    have numberedMiddle : middle.Numbered := by
      unfold State.Numbered at numbered ⊢
      rwa [sameEpoch]
    exact (schedule.evolved onward).not_skipped numberedMiddle fault
  · intro valId address after result
    obtain ⟨-, moves, pulled⟩ := (pull_spec .ten valId address).of_ok result
    have onward : Evolves .free s after := .ofMoves trivial moves
    refine ⟨pulled.delta, pulled.next, fun numbered => ?_⟩
    have numberedAfter : after.Numbered := by
      unfold State.Numbered at numbered ⊢
      rwa [moves.epoch_eq]
    exact pull_again pulled ((schedule.evolved onward).delta_unused numberedAfter)

/-- All keys and signatures are valid, and keys are hashed to their first bytes. -/
def sampleCrypto : Crypto where
  secpPubkeyValid _ := true
  secpSerialize key := 0 :: key
  secpSignatureValid _ := true
  secpVerify _ _ _ := true
  blsPubkeyValid _ := true
  blsSerialize key := key
  blsSignatureValid _ := true
  blsVerify _ _ _ := true
  keccak256 := List.take 32

def callFrom (sender : Address) (value : Nat) (input : Bytes) (notSelf : sender ≠ stakingCa) :
    Operation :=
  .call { gas := 1000000, sender := sender, value := value, input := input, notSelf := notSelf }

def addSample (key : Nat) (auth : Address) (stake : Nat) (notSelf : auth ≠ stakingCa) : Operation :=
  callFrom auth stake
    (storeBe 4 0xf145204c ++ storeBe 32 96 ++ storeBe 32 320 ++ storeBe 32 416 ++
      abiEncodeBytes (storeBe 33 (256 * key) ++ storeBe 48 (2 ^ 128 * key) ++
        storeBe 20 auth.toNat ++ storeBe 32 stake ++ storeBe 32 (mon / 10)) ++
      abiEncodeBytes (List.replicate 64 1) ++ abiEncodeBytes (List.replicate 96 1)) notSelf

def changeEpoch (nextEpoch : Nat) : Operation :=
  .syscall (storeBe 4 0x1d4e9f02 ++ storeBe 32 nextEpoch) 0

def takeSnapshot : Operation := .syscall (storeBe 4 0x157eeb21) 0

theorem sample_ne : (0xcc : Address) ≠ stakingCa := by decide

def delegateSample : Operation :=
  callFrom 0xcc (5 * mon) (storeBe 4 0x84994fec ++ storeBe 32 1) sample_ne

def claimSample (sender : Address) (notSelf : sender ≠ stakingCa) : Operation :=
  callFrom sender 0 (storeBe 4 0xa76e2ca5 ++ storeBe 32 1) notSelf

def samplePositions : List Operation :=
  [addSample 1 0xaa (20000000 * mon) (by decide), addSample 2 0xbb (30000000 * mon) (by decide),
    delegateSample]

def sampleBalance : Address → Nat := fun _ => 0

def sampleRun (operations : List Operation) : State :=
  runAll sampleCrypto .ten operations (emptyContract sampleBalance)

theorem sampleRun_reachable (operations : List Operation) :
    Reachable sampleCrypto (emptyContract sampleBalance) (sampleRun operations) :=
  runAll_reachable operations _

theorem sampleRun_under (operations : List Operation) :
    ReachableUnder sampleCrypto .ten (emptyContract sampleBalance) (sampleRun operations) :=
  runAll_under operations _

theorem pending_stake_scheduled_sample :
    (sampleRun (samplePositions ++ [takeSnapshot, delegateSample])).Numbered ∧
      ∀ failed, (claimSample 0xcc (by decide)).execute sampleCrypto .ten
        (sampleRun (samplePositions ++ [takeSnapshot, delegateSample])) ≠
          .error (.assertion "staking compound logic error") failed :=
  have numbered := by decide +kernel
  ⟨numbered, (pending_stake_scheduled (sampleRun_reachable _)).2.1 numbered _ _⟩

/-- At the last epoch the activation epoch of new stake wraps to zero, or to one in the delay
period, and then the assertion fails. -/
theorem pending_stake_wraps : ∃ s delayed,
    Reachable sampleCrypto (emptyContract sampleBalance) s ∧
    (s.delegator 1 0xcc).deltaEpoch = 0 ∧ (s.delegator 1 0xcc).deltaStake ≠ 0 ∧
    Reachable sampleCrypto (emptyContract sampleBalance) delayed ∧
    ∃ failed, (claimSample 0xcc (by decide)).execute sampleCrypto .ten delayed =
      .error (.assertion "staking compound logic error") failed := by
  refine ⟨sampleRun (changeEpoch (2 ^ 64 - 1) :: samplePositions),
    sampleRun (changeEpoch (2 ^ 64 - 1) :: samplePositions.take 2 ++
      [takeSnapshot, delegateSample]),
    sampleRun_reachable _, by decide +kernel, by decide +kernel, sampleRun_reachable _, ?_⟩
  have stops : (match (claimSample 0xcc (by decide)).execute sampleCrypto .ten
      (sampleRun (changeEpoch (2 ^ 64 - 1) :: samplePositions.take 2 ++
        [takeSnapshot, delegateSample])) with
    | .error failure _ => some failure
    | .ok _ _ => none) = some (.assertion "staking compound logic error") := by decide +kernel
  split at stops
  · rename_i failed ended
    cases stops
    exact ⟨failed, ended⟩
  · cases stops

end MonadChain.Staking
