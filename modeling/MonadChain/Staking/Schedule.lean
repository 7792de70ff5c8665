import MonadChain.Staking.Runs

/-!
When pending stake becomes active. A delegator has at most two pending slots, for the coming epoch
and the one after; a slot is used exactly while it has an epoch, until the activation epoch leaves
the 64-bit range.
-/

namespace MonadChain.Staking

open Maps Outcome

variable {stake amount : Nat} {valId : ValId} {address : Address}

def Sized (amount : Nat) : Prop := amount = 0 ∨ dustThreshold ≤ amount

def activationDelay (delay : Bool) : Nat := if delay then 2 else 1

/-- The activation epoch of new stake has wrapped. -/
def Exhausted (epoch : Nat) (delay : Bool) : Prop := 2 ^ 64 ≤ epoch + activationDelay delay

structure Delegator.Scheduled (epoch : Nat) (delay : Bool) (del : Delegator) : Prop where
  deltaUsed : del.deltaStake = 0 → del.deltaEpoch = 0
  nextUsed : del.nextDeltaStake = 0 → del.nextDeltaEpoch = 0
  deltaNumbered : del.deltaEpoch = 0 → del.deltaStake = 0 ∨ Exhausted epoch delay
  nextNumbered : del.nextDeltaEpoch = 0 → del.nextDeltaStake = 0 ∨ Exhausted epoch delay
  deltaSoon : del.deltaEpoch ≤ epoch + 1
  nextSoon : del.nextDeltaEpoch ≤ epoch + activationDelay delay
  deltaFits : del.deltaEpoch < 2 ^ 64
  nextFits : del.nextDeltaEpoch < 2 ^ 64
  consecutive : del.deltaEpoch ≠ 0 → del.nextDeltaEpoch ≠ 0 →
    del.nextDeltaEpoch = del.deltaEpoch + 1
  stakeSized : Sized del.stake
  deltaSized : Sized del.deltaStake
  nextSized : Sized del.nextDeltaStake

def WithdrawalRequest.Scheduled (epoch : Nat) (delay : Bool) (request : WithdrawalRequest) : Prop :=
  request = {} ∨ request.amount ≠ 0 ∧ request.epoch ≤ epoch + activationDelay delay ∧
    request.epoch < 2 ^ 64 ∧ (request.epoch = 0 → Exhausted epoch delay)

structure Schedule (s : State) : Prop where
  epochFits : s.epoch < 2 ^ 64
  delegators : ∀ valId address,
    (s.delegator valId address).Scheduled s.epoch s.inEpochDelayPeriod
  requests : ∀ valId address withdrawalId,
    (s.withdrawalRequest valId address withdrawalId).Scheduled s.epoch s.inEpochDelayPeriod

variable {revision : MonadRevision} {regime : Regime} {s t : State} {epoch later : Nat}
  {delay after : Bool} {del : Delegator} {request : WithdrawalRequest}

theorem activationDelay_le (delay : Bool) :
    1 ≤ activationDelay delay ∧ activationDelay delay ≤ 2 := by
  cases delay <;> decide

theorem getActivationEpoch_eq (s : State) :
    s.getActivationEpoch = (s.epoch + activationDelay s.inEpochDelayPeriod) % 2 ^ 64 := by
  unfold State.getActivationEpoch epochAfter activationDelay
  split <;> rfl

theorem Sized.zero : Sized 0 := .inl rfl

theorem Sized.add {old new : Nat} (oldSized : Sized old) (newSized : Sized new) :
    Sized (old + new) := by
  unfold Sized at *
  omega

theorem dustThreshold_pos : 0 < dustThreshold := by decide

namespace Delegator.Scheduled

theorem blank (epoch : Nat) (delay : Bool) : Scheduled epoch delay {} := by
  constructor <;> simp [Sized]

section

variable (scheduled : del.Scheduled epoch delay)

include scheduled

theorem congr {new : Delegator}
    (stake : new.stake = del.stake) (delta : new.deltaStake = del.deltaStake)
    (next : new.nextDeltaStake = del.nextDeltaStake) (deltaEpoch : new.deltaEpoch = del.deltaEpoch)
    (nextEpoch : new.nextDeltaEpoch = del.nextDeltaEpoch) : new.Scheduled epoch delay := by
  obtain ⟨a, b, c, d, e, f, g, h, i, j, k, l⟩ := scheduled
  constructor <;> simp only [stake, delta, next, deltaEpoch, nextEpoch] <;> assumption

theorem shifted {stake : Nat} (soon : del.nextDeltaEpoch ≤ epoch + 1) (sized : Sized stake) :
    { promoteDelta del with stake }.Scheduled epoch delay := by
  constructor <;> simp only [promoteDelta, ne_eq, not_true_eq_false, false_implies, implies_true,
    true_or, Nat.zero_le]
  · exact scheduled.nextUsed
  · exact scheduled.nextNumbered
  · exact soon
  · exact scheduled.nextFits
  · decide
  · exact sized
  · exact scheduled.nextSized
  · exact .zero

theorem promoted (ready : canPromoteDelta del epoch) : (promoteDelta del).Scheduled epoch delay :=
  scheduled.shifted (ready.2.trans (Nat.mod_le _ _)) scheduled.stakeSized

theorem compounded (used : del.deltaEpoch ≠ 0) (active : del.deltaEpoch ≤ epoch) :
    { promoteDelta del with stake := del.stake + del.deltaStake }.Scheduled epoch delay := by
  refine scheduled.shifted ?_ (scheduled.stakeSized.add scheduled.deltaSized)
  by_cases empty : del.nextDeltaEpoch = 0
  · omega
  · have := scheduled.consecutive used empty
    omega

theorem slots (idleDelta : ¬ (del.deltaEpoch ≠ 0 ∧ del.deltaEpoch ≤ epoch))
    (idleNext : ¬ (del.nextDeltaEpoch ≠ 0 ∧ del.nextDeltaEpoch ≤ epoch))
    (promoted : canPromoteDelta del epoch → del.nextDeltaEpoch = 0 ∧ del.nextDeltaStake = 0) :
    (del.deltaEpoch = 0 ∨ del.deltaEpoch = epoch + 1) ∧
      (del.nextDeltaEpoch = 0 ∨ del.nextDeltaEpoch = epoch + 2 ∧ delay = true) := by
  have deltaSoon := scheduled.deltaSoon
  have nextSoon := scheduled.nextSoon
  have nextFits := scheduled.nextFits
  have bounds := activationDelay_le delay
  have slot : del.deltaEpoch = 0 ∨ del.deltaEpoch = epoch + 1 := by omega
  refine ⟨slot, ?_⟩
  by_cases empty : del.nextDeltaEpoch = 0
  · exact .inl empty
  · right
    have notNext : del.nextDeltaEpoch ≠ epoch + 1 := by
      intro same
      rcases slot with unused | used
      · have ready : canPromoteDelta del epoch := by
          refine ⟨unused, ?_⟩
          unfold epochAfter
          rw [Nat.mod_eq_of_lt (by omega)]
          exact same.le
        exact empty (promoted ready).1
      · have := scheduled.consecutive (by omega) empty
        omega
    refine ⟨by omega, ?_⟩
    cases delay with
    | true => rfl
    | false =>
      simp only [activationDelay] at nextSoon
      simp at nextSoon
      omega

theorem joined (large : dustThreshold ≤ stake)
    (delta : del.deltaEpoch = 0 ∨ del.deltaEpoch = epoch + 1)
    (next : del.nextDeltaEpoch = 0 ∨ del.nextDeltaEpoch = epoch + 2 ∧ delay = true) :
    (del.withPending delay stake ((epoch + activationDelay delay) % 2 ^ 64)).Scheduled
      epoch delay := by
  have positive := dustThreshold_pos
  have sized : Sized stake := .inr large
  have small := Nat.mod_le (epoch + activationDelay delay) (2 ^ 64)
  have fits := Nat.mod_lt (epoch + activationDelay delay) (show 0 < 2 ^ 64 by decide)
  -- a wrapped activation epoch is the only way to number stake with 0
  have wrapped : (epoch + activationDelay delay) % 2 ^ 64 = 0 → Exhausted epoch delay := by
    intro zero
    have bounds := activationDelay_le delay
    by_contra inside
    unfold Exhausted at inside
    omega
  obtain ⟨a, b, c, d, e, f, g, h, i, j, k, l⟩ := scheduled
  cases delay with
  | true =>
    simp only [activationDelay, ↓reduceIte] at *
    constructor <;> simp only [Delegator.withPending, ↓reduceIte]
    · exact a
    · omega
    · exact c
    · exact fun zero => .inr (wrapped zero)
    · exact e
    · exact small
    · exact g
    · exact fits
    · intro used numbered
      have inside : epoch + 2 < 2 ^ 64 := by
        by_contra above
        exact numbered (by rw [show epoch + 2 = 2 ^ 64 by omega, Nat.mod_self])
      omega
    · exact j
    · exact k
    · exact l.add sized
  | false =>
    simp only [activationDelay, Bool.false_eq_true, ↓reduceIte, and_false, or_false] at *
    constructor <;> simp [Delegator.withPending]
    · omega
    · exact b
    · exact fun zero => .inr (wrapped zero)
    · exact d
    · exact small
    · exact f
    · exact fits
    · exact h
    · exact fun _ used => absurd next used
    · exact j
    · exact k.add sized
    · exact l

theorem reduced (sized : Sized stake) : { del with stake := stake }.Scheduled epoch delay := by
  obtain ⟨a, b, c, d, e, f, g, h, i, -, k, l⟩ := scheduled
  exact ⟨a, b, c, d, e, f, g, h, i, sized, k, l⟩

theorem relaxed
    (order : epoch ≤ later)
    (sooner : epoch + activationDelay delay ≤ later + activationDelay after) :
    del.Scheduled later after := by
  obtain ⟨a, b, c, d, e, f, g, h, i, j, k, l⟩ := scheduled
  have exhausted : Exhausted epoch delay → Exhausted later after :=
    fun wrapped => wrapped.trans sooner
  exact ⟨a, b, fun zero => (c zero).imp_right exhausted, fun zero => (d zero).imp_right exhausted,
    e.trans (by omega), f.trans sooner, g, h, i, j, k, l⟩

end

end Delegator.Scheduled

namespace WithdrawalRequest.Scheduled

theorem booked (epoch : Nat) (delay : Bool) (acc : Nat) (positive : 0 < amount) :
    Scheduled epoch delay
      { amount := amount, acc := acc, epoch := (epoch + activationDelay delay) % 2 ^ 64 } := by
  right
  refine ⟨positive.ne', Nat.mod_le _ _, Nat.mod_lt _ (by decide), ?_⟩
  intro zero
  have bounds := activationDelay_le delay
  by_contra inside
  unfold Exhausted at inside
  simp only at zero
  rw [Nat.mod_eq_of_lt (by omega)] at zero
  omega

theorem relaxed (scheduled : request.Scheduled epoch delay)
    (sooner : epoch + activationDelay delay ≤ later + activationDelay after) :
    request.Scheduled later after := by
  rcases scheduled with blank | ⟨amount, soon, fits, numbered⟩
  · exact .inl blank
  · exact .inr ⟨amount, soon.trans sooner, fits, fun zero => (numbered zero).trans sooner⟩

end WithdrawalRequest.Scheduled

theorem State.Idle.slots (idle : s.Idle valId address) (schedule : Schedule s) :
    ((s.delegator valId address).deltaEpoch = 0 ∨
        (s.delegator valId address).deltaEpoch = s.epoch + 1) ∧
      ((s.delegator valId address).nextDeltaEpoch = 0 ∨
        (s.delegator valId address).nextDeltaEpoch = s.epoch + 2 ∧ s.inEpochDelayPeriod = true) :=
  (schedule.delegators valId address).slots idle.delta idle.next idle.promoted

namespace Schedule

section

variable (schedule : Schedule s)

include schedule

theorem congr (epoch : t.epoch = s.epoch) (delay : t.inEpochDelayPeriod = s.inEpochDelayPeriod)
    (delegators : t.delegator = s.delegator)
    (requests : t.withdrawalRequest = s.withdrawalRequest) :
    Schedule t := by
  obtain ⟨a, b, c⟩ := schedule
  constructor
  · rw [epoch]; exact a
  · rw [epoch, delay, delegators]; exact b
  · rw [epoch, delay, requests]; exact c

theorem changeDelegator (valId : ValId) (address : Address) (epoch : t.epoch = s.epoch)
    (delay : t.inEpochDelayPeriod = s.inEpochDelayPeriod)
    (delegators : t.delegator = update2 s.delegator valId address del)
    (requests : t.withdrawalRequest = s.withdrawalRequest)
    (scheduled : del.Scheduled s.epoch s.inEpochDelayPeriod) : Schedule t := by
  constructor
  · rw [epoch]; exact schedule.epochFits
  · intro v a
    rw [epoch, delay, delegators, update2_apply]
    split
    · exact scheduled
    · exact schedule.delegators v a
  · rw [epoch, delay, requests]; exact schedule.requests

theorem joined (joinable : s.Joinable valId stake address) :
    Schedule (s.joined revision valId stake address) := by
  obtain ⟨delta, next⟩ := joinable.pulled.slots schedule
  have joined := (schedule.delegators valId address).joined joinable.large delta next
  rw [← getActivationEpoch_eq] at joined
  exact schedule.changeDelegator valId address rfl rfl rfl rfl joined

theorem left {withdrawalId : WithdrawalId}
    (leavable : s.Leavable valId amount withdrawalId address) :
    Schedule (s.left revision valId amount withdrawalId address) := by
  have booked : Schedule { s with
      withdrawalRequest :=
        (s.left revision valId amount withdrawalId address).withdrawalRequest } := by
    refine ⟨schedule.epochFits, schedule.delegators, ?_⟩
    intro v a id
    simp only [State.left, State.freed, State.booked, update3_apply]
    split
    · rw [getActivationEpoch_eq]
      exact .booked _ _ _ leavable.positive
    · exact schedule.requests v a id
  have reduced := (schedule.delegators valId address).reduced leavable.noDust
  exact booked.changeDelegator valId address rfl rfl
    (left_delegator s valId address amount withdrawalId) rfl (reduced.congr rfl rfl rfl rfl rfl)

theorem kept {freed : Int} (action : Action revision freed s t) : Schedule t := by
  cases action with
  | promote _ valId address ready =>
    exact schedule.changeDelegator valId address rfl rfl rfl rfl
      ((schedule.delegators valId address).promoted ready)
  | compound _ valId address active _ _ =>
    have compounded := (schedule.delegators valId address).compounded active.1 active.2
    exact schedule.changeDelegator valId address rfl rfl rfl rfl
      (compounded.congr rfl rfl rfl rfl rfl)
  | settle _ valId address _ _ _ _ | takeRewards _ valId address =>
    exact schedule.changeDelegator valId address rfl rfl rfl rfl
      ((schedule.delegators valId address).congr rfl rfl rfl rfl rfl)
  | join _ valId stake address joinable => exact schedule.joined joinable
  | enroll _ secp bls keys auth commission stake _ _ _ _ joinable =>
    have registered : Schedule (s.registered secp bls keys auth commission) :=
      schedule.congr rfl rfl rfl rfl
    exact registered.joined joinable
  | leave _ valId amount withdrawalId address leavable => exact schedule.left leavable
  | withdraw _ valId address withdrawalId _ _ _ _ =>
    refine ⟨schedule.epochFits, schedule.delegators, ?_⟩
    intro v a id
    simp only [State.withdrawn, update3_apply]
    split
    · exact .inl rfl
    · exact schedule.requests v a id
  | balances _ balance | reward _ valId _ reward _ _ | propose _ valId _
  | changeCommission _ valId commission _ _ | log _ event => exact schedule.congr rfl rfl rfl rfl
  | commission _ valId commission _ =>
    exact schedule.changeDelegator valId (s.valExecution valId).authAddress rfl rfl rfl rfl
      ((schedule.delegators valId _).congr rfl rfl rfl rfl rfl)
  | snapshot _ first =>
    rw [snapshotTaken_eq]
    have sooner : s.epoch + activationDelay s.inEpochDelayPeriod ≤
        s.epoch + activationDelay true := Nat.add_le_add_left (activationDelay_le _).2 _
    exact ⟨schedule.epochFits, fun v a => (schedule.delegators v a).relaxed le_rfl sooner,
      fun v a id => (schedule.requests v a id).relaxed sooner⟩

theorem epochChange {nextEpoch : Nat} (order : s.epoch < nextEpoch) (fits : nextEpoch < 2 ^ 64) :
    Schedule (s.enterEpoch nextEpoch) := by
  have bounds := activationDelay_le s.inEpochDelayPeriod
  have sooner : s.epoch + activationDelay s.inEpochDelayPeriod ≤
      nextEpoch + activationDelay false := by
    simp only [activationDelay, Bool.false_eq_true, ↓reduceIte] at bounds ⊢
    omega
  rw [enterEpoch_eq]
  exact ⟨fits, fun v a => (schedule.delegators v a).relaxed order.le sooner,
    fun v a id => (schedule.requests v a id).relaxed sooner⟩

theorem changed (change : Change regime s t) : Schedule t := by
  cases change with
  | action _ action => exact schedule.kept action
  | epochChange _ nextEpoch order fits _ =>
    have logged : Schedule (s.logged (.epochChanged s.epoch nextEpoch)) :=
      schedule.congr rfl rfl rfl rfl
    exact logged.epochChange order fits
  | infoLog _ lines => exact schedule.congr rfl rfl rfl rfl

theorem evolved (evolves : Evolves regime s t) : Schedule t := by
  induction evolves with
  | refl => exact schedule
  | tail _ change ih => exact ih.changed change

end

theorem empty (balance : Address → Nat) : Schedule (emptyContract balance) :=
  ⟨by simp [emptyContract], fun _ _ => .blank _ _, fun _ _ _ => .inl rfl⟩

end Schedule

end MonadChain.Staking
