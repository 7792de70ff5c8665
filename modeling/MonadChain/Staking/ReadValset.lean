import MonadChain.Staking.Valsets

/-!
read_valset.cpp along a run. The validators of an epoch can be asked for at different blocks:
the answer is the same from the boundary block before the epoch to its end.
-/

namespace MonadChain.Staking

open State

variable {s t : State} {valId : ValId} {epoch : Nat} {valset : List Validator}
  {revision : MonadRevision} {regime : Regime} {freed : Int}

namespace State

def readMembers (s : State) (members : List ValId) (view : ValId → ConsensusView) :
    List Validator :=
  members.map fun valId => ⟨(s.valExecution valId).keys.secpPubkey,
    (s.valExecution valId).keys.blsPubkey, (view valId).stake⟩

def readConsensus (s : State) : List Validator :=
  s.readMembers s.valsetConsensus.toList s.consensusView

def readThisEpoch (s : State) : List Validator :=
  if s.inEpochDelayPeriod then s.readMembers s.valsetSnapshot.toList s.snapshotView
  else s.readConsensus

abbrev Past (s : State) (epoch : Nat) : Prop :=
  epoch < s.epoch ∨ s.epoch + 1 = 2 ^ 64

end State

theorem readValset_eq (valsets : Valsets s) (fits : s.epoch < 2 ^ 64) :
    readValset s epoch =
      if s.Past epoch then none
      else if epoch = s.epoch then some s.readThisEpoch
      else if epoch = s.epoch + 1 ∧ s.inEpochDelayPeriod = true then some s.readConsensus
      else none := by
  have consensus := valsets.consensus.size
  have snapshot := valsets.snapshot.size
  rw [StorageArray.length_toList] at consensus snapshot
  unfold readValset epochAfter thisEpochValset thisEpochView
  grind [readThisEpoch, readConsensus, readMembers]

theorem Action.keys_eq (action : Action revision freed s t) (registry : Registry s)
    (known : (s.valExecution valId).exists) :
    (t.valExecution valId).keys = (s.valExecution valId).keys := by
  cases action with
  | compound | settle | join | leave | withdraw | reward | changeCommission =>
    exact validator_field _ _ _ ValExecution.keys rfl
  | enroll =>
    have old : valId ≠ s.lastValId + 1 := by
      rintro rfl
      exact registry.unused known
    rw [joined_valExecution, Function.update_of_ne old, registered_of_ne old]
  | snapshot => rw [snapshotTaken_eq]; rfl
  | _ => rfl

theorem Action.sets_eq (action : Action revision freed s t) :
    t.inEpochDelayPeriod = s.inEpochDelayPeriod ∧
      t.valsetConsensus = s.valsetConsensus ∧ t.consensusView = s.consensusView ∧
      t.valsetSnapshot = s.valsetSnapshot ∧ t.snapshotView = s.snapshotView ∨
    s.inEpochDelayPeriod = false ∧ t = s.snapshotTaken := by
  cases action with
  | snapshot _ first => exact .inr ⟨first, rfl⟩
  | _ =>
    -- On the fields `rfl` need not compare whole states.
    cases s
    exact .inl ⟨rfl, rfl, rfl, rfl, rfl⟩

theorem Action.reads (action : Action revision freed s t) (registry : Registry s)
    (valsets : Valsets s) : t.readThisEpoch = s.readThisEpoch ∧ (s.inEpochDelayPeriod = true →
      t.inEpochDelayPeriod = true ∧ t.readConsensus = s.readConsensus) := by
  have congr : ∀ members view, (∀ valId ∈ members, (s.valExecution valId).exists) →
      t.readMembers members view = s.readMembers members view := fun members view known =>
    List.map_congr_left fun valId member => by rw [action.keys_eq registry (known valId member)]
  have consensus := congr _ s.consensusView fun valId member =>
    valsets.known valId (valsets.enrolled valId member)
  obtain ⟨delay, members, view, oldMembers, oldView⟩ | ⟨first, rfl⟩ := action.sets_eq
  · simp only [readThisEpoch, readConsensus, delay, members, view, oldMembers, oldView,
      consensus, congr _ s.snapshotView valsets.veterans, and_true, imp_self]
  · refine ⟨?_, fun active => absurd (first.symm.trans active) nofun⟩
    rw [readThisEpoch, readThisEpoch, first, s.snapshotTaken_valsetSnapshot,
      s.snapshotTaken_snapshotView valsets.consensus valsets.snapshot]
    exact consensus

theorem Change.keepsAnswer (change : Change regime s t) (registry : Registry s)
    (valsets : Valsets s) (schedule : Schedule s)
    (read : readValset s epoch = if s.Past epoch then none else some valset) :
    readValset t epoch = if t.Past epoch then none else some valset := by
  have fits := (schedule.changed change).epochFits
  rw [readValset_eq valsets schedule.epochFits] at read
  rw [readValset_eq (valsets.changed registry change) fits]
  cases change with
  | action _ action =>
    have same := action.epoch_eq
    have reads := action.reads registry valsets
    grind
  | epochChange _ nextEpoch later _ _ =>
    set after := (s.logged (.epochChanged s.epoch nextEpoch)).enterEpoch nextEpoch
    have same : after.readThisEpoch = s.readConsensus :=
      (congrArg readThisEpoch (enterEpoch_eq ..)).trans rfl
    have entered : after.epoch = nextEpoch := rfl
    grind
  | infoLog => exact read

/-- Once an epoch can be read, every later block answers the same until the epoch is over. -/
theorem read_valset_stable {crypto : Crypto} {balance : Address → Nat}
    (reachable : Reachable crypto (emptyContract balance) s) (later : Reachable crypto s t)
    (read : readValset s epoch = some valset) :
    readValset t epoch = if t.Past epoch then none else some valset := by
  have registry := Registry.empty balance
  have valsets := Valsets.empty balance
  have schedule := Schedule.empty balance
  have evolves := reachable.evolves registry
  replace later := later.evolves (registry.evolved evolves)
  induction later with
  | refl =>
    have fits := (schedule.evolved evolves).epochFits
    rw [readValset_eq (valsets.evolved registry evolves) fits] at read ⊢
    grind
  | tail earlier change ih =>
    have whole := evolves.trans earlier
    exact change.keepsAnswer (registry.evolved whole) (valsets.evolved registry whole)
      (schedule.evolved whole) ih

/-- The set that a snapshot chooses is that of the next epoch. -/
theorem read_valset_stable_sample :
    readValset (runAll sampleCrypto .ten [changeEpoch 1]
        (sampleRun (samplePositions ++ [takeSnapshot]))) 1 =
      some [⟨storeBe 33 (256 * 2), storeBe 48 (2 ^ 128 * 2), 30000000 * mon⟩,
        ⟨storeBe 33 256, storeBe 48 (2 ^ 128), 20000005 * mon⟩] :=
  (read_valset_stable (sampleRun_reachable _) (runAll_reachable _ _) (by decide +kernel)).trans
    (if_neg (by decide +kernel))

end MonadChain.Staking
