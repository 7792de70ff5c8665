import MonadChain.Staking.Registration

/-!
Runs as sequences of small changes. An operation that succeeds is a path of actions or one epoch
change; one that fails has gone through some actions to a state with a fault. An invariant of
every small change holds in every state of a run and wherever an operation can fail.
-/

namespace MonadChain.Staking

open Relation

variable {freed : Int}

/-- The revisions in force during a run and the epoch changes it may make. -/
structure Regime where
  revision : MonadRevision → Prop
  epochChange : State → Nat → Prop

namespace Regime

def free : Regime := ⟨fun _ => True, fun _ _ => True⟩

def under (revision : MonadRevision) : Regime :=
  ⟨fun current => current = revision, fun _ _ => True⟩

end Regime

inductive Change (regime : Regime) : State → State → Prop
  | action {revision : MonadRevision} {freed : Int} {s t : State}
      (current : regime.revision revision) (action : Action revision freed s t) :
      Change regime s t
  | epochChange (s : State) (nextEpoch : Nat) (later : s.epoch < nextEpoch)
      (fits : nextEpoch < 2 ^ 64) (allowed : regime.epochChange s nextEpoch) :
      Change regime s ((s.logged (.epochChanged s.epoch nextEpoch)).enterEpoch nextEpoch)
  | infoLog (s : State) (lines : List (Nat × ValId)) :
      Change regime s { s with infoLog := lines }

abbrev Evolves (regime : Regime) : State → State → Prop := ReflTransGen (Change regime)

variable {regime : Regime} {revision : MonadRevision} {crypto : Crypto} {start s t : State}

theorem Evolves.ofMoves (current : regime.revision revision)
    (moves : Moves revision freed s t) : Evolves regime s t := by
  induction moves with
  | refl => exact .refl
  | tail _ final ih => exact ih.tail (.action current final)

theorem Registry.changed (registry : Registry s) (change : Change regime s t) : Registry t := by
  cases change with
  | action _ action => exact registry.kept action
  | epochChange _ nextEpoch _ _ _ =>
    have logged : Registry (s.logged (.epochChanged s.epoch nextEpoch)) :=
      registry.congr rfl rfl (fun _ => rfl) registry.blank
    exact logged.epochChange nextEpoch
  | infoLog _ lines => exact registry.congr rfl rfl (fun _ => rfl) registry.blank

theorem Registry.evolved (registry : Registry s) (evolves : Evolves regime s t) : Registry t := by
  induction evolves with
  | refl => exact registry
  | tail _ change ih => exact ih.changed change

theorem Registry.empty (balance : Address → Nat) : Registry (emptyContract balance) := by
  constructor
  · intro valId
    simp [emptyContract, ValExecution.exists]
  · simp [emptyContract]
  · intro valId _
    exact ⟨rfl, fun _ => ⟨rfl, fun _ => rfl⟩⟩
  · intro address used
    exact absurd rfl used

theorem Action.epoch_eq (action : Action revision freed s t) : t.epoch = s.epoch := by
  cases action with
  | snapshot _ _ => rw [snapshotTaken_eq]; rfl
  | _ => rfl

theorem Moves.epoch_eq (moves : Moves revision freed s t) : t.epoch = s.epoch := by
  induction moves with
  | refl => rfl
  | tail _ final ih => rw [final.epoch_eq, ih]

theorem Change.epoch_le (change : Change regime s t) : s.epoch ≤ t.epoch := by
  cases change with
  | action _ action => exact action.epoch_eq.ge
  | epochChange _ nextEpoch later _ _ =>
    exact later.le
  | infoLog => exact le_rfl

theorem Change.numbered (change : Change regime s t) (numbered : t.Numbered) : s.Numbered := by
  have order := change.epoch_le
  unfold State.Numbered at numbered ⊢
  omega

theorem Transition.evolves (transition : Transition revision s t)
    (current : regime.revision revision)
    (allowed : t.epoch ≠ s.epoch → regime.epochChange s t.epoch) : Evolves regime s t := by
  cases transition with
  | actions moves => exact .ofMoves current moves
  | epochChange nextEpoch later fits =>
    exact .single (.epochChange s nextEpoch later fits (allowed later.ne'))

theorem Step.evolves (step : Step crypto revision s t) (registry : Registry s)
    (current : regime.revision revision)
    (allowed : t.epoch ≠ s.epoch → regime.epochChange s t.epoch) : Evolves regime s t := by
  cases step with
  | run operation =>
    rcases step_cases revision crypto operation registry with
      transition | ⟨failure, failed, -, -, undone⟩
    · exact transition.evolves current allowed
    · rw [undone]
      exact .single (.infoLog s failed.infoLog)

theorem Reachable.evolves (reachable : Reachable crypto start s) (registry : Registry start) :
    Evolves .free start s := by
  induction reachable with
  | refl => exact .refl
  | tail _ last ih =>
    obtain ⟨revision, step⟩ := last
    exact ih.trans (step.evolves (registry.evolved ih) trivial (fun _ => trivial))

theorem ReachableUnder.evolves (reachable : ReachableUnder crypto revision start s)
    (registry : Registry start) : Evolves (.under revision) start s := by
  induction reachable with
  | refl => exact .refl
  | tail _ step ih =>
    exact ih.trans (step.evolves (registry.evolved ih) rfl (fun _ => trivial))

theorem fault_of_error (regime : Regime) {operation : Operation} {failure : Failure}
    {failed : State} (registry : Registry s) (current : regime.revision revision)
    (error : operation.execute crypto revision s = .error failure failed) :
    ∃ middle, Evolves regime s middle ∧ middle.epoch = s.epoch ∧ Fault middle failure := by
  obtain ⟨freed, middle, -, moves, fault, -⟩ :=
    (execute_spec revision crypto operation registry).of_error error
  exact ⟨middle, .ofMoves current moves, moves.epoch_eq, fault⟩

/-- The operations of a run, all under one revision. -/
def runAll (crypto : Crypto) (revision : MonadRevision) : List Operation → State → State
  | [], s => s
  | operation :: rest, s => runAll crypto revision rest (step crypto revision operation s)

theorem runAll_under (operations : List Operation) (s : State) :
    ReachableUnder crypto revision s (runAll crypto revision operations s) := by
  induction operations generalizing s with
  | nil => exact .refl
  | cons operation rest ih => exact .head (.run s operation) (ih _)

theorem runAll_reachable (operations : List Operation) (s : State) :
    Reachable crypto s (runAll crypto revision operations s) := by
  induction operations generalizing s with
  | nil => exact .refl
  | cons operation rest ih => exact .head ⟨revision, .run s operation⟩ (ih _)

end MonadChain.Staking
