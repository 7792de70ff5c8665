import Mathlib.Logic.Basic

/-!
Programs over a set of effects. A program asks for actions one after the other, each of them
chosen from the answers so far, and a handler gives an action its meaning on a state. A relation
that the single actions keep is kept by every program.
-/

namespace MonadChain

structure Effects where
  Action : Type
  Answer : Action → Type

inductive Program (E : Effects) (α : Type) : Type where
  | done (value : α)
  | abort (reason : String)
  | step (action : E.Action) (next : E.Answer action → Program E α)

namespace Program

variable {E F : Effects} {α β σ τ : Type}

def bind : Program E α → (α → Program E β) → Program E β
  | .done value, next => next value
  | .abort reason, _ => .abort reason
  | .step action rest, next => .step action fun answer => (rest answer).bind next

instance : Monad (Program E) where
  pure := .done
  bind := bind

def perform (action : E.Action) : Program E (E.Answer action) := .step action .done

def expand (implement : (action : E.Action) → Program F (E.Answer action)) :
    Program E α → Program F α
  | .done value => .done value
  | .abort reason => .abort reason
  | .step action next => (implement action).bind fun answer => (next answer).expand implement

/-- What an action does to a state; an error ends the program. -/
abbrev Handler (E : Effects) (σ : Type) : Type :=
  (action : E.Action) → σ → Except String (E.Answer action × σ)

def run (handler : Handler E σ) : Program E α → σ → Except String (α × σ)
  | .done value, state => .ok (value, state)
  | .abort reason, _ => .error reason
  | .step action next, state =>
    match handler action state with
    | .ok (answer, state) => (next answer).run handler state
    | .error reason => .error reason

variable {handler : Handler E σ} {other : Handler E τ} {program : Program E α}
  {next : α → Program E β} {state after : σ} {image : τ} {value : α} {related : σ → τ → Prop}

theorem run_bind (handler : Handler E σ) (program : Program E α) (next : α → Program E β)
    (state : σ) : (program.bind next).run handler state =
      match program.run handler state with
      | .ok (value, state) => (next value).run handler state
      | .error reason => .error reason := by
  induction program generalizing state with
  | done value => rfl
  | abort reason => rfl
  | step action rest ih =>
    simp only [bind, run]
    cases handler action state with
    | error reason => rfl
    | ok found => exact ih found.1 found.2

theorem run_perform (handler : Handler E σ) (action : E.Action) (state : σ) :
    (perform action).run handler state = handler action state := by
  simp only [perform, run]
  cases handler action state <;> rfl

theorem run_bind_ok (program : Program E α) {value : β}
    (ran : (program.bind next).run handler state = .ok (value, after)) :
    ∃ first middle, program.run handler state = .ok (first, middle) ∧
      (next first).run handler middle = .ok (value, after) := by
  rw [run_bind] at ran
  cases one : program.run handler state with
  | error reason =>
    rw [one] at ran
    cases ran
  | ok found =>
    rw [one] at ran
    exact ⟨found.1, found.2, rfl, ran⟩

theorem run_step_ok {action : E.Action} {next : E.Answer action → Program E α}
    (ran : (step action next).run handler state = .ok (value, after)) :
    ∃ answer middle, handler action state = .ok (answer, middle) ∧
      (next answer).run handler middle = .ok (value, after) := by
  obtain ⟨answer, middle, first, rest⟩ := run_bind_ok (perform action) ran
  exact ⟨answer, middle, (run_perform ..).symm.trans first, rest⟩

def handlerOf (implement : (action : E.Action) → Program F (E.Answer action))
    (handler : Handler F σ) : Handler E σ := fun action => (implement action).run handler

theorem run_expand (implement : (action : E.Action) → Program F (E.Answer action))
    (handler : Handler F σ) (program : Program E α) (state : σ) :
    (program.expand implement).run handler state =
      program.run (handlerOf implement handler) state := by
  induction program generalizing state with
  | done value => rfl
  | abort reason => rfl
  | step action next ih =>
    rw [expand, run_bind, run, handlerOf]
    cases (implement action).run handler state with
    | error reason => rfl
    | ok found => exact ih found.1 found.2

def Agree (related : σ → τ → Prop) : Except String (α × σ) → Except String (α × τ) → Prop
  | .ok (value, state), .ok (other, image) => value = other ∧ related state image
  | .error reason, .error other => reason = other
  | _, _ => False

theorem Agree.cases {one : Except String (α × σ)} {other : Except String (α × τ)}
    (agree : Agree related one other) :
    (∃ reason, one = .error reason ∧ other = .error reason) ∨
      ∃ value state image, one = .ok (value, state) ∧ other = .ok (value, image) ∧
        related state image := by
  match one, other, agree with
  | .error reason, .error _, rfl => exact .inl ⟨reason, rfl, rfl⟩
  | .ok (value, state), .ok (_, image), ⟨rfl, kept⟩ =>
    exact .inr ⟨value, state, image, rfl, rfl, kept⟩

/-- Related states answer every action alike and stay related. -/
def Simulates (related : σ → τ → Prop) (handler : Handler E σ) (other : Handler E τ) : Prop :=
  ∀ action state image, related state image → Agree related (handler action state)
    (other action image)

theorem Simulates.run (simulates : Simulates related handler other) (program : Program E α)
    {state : σ} (start : related state image) :
    Agree related (program.run handler state) (program.run other image) := by
  induction program generalizing state image with
  | done value => exact ⟨rfl, start⟩
  | abort reason => exact rfl
  | step action next ih =>
    simp only [Program.run]
    rcases (simulates action state image start).cases with
      ⟨reason, first, second⟩ | ⟨answer, after, replayed, first, second, kept⟩
    · rw [first, second]
      exact rfl
    · rw [first, second]
      exact ih answer kept

theorem Simulates.expand {handler : Handler F σ} {other : Handler F τ}
    (simulates : Simulates related handler other)
    (implement : (action : E.Action) → Program F (E.Answer action)) :
    Simulates related (handlerOf implement handler) (handlerOf implement other) :=
  fun action _ _ start => simulates.run (implement action) start

def Replays (related : σ → τ → Prop) (handler : Handler E σ) (other : Handler E τ) : Prop :=
  ∀ action state image answer after, related state image →
    handler action state = .ok (answer, after) →
    ∃ replayed, other action image = .ok (answer, replayed) ∧ related after replayed

theorem Replays.run (replays : Replays related handler other) (start : related state image)
    (ran : program.run handler state = .ok (value, after)) :
    ∃ replayed, program.run other image = .ok (value, replayed) ∧ related after replayed := by
  induction program generalizing state image with
  | done result =>
    cases ran
    exact ⟨image, rfl, start⟩
  | abort reason => cases ran
  | step action next ih =>
    obtain ⟨answer, middle, first, rest⟩ := run_step_ok ran
    obtain ⟨replayed, second, kept⟩ := replays action state image answer middle start first
    simp only [Program.run, second]
    exact ih answer kept rest

theorem Replays.expand {handler : Handler F σ} {other : Handler F τ}
    (replays : Replays related handler other)
    (implement : (action : E.Action) → Program F (E.Answer action)) :
    Replays related (handlerOf implement handler) (handlerOf implement other) :=
  fun _ _ _ _ _ start ran => replays.run start ran

/-- What a program may ask for, and what it may rely on in the answers. -/
structure Contract (E : Effects) where
  allowed : E.Action → Prop
  possible : (action : E.Action) → E.Answer action → Prop

/-- As long as the answers are possible, the program asks for allowed actions only. -/
def Follows (contract : Contract E) (post : α → Prop) : Program E α → Prop
  | .done value => post value
  | .abort _ => True
  | .step action next =>
    contract.allowed action ∧
      ∀ answer, contract.possible action answer → (next answer).Follows contract post

variable {contract : Contract E} {post : α → Prop} {allowed : E.Action → Prop}

theorem Follows.bind {mid : α → Prop} {post : β → Prop} (first : program.Follows contract mid)
    (rest : ∀ value, mid value → (next value).Follows contract post) :
    (program.bind next).Follows contract post := by
  induction program with
  | done value => exact rest value first
  | abort reason => trivial
  | step action after ih =>
    exact ⟨first.1, fun answer possible => ih answer (first.2 answer possible)⟩

theorem Follows.perform {action : E.Action} {next : E.Answer action → Program E α}
    (allowed : contract.allowed action)
    (rest : ∀ answer, contract.possible action answer → (next answer).Follows contract post) :
    ((Program.perform action).bind next).Follows contract post := ⟨allowed, rest⟩

theorem Follows.weaken {mid post : α → Prop} (follows : program.Follows contract mid)
    (weaker : ∀ value, mid value → post value) : program.Follows contract post := by
  induction program with
  | done value => exact weaker value follows
  | abort reason => trivial
  | step action next ih =>
    exact ⟨follows.1, fun answer possible => ih answer (follows.2 answer possible)⟩

theorem Follows.mono {contract wider : Contract E} (follows : program.Follows contract post)
    (allows : ∀ action, contract.allowed action → wider.allowed action)
    (answers : ∀ action answer, wider.possible action answer → contract.possible action answer) :
    program.Follows wider post := by
  induction program with
  | done value => exact follows
  | abort reason => trivial
  | step action next ih =>
    exact ⟨allows action follows.1, fun answer possible =>
      ih answer (follows.2 answer (answers action answer possible))⟩

def Honours (contract : Contract E) (invariant : σ → Prop) (handler : Handler E σ) : Prop :=
  ∀ action state answer after, contract.allowed action → invariant state →
    handler action state = .ok (answer, after) →
    contract.possible action answer ∧ invariant after

theorem Follows.run {invariant : σ → Prop} (follows : program.Follows contract post)
    (honours : Honours contract invariant handler) (start : invariant state)
    (ran : program.run handler state = .ok (value, after)) : post value ∧ invariant after := by
  induction program generalizing state with
  | done result =>
    cases ran
    exact ⟨follows, start⟩
  | abort reason => cases ran
  | step action next ih =>
    obtain ⟨answer, middle, first, rest⟩ := run_step_ok ran
    obtain ⟨possible, kept⟩ := honours action state answer middle follows.1 start first
    exact ih answer (follows.2 answer possible) kept rest

def Uses (allowed : E.Action → Prop) : Program E α → Prop
  | .done _ => True
  | .abort _ => True
  | .step action next => allowed action ∧ ∀ answer, (next answer).Uses allowed

theorem Uses.expand {contract : Contract F}
    {implement : (action : E.Action) → Program F (E.Answer action)} (uses : program.Uses allowed)
    (each : ∀ action, allowed action → (implement action).Follows contract fun _ => True) :
    (program.expand implement).Follows contract fun _ => True := by
  induction program with
  | done value => trivial
  | abort reason => trivial
  | step action next ih => exact (each action uses.1).bind fun answer _ => ih answer (uses.2 answer)

/-- The program, returning all answers it got beside its own value. -/
def recorded : Program E α → Program E (List (Sigma E.Answer) × α)
  | .done value => .done ([], value)
  | .abort reason => .abort reason
  | .step action next =>
    .step action fun answer => (next answer).recorded.bind fun result =>
      .done (⟨action, answer⟩ :: result.1, result.2)

theorem Uses.bind (first : program.Uses allowed) (rest : ∀ value, (next value).Uses allowed) :
    (program.bind next).Uses allowed := by
  induction program with
  | done value => exact rest value
  | abort reason => trivial
  | step action after ih => exact ⟨first.1, fun answer => ih answer (first.2 answer)⟩

theorem Uses.recorded (uses : program.Uses allowed) : program.recorded.Uses allowed := by
  induction program with
  | done value => trivial
  | abort reason => trivial
  | step action next ih =>
    exact ⟨uses.1, fun answer => (ih answer (uses.2 answer)).bind fun _ => trivial⟩

/-- Runs a list of actions and collects the answers, up to the first error. -/
def trace (handler : Handler E σ) : List E.Action → σ → List (Sigma E.Answer) × Except String σ
  | [], state => ([], .ok state)
  | action :: rest, state =>
    match handler action state with
    | .ok (answer, state) =>
      let (answers, final) := trace handler rest state
      (⟨action, answer⟩ :: answers, final)
    | .error reason => ([], .error reason)

def AgreeAtEnd (related : σ → τ → Prop) : Except String σ → Except String τ → Prop
  | .ok state, .ok image => related state image
  | .error reason, .error other => reason = other
  | _, _ => False

section

variable {one : Except String σ} {other : Except String τ} (agree : AgreeAtEnd related one other)

include agree

theorem AgreeAtEnd.error_iff {reason : String} : one = .error reason ↔ other = .error reason := by
  cases one with
  | ok state =>
    cases other with
    | ok image => simp
    | error failed => exact agree.elim
  | error failed =>
    cases other with
    | ok image => exact agree.elim
    | error also => simp [show failed = also from agree]

theorem AgreeAtEnd.of_ok {state : σ} (ended : one = .ok state) : ∃ image, related state image := by
  subst ended
  cases other with
  | ok image => exact ⟨image, agree⟩
  | error reason => exact agree.elim

end

theorem Simulates.trace (simulates : Simulates related handler other) (actions : List E.Action)
    {state : σ} (start : related state image) :
    (trace handler actions state).1 = (trace other actions image).1 ∧
      AgreeAtEnd related (trace handler actions state).2 (trace other actions image).2 := by
  induction actions generalizing state image with
  | nil => exact ⟨rfl, start⟩
  | cons action rest ih =>
    simp only [Program.trace]
    rcases (simulates action state image start).cases with
      ⟨reason, first, second⟩ | ⟨answer, after, replayed, first, second, kept⟩
    · rw [first, second]
      exact ⟨rfl, rfl⟩
    · rw [first, second]
      obtain ⟨answers, ends⟩ := ih kept
      exact ⟨congrArg (List.cons (⟨action, answer⟩ : Sigma E.Answer)) answers, ends⟩

end Program

end MonadChain
