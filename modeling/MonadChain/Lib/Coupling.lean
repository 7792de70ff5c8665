import MonadChain.Lib.Program

/-!
Two runs side by side. A coupling says: whatever the first program does from a state, as long as
it goes on to where its run ends, the second program does from a related state, with related
results.
-/

namespace MonadChain.Program

variable {E F : Effects} {α β γ δ σ τ : Type}

variable {program : Program E α} {state after : σ} {value : α} {post mid : α → β → σ → τ → Prop}
  {other : Program E β} {holds : E.Action → σ → Prop}

/-- The handlers of the two runs; `ahead` holds of the states from which the first run goes
on to its end, and therefore of the states before them. -/
structure Sides (E : Effects) (σ τ : Type) where
  first : Handler E σ
  second : Handler E τ
  ahead : σ → Prop
  back : ∀ action state answer after, first action state = .ok (answer, after) → ahead after →
    ahead state

def Coupled (sides : Sides E σ τ) (pre : σ → τ → Prop) (program : Program E α)
    (other : Program E β) (post : α → β → σ → τ → Prop) : Prop :=
  ∀ state image value after, pre state image → program.run sides.first state = .ok (value, after) →
    sides.ahead after →
    ∃ result replayed, other.run sides.second image = .ok (result, replayed) ∧
      post value result after replayed

variable {sides : Sides E σ τ} {pre : σ → τ → Prop}

theorem Sides.back_run (sides : Sides E σ τ)
    (ran : program.run sides.first state = .ok (value, after)) (ends : sides.ahead after) :
    sides.ahead state := by
  induction program generalizing state with
  | done result =>
    cases ran
    exact ends
  | abort reason => cases ran
  | step action next ih =>
    obtain ⟨answer, middle, first, rest⟩ := run_step_ok ran
    exact sides.back action state answer middle first (ih answer rest)

theorem Coupled.done {result : β}
    (holds : ∀ state image, pre state image → post value result state image) :
    Coupled sides pre (.done value) (.done result) post := by
  intro state image found after start ran ends
  cases ran
  exact ⟨result, image, rfl, holds state image start⟩

theorem Coupled.abort {reason : String} : Coupled sides pre (.abort reason) other post := by
  intro state image value after start ran ends
  cases ran

theorem Coupled.perform {action : E.Action} {also : E.Action}
    {post : E.Answer action → E.Answer also → σ → τ → Prop}
    (one : ∀ state image answer after, pre state image →
      sides.first action state = .ok (answer, after) → sides.ahead after →
      ∃ result replayed, sides.second also image = .ok (result, replayed) ∧
        post answer result after replayed) :
    Coupled sides pre (.perform action) (.perform also) post := by
  intro state image value after start ran ends
  rw [run_perform] at ran
  obtain ⟨result, replayed, second, holds⟩ := one state image value after start ran ends
  exact ⟨result, replayed, (run_perform ..).trans second, holds⟩

theorem Coupled.bind {post : γ → δ → σ → τ → Prop} {next : α → Program E γ}
    {rest : β → Program E δ} (first : Coupled sides pre program other mid)
    (then_ : ∀ value result, Coupled sides (mid value result) (next value) (rest result) post) :
    Coupled sides pre (program.bind next) (other.bind rest) post := by
  intro state image value after start ran ends
  obtain ⟨found, between, one, ran⟩ := run_bind_ok program ran
  obtain ⟨result, middle, also, holds⟩ := first state image found between start one
    (sides.back_run ran ends)
  obtain ⟨final, replayed, finish, outcome⟩ :=
    then_ found result between middle value after holds ran ends
  refine ⟨final, replayed, ?_, outcome⟩
  rw [run_bind, also]
  exact finish

theorem Coupled.weaken (coupled : Coupled sides pre program other mid)
    (weaker : ∀ value result state image, mid value result state image →
      post value result state image) : Coupled sides pre program other post := by
  intro state image value after start ran ends
  obtain ⟨result, replayed, also, holds⟩ := coupled state image value after start ran ends
  exact ⟨result, replayed, also, weaker value result after replayed holds⟩

theorem Coupled.strengthen {stronger : σ → τ → Prop}
    (coupled : Coupled sides pre program other post)
    (implies : ∀ state image, stronger state image → pre state image) :
    Coupled sides stronger program other post := by
  intro state image value after start ran ends
  exact coupled state image value after (implies state image start) ran ends

theorem Coupled.of_pure (condition : Prop) (implies : ∀ state image, pre state image → condition)
    (coupled : condition → Coupled sides pre program other post) :
    Coupled sides pre program other post := by
  intro state image value after start ran ends
  exact coupled (implies state image start) state image value after start ran ends

theorem Coupled.bind_and {post : γ → δ → σ → τ → Prop} {fact : α → β → Prop}
    {next : α → Program E γ} {rest : β → Program E δ}
    (first : Coupled sides pre program other fun value result state image =>
      mid value result state image ∧ fact value result) (then_ : ∀ value result, fact value result →
      Coupled sides (mid value result) (next value) (rest result) post) :
    Coupled sides pre (program.bind next) (other.bind rest) post := by
  refine first.bind fun value result => ?_
  refine Coupled.of_pure _ (fun _ _ facts => facts.2) fun facts => ?_
  exact (then_ value result facts).strengthen fun _ _ facts => facts.1

theorem Coupled.foresee (condition : Prop)
    (shows : ∀ state value after, program.run sides.first state = .ok (value, after) →
      sides.ahead after → condition) (coupled : condition → Coupled sides pre program other post) :
    Coupled sides pre program other post := by
  intro state image value after start ran ends
  exact coupled (shows state value after ran ends) state image value after start ran ends

theorem Sides.shows_bind (sides : Sides E σ τ) {condition : Prop} {next : α → Program E β}
    (shows : ∀ state value after, program.run sides.first state = .ok (value, after) →
      sides.ahead after → condition) :
    ∀ state value after, (program.bind next).run sides.first state = .ok (value, after) →
      sides.ahead after → condition := by
  intro state value after ran ends
  obtain ⟨found, between, one, ran⟩ := run_bind_ok program ran
  exact shows state found between one (sides.back_run ran ends)

def Along (handler : Handler E σ) (holds : E.Action → σ → Prop) : Program E α → σ → Prop
  | .done _, _ => True
  | .abort _, _ => True
  | .step action next, state =>
    holds action state ∧
      match handler action state with
      | .ok (answer, after) => (next answer).Along handler holds after
      | .error _ => True

instance Along.decidable {handler : Handler E σ} {holds : E.Action → σ → Prop}
    [∀ action state, Decidable (holds action state)] :
    (program : Program E α) → (state : σ) → Decidable (program.Along handler holds state)
  | .done _, _ => isTrue trivial
  | .abort _, _ => isTrue trivial
  | .step action next, state =>
    match ran : handler action state with
    | .ok (answer, after) =>
      have : Decidable ((next answer).Along handler holds after) :=
        Along.decidable (next answer) after
      decidable_of_iff (holds action state ∧ (next answer).Along handler holds after)
        (by simp only [Along, ran])
    | .error _ => decidable_of_iff (holds action state) (by simp only [Along, ran, and_true])

theorem Along.mono {handler : Handler E σ} {weaker : E.Action → σ → Prop}
    (implies : ∀ action state, holds action state → weaker action state)
    (along : program.Along handler holds state) : program.Along handler weaker state := by
  induction program generalizing state with
  | done value => trivial
  | abort reason => trivial
  | step action next ih =>
    simp only [Along] at along ⊢
    refine ⟨implies action state along.1, ?_⟩
    cases ran : handler action state with
    | error reason => trivial
    | ok found =>
      have rest := along.2
      rw [ran] at rest
      exact ih found.1 rest

theorem Follows.run_eq {contract : Contract E} {post : α → Prop} {handler other : Handler E σ}
    (follows : program.Follows contract post)
    (same : ∀ action state, contract.allowed action → other action state = handler action state)
    (possible : ∀ action answer, contract.possible action answer) :
    program.run other state = program.run handler state := by
  induction program generalizing state with
  | done value => rfl
  | abort reason => rfl
  | step action next ih =>
    simp only [Program.run, same action state follows.1]
    cases handler action state with
    | error reason => rfl
    | ok found => exact ih found.1 (follows.2 found.1 (possible action found.1))

section Recorded

variable {first : Handler E σ} {second : Handler E τ} {ahead : σ → Prop}
  {answers : List (Sigma E.Answer)}

theorem Along.next {action : E.Action} {next : E.Answer action → Program E α}
    {answer : E.Answer action} {middle : σ} (along : (step action next).Along first holds state)
    (one : first action state = .ok (answer, middle)) :
    holds action state ∧ (next answer).Along first holds middle := by
  simp only [Along, one] at along
  exact along

theorem recorded_step_ok {action : E.Action} {next : E.Answer action → Program E α}
    (ran : (step action next).recorded.run first state = .ok ((answers, value), after)) :
    ∃ answer middle rest, first action state = .ok (answer, middle) ∧
      (next answer).recorded.run first middle = .ok ((rest, value), after) ∧
      answers = ⟨action, answer⟩ :: rest := by
  obtain ⟨answer, middle, one, later⟩ := run_step_ok ran
  obtain ⟨final, end_, rest, done⟩ := run_bind_ok _ later
  cases done
  exact ⟨answer, middle, final.1, one, rest, rfl⟩

variable (back : ∀ action state answer after, holds action state →
  first action state = .ok (answer, after) → ahead after → ahead state)

include back

theorem Along.back_run (along : program.Along first holds state)
    (ran : program.recorded.run first state = .ok ((answers, value), after))
    (ends : ahead after) : ahead state := by
  induction program generalizing state answers with
  | done result =>
    cases ran
    exact ends
  | abort reason => cases ran
  | step action next ih =>
    obtain ⟨answer, middle, rest, one, later, _⟩ := recorded_step_ok ran
    obtain ⟨now, then_⟩ := along.next one
    exact back action state answer middle now one (ih answer then_ later)

/-- Actions that are coupled one by one are coupled along a run, and their answers are good. -/
theorem coupled_recorded (related : σ → τ → Prop) (good : Sigma E.Answer → Prop)
    (each : ∀ action state image answer after, related state image → holds action state →
      first action state = .ok (answer, after) → ahead after →
      ∃ replayed, second action image = .ok (answer, replayed) ∧ good ⟨action, answer⟩ ∧
        related after replayed)
    {image : τ} (along : program.Along first holds state) (start : related state image)
    (ran : program.recorded.run first state = .ok ((answers, value), after)) (ends : ahead after) :
    ∃ replayed, program.recorded.run second image = .ok ((answers, value), replayed) ∧
      related after replayed ∧ ∀ answer ∈ answers, good answer := by
  induction program generalizing state image answers with
  | done result =>
    cases ran
    exact ⟨image, rfl, start, fun _ member => absurd member List.not_mem_nil⟩
  | abort reason => cases ran
  | step action next ih =>
    obtain ⟨answer, middle, rest, one, later, rfl⟩ := recorded_step_ok ran
    obtain ⟨now, then_⟩ := along.next one
    obtain ⟨between, also, fine, kept⟩ := each action state image answer middle start now one
      (then_.back_run back later ends)
    obtain ⟨replayed, again, finish, all⟩ := ih answer then_ kept later
    refine ⟨replayed, ?_, finish, List.forall_mem_cons.mpr ⟨fine, all⟩⟩
    simp only [recorded, Program.run, also]
    rw [run_bind, again]
    rfl

end Recorded

end MonadChain.Program
