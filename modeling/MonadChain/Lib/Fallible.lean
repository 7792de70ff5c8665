/-!
Computations that stop with a reason: what their success or failure says.
-/

namespace MonadChain

variable {ε α β : Type}

variable {result : Except ε α} {first : Except ε α} {next : α → Except ε β}

theorem bind_ok {result : β} (success : (first >>= next) = .ok result) :
    ∃ value, first = .ok value ∧ next value = .ok result := by
  cases first with
  | error reason => cases success
  | ok value => exact ⟨value, rfl, success⟩

theorem bind_eq_ok {result : β} :
    (first >>= next) = .ok result ↔ ∃ value, first = .ok value ∧ next value = .ok result := by
  refine ⟨bind_ok, ?_⟩
  rintro ⟨value, rfl, done⟩
  exact done

theorem bind_eq_error {reason : ε} :
    (first >>= next) = .error reason ↔
      first = .error reason ∨ ∃ value, first = .ok value ∧ next value = .error reason := by
  cases first <;> simp [bind, Except.bind]

theorem mapM_eq {f : α → Except ε β} {g : α → β}
    (each : ∀ value result, f value = .ok result → result = g value) {values : List α}
    {results : List β} (ran : values.mapM f = .ok results) : results = values.map g := by
  induction values generalizing results with
  | nil =>
    cases ran
    rfl
  | cons value rest ih =>
    rw [List.mapM_cons] at ran
    obtain ⟨result, first, later⟩ := bind_ok ran
    obtain ⟨others, tail, last⟩ := bind_ok later
    cases last
    rw [each value result first, ih tail, List.map_cons]

def errorOf : Except ε α → Option ε
  | .error reason => some reason
  | .ok _ => none

theorem eq_error_of {reason : ε} (found : errorOf result = some reason) :
    result = .error reason := by
  cases result with
  | error other => exact congrArg Except.error (Option.some.inj found)
  | ok value => cases found

theorem eq_ok_of {value : α} (found : result.toOption = some value) : result = .ok value := by
  cases result with
  | error reason => cases found
  | ok other => exact congrArg Except.ok (Option.some.inj found)

end MonadChain
