import Mathlib.Logic.Basic

/-!
Postconditions for a state monad with errors. `Holds program before returns fails` states what is
true of a normal return and what is true of an error, which keeps the state it was raised in.
Every rule below is an equivalence, so a program is taken apart by rewriting and its callees are
cited through `Holds.mono`.
-/

namespace MonadChain.Outcome

variable {ε σ α β : Type}

variable {program : EStateM ε σ α} {after : σ}

def Holds (program : EStateM ε σ α) (before : σ)
    (returns : α → σ → Prop) (fails : ε → σ → Prop) : Prop :=
  match program before with
  | .ok value after => returns value after
  | .error error after => fails error after

variable {returns : α → σ → Prop} {fails : ε → σ → Prop} {before : σ}

@[simp] theorem holds_pure (value : α) :
    Holds (pure value) before returns fails ↔ returns value before := Iff.rfl

@[simp] theorem holds_throw (error : ε) :
    Holds (throw error : EStateM ε σ α) before returns fails ↔ fails error before := Iff.rfl

@[simp] theorem holds_bind (first : EStateM ε σ β) (next : β → EStateM ε σ α) :
    Holds (first >>= next) before returns fails ↔
      Holds first before (fun value after => Holds (next value) after returns fails) fails := by
  simp only [Holds, bind, EStateM.bind]
  cases first before <;> rfl

@[simp] theorem holds_get {returns : σ → σ → Prop} :
    Holds (get : EStateM ε σ σ) before returns fails ↔ returns before before := Iff.rfl

@[simp] theorem holds_modify {returns : PUnit → σ → Prop} (change : σ → σ) :
    Holds (modify change : EStateM ε σ PUnit) before returns fails ↔
      returns ⟨⟩ (change before) := Iff.rfl

@[simp] theorem holds_ite (condition : Prop) [Decidable condition] (yes no : EStateM ε σ α) :
    Holds (if condition then yes else no) before returns fails ↔
      (condition → Holds yes before returns fails) ∧
        (¬ condition → Holds no before returns fails) := by
  by_cases taken : condition <;> simp [taken]

theorem Holds.mono {returns' : α → σ → Prop}
    {fails' : ε → σ → Prop} (holds : Holds program before returns fails)
    (weaken : ∀ value after, returns value after → returns' value after)
    (weakenError : ∀ error after, fails error after → fails' error after) :
    Holds program before returns' fails' := by
  simp only [Holds] at *
  cases result : program before with
  | ok value after => rw [result] at holds; exact weaken value after holds
  | error error after => rw [result] at holds; exact weakenError error after holds

theorem Holds.from_eq (start : σ) (same : before = start)
    (holds : Holds program start returns fails) : Holds program before returns fails :=
  same ▸ holds

theorem Holds.of_ok (holds : Holds program before returns fails)
    {value : α} (result : program before = .ok value after) : returns value after := by
  simpa only [Holds, result] using holds

theorem Holds.of_error (holds : Holds program before returns fails)
    {error : ε} (result : program before = .error error after) : fails error after := by
  simpa only [Holds, result] using holds

theorem Holds.returned (holds : Holds program before returns fun _ _ => False) :
    ∃ value after, program before = .ok value after ∧ returns value after := by
  simp only [Holds] at holds
  cases result : program before with
  | ok value after =>
    rw [result] at holds
    exact ⟨value, after, rfl, holds⟩
  | error error after =>
    rw [result] at holds
    exact absurd holds not_false

end MonadChain.Outcome
