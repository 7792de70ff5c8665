import MonadChain.Execution.AdjustMethods

/-!
Credits, debits and the other changes of an account, in the two runs. What is recorded before a
debit covers it in both runs. A credit has to fit in both runs or in none.
-/

namespace MonadChain.Execution

open Program AccountState Adjustment Coupled

variable {W : Type} {adjust : Adjustment} {alike : Script → W → Prop}
  {world : World W} {seen : Sight} {address : Address}

variable {state : AccountState} {change : Nat → Nat} {delta : Nat}

def Sight.balance (seen : Sight) (address : Address) : Nat :=
  ((seen.account address).map (·.balance)).getD 0

theorem Sight.enter_enter (seen : Sight) (first state : AccountState) :
    (seen.enter address first).enter address state = seen.enter address state := by
  simp [Sight.enter]

theorem shiftState_withNonce (nonce : Nat) (state : AccountState) :
    (adjust.shiftState address state).withNonce nonce =
      adjust.shiftState address (state.withNonce nonce) := by
  cases there : state.account with
  | none => simp [shiftState, withNonce, there]
  | some account => simp [shiftState, withNonce, there, shiftAccount]

theorem shiftState_withCodeHash (hash : Hash) (state : AccountState) :
    (adjust.shiftState address state).withCodeHash hash =
      adjust.shiftState address (state.withCodeHash hash) := by
  cases there : state.account with
  | none => simp [shiftState, withCodeHash, there]
  | some account => simp [shiftState, withCodeHash, there, shiftAccount]

theorem shiftState_withIncarnation (incarnation : Incarnation) (state : AccountState) :
    (adjust.shiftState address state).withIncarnation incarnation =
      adjust.shiftState address (state.withIncarnation incarnation) := by
  cases there : state.account with
  | none => simp [shiftState, withIncarnation, there]
  | some account => simp [shiftState, withIncarnation, there, shiftAccount]

theorem shiftState_withBalance (valid : adjust.Valid)
    (covered : adjust.Covered address state) {amount : Int}
    (first : (change state.balance : Int) = state.balance + amount)
    (second : adjust.shift address ≠ 0 →
      (change (state.balance + adjust.shift address).toNat : Int) =
        state.balance + adjust.shift address + amount) :
    (adjust.shiftState address state).withBalance change =
      adjust.shiftState address (state.withBalance change) := by
  by_cases zero : adjust.shift address = 0
  · rw [shiftState_zero zero, shiftState_zero zero]
  · obtain ⟨account, there, natural, _⟩ := covered.moved valid zero
    have moved := second zero
    simp only [balance, there, Option.map_some, Option.getD_some] at first moved
    have same : change ((account.balance : Int) + adjust.shift address).toNat =
        ((change account.balance : Int) + adjust.shift address).toNat := by omega
    simp [shiftState, withBalance, there, shiftAccount, same]

theorem covered_credit (covered : adjust.Covered address state) (fits : adjust.shift address ≠ 0 →
      (state.balance : Int) + adjust.shift address + delta ≤ State.maxBalance) :
    adjust.Covered address (state.withBalance (· + delta)).touch := by
  intro first loose
  obtain ⟨account, there, covers, marks, standing, _⟩ := covered first loose
  have balance : state.balance = account.balance := by
    simp [balance, there]
  refine ⟨{ account with balance := account.balance + delta }, ?_, ?_, ?_, standing, ?_⟩
  · simp [withBalance, touch, there]
  · dsimp only
    omega
  · rcases marks with marked | ⟨unmarked, enough⟩
    · exact Or.inl marked
    · exact Or.inr ⟨unmarked, Nat.le_trans enough (Nat.le_add_right _ _)⟩
  · intro moved
    dsimp only
    omega

theorem covered_debit (covered : adjust.Covered address state)
    (marked : ∀ first account, adjust.Loose address first → state.account = some account →
      account.Marked) (covers : ∀ first, adjust.Loose address first →
      first.balance ≤ state.balance - delta + adjust.floor address) :
    adjust.Covered address (state.withBalance (· - delta)).touch := by
  intro first loose
  obtain ⟨account, there, _, _, standing, bound⟩ := covered first loose
  refine ⟨{ account with balance := account.balance - delta }, ?_, ?_, ?_, standing, ?_⟩
  · simp [withBalance, touch, there]
  · have enough := covers first loose
    simp only [balance, there, Option.map_some, Option.getD_some] at enough
    exact enough
  · exact Or.inl (marked first account loose there)
  · intro moved
    dsimp only
    omega

theorem balance_create (config : Config) (state : AccountState) :
    (state.create config).balance = state.balance := by
  cases there : state.account with
  | none | some account => simp [create, balance, there]

theorem create_of_loose (covered : adjust.Covered address state)
    {first : Account} (loose : adjust.Loose address first) (config : Config) :
    (state.create config).account = state.account := by
  obtain ⟨account, there, _⟩ := covered first loose
  simp [create, there]

/-- A credit of 256 bits fits in both runs or in none. -/
def CreditsAlike (gap : Int) (balance delta : Nat) : Prop :=
  delta ≤ State.maxBalance ∧
    (State.maxBalance < balance + delta ↔ (State.maxBalance : Int) < balance + gap + delta)

theorem balance_of_seen (same : state.account = seen.account address) :
    state.balance = seen.balance address := by
  simp only [balance, Sight.balance, same]

section Amounts

variable {config : Config}

theorem coupled_created {α : Type} {next : AccountState → Method α}
    {post : α → α → TxState Script → TxState W → Prop} (valid : adjust.Valid)
    (answers : Alike adjust world alike) (rest : ∀ state other, Shown adjust address state other →
      state.account = seen.account address → Coupled (sides adjust world)
        (MovedAt adjust alike (seen.enter address (state.create config)))
        (next state) (next other) post) :
    Alongside adjust world alike seen (do
        let state ← State.currentAccountState address
        State.modify address (·.create config)
        next state : Method α) post := by
  refine (coupled_currentAccountState valid answers address).bind_and fun state other facts => ?_
  obtain ⟨shown, same⟩ := facts
  refine bind (coupled_modify _ _ (seen.enter_current address state)
    (shiftState_create shown.covered valid config)
    (shown.covered.create config)) fun _ _ => ?_
  rw [Sight.enter_enter]
  exact rest state other shown same

theorem coupled_amount (amount : Int) (valid : adjust.Valid)
    (covered : adjust.Covered address state)
    (first : (change state.balance : Int) = state.balance + amount)
    (second : adjust.shift address ≠ 0 →
      (change (state.balance + adjust.shift address).toNat : Int) =
        state.balance + adjust.shift address + amount)
    (still : adjust.Covered address (state.withBalance change).touch) :
    Coupled (sides adjust world) (MovedAt adjust alike (seen.enter address state))
      (State.modify address fun state => (state.withBalance change).touch)
      (State.modify address fun state => (state.withBalance change).touch)
      fun _ _ after image => MovedAt adjust alike
        (seen.enter address (state.withBalance change).touch) after image := by
  have commutes := shiftState_withBalance valid covered first second
  have same : ((adjust.shiftState address state).withBalance change).touch =
      adjust.shiftState address (state.withBalance change).touch := by
    rw [commutes]
    exact beside_touch.shift _
  refine (coupled_modify (fun state => (state.withBalance change).touch) _
    (seen.enter_current address state) same still).weaken fun _ _ after image moved => ?_
  rw [Sight.enter_enter] at moved
  exact moved

theorem coupled_addToBalance (valid : adjust.Valid) (answers : Alike adjust world alike)
    (delta : Nat) (credits : CreditsAlike (adjust.shift address) (seen.balance address) delta) :
    Alongside adjust world alike seen (State.addToBalance config address delta)
      fun value result after image => result = value ∧ value ≠ .error "balance underflow" ∧
        ∃ state, MovedAt adjust alike (seen.enter address state) after
          image := by
  refine coupled_created valid answers fun state other shown same => ?_
  have balance := balance_of_seen same
  have second := balance_shift valid shown.covered
  rw [← shown.moved] at second
  unfold CreditsAlike at credits
  by_cases tooMuch : State.maxBalance - delta < state.balance
  · have also : State.maxBalance - delta < other.balance := by omega
    rw [if_pos tooMuch, if_pos also]
    exact done fun _ _ moved => ⟨rfl, by simp, _, moved⟩
  · have also : ¬State.maxBalance - delta < other.balance := by omega
    rw [if_neg tooMuch, if_neg also]
    have covered := shown.covered.create config
    have made := balance_create config state
    refine bind (coupled_amount delta valid covered (by simp) (fun moved => ?_)
      (covered_credit covered fun moved => by omega)) fun _ _ => ?_
    · obtain ⟨account, there, natural, _⟩ := covered.moved valid moved
      omega
    · exact done fun _ _ moved => ⟨rfl, by simp, _, moved⟩

theorem coupled_subtractFromBalance (valid : adjust.Valid) (answers : Alike adjust world alike)
    (delta : Nat) (debits : seen.balance address < delta ↔
      (seen.balance address : Int) + adjust.shift address < delta)
    (marked : delta ≤ seen.balance address → ∀ first account, adjust.Loose address first →
      seen.account address = some account → account.Marked)
    (covers : delta ≤ seen.balance address → ∀ first, adjust.Loose address first →
      first.balance ≤ seen.balance address - delta + adjust.floor address) :
    Alongside adjust world alike seen
      (State.subtractFromBalance config address delta)
      fun value result after image => result = value ∧
        (delta ≤ seen.balance address → value = .ok ()) ∧
        Moved adjust alike after image := by
  refine coupled_created valid answers fun state other shown same => ?_
  have balance := balance_of_seen same
  have second := balance_shift valid shown.covered
  rw [← shown.moved] at second
  by_cases under : state.balance < delta
  · have also : other.balance < delta := by omega
    rw [if_pos under, if_pos also]
    exact done fun _ _ moved => ⟨rfl, fun enough => by omega, moved.1⟩
  · have also : ¬other.balance < delta := by omega
    rw [if_neg under, if_neg also]
    have covered := shown.covered.create config
    have made := balance_create config state
    have enough : delta ≤ seen.balance address := by omega
    have still : adjust.Covered address ((state.create config).withBalance (· - delta)).touch := by
      refine covered_debit covered ?_ ?_
      · intro first account loose there
        rw [create_of_loose shown.covered loose, same] at there
        exact marked enough first account loose there
      · intro first loose
        rw [made, balance]
        exact covers enough first loose
    refine bind (coupled_amount (-delta) valid covered ?_ (fun moved => ?_)
      still) fun _ _ => ?_
    · omega
    · omega
    · exact done fun _ _ moved => ⟨rfl, fun _ => rfl, moved.1⟩

theorem shows_exact (address : Address) (state : TxState Script) (value : Unit)
    (after : TxState Script)
    (ran : (State.access (.setValidateExactBalance address)).run (sides adjust world).first state =
      .ok (value, after)) (ends : adjust.Ahead after) : adjust.exact address := by
  have done : state.updateOriginal address (fun original => .ok original.demandExactBalance) =
    .ok (value, after) := (Program.run_perform ..).symm.trans ran
  obtain ⟨original, _, found, ⟨⟩, rfl⟩ := StateOver.updateOriginal_ok done
  exact (ends address _ (AList.lookup_insert _)).2.1 rfl

theorem shows_floor (address : Address) (least : Nat) (state : TxState Script) (value : Unit)
    (after : TxState Script)
    (ran : (State.access (.setMinBalance address least)).run (sides adjust world).first state =
      .ok (value, after)) (ends : adjust.Ahead after) : least ≤ adjust.floor address := by
  obtain ⟨original, changed, found, raised, rfl⟩ :=
    StateOver.updateOriginal_ok ((Program.run_perform ..).symm.trans ran)
  obtain ⟨_, _, _, rfl⟩ := OriginalAccountState.raiseMinBalance_ok raised
  exact Nat.le_trans (Nat.le_max_right _ _) (ends address _ (AList.lookup_insert _)).2.2

structure Payable (adjust : Adjustment) (address : Address) (balance debit : Nat) : Prop where
  first : debit ≤ balance
  second : (debit : Int) ≤ balance + adjust.shift address
  covers : ∀ first, adjust.Loose address first →
    first.balance ≤ balance - debit + adjust.floor address

theorem coupled_record (valid : adjust.Valid) (answers : Alike adjust world alike) (debit : Nat) :
    Alongside adjust world alike seen (State.recordBalanceConstraintForDebit address debit)
      fun value result state image => result = value ∧
        MovedAt adjust alike seen state image ∧
        (value = true → Payable adjust address (seen.balance address) debit) := by
  refine (coupled_recentAccount valid answers address).bind_and fun account other facts => ?_
  obtain ⟨_, _, same, balances⟩ := facts
  have balance : (account.map (·.balance)).getD 0 = seen.balance address := by
    rw [same]
    rfl
  refine bind (coupled_original valid answers seen address) fun original also => ?_
  refine of_pure
    (adjust.first address = some original.account ∧
      (((also.account.map (·.balance)).getD 0 : Nat) : Int) =
        ((original.account.map (·.balance)).getD 0 : Nat) + adjust.shift address) ?_ ?_
  · rintro state image ⟨_, shown, read, _⟩
    refine ⟨read, ?_⟩
    have shifted := balance_shift valid shown.covered
    rw [← shown.moved] at shifted
    exact shifted
  rintro ⟨read, originals⟩
  have known : ∀ first, adjust.Loose address first →
      (original.account.map (·.balance)).getD 0 = first.balance := by
    intro first loose
    have equal := loose.2.1
    rw [read] at equal
    rw [Option.some.inj equal]
    rfl
  rw [balance]
  generalize (original.account.map (·.balance)).getD 0 = before at originals known ⊢
  generalize (also.account.map (·.balance)).getD 0 = there at originals ⊢
  generalize (other.map (·.balance)).getD 0 = now at balances ⊢
  by_cases enough : debit ≤ seen.balance address
  · rw [if_pos enough]
    by_cases below : seen.balance address - debit < before
    · rw [if_pos below]
      refine foresee (before - (seen.balance address - debit) ≤ adjust.floor address)
        ((sides adjust world).shows_bind (shows_floor address _)) fun least => ?_
      have pays : (debit : Int) ≤ seen.balance address + adjust.shift address := by
        by_cases zero : adjust.shift address = 0
        · omega
        · obtain ⟨first, actual, loose, sum, floor, _⟩ := valid.loose address zero
          have equal := known first loose
          omega
      have second : debit ≤ now := by omega
      have lower : now - debit < there := by omega
      rw [if_pos second, if_pos lower]
      have amount : there - (now - debit) = before - (seen.balance address - debit) := by omega
      rw [amount]
      refine bind ((coupled_setMinBalance valid seen address _).strengthen
        fun _ _ facts => facts.1) fun _ _ => ?_
      refine done fun _ _ facts => ⟨rfl, facts.1, fun _ => ⟨enough, pays, ?_⟩⟩
      intro first loose
      have equal := known first loose
      omega
    · rw [if_neg below]
      have second : debit ≤ now := by omega
      have lower : ¬now - debit < there := by omega
      rw [if_pos second, if_neg lower]
      refine done fun _ _ facts => ⟨rfl, facts.1, fun _ => ⟨enough, by omega, ?_⟩⟩
      intro first loose
      have equal := known first loose
      omega
  · rw [if_neg enough]
    refine foresee (adjust.exact address)
      ((sides adjust world).shows_bind (shows_exact address)) fun exact_ => ?_
    have zero := shift_of_exact valid exact_
    have second : ¬debit ≤ now := by omega
    rw [if_neg second]
    refine bind ((coupled_demandExactBalance seen address).strengthen
      fun _ _ facts => facts.1) fun _ _ => ?_
    exact done fun _ _ facts => ⟨rfl, facts.1, fun wrong => by cases wrong⟩

end Amounts

end MonadChain.Execution
