import MonadChain.Execution.AdjustWriters

/-!
Every operation of a transaction with recorded debits, in the two runs.
-/

namespace MonadChain.Execution

open Program Coupled State

variable {W : Type} {adjust : Adjustment} {alike : Script → W → Prop} {world : World W}
  {seen : Sight} {address : Address} {config : Config}

variable {change : AccountState → AccountState}

variable (valid : adjust.Valid) (answers : Alike adjust world alike)

include valid answers

theorem coupled_change
    (respects : ∀ state, adjust.Covered address state → state.account = seen.account address →
      change (adjust.shiftState address state) = adjust.shiftState address (change state) ∧
        adjust.Covered address (change state)) :
    Agreeing adjust world alike seen
      (do
        let _ ← currentAccountState address
        modify address change : Method Unit) := by
  refine (coupled_currentAccountState valid answers address).bind_and fun state other facts => ?_
  obtain ⟨shown, same⟩ := facts
  obtain ⟨commutes, covered⟩ := respects state shown.covered same
  exact (coupled_modify _ _ (seen.enter_current address state) commutes covered).weaken
    fun _ _ _ _ moved => ⟨rfl, moved.1⟩

theorem coupled_enterBeside {α : Type} {answer : AccountState → α} (beside : Beside change)
    (blind : ∀ state, answer (adjust.shiftState address state) = answer state) :
    Agreeing adjust world alike seen
      (do
        let state ← currentAccountState address
        modify address change
        return answer state : Method α) := by
  refine (coupled_currentAccountState valid answers address).bind_and fun state other facts => ?_
  have shown := facts.1
  refine bind (coupled_beside beside (seen.enter_current address state) shown.covered)
    fun _ _ => ?_
  refine done fun _ _ moved => ⟨?_, moved.1⟩
  rw [shown.moved, blind]

theorem coupled_setNonce (nonce : Nat)
    (marked : ∀ account, seen.account address = some account → account.Marked →
      ({ account with nonce := nonce } : Account).Marked) :
    Agreeing adjust world alike seen (setNonce config address nonce) := by
  refine coupled_change valid answers ?_
  intro state covered same
  refine ⟨?_, ?_⟩
  · rw [Adjustment.shiftState_create covered valid, shiftState_withNonce]
  · intro first loose
    have still : adjust.Covered address ((state.create config).withNonce nonce) := by
      refine (covered.create config).map (fun _ => rfl) fun account there => ?_
      rw [create_of_loose covered loose, same] at there
      exact marked account there
    exact still first loose

theorem coupled_setToStateIncarnation :
    Agreeing adjust world alike seen
      (setToStateIncarnation config address) := by
  refine coupled_change valid answers ?_
  intro state covered same
  refine ⟨?_, (covered.create config).map (fun _ => rfl) fun _ _ marked => marked⟩
  rw [Adjustment.shiftState_create covered valid, shiftState_withIncarnation]

theorem coupled_setStorage (key : Key) (value : Value) :
    Agreeing adjust world alike seen (setStorage address key value) := by
  refine (coupled_currentAccountState valid answers address).bind_and fun state other facts => ?_
  have shown := facts.1
  rw [shown.accounts]
  cases state.account with
  | none => exact abort
  | some account =>
    refine bind (coupled_original valid answers _ address) fun _ _ => ?_
    refine bind ((coupled_originalStorage answers _ _ key).strengthen fun _ _ facts => facts.1)
      fun slot also => ?_
    refine of_pure _ (fun _ _ facts => facts.1) fun equal => ?_
    subst equal
    refine bind ((coupled_beside (beside_setStorage key value also)
      (seen.enter_current address state) shown.covered).strengthen fun _ _ facts => facts.2)
      fun _ _ => ?_
    refine done fun _ _ moved => ⟨?_, moved.1⟩
    rw [shown.moved]
    rfl

theorem coupled_accessStorage (key : Key) :
    Agreeing adjust world alike seen (accessStorage config address key) := by
  refine (coupled_currentAccountState valid answers address).bind_and fun state other facts => ?_
  have shown := facts.1
  have slot : (other.accessStorage key).1 = (state.accessStorage key).1 := by
    rw [shown.moved]
    unfold AccountState.accessStorage
    split <;> split <;> first | rfl | contradiction
  have pages : other.pageTracker = state.pageTracker := by
    rw [shown.moved]
    rfl
  refine bind (coupled_beside (beside_accessStorage key)
    (seen.enter_current address state) shown.covered) fun _ _ => ?_
  have covered : adjust.Covered address (state.accessStorage key).2 :=
    shown.covered.of_eq ((beside_accessStorage key).account state)
      ((beside_accessStorage key).destructed state)
  by_cases mip8 : config.mip8 = true
  · rw [if_pos mip8, if_pos mip8]
    refine bind (coupled_beside
      (beside_pageTracker fun pages => (accessPage pages key).2)
      (Sight.enter_current _ _ _) covered) fun _ _ => ?_
    exact done fun _ _ moved => ⟨by rw [pages], moved.1⟩
  · rw [if_neg mip8, if_neg mip8]
    exact done fun _ _ moved => ⟨slot, moved.1⟩

theorem coupled_setCode (code : Code)
    (marked : ∀ account, seen.account address = some account → account.Marked →
      ({ account with codeHash := config.keccak code } : Account).Marked) :
    Agreeing adjust world alike seen (setCode config address code) := by
  refine (coupled_currentAccountState valid answers address).bind_and fun state other facts => ?_
  obtain ⟨shown, same⟩ := facts
  rw [shown.accounts]
  cases state.account with
  | none =>
    exact done fun _ _ moved => ⟨rfl, moved.1⟩
  | some account =>
    refine bind (coupled_putCode _ code) fun _ _ => ?_
    have covered : adjust.Covered address (state.withCodeHash (config.keccak code)) :=
      shown.covered.map (fun _ => rfl) fun known found => marked known (same ▸ found)
    exact (coupled_modify (·.withCodeHash (config.keccak code)) _
      (seen.enter_current address state)
      (shiftState_withCodeHash _ state) covered).weaken fun _ _ _ _ moved => ⟨rfl, moved.1⟩

omit valid answers in
theorem coupled_monadAssert {pre : TxState Script → TxState W → Prop} (condition : Bool)
    (reason : String) :
    Coupled (sides adjust world) pre (monadAssert condition reason)
      (monadAssert condition reason) fun _ _ => pre := by
  unfold monadAssert
  split
  · exact done fun _ _ start => start
  · exact abort

theorem coupled_createContract :
    Agreeing adjust world alike seen (createContract config address) := by
  refine (coupled_currentAccountState valid answers address).bind_and fun state other facts => ?_
  have shown := facts.1
  rw [shown.accounts]
  cases state.account with
  | none =>
    exact (coupled_modify _ _ (seen.enter_current address state)
      (Adjustment.shiftState_create shown.covered valid config)
      (shown.covered.create config)).weaken fun _ _ _ _ moved => ⟨rfl, moved.1⟩
  | some account =>
    refine bind (coupled_monadAssert _ _) fun _ _ => ?_
    refine bind (coupled_monadAssert _ _) fun _ _ => ?_
    have covered : adjust.Covered address (state.withIncarnation config.incarnation) :=
      shown.covered.map (fun _ => rfl) fun _ _ marked => marked
    exact (coupled_modify (·.withIncarnation config.incarnation) _
      (seen.enter_current address state)
      (shiftState_withIncarnation _ state) covered).weaken fun _ _ _ _ moved => ⟨rfl, moved.1⟩

theorem coupled_createAccountNoRollback :
    Agreeing adjust world alike seen (createAccountNoRollback config address) := by
  refine (coupled_currentAccountState valid answers address).bind_and fun state other facts => ?_
  have shown := facts.1
  have absent : other.account.isNone = state.account.isNone := by
    rw [shown.moved]
    simp [Adjustment.shiftState]
  rw [absent]
  refine bind (coupled_monadAssert _ _) fun _ _ => ?_
  exact (coupled_modify _ _ (seen.enter_current address state)
    (Adjustment.shiftState_create shown.covered valid _)
    (shown.covered.create _)).weaken fun _ _ _ _ moved => ⟨rfl, moved.1⟩

theorem coupled_isCurrentIncarnation :
    Alongside adjust world alike seen (isCurrentIncarnation config address)
      fun value result state image => result = value ∧
        MovedAt adjust alike seen state image := by
  refine (coupled_recentAccount valid answers address).bind_and fun account other facts => ?_
  rw [facts.1]
  cases account with
  | none | some known => exact done fun _ _ moved => ⟨rfl, moved⟩

abbrev AgreesPaid (adjust : Adjustment) (alike : Script → W → Prop) {α : Type}
    (value result : Except String α) (state : TxState Script) (image : TxState W) : Prop :=
  result = value ∧ value ≠ .error "balance underflow" ∧ Moved adjust alike state image

theorem coupled_takeBalance (exact_ : adjust.exact address) {balance : Nat}
    (whole : balance = seen.balance address) :
    Alongside adjust world alike seen
      (subtractFromBalance config address balance) (AgreesPaid adjust alike) := by
  have zero := Adjustment.shift_of_exact valid exact_
  refine (coupled_subtractFromBalance valid answers balance (by omega)
    (fun _ _ _ loose => absurd exact_ loose.1) (fun _ _ loose => absurd exact_ loose.1)).weaken ?_
  rintro value result after image ⟨same, paid, moved⟩
  refine ⟨same, ?_, moved⟩
  rw [paid (Nat.le_of_eq whole)]
  simp

variable (beneficiary : Address)
  (credits : address ≠ beneficiary → CreditsAlike (adjust.shift beneficiary)
    (seen.balance beneficiary) (seen.balance address))

include credits

theorem coupled_moveBalance (exact_ : adjust.exact address) :
    Alongside adjust world alike seen
      (moveBalance config address beneficiary (seen.balance address))
      (AgreesPaid adjust alike) := by
  unfold moveBalance
  by_cases apart : address ≠ beneficiary
  · rw [if_pos apart]
    refine (coupled_addToBalance valid answers (seen.balance address) (credits apart)).bind
      fun added also => ?_
    refine of_pure _ (fun _ _ facts => And.intro facts.1 facts.2.1) fun facts => ?_
    obtain ⟨rfl, fine⟩ := facts
    cases also with
    | error reason =>
      refine done ?_
      rintro after image ⟨_, _, state, moved⟩
      exact ⟨rfl, fine, moved.1⟩
    | ok value =>
      -- The credit has left the account alone.
      intro state image result after start
      obtain ⟨_, _, entered, moved⟩ := start
      have same : (seen.enter beneficiary entered).balance address = seen.balance address := by
        unfold Sight.balance
        rw [Sight.enter_other _ _ apart]
      exact coupled_takeBalance valid answers exact_ same.symm state image result after moved
  · rw [if_neg apart]
    exact coupled_takeBalance valid answers exact_ rfl

theorem coupled_leaveBalance (exact_ : adjust.exact address) :
    Alongside adjust world alike seen
      (leaveBalance config address beneficiary (seen.balance address))
      (AgreesPaid adjust alike) := by
  unfold leaveBalance
  by_cases leaves : config.cancun = false ∨ address ≠ beneficiary
  · rw [if_pos leaves]
    exact coupled_moveBalance valid answers beneficiary credits exact_
  · rw [if_neg leaves]
    refine (coupled_isCurrentIncarnation valid answers).bind fun mine also => ?_
    refine of_pure _ (fun _ _ facts => facts.1) fun same => ?_
    subst same
    cases also with
    | true =>
      exact (coupled_moveBalance valid answers beneficiary credits exact_).strengthen
        fun _ _ facts => facts.2
    | false =>
      exact done fun _ _ facts => ⟨rfl, by simp, facts.2.1⟩

theorem coupled_selfdestruct :
    Alongside adjust world alike seen
      (selfdestruct config address beneficiary) (AgreesPaid adjust alike) := by
  refine (coupled_currentAccountState valid answers address).bind_and fun state other facts => ?_
  obtain ⟨shown, same⟩ := facts
  have accounts := Sight.enter_same same
  have balances : ∀ place, (seen.enter address state).balance place = seen.balance place := by
    intro place
    unfold Sight.balance
    rw [accounts]
  refine bind (coupled_getBalance valid answers address) fun balance also => ?_
  refine of_pure _ (fun _ _ facts => And.intro facts.1 facts.2.2) fun facts => ?_
  obtain ⟨rfl, exact_, read⟩ := facts
  have whole : also = (seen.enter address state).balance address := read
  subst whole
  refine bind ((coupled_leaveBalance valid answers beneficiary ?_ exact_).strengthen
    fun _ _ facts => facts.2.1) fun moved also => ?_
  · intro apart
    rw [balances, balances]
    exact credits apart
  refine of_pure _ (fun _ _ facts => And.intro facts.1 facts.2.1) fun facts => ?_
  obtain ⟨rfl, fine⟩ := facts
  cases also with
  | error reason =>
    refine done fun _ _ facts => ⟨rfl, ?_, facts.2.2⟩
    intro wrong
    cases wrong
    exact fine rfl
  | ok value =>
    refine bind ((coupled_modify_exact (·.destruct) valid exact_).strengthen
      fun _ _ facts => facts.2.2) fun _ _ => ?_
    refine done fun _ _ moved => ⟨?_, by simp, moved⟩
    rw [shown.moved]
    rfl

end MonadChain.Execution
