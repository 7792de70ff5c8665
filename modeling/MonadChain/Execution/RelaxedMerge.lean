import MonadChain.Execution.Relaxed

/-!
What the relaxed `can_merge` has done to a state, account by account, and that this
is what a run on the block state itself ends with.
-/

namespace MonadChain.Execution

open Program TxState

variable {W : Type}

variable {relaxed : Bool} {address : Address} {actual : Option Account} {fixed : TxState W}
  {block : BlockState} {keys : List Address} {delta : StateDelta} {original : OriginalAccountState}

/-- `can_merge` has found the account as it was read, or has moved its balance. -/
inductive Adjusted (address : Address) (original : OriginalAccountState) (delta : StateDelta)
    (journal after : VersionJournal) : Prop where
  | same (equal : original.account = delta.account.2)
      (kept : after.current.lookup address = journal.current.lookup address)
  | moved (before now : Account) (read : original.account = some before)
      (actual : delta.account.2 = some now)
      (same : TxState.sameButBalance (some before) (some now) = true)
      (inexact : original.validateExactBalance = false)
      (enough : original.minBalance ≤ now.balance)
      (current : (journal.current.lookup address = none ∧ after.current.lookup address = none) ∨
        ∃ stack recent balance, journal.current.lookup address = some stack ∧ stack.size = 1 ∧
          stack.recent.account = some recent ∧
          TxState.adjustBalance before.balance now.balance recent.balance = .ok balance ∧
          after.current.lookup address = some (TxState.rebalance stack recent balance))

namespace BlockState

open TxState

variable {state : TxState W}

theorem current_of_fix {other : Address} (apart : other ≠ address)
    (ran : state.tryFixAccountMismatch relaxed address actual = .ok (true, fixed)) :
    fixed.journal.current.lookup other = state.journal.current.lookup other := by
  obtain ⟨original, before, now, journal, fix⟩ := tryFix_true ran
  rw [fix.result]
  rcases adjustCurrent_some fix.adjusted with ⟨_, rfl⟩ | ⟨stack, recent, balance, _, _, _, _, rfl⟩
  · rfl
  · exact AList.lookup_insert_ne apart

theorem canMergeAll_kept (ran : canMergeAll relaxed block keys state = .ok (true, fixed)) :
    ∀ address ∉ keys, fixed.original.lookup address = state.original.lookup address ∧
      fixed.journal.current.lookup address = state.journal.current.lookup address := by
  induction keys generalizing state with
  | nil =>
    intro address absent
    cases ran
    exact ⟨rfl, rfl⟩
  | cons first rest ih =>
    obtain ⟨original, delta, middle, found, there, slots, remaining, step⟩ :=
      canMergeAll_cons ran
    intro address absent
    have apart : address ≠ first := fun same => absent (same ▸ List.mem_cons_self)
    have others : address ∉ rest := fun inner => absent (List.mem_cons_of_mem _ inner)
    obtain ⟨originals, journals⟩ := ih remaining address others
    rw [originals, journals]
    rcases step with ⟨_, rfl⟩ | ⟨_, fix⟩
    · exact ⟨rfl, rfl⟩
    · exact ⟨original_of_fix apart fix, current_of_fix apart fix⟩

theorem adjusted_of_fix (found : state.original.lookup address = some original)
    (ran : state.tryFixAccountMismatch relaxed address delta.account.2 = .ok (true, fixed)) :
    Adjusted address original delta state.journal fixed.journal ∧
      (fixed.original.lookup address).map (·.account) = some delta.account.2 := by
  obtain ⟨other, before, now, journal, fix⟩ := tryFix_true ran
  have same := fix.found
  rw [found] at same
  cases same
  obtain ⟨_, _, code, incarnation, nonce⟩ := sameButBalance_iff.mp fix.same
  refine ⟨.moved before now fix.account fix.current fix.same fix.inexact fix.enough ?_, ?_⟩
  · rw [fix.result]
    rcases adjustCurrent_some fix.adjusted with ⟨absent, rfl⟩ |
      ⟨stack, recent, balance, there, single, account, moved, rfl⟩
    · exact Or.inl ⟨absent, absent⟩
    · exact Or.inr ⟨stack, recent, balance, there, single, account, moved, AList.lookup_insert _⟩
  · rw [fix.result, fix.current, AList.lookup_insert]
    cases now
    cases before
    subst code incarnation nonce
    rfl

theorem canMergeAll_adjusted (distinct : keys.Nodup)
    (ran : canMergeAll relaxed block keys state = .ok (true, fixed)) :
    ∀ address ∈ keys, ∀ original, state.original.lookup address = some original →
      ∃ delta, block.state.lookup address = some delta ∧
        Adjusted address original delta state.journal fixed.journal ∧
        (fixed.original.lookup address).map (·.account) = some delta.account.2 := by
  induction keys generalizing state with
  | nil =>
    intro address member
    cases member
  | cons first rest ih =>
    obtain ⟨original, delta, middle, found, there, slots, remaining, step⟩ :=
      canMergeAll_cons ran
    obtain ⟨apart, others⟩ := List.nodup_cons.mp distinct
    intro address member known looked
    rcases List.mem_cons.mp member with rfl | inner
    · rw [found] at looked
      cases looked
      obtain ⟨originals, journals⟩ := canMergeAll_kept remaining address apart
      refine ⟨delta, there, ?_⟩
      rcases step with ⟨equal, rfl⟩ | ⟨_, fix⟩
      · refine ⟨.same equal journals, ?_⟩
        rw [originals, found]
        exact congrArg some equal
      · obtain ⟨adjusted, account⟩ := adjusted_of_fix found fix
        refine ⟨?_, by rw [originals]; exact account⟩
        cases adjusted with
        | same equal kept => exact .same equal (journals.trans kept)
        | moved before now read actual same inexact enough current =>
          refine .moved before now read actual same inexact enough ?_
          rw [journals]
          exact current
    · have other : address ≠ first := fun same => apart (same ▸ inner)
      have place : middle.original.lookup address = some known ∧
          middle.journal.current.lookup address = state.journal.current.lookup address := by
        rcases step with ⟨_, rfl⟩ | ⟨_, fix⟩
        · exact ⟨looked, rfl⟩
        · exact ⟨(original_of_fix other fix).trans looked, current_of_fix other fix⟩
      obtain ⟨delta, there, adjusted, account⟩ :=
        ih others remaining address inner known place.1
      refine ⟨delta, there, ?_, account⟩
      cases adjusted with
      | same equal kept => exact .same equal (kept.trans place.2)
      | moved before now read actual same inexact enough current =>
        refine .moved before now read actual same inexact enough ?_
        rw [← place.2]
        exact current

end BlockState

def balanceGap (block : BlockState) (state : TxState W) (address : Address) : Int :=
  match (state.original.lookup address).bind (·.account),
    (block.state.lookup address).bind (·.account.2) with
  | some before, some now => now.balance - before.balance
  | _, _ => 0

def TxState.kept (state : TxState Script) (address : Address) : Option (Option Account) :=
  (state.original.lookup address).map (·.account)

def adjustmentOf (state : TxState Script) (gap : Address → Int) : Adjustment where
  first := state.kept
  exact address := ∃ original, state.original.lookup address = some original ∧
    original.validateExactBalance = true
  floor address := ((state.original.lookup address).map (·.minBalance)).getD 0
  shift := gap

def BlockState.Words (block : BlockState) : Prop :=
  ∀ address delta account, block.state.lookup address = some delta →
    delta.account.2 = some account → account.balance ≤ State.maxBalance

section Ends

variable {state : TxState Script} {gap : Address → Int}

theorem kept_of_lookup (found : state.original.lookup address = some original) :
    state.kept address = some original.account := by
  rw [TxState.kept, found]
  rfl

theorem adjustmentOf_ahead : (adjustmentOf state gap).Ahead state := by
  intro address original found
  refine ⟨kept_of_lookup found, fun on => ⟨original, found, on⟩, ?_⟩
  simp [adjustmentOf, found]

theorem adjustmentOf_still : (adjustmentOf state fun _ => 0).Valid :=
  ⟨fun _ moved => absurd rfl moved⟩

section

variable (found : state.original.lookup address = some original)
  (there : block.state.lookup address = some delta)

include found there

theorem gap_of_same (equal : original.account = delta.account.2) :
    balanceGap block state address = 0 := by
  unfold balanceGap
  rw [found, there]
  simp only [Option.bind_some, equal]
  cases delta.account.2 with
  | none => rfl
  | some account => exact Int.sub_self _

theorem gap_of_moved {before now : Account}
    (read : original.account = some before) (actual : delta.account.2 = some now) :
    balanceGap block state address = now.balance - before.balance := by
  unfold balanceGap
  rw [found, there]
  simp [read, actual]

end

theorem adjustmentOf_valid {fixed : TxState Script} (words : block.Words)
    (mergeable : block.canMerge true state = .ok (true, fixed)) :
    (adjustmentOf state (balanceGap block state)).Valid := by
  refine ⟨fun address moved => ?_⟩
  cases found : state.original.lookup address with
  | none =>
    refine absurd ?_ moved
    simp [adjustmentOf, balanceGap, found]
  | some original =>
    obtain ⟨delta, there, adjusted, _⟩ := BlockState.canMergeAll_adjusted
      state.original.keys_nodup mergeable address
      (AList.mem_keys.mp (AList.lookup_isSome.mp (found ▸ rfl))) original found
    cases adjusted with
    | same equal kept => exact absurd (gap_of_same found there equal) moved
    | moved before now read actual same inexact enough current =>
      obtain ⟨alive, stays, code, _, nonce⟩ := sameButBalance_iff.mp same
      have gap := gap_of_moved found there read actual
      refine ⟨before, now.balance, ⟨?_, ?_, alive⟩, ?_, ?_, words address delta now there actual,
        ?_⟩
      · rintro ⟨other, looked, on⟩
        rw [found] at looked
        cases looked
        rw [inexact] at on
        cases on
      · rw [← read]
        exact kept_of_lookup found
      · change (now.balance : Int) = before.balance + balanceGap block state address
        omega
      · simp only [adjustmentOf, found, Option.map_some, Option.getD_some]
        exact enough
      · intro unmarked
        refine Adjustment.positive_of_alive stays ?_
        unfold Account.Marked at unmarked ⊢
        rw [← code, ← nonce]
        exact unmarked

def balanceAssertion : String := "recent->balance >= (original->balance - actual->balance)"

theorem adjustCurrent_asserts (address : Address) (original actual : Nat) (journal : VersionJournal)
    (covers : ∀ stack recent, journal.current.lookup address = some stack →
      stack.recent.account = some recent → original ≤ recent.balance + actual) :
    adjustCurrent address original actual journal ≠ .error balanceAssertion := by
  intro failed
  unfold adjustCurrent at failed
  split at failed
  · cases failed
  · rename_i stack found
    split at failed
    · exact absurd (Except.error.inj failed) (by decide)
    · split at failed
      · cases failed
      · rename_i recent account
        have enough := covers stack recent found account
        have adds : ∃ balance, adjustBalance original actual recent.balance =
            .ok balance := by
          unfold adjustBalance
          split
          · exact ⟨_, rfl⟩
          · rw [if_neg (by omega)]
            exact ⟨_, rfl⟩
        obtain ⟨balance, result⟩ := adds
        rw [result] at failed
        cases failed

def Covering (state : TxState W) (address : Address) : Prop :=
  ∀ original before stack recent, state.original.lookup address = some original →
    original.account = some before → isEmpty before = false →
    original.validateExactBalance = false → state.journal.current.lookup address = some stack →
    stack.recent.account = some recent → before.balance ≤ recent.balance + original.minBalance

theorem tryFix_asserts {state : TxState W} (covering : Covering state address) :
    state.tryFixAccountMismatch relaxed address actual ≠ .error balanceAssertion := by
  intro failed
  unfold tryFixAccountMismatch at failed
  split at failed
  · exact absurd (Except.error.inj failed) (by decide)
  · rename_i original found
    split at failed
    · rename_i before now read
      split at failed
      · cases failed
      rename_i same
      split at failed
      · exact absurd (Except.error.inj failed) (by decide)
      split at failed
      · cases failed
      rename_i fixable
      obtain ⟨_, rest⟩ := not_or.mp fixable
      obtain ⟨inexact, enough⟩ := not_or.mp rest
      have alive := (sameButBalance_iff.mp (Bool.not_eq_false _ ▸ same)).1
      have asserts := adjustCurrent_asserts address before.balance now.balance state.journal
        fun stack recent there account => by
          have covers := covering original before stack recent found read alive
            (Bool.not_eq_true _ ▸ inexact) there account
          omega
      split at failed
      · rename_i reason adjusted
        exact asserts (adjusted.trans (congrArg Except.error (Except.error.inj failed)))
      · cases failed
      · cases failed
    · cases failed

theorem canMergeAll_asserts (distinct : keys.Nodup) {state : TxState W}
    (covering : ∀ address ∈ keys, Covering state address) :
    BlockState.canMergeAll relaxed block keys state ≠ .error balanceAssertion := by
  induction keys generalizing state with
  | nil =>
    intro failed
    cases failed
  | cons first rest ih =>
    obtain ⟨apart, others⟩ := List.nodup_cons.mp distinct
    have here := covering first List.mem_cons_self
    have later := ih others fun address member => covering address (List.mem_cons_of_mem _ member)
    intro failed
    simp only [BlockState.canMergeAll] at failed
    split at failed
    · exact absurd (Except.error.inj failed) (by decide)
    · exact absurd (Except.error.inj failed) (by decide)
    · rename_i original delta found there
      split at failed
      · split at failed
        · exact later failed
        · cases failed
      · split at failed
        · rename_i reason fix
          exact tryFix_asserts here (fix.trans (congrArg Except.error (Except.error.inj failed)))
        · cases failed
        · rename_i fixed fix
          split at failed
          · refine ih others (fun address member => ?_) failed
            have other : address ≠ first := fun same => apart (same ▸ member)
            unfold Covering
            rw [BlockState.original_of_fix other fix, BlockState.current_of_fix other fix]
            exact covering address (List.mem_cons_of_mem _ member)
          · cases failed

end Ends

end MonadChain.Execution
