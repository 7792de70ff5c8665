import MonadChain.Execution.BlockState
import MonadChain.Execution.Invariants

/-!
What it means that `can_merge` has answered true: the accounts that were read are
those of the block, up to balances that were fixed, and so are the slots.
-/

namespace MonadChain.Execution

variable {W : Type}

variable {before now : Account} {relaxed : Bool} {address : Address} {actual : Option Account}
  {state fixed : TxState W} {journal : VersionJournal} {original : OriginalAccountState}
  {property : Address → AccountState → Prop} {block : BlockState} {keys : List Address}

namespace TxState

theorem sameButBalance_iff :
    sameButBalance (some before) (some now) = true ↔
      isEmpty before = false ∧ isEmpty now = false ∧ before.codeHash = now.codeHash ∧
        before.incarnation = now.incarnation ∧ before.nonce = now.nonce := by
  simp [sameButBalance, and_assoc]

structure Fixed (relaxed : Bool) (address : Address) (actual : Option Account)
    (state fixed : TxState W) (original : OriginalAccountState) (before now : Account)
    (journal : VersionJournal) : Prop where
  found : state.original.lookup address = some original
  account : original.account = some before
  current : actual = some now
  same : sameButBalance (some before) (some now) = true
  differs : before.balance ≠ now.balance
  relaxed : relaxed = true
  inexact : original.validateExactBalance = false
  enough : original.minBalance ≤ now.balance
  adjusted : adjustCurrent address before.balance now.balance state.journal = .ok (some journal)
  result : fixed = { state with
    original := state.original.insert address
      { original with
        account := some { before with balance := now.balance }
        validateExactBalance := true }
    journal := journal }

theorem tryFix_true (ran : state.tryFixAccountMismatch relaxed address actual = .ok (true, fixed)) :
    ∃ original before now journal,
      Fixed relaxed address actual state fixed original before now journal := by
  unfold tryFixAccountMismatch at ran
  split at ran
  · cases ran
  · rename_i original found
    split at ran
    · rename_i before now account
      split at ran
      · cases ran
      rename_i same
      split at ran
      · cases ran
      rename_i differs
      split at ran
      · cases ran
      rename_i fixable
      split at ran
      · cases ran
      · cases ran
      · rename_i journal adjusted
        have parts := not_or.mp fixable
        have inner := not_or.mp parts.2
        refine ⟨original, before, now, journal, found, account, rfl, ?_, differs, ?_, ?_, ?_,
          adjusted, ?_⟩
        · exact Bool.not_eq_false _ ▸ same
        · exact Bool.not_eq_false _ ▸ parts.1
        · exact Bool.not_eq_true _ ▸ inner.1
        · exact Nat.not_lt.mp inner.2
        · cases ran
          rfl
    · cases ran

theorem adjustCurrent_some {original actual : Nat} {after : VersionJournal}
    (ran : adjustCurrent address original actual journal = .ok (some after)) :
    (journal.current.lookup address = none ∧ after = journal) ∨
    ∃ stack recent balance, journal.current.lookup address = some stack ∧ stack.size = 1 ∧
      stack.recent.account = some recent ∧
      adjustBalance original actual recent.balance = .ok balance ∧
      after = { journal with
        current := journal.current.insert address (rebalance stack recent balance) } := by
  grind [adjustCurrent]

theorem Fixed.allStates (fix : Fixed relaxed address actual state fixed original before now journal)
    (blind : ∀ address state account balance, state.account = some account →
      property address state →
      property address { state with account := some { account with balance := balance } })
    (all : state.journal.AllStates property) : fixed.journal.AllStates property := by
  rw [fix.result]
  dsimp only
  rcases adjustCurrent_some fix.adjusted with ⟨absent, rfl⟩ |
    ⟨stack, recent, balance, found, single, there, moved, rfl⟩
  · exact all
  · intro other kept looked entry member
    by_cases here : other = address
    · subst here
      rw [AList.lookup_insert] at looked
      cases looked
      rcases List.mem_cons.mp member with rfl | inner
      · exact blind other stack.recent recent balance there
          (all other stack found _ VersionJournal.recent_mem)
      · exact all other stack found entry (List.mem_cons_of_mem _ inner)
    · rw [AList.lookup_insert_ne here] at looked
      exact all other kept looked entry member

end TxState

namespace BlockState

open TxState

theorem storageMatches_lookup {delta : StateDelta} {storage : Map Key Value}
    (matching : storageMatches delta storage = true) {key : Key} {value : Value}
    (found : storage.lookup key = some value) :
    value = ((delta.storage.lookup key).map Prod.snd).getD 0 := by
  have member := AList.mem_lookup_iff.mp found
  have slot := List.all_eq_true.mp matching ⟨key, value⟩ member
  cases there : delta.storage.lookup key with
  | none | some known =>
    rw [there] at slot
    exact of_decide_eq_true slot

structure Matched (block : BlockState) (address : Address) (original : OriginalAccountState)
    (delta : StateDelta) : Prop where
  there : block.state.lookup address = some delta
  slots : storageMatches delta original.storage = true
  incarnation : delta.account.2.map (·.incarnation) = original.account.map (·.incarnation)

theorem canMergeAll_cons {rest : List Address}
    (ran : canMergeAll relaxed block (address :: rest) state = .ok (true, fixed)) :
    ∃ original delta middle, state.original.lookup address = some original ∧
      block.state.lookup address = some delta ∧ storageMatches delta original.storage = true ∧
      canMergeAll relaxed block rest middle = .ok (true, fixed) ∧
      ((original.account = delta.account.2 ∧ middle = state) ∨
        (original.account ≠ delta.account.2 ∧
          state.tryFixAccountMismatch relaxed address delta.account.2 = .ok (true, middle))) := by
  grind [canMergeAll]

theorem original_of_fix {other : Address} (apart : other ≠ address)
    (ran : state.tryFixAccountMismatch relaxed address actual = .ok (true, fixed)) :
    fixed.original.lookup other = state.original.lookup other := by
  obtain ⟨original, before, now, journal, fix⟩ := tryFix_true ran
  rw [fix.result]
  exact AList.lookup_insert_ne apart

theorem canMergeAll_matched (distinct : keys.Nodup)
    (ran : canMergeAll relaxed block keys state = .ok (true, fixed)) :
    ∀ address ∈ keys, ∀ original, state.original.lookup address = some original →
      ∃ delta, Matched block address original delta := by
  induction keys generalizing state with
  | nil =>
    intro address member
    cases member
  | cons first rest ih =>
    obtain ⟨original, delta, middle, found, there, slots, remaining, step⟩ :=
      canMergeAll_cons ran
    have apart := (List.nodup_cons.mp distinct).1
    intro address member known looked
    rcases List.mem_cons.mp member with rfl | inner
    · rw [found] at looked
      cases looked
      refine ⟨delta, there, slots, ?_⟩
      rcases step with ⟨same, _⟩ | ⟨_, fix⟩
      · rw [same]
      · obtain ⟨other, before, now, journal, fix⟩ := tryFix_true fix
        have same := fix.found
        rw [found] at same
        cases same
        rw [fix.current, fix.account, Option.map_some, Option.map_some,
          (sameButBalance_iff.mp fix.same).2.2.2.1]
    · have others : address ≠ first := fun same => apart (same ▸ inner)
      refine ih (List.nodup_cons.mp distinct).2 remaining address inner known ?_
      rcases step with ⟨_, rfl⟩ | ⟨_, fix⟩
      · exact looked
      · rw [original_of_fix others fix]
        exact looked

theorem canMerge_matched (ran : canMerge relaxed block state = .ok (true, fixed))
    (found : state.original.lookup address = some original) :
    ∃ delta, Matched block address original delta :=
  canMergeAll_matched state.original.keys_nodup ran address
    (AList.mem_keys.mp (AList.lookup_isSome.mp (found ▸ rfl))) original found

theorem canMergeAll_allStates
    (blind : ∀ address state account balance, state.account = some account →
      property address state →
      property address { state with account := some { account with balance := balance } })
    (ran : canMergeAll relaxed block keys state = .ok (true, fixed))
    (all : state.journal.AllStates property) : fixed.journal.AllStates property := by
  induction keys generalizing state with
  | nil =>
    cases ran
    exact all
  | cons first rest ih =>
    obtain ⟨original, delta, middle, found, there, slots, remaining, step⟩ :=
      canMergeAll_cons ran
    refine ih remaining ?_
    rcases step with ⟨_, rfl⟩ | ⟨_, fix⟩
    · exact all
    · obtain ⟨other, before, now, journal, fix⟩ := tryFix_true fix
      exact fix.allStates blind all

theorem canMergeAll_strict (ran : canMergeAll false block keys state = .ok (true, fixed)) :
    fixed = state ∧ ∀ address ∈ keys, ∀ original delta,
      state.original.lookup address = some original →
      block.state.lookup address = some delta → original.account = delta.account.2 := by
  induction keys with
  | nil =>
    cases ran
    exact ⟨rfl, fun address member => by cases member⟩
  | cons first rest ih =>
    obtain ⟨original, delta, middle, found, there, slots, remaining, step⟩ :=
      canMergeAll_cons ran
    rcases step with ⟨same, rfl⟩ | ⟨_, fix⟩
    · obtain ⟨unchanged, others⟩ := ih remaining
      refine ⟨unchanged, ?_⟩
      intro address member known current looked shown
      rcases List.mem_cons.mp member with rfl | inner
      · rw [found] at looked
        rw [there] at shown
        cases looked
        cases shown
        exact same
      · exact others address inner known current looked shown
    · obtain ⟨other, before, now, journal, fix⟩ := tryFix_true fix
      exact absurd fix.relaxed Bool.false_ne_true

theorem canMerge_strict (ran : canMerge false block state = .ok (true, fixed)) :
    fixed = state ∧ ∀ address original delta, state.original.lookup address = some original →
      block.state.lookup address = some delta → original.account = delta.account.2 := by
  obtain ⟨same, accounts⟩ := canMergeAll_strict ran
  refine ⟨same, ?_⟩
  intro address original delta found there
  exact accounts address (AList.mem_keys.mp (AList.lookup_isSome.mp (found ▸ rfl))) original delta
    found there

end BlockState

end MonadChain.Execution
