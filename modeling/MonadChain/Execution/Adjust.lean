import MonadChain.Execution.Reads
import MonadChain.Lib.Coupling
import Mathlib.Tactic.Ring

/-!
Two runs of a transaction on block states that differ in balances. The balances of the second run
are those of the first one, moved by a fixed amount for each account, only if the first run has
not asked for the exact balance, and not below what its debits need. `Covered` is what the first
run guarantees of the states of such an account.
-/

namespace MonadChain.Execution

open Program VersionJournal VersionStack AList

variable {account : Account} {state : AccountState} {stack : VersionStack AccountState}
  {reason : String} {change : AccountState → Option AccountState}

/-- What is known when the first run is over: the accounts as it has kept them when it read
them, those whose balance it has asked for, the least balances that its debits need, and how
much the balances are moved. -/
structure Adjustment where
  first : Address → Option (Option Account)
  exact : Address → Prop
  floor : Address → Nat
  shift : Address → Int

def Account.Marked (account : Account) : Prop := account.nonce ≠ 0 ∨ account.codeHash ≠ nullHash

namespace Adjustment

section

variable (adjust : Adjustment) (address : Address)

def shiftAccount (account : Account) : Account :=
  { account with balance := (account.balance + adjust.shift address).toNat }

def shiftState (state : AccountState) : AccountState :=
  { state with account := state.account.map (adjust.shiftAccount address) }

/-- The account was read alive, and its exact balance was not asked for. -/
def Loose (account : Account) : Prop :=
  ¬adjust.exact address ∧ adjust.first address = some (some account) ∧ isEmpty account = false

end

/-- Only loose accounts are moved, to a balance that covers their debits and leaves them alive. -/
structure Valid (adjust : Adjustment) : Prop where
  loose : ∀ address, adjust.shift address ≠ 0 → ∃ (account : Account) (balance : Nat),
    adjust.Loose address account ∧ (balance : Int) = account.balance + adjust.shift address ∧
    adjust.floor address ≤ balance ∧ balance ≤ State.maxBalance ∧
    (¬account.Marked → 0 < balance)

/-- The states of a loose account: it is there, its balance covers the debits, and it is alive
whatever its balance, or has not been debited. -/
def Covered (adjust : Adjustment) (address : Address) (state : AccountState) : Prop :=
  ∀ first, adjust.Loose address first → ∃ account, state.account = some account ∧
    first.balance ≤ account.balance + adjust.floor address ∧
    (account.Marked ∨ (¬first.Marked ∧ first.balance ≤ account.balance)) ∧
    state.destructed = false ∧
    (adjust.shift address ≠ 0 → (account.balance : Int) + adjust.shift address ≤ State.maxBalance)

variable {adjust : Adjustment} {address : Address}

theorem shiftAccount_zero (zero : adjust.shift address = 0) : adjust.shiftAccount address = id := by
  funext account
  simp [shiftAccount, zero]

theorem shiftState_zero (zero : adjust.shift address = 0) (state : AccountState) :
    adjust.shiftState address state = state := by
  simp [shiftState, shiftAccount_zero zero]

theorem shift_of_exact (valid : adjust.Valid) (exact_ : adjust.exact address) :
    adjust.shift address = 0 := by
  by_contra moved
  obtain ⟨account, balance, loose, _⟩ := valid.loose address moved
  exact loose.1 exact_

theorem covered_of_exact (exact_ : adjust.exact address) (state : AccountState) :
    adjust.Covered address state := fun _ loose => absurd exact_ loose.1

theorem positive_of_alive (alive : isEmpty account = false)
    (unmarked : ¬account.Marked) : 0 < account.balance := by
  by_contra zero
  have parts := not_or.mp unmarked
  have empty : isEmpty account = true := by
    simp only [isEmpty, decide_eq_true_eq]
    exact ⟨not_not.mp parts.2, not_not.mp parts.1, by omega⟩
  rw [alive] at empty
  cases empty

theorem Loose.positive (loose : adjust.Loose address account)
    (unmarked : ¬account.Marked) : 0 < account.balance := positive_of_alive loose.2.2 unmarked

theorem Covered.alive (covered : adjust.Covered address state)
    {first : Account} (loose : adjust.Loose address first) : isDead state.account = false := by
  obtain ⟨account, there, _, marks, _⟩ := covered first loose
  rw [there]
  simp only [isDead, isEmpty, decide_eq_false_iff_not]
  rintro ⟨code, nonce, balance⟩
  rcases marks with marked | ⟨unmarked, kept⟩
  · exact marked.elim (fun other => other nonce) fun other => other code
  · have was := loose.positive unmarked
    omega

section

variable (valid : adjust.Valid) (covered : adjust.Covered address state)

include valid covered

theorem Covered.moved (moved : adjust.shift address ≠ 0) :
    ∃ account, state.account = some account ∧
      0 ≤ (account.balance : Int) + adjust.shift address ∧
      (account.balance : Int) + adjust.shift address ≤ State.maxBalance ∧
      (account.Marked ∨ (0 < account.balance ∧
        0 < (account.balance : Int) + adjust.shift address)) ∧ state.destructed = false := by
  obtain ⟨first, balance, loose, sum, enough, small, alive⟩ := valid.loose address moved
  obtain ⟨account, there, covers, marks, standing, bound⟩ := covered first loose
  refine ⟨account, there, ?_, bound moved, ?_, standing⟩
  · omega
  · rcases marks with marked | ⟨unmarked, kept⟩
    · exact Or.inl marked
    · have positive := alive unmarked
      have was := loose.positive unmarked
      exact Or.inr ⟨by omega, by omega⟩

theorem balance_shift :
    ((adjust.shiftState address state).balance : Int) = state.balance + adjust.shift address := by
  by_cases moved : adjust.shift address = 0
  · rw [shiftState_zero moved, moved]
    omega
  · obtain ⟨account, there, natural, _⟩ := covered.moved valid moved
    simp only [AccountState.balance, shiftState, there, Option.map_some, Option.getD_some,
      shiftAccount]
    omega

theorem isDead_shift : isDead (adjust.shiftState address state).account = isDead state.account := by
  by_cases moved : adjust.shift address = 0
  · rw [shiftState_zero moved]
  · obtain ⟨account, there, natural, small, alive, _⟩ := covered.moved valid moved
    simp only [shiftState, there, Option.map_some, isDead, isEmpty, shiftAccount]
    rcases alive with marked | ⟨before, after⟩
    · rcases marked with nonce | code
      · simp [nonce]
      · simp [code]
    · have one : account.balance ≠ 0 := by omega
      have other : ((account.balance : Int) + adjust.shift address).toNat ≠ 0 := by omega
      simp [one, other]

end

section

variable (covered : adjust.Covered address state)

include covered

theorem Covered.of_eq {other : AccountState} (account : other.account = state.account)
    (destructed : other.destructed = state.destructed) :
    adjust.Covered address other := by
  intro first loose
  obtain ⟨found, there, covers, marks, standing, bound⟩ := covered first loose
  exact ⟨found, account.trans there, covers, marks, destructed.trans standing, bound⟩

theorem Covered.map {change : Account → Account}
    (balance : ∀ account, (change account).balance = account.balance)
    (marked : ∀ account, state.account = some account → account.Marked → (change account).Marked) :
    adjust.Covered address { state with account := state.account.map change } := by
  intro first loose
  obtain ⟨found, there, covers, marks, standing, bound⟩ := covered first loose
  refine ⟨change found, by rw [there]; rfl, ?_, ?_, standing, ?_⟩
  · rw [balance]
    exact covers
  · rw [balance]
    exact marks.imp_left (marked found there)
  · rw [balance]
    exact bound

theorem Covered.create (config : Config) : adjust.Covered address (state.create config) := by
  intro first loose
  obtain ⟨found, there, rest⟩ := covered first loose
  refine ⟨found, ?_, rest⟩
  simp [AccountState.create, there]

theorem shiftState_create (valid : adjust.Valid) (config : Config) :
    (adjust.shiftState address state).create config =
      adjust.shiftState address (state.create config) := by
  by_cases moved : adjust.shift address = 0
  · rw [shiftState_zero moved, shiftState_zero moved]
  · obtain ⟨account, there, _⟩ := covered.moved valid moved
    simp [shiftState, AccountState.create, there]

end

end Adjustment

structure JournalMoved (adjust : Adjustment) (journal image : VersionJournal) : Prop where
  version : image.version = journal.version
  dirty : image.dirty = journal.dirty
  logs : image.logs = journal.logs
  current : ∀ address, image.current.lookup address =
    (journal.current.lookup address).map (·.map (adjust.shiftState address))
  covered : journal.AllStates adjust.Covered

section Journals

variable {adjust : Adjustment} {journal image after : VersionJournal} {address : Address}

theorem JournalMoved.put (moved : JournalMoved adjust journal image)
    (entries : ∀ entry ∈ stack.entries, adjust.Covered address entry.2) :
    JournalMoved adjust (journal.put address stack)
      (image.put address (stack.map (adjust.shiftState address))) where
  version := moved.version
  dirty := congrArg (mark address) moved.dirty
  logs := moved.logs
  covered := moved.covered.put entries
  current := by
    intro other
    grind [VersionJournal.put, lookup_insert_ite, moved.current other]

theorem JournalMoved.enter (moved : JournalMoved adjust journal image) (address : Address)
    (fallback : AccountState) :
    image.enter address (adjust.shiftState address fallback) =
      (journal.enter address fallback).map (adjust.shiftState address) := by
  unfold VersionJournal.enter
  rw [moved.current address, moved.version, ← current_map]
  cases journal.current.lookup address with
  | none => rfl
  | some stack => rfl

def VersionJournal.currentOf (journal : VersionJournal) (address : Address) : Option AccountState :=
  (journal.current.lookup address).map (·.recent)

theorem currentOf_put (address other : Address) (stack : VersionStack AccountState) :
    (journal.put address stack).currentOf other =
      if other = address then some stack.recent else journal.currentOf other := by
  grind [currentOf, put, lookup_insert_ite]

section

variable (moved : JournalMoved adjust journal image)

include moved

theorem JournalMoved.modify (change other : AccountState → AccountState)
    (recent : journal.currentOf address = some state)
    (same : other (adjust.shiftState address state) = adjust.shiftState address (change state))
    (covered : adjust.Covered address (change state))
    (ran : handler (.modify address change) journal = .ok ((), after)) :
    ∃ replayed, handler (.modify address other) image = .ok ((), replayed) ∧
      JournalMoved adjust after replayed ∧
      ∀ place, after.currentOf place =
        if place = address then some (change state) else journal.currentOf place := by
  obtain ⟨stack, found, shown⟩ := Option.map_eq_some_iff.mp recent
  have top : (stack.current journal.version).recent = state :=
    recent_current.trans shown
  simp only [handler, found, top] at ran
  cases ran
  have there := moved.current address
  rw [found] at there
  have entries : ∀ entry ∈ ((stack.current journal.version).assign (change state)).entries,
      adjust.Covered address entry.2 := by
    intro entry member
    rcases List.mem_cons.mp member with rfl | inner
    · exact covered
    · obtain ⟨old, inside, value⟩ := mem_current (List.mem_cons_of_mem _ inner)
      exact value ▸ moved.covered address stack found old inside
  refine ⟨_, ?_, moved.put entries, fun place => currentOf_put address place _⟩
  simp only [handler, there, Option.map_some, moved.version, current_map, recent_map, top, same]
  rfl

theorem JournalMoved.push (ran : journal.push = .ok ((), after)) :
    ∃ replayed, image.push = .ok ((), replayed) ∧ JournalMoved adjust after replayed := by
  unfold VersionJournal.push at ran ⊢
  rw [moved.dirty, moved.version]
  split at ran
  · cases ran
  · rename_i depth
    cases ran
    rw [if_neg depth]
    exact ⟨_, rfl, rfl, rfl, moved.logs, moved.current, moved.covered⟩

theorem JournalMoved.popAccept (ran : journal.popAccept = .ok ((), after)) :
    ∃ replayed, image.popAccept = .ok ((), replayed) ∧ JournalMoved adjust after replayed := by
  have covered := moved.covered.popAccept ran
  unfold VersionJournal.popAccept at ran ⊢
  rw [moved.dirty, moved.version, moved.logs]
  split at ran
  · cases ran
  split at ran
  · cases ran
  rename_i inside depth
  rw [if_neg inside, if_neg depth]
  dsimp only at ran ⊢
  split at ran
  · cases ran
  · rename_i current loop
    cases ran
    obtain ⟨replayed, again, alike⟩ := updateAll_map
      (fun stack => .ok (some (stack.popAccept journal.version)))
      (fun address => map (adjust.shiftState address))
      (fun address stack => congrArg Except.ok (congrArg some
        (popAccept_map (adjust.shiftState address) stack journal.version)))
      moved.current loop
    rw [again]
    exact ⟨_, rfl, rfl, rfl, rfl, alike, covered⟩

theorem JournalMoved.popReject (ran : journal.popReject = .ok ((), after)) :
    ∃ replayed, image.popReject = .ok ((), replayed) ∧ JournalMoved adjust after replayed := by
  have covered := moved.covered.popReject ran
  unfold VersionJournal.popReject at ran ⊢
  rw [moved.dirty, moved.version, moved.logs]
  split at ran
  · cases ran
  split at ran
  · cases ran
  rename_i inside depth
  rw [if_neg inside, if_neg depth]
  split at ran
  · cases ran
  · rename_i current loop
    obtain ⟨replayed, again, alike⟩ := updateAll_map
      (fun stack => .ok (stack.popReject journal.version))
      (fun address => map (adjust.shiftState address))
      (fun address stack => congrArg Except.ok
        (popReject_map (adjust.shiftState address) stack journal.version))
      moved.current loop
    rw [again]
    split at ran
    · cases ran
    · rename_i logs popped
      cases ran
      exact ⟨_, rfl, rfl, rfl, rfl, alike, covered⟩

end

theorem sweepStack_map (same : change (adjust.shiftState address stack.recent) =
      (change stack.recent).map (adjust.shiftState address)) :
    sweepStack reason change (stack.map (adjust.shiftState address)) =
      (sweepStack reason change stack).map
        (·.map (map (adjust.shiftState address))) := by
  unfold sweepStack
  rw [size_map, version_map, recent_map, same]
  split
  · rfl
  split
  · rfl
  cases change stack.recent with
  | none => rfl
  | some swept => rfl

theorem JournalMoved.sweep (moved : JournalMoved adjust journal image)
    (same : ∀ address state, adjust.Covered address state →
      change (adjust.shiftState address state) =
        (change state).map (adjust.shiftState address))
    (keeps : ∀ address state swept, adjust.Covered address state → change state = some swept →
      adjust.Covered address swept) (ran : journal.sweep reason change = .ok ((), after)) :
    ∃ replayed, image.sweep reason change = .ok ((), replayed) ∧
      JournalMoved adjust after replayed := by
  have covered := moved.covered.sweep keeps ran
  unfold VersionJournal.sweep at ran ⊢
  rw [moved.version]
  split at ran
  · cases ran
  rename_i outside
  rw [if_neg outside]
  split at ran
  · cases ran
  · rename_i current loop
    cases ran
    obtain ⟨others, each⟩ := updateAll_each journal.current.keys_nodup loop
    -- What the loop has done to a stack, it does to the moved stack.
    have fine : ∀ address stack, image.current.lookup address = some stack →
        VersionJournal.sweepStack reason change stack = .ok
          ((current.lookup address).map (map (adjust.shiftState address))) := by
      intro address stack found
      rw [moved.current address] at found
      obtain ⟨before, known, rfl⟩ := Option.map_eq_some_iff.mp found
      obtain ⟨entry, there, swept⟩ := each address
        (mem_keys.mp (lookup_isSome.mp (known ▸ rfl)))
      rw [known] at there
      cases there
      rw [sweepStack_map (same address before.recent
        (moved.covered address before known _ VersionJournal.recent_mem)), swept]
      rfl
    obtain ⟨replayed, again, looks⟩ := updateAll_each_keys "it" image.current
      (VersionJournal.sweepStack reason change) fine
    rw [again]
    refine ⟨_, rfl, rfl, moved.dirty, moved.logs, ?_, covered⟩
    intro address
    cases found : journal.current.lookup address with
    | none =>
      have absent : address ∉ journal.current.keys := fun member => by
        have there := lookup_isSome.mpr (mem_keys.mpr member)
        rw [found] at there
        cases there
      have gone := moved.current address
      rw [found] at gone
      rw [looks.2 address gone, others address absent, found]
      rfl
    | some stack =>
      have there := moved.current address
      rw [found] at there
      exact looks.1 address _ there

end Journals

end MonadChain.Execution
