import MonadChain.Execution.RelaxedMerge

/-!
Optimistic execution with a relaxed merge. On the block state into which it is merged the
transaction gets the same answers, and it ends with the balances that `can_merge` has written.
-/

namespace MonadChain.Execution

open Program StateOver BlockState Option TxState Adjustment

variable {adjust : Adjustment} {address : Address} {before now balance : Nat}
  {gap : Address → Int} {other : Program operations Unit}

theorem moved_fresh {W : Type} {alike : Script → W → Prop} {reads : List Read} {other : W}
    (start : alike { ahead := reads } other) :
    Moved adjust alike (.fresh {} { ahead := reads }) (.fresh {} other) where
  code := rfl
  alike := start
  unread := fun _ _ => rfl
  originals := fun _ _ found => by cases found
  journal := ⟨rfl, rfl, rfl, fun _ => rfl, fun _ _ found => by cases found⟩

/-- The script, with the accounts as they are kept. -/
def keptWorld (first : Address → Option (Option Account)) : World Script where
  readAccount address script :=
    match Script.world.readAccount address script with
    | .error reason => .error reason
    | .ok (answer, after) => .ok ((first address).getD answer, after)
  readStorage := Script.world.readStorage

theorem alike_self (still : adjust.shift = fun _ => 0) :
    Alike adjust (keptWorld adjust.first) fun script other => other = script where
  account := by
    rintro address script other answer after known rfl asked first
    have same := shiftAccount_zero (congrFun still address)
    refine ⟨after, ?_, rfl⟩
    simp only [keptWorld, asked, first, getD_some, same, map_id_fun, id]
  storage := by
    rintro address incarnation key script other answer after rfl asked
    exact ⟨after, asked, rfl⟩

theorem shiftAccount_moved {before now : Account}
    (gap : adjust.shift address = now.balance - before.balance)
    (same : sameButBalance (some before) (some now) = true) :
    adjust.shiftAccount address before = now := by
  obtain ⟨_, _, code, incarnation, nonce⟩ := sameButBalance_iff.mp same
  simp only [shiftAccount, gap]
  cases now
  cases before
  subst code incarnation nonce
  simp

/-- The block state, while the script still has some of these reads to make. -/
def OnBlock (block : BlockState) (reads : List Read) (script : Script) (other : BlockState) :
    Prop :=
  other = block ∧ ∀ read ∈ script.ahead, read ∈ reads

section Accepted

variable {db : Db} {block : BlockState} {final : Race} {reads : List Read}
  {state fixed : TxState Script}

section

variable (mergeable : final.block.canMerge true state = .ok (true, fixed))

include mergeable

theorem accepted_account {known : Option Account} (kept : state.kept address = some known) :
    final.block.readAccount db address = (known.map
      ((adjustmentOf state (balanceGap final.block state)).shiftAccount address),
      final.block) := by
  obtain ⟨original, found, rfl⟩ := map_eq_some_iff.mp kept
  obtain ⟨delta, there, adjusted, _⟩ := canMergeAll_adjusted
    state.original.keys_nodup mergeable address
    (AList.mem_keys.mp (AList.lookup_isSome.mp (found ▸ rfl))) original found
  have shown : delta.account.2 = original.account.map
      ((adjustmentOf state (balanceGap final.block state)).shiftAccount address) := by
    cases adjusted with
    | same equal kept =>
      have zero : (adjustmentOf state (balanceGap final.block state)).shift address = 0 :=
        gap_of_same found there equal
      rw [shiftAccount_zero zero, map_id, ← equal]
      rfl
    | moved before now read actual same inexact enough current =>
      rw [actual, read, map_some, shiftAccount_moved (gap_of_moved found there read actual) same]
  simp [readAccount, findAccount, there, shown]

theorem alike_block (history : History db (Race.start db block) reads final)
    (remembers : Remembers Presumed reads state) (complete : state.world.ahead = [])
    (born : ∀ address, firstAccount address reads = some none → ¬final.Has db address ⟨0, 0⟩) :
    Alike (adjustmentOf state (balanceGap final.block state)) (world db)
      (OnBlock final.block reads) where
  account := by
    rintro address script other answer after known ⟨rfl, inside⟩ asked kept
    obtain ⟨rest, ahead, rfl⟩ := Script.readAccount_ok asked
    rw [ahead] at inside
    refine ⟨final.block, ?_, rfl, fun read member => inside read (List.mem_cons_of_mem _ member)⟩
    exact congrArg Except.ok (accepted_account mergeable kept)
  storage := by
    rintro address incarnation key script other answer after ⟨rfl, inside⟩ asked
    obtain ⟨rest, ahead, rfl⟩ := Script.readStorage_ok asked
    rw [ahead] at inside
    refine ⟨final.block, accepted_storage remembers complete history mergeable ?_
      (inside _ List.mem_cons_self), rfl, fun read member =>
      inside read (List.mem_cons_of_mem _ member)⟩
    -- An account keeps its incarnation; one that was not there is not accepted.
    intro place read original delta first presumed matched
    rcases presumed with same | ⟨nonce, same⟩
    · rw [same]
    · cases read with
      | some account => rw [same]; rfl
      | none =>
        refine absurd ?_ (born place first)
        rw [Race.Has, seen_of_lookup matched.there, matched.incarnation, same]
        rfl

end

theorem adjustBalance_moved {recent : Nat} (natural : 0 ≤ (recent : Int) + (now - before))
    (small : (recent : Int) + (now - before) ≤ State.maxBalance)
    (ran : adjustBalance before now recent = .ok balance) :
    balance = ((recent : Int) + (now - before)).toNat := by
  unfold adjustBalance at ran
  unfold State.maxBalance at small
  split at ran
  · cases ran
    omega
  · split at ran
    · cases ran
    · cases ran
      omega

theorem rebalance_moved (valid : adjust.Valid)
    {recent : Account} {stack : VersionStack AccountState}
    (gap : adjust.shift address = now - before) (single : stack.size = 1)
    (shown : stack.recent.account = some recent) (covered : adjust.Covered address stack.recent)
    (ran : adjustBalance before now recent.balance = .ok balance) :
    stack.map (adjust.shiftState address) = rebalance stack recent balance := by
  have amount : balance = ((recent.balance : Int) + (now - before)).toNat := by
    by_cases zero : adjust.shift address = 0
    · have equal : now = before := by omega
      subst equal
      simp only [adjustBalance, Nat.lt_irrefl, if_false, Nat.sub_self, Nat.not_lt_zero,
        Nat.sub_zero, Except.ok.injEq] at ran
      omega
    · obtain ⟨account, there, natural, small, _⟩ := covered.moved valid zero
      rw [shown] at there
      cases there
      rw [gap] at natural small
      exact adjustBalance_moved natural small ran
  rw [VersionStack.map_of_single _ single]
  simp [rebalance, shiftState, shown, shiftAccount, gap, amount]

theorem fixed_current {image : TxState BlockState} (words : final.block.Words)
    (mergeable : final.block.canMerge true state = .ok (true, fixed))
    (moved : Moved (adjustmentOf state (balanceGap final.block state))
      (OnBlock final.block reads) state image) (address : Address) :
    image.journal.current.lookup address = fixed.journal.current.lookup address ∧
      (image.original.lookup address).map (·.account) =
        (fixed.original.lookup address).map (·.account) := by
  have valid := adjustmentOf_valid words mergeable
  have journal := moved.journal.current address
  -- An account with its balance in place is the same on both sides.
  have still : balanceGap final.block state address = 0 →
      image.journal.current.lookup address = state.journal.current.lookup address := by
    intro zero
    have identity : (adjustmentOf state
        (balanceGap final.block state)).shiftState address = id :=
      funext (shiftState_zero zero)
    rw [journal, identity]
    cases state.journal.current.lookup address with
    | none => rfl
    | some stack => exact congrArg some stack.map_id
  cases found : state.original.lookup address with
  | none =>
    have outside : address ∉ state.original.keys := fun member => by
      have there := AList.lookup_isSome.mpr (AList.mem_keys.mpr member)
      rw [found] at there
      cases there
    obtain ⟨originals, journals⟩ := canMergeAll_kept mergeable address outside
    refine ⟨?_, ?_⟩
    · rw [journals]
      exact still (by simp [balanceGap, found])
    · rw [originals, found, moved.unread address found]
  | some original =>
    obtain ⟨delta, there, adjusted, account⟩ := canMergeAll_adjusted
      state.original.keys_nodup mergeable address
      (AList.mem_keys.mp (AList.lookup_isSome.mp (found ▸ rfl))) original found
    obtain ⟨other, looked, shifted, _⟩ := moved.originals address original found
    have accounts : other.account = original.account.map
        ((adjustmentOf state (balanceGap final.block state)).shiftAccount address) :=
      congrArg AccountState.account shifted
    rw [account, looked, map_some, accounts]
    cases adjusted with
    | same equal kept =>
      have zero := gap_of_same found there equal
      rw [kept, shiftAccount_zero zero, map_id, equal]
      exact ⟨still zero, rfl⟩
    | moved before now read actual same inexact enough current =>
      have gap := gap_of_moved found there read actual
      refine ⟨?_, ?_⟩
      · rcases current with ⟨absent, gone⟩ |
          ⟨stack, recent, balance, here, single, shown, ran, written⟩
        · rw [gone, journal, absent]
          rfl
        · rw [journal, here, written]
          exact congrArg some (rebalance_moved valid gap single shown
            (moved.journal.covered address stack here _ VersionJournal.recent_mem) ran)
      · rw [read, actual]
        simp only [map_some, some.injEq]
        exact shiftAccount_moved gap same

end Accepted

section Runs

variable {α : Type} {config : Config} {program : Program relaxedOperations α} {reads : List Read}
  {answers : List (Sigma RelaxedOp.Answer)} {value : α} {state : TxState Script}

theorem RelaxedOp.Allowed.still {accounts : Address → Option Account} {unread : Address → Prop}
    {op : RelaxedOp} (allowed : op.Allowed config gap accounts unread) :
    op.Allowed config (fun _ => 0) accounts unread := by
  cases op with
  | debit address amount => exact allowed
  | plain op =>
    cases op with
    | addToBalance address delta =>
      exact ⟨allowed.1, by simp only [Int.add_zero]; omega⟩
    | selfdestruct address beneficiary =>
      intro apart
      exact ⟨(allowed apart).1, by simp only [Int.add_zero]; omega⟩
    | _ => exact allowed

def Solvent (answer : Sigma RelaxedOp.Answer) : Prop := ¬answer.1.Underflows answer.2

theorem presumed_remembers
    (ran : program.recorded.run (relaxedInterface config Script.world)
      (.fresh {} { ahead := reads }) = .ok ((answers, value), state)) :
    Remembers Presumed reads state := by
  have replays : Program.Replays
      (fun before same => same = before ∧ Remembers Presumed reads before)
      (handler VersionJournal.handler Script.world)
      (handler VersionJournal.handler Script.world) := by
    rintro action before _ answer after ⟨rfl, remembers⟩ ran
    exact ⟨after, ran, rfl, remembers.access (fun _ => Or.inl rfl)
      (fun _ _ _ _ _ kept => presumed_withNonce kept) ran⟩
  obtain ⟨_, _, _, remembers⟩ := (replays.expand (E := relaxedOperations)
    (RelaxedOp.method config)).run ⟨rfl, remembers_fresh Presumed reads⟩ ran
  exact remembers

theorem rerun {W : Type} {world : World W} {alike : Script → W → Prop} {other : W}
    (valid : (adjustmentOf state gap).Valid) (alikes : Alike (adjustmentOf state gap) world alike)
    (start : alike { ahead := reads } other)
    (along : program.Along (relaxedInterface config Script.world)
      (fun op at_ => op.Allowed config gap (at_.recentOf state.kept) at_.Unread)
      (.fresh {} { ahead := reads }))
    (ran : program.recorded.run (relaxedInterface config Script.world)
      (.fresh {} { ahead := reads }) = .ok ((answers, value), state)) :
    ∃ again, program.recorded.run (relaxedInterface config world) (.fresh {} other) =
        .ok ((answers, value), again) ∧ Moved (adjustmentOf state gap) alike state again ∧
      ∀ answer ∈ answers, Solvent answer :=
  coupled_recorded (fun _ _ _ _ allowed one ends => back_op allowed one ends)
    (Moved (adjustmentOf state gap) alike) Solvent
    (fun _ _ _ _ _ moved allowed one ends => moved_op allowed one ends valid alikes moved)
    along (moved_fresh start) ran adjustmentOf_ahead

theorem covering_of_moved {image : TxState Script}
    (moved : Moved (adjustmentOf state fun _ => 0) (fun script other => other = script) state image)
    (address : Address) : Covering state address := by
  intro original before stack recent found read alive inexact there account
  have loose : (adjustmentOf state fun _ => 0).Loose address before := by
    refine ⟨?_, read ▸ kept_of_lookup found, alive⟩
    rintro ⟨other, looked, on⟩
    rw [found] at looked
    cases looked
    rw [inexact] at on
    cases on
  obtain ⟨known, same, covers, _⟩ :=
    moved.journal.covered address stack there _ VersionJournal.recent_mem before loose
  have top : stack.recent.account = some known := same
  rw [account] at top
  cases top
  simpa [adjustmentOf, found] using covers

/-- The relaxed merge is sound. A transaction with recorded debits has run on answers of the
block states of any history, in which no account came to be with the incarnation of genesis.
The assertion on the balances does not fail when its state is checked against the block state
at the end; and if its state can be merged there, a run from scratch on that block state gets
the same answers from every operation and returns the same, takes no balance below zero, and
ends with the balances that `can_merge` has written. -/
theorem relaxed_merge_sound {α : Type} (config : Config) (db : Db) (block : BlockState)
    (program : Program relaxedOperations α) (reads : List Read) (final : Race)
    (history : History db (Race.start db block) reads final)
    (born : ∀ address, firstAccount address reads = some none → ¬final.Has db address ⟨0, 0⟩)
    (words : final.block.Words) (answers : List (Sigma RelaxedOp.Answer)) (value : α)
    (state : TxState Script) (ran : program.recorded.run (relaxedInterface config Script.world)
      (.fresh {} { ahead := reads }) = .ok ((answers, value), state))
    (complete : state.world.ahead = [])
    (along : program.Along (relaxedInterface config Script.world)
      (fun op at_ => op.Allowed config (balanceGap final.block state) (at_.recentOf state.kept)
        at_.Unread) (.fresh {} { ahead := reads })) :
    final.block.canMerge true state ≠ .error balanceAssertion ∧
    ∀ fixed, final.block.canMerge true state = .ok (true, fixed) →
      ∃ again : TxState BlockState,
        program.recorded.run (relaxedInterface config (world db))
          (.fresh {} final.block) = .ok ((answers, value), again) ∧
        (∀ answer ∈ answers, Solvent answer) ∧
        again.world = final.block ∧
        ∀ address,
          again.journal.current.lookup address = fixed.journal.current.lookup address ∧
          (again.original.lookup address).map (·.account) =
            (fixed.original.lookup address).map (·.account) := by
  obtain ⟨image, _, covered, _⟩ := rerun adjustmentOf_still (alike_self rfl) rfl
    (along.mono fun _ _ allowed => allowed.still) ran
  refine ⟨canMergeAll_asserts state.original.keys_nodup
    fun address _ => covering_of_moved covered address, fun fixed mergeable => ?_⟩
  have answered := alike_block mergeable history (presumed_remembers ran) complete born
  obtain ⟨again, replayed, moved, fine⟩ := rerun (adjustmentOf_valid words mergeable) answered
    ⟨rfl, fun _ member => member⟩ along ran
  exact ⟨again, replayed, fine, moved.alike.1, fixed_current words mergeable moved⟩

end Runs

def relaxedDb : Db where
  readAccount address :=
    if address = 5 then some { balance := 5 }
    else if address = 7 then some { balance := 6, nonce := 1 } else none
  readStorage _ _ _ := 0

def sampleBlock (address : Address) : BlockState :=
  (BlockState.emplaceAccount address (relaxedDb.readAccount address) {}).2

def accountRead (address : Address) : List Read :=
  [.account address (relaxedDb.readAccount address)]

def overtaken (address : Address) (other : Program operations Unit) : Option BlockState :=
  match other.run (StateOver.interface (sampleConfig 1) VersionJournal.handler Script.world)
      (.fresh {} { ahead := accountRead address }) with
  | .ok (_, state) =>
    match state.world.ahead, (sampleBlock address).canMerge true state with
    | [], .ok (true, fixed) =>
      match BlockState.settled fixed.journal.current with
      | .ok [(place, written)] => ((sampleBlock address).mergeAccount place written).toOption
      | _ => none
    | _, _ => none
  | .error _ => none

theorem relaxed_unused (address place : Address) : ¬Race.used
    { Race.start relaxedDb {} with block := sampleBlock address } place
    (sampleConfig 1).incarnation := by
  intro used
  have seen : (relaxedDb.readAccount place).map (·.incarnation) = some ⟨1, 1⟩ := used
  unfold relaxedDb at seen
  dsimp only at seen
  split at seen
  · cases seen
  · split at seen <;> cases seen

theorem overtaken_history {after : BlockState} (uses : other.Uses Op.Transactional)
    (merged : overtaken address other = some after) :
    ∃ race : Race, race.block = after ∧ ∀ reads final, History relaxedDb race reads final →
      History relaxedDb (Race.start relaxedDb {}) (accountRead address ++ reads) final := by
  unfold overtaken at merged
  split at merged
  · rename_i value state ran
    split at merged
    · rename_i fixed complete mergeable
      split at merged
      · rename_i place written accounts
        cases stored : (sampleBlock address).mergeAccount place written with
        | error reason =>
          rw [stored] at merged
          cases merged
        | ok block =>
          rw [stored] at merged
          cases merged
          exact ⟨_, rfl, fun _ _ rest => .accountMissed rfl .refl rfl (.interfere (.beginMerge rfl
            (relaxed_unused address) ⟨⟨Unit, other, _, _, uses, ran⟩, complete⟩ mergeable
            accounts) (.interfere (.mergeAccount rfl stored) rest))⟩
      · cases merged
    · cases merged
  · cases merged

/-- Every debit is recorded, and its account has a nonce or a code. -/
def RelaxedOp.Recorded (accounts : Address → Option Account) : RelaxedOp → Prop
  | .debit address amount => amount ≤ balanceIn accounts address →
      ∃ account ∈ accounts address, account.Marked
  | .plain (.subtractFromBalance _ _) => False
  | _ => True

/-- The state of the transaction can be merged, but on the block state itself the transaction
returns something else. -/
def Diverges {α : Type} (program : Program relaxedOperations α) (address : Address) : Prop :=
  ∃ (final : Race) (value result : α) (state fixed : TxState Script) (again : TxState BlockState),
    History relaxedDb (Race.start relaxedDb {}) (accountRead address) final ∧
    program.run (relaxedInterface (sampleConfig 2) Script.world)
      (.fresh {} { ahead := accountRead address }) = .ok (value, state) ∧
    state.world.ahead = [] ∧
    program.Along (relaxedInterface (sampleConfig 2) Script.world)
      (fun op at_ => op.Recorded (at_.recentOf (firstAccount · (accountRead address))))
      (.fresh {} { ahead := accountRead address }) ∧
    final.block.canMerge true state = .ok (true, fixed) ∧
    program.run (relaxedInterface (sampleConfig 2) (world relaxedDb))
      (.fresh {} final.block) = .ok (result, again) ∧ value ≠ result

def outcomes {α : Type} (program : Program relaxedOperations α) (address : Address)
    (other : Program operations Unit) : Option (α × α) :=
  match overtaken address other,
    program.run (relaxedInterface (sampleConfig 2) Script.world)
      (.fresh {} { ahead := accountRead address }) with
  | some block, .ok (value, state) =>
    match state.world.ahead, block.canMerge true state,
      program.run (relaxedInterface (sampleConfig 2) (world relaxedDb))
        (.fresh {} block) with
    | [], .ok (true, _), .ok (result, _) => some (value, result)
    | _, _, _ => none
  | _, _ => none

theorem diverges_of_outcomes {α : Type} {program : Program relaxedOperations α} {value result : α}
    (found : outcomes program address other = some (value, result)) (differ : value ≠ result)
    (uses : other.Uses Op.Transactional)
    (along : program.Along (relaxedInterface (sampleConfig 2) Script.world)
      (fun op at_ => op.Recorded (at_.recentOf (firstAccount · (accountRead address))))
      (.fresh {} { ahead := accountRead address })) :
    Diverges program address := by
  unfold outcomes at found
  split at found
  · rename_i block first state merged ran
    split at found
    · rename_i fixed second again complete mergeable rerun
      cases found
      obtain ⟨final, rfl, history⟩ := overtaken_history uses merged
      exact ⟨final, value, result, state, fixed, again, history [] final (.done _), ran, complete,
        along, mergeable, rerun, differ⟩
    · cases found
  · cases found

instance (account : Account) : Decidable account.Marked := inferInstanceAs (Decidable (_ ∨ _))

instance (accounts : Address → Option Account) : (op : RelaxedOp) → Decidable (op.Recorded accounts)
  | .debit address amount => inferInstanceAs (Decidable (amount ≤ balanceIn accounts address →
      ∃ account ∈ accounts address, account.Marked))
  | .plain op => by
    cases op <;> first | exact isTrue trivial | exact isFalse id

/-- The account has a nonce when it is debited, and loses it again: it is dead with the balance
that was read, and alive with the one that is there. -/
def unmarking : Program relaxedOperations Bool :=
  .step (.plain (.setNonce 5 1)) fun _ => .step (.debit 5 5) fun _ =>
    .step (.plain (.setNonce 5 0)) fun _ => .step (.plain (.accountIsDead 5)) fun dead => .done dead

/-- The credit fits with the balance that was read, and does not with the one that is there. -/
def overflowing : Program relaxedOperations Bool :=
  .step (.plain (.addToBalance 7 1)) fun answer => .done answer.isOk

/-- The nonce that is checked at the end is not the one that was read. -/
def overwriting : Program relaxedOperations Nat :=
  .step (.plain (.getNonce 7)) fun nonce => .step (.plain (.setOriginalNonce 7 2)) fun _ =>
    .done nonce

theorem unmarking_diverges : Diverges unmarking 5 := by
  have found : outcomes unmarking 5 (.step (.addToBalance 5 2) fun _ => .done ()) =
      some (true, false) := by decide +kernel
  exact diverges_of_outcomes found (by decide) ⟨trivial, fun _ => trivial⟩ (by decide +kernel)

theorem overflowing_diverges : Diverges overflowing 7 := by
  have found : outcomes overflowing 7
      (.step (.addToBalance 7 (State.maxBalance - 6)) fun _ => .done ()) = some (true, false) := by
    decide +kernel
  exact diverges_of_outcomes found (by decide) ⟨trivial, fun _ => trivial⟩ (by decide +kernel)

theorem overwriting_diverges : Diverges overwriting 7 := by
  have found : outcomes overwriting 7
      (.step (.setNonce 7 2) fun _ => .step (.addToBalance 7 4) fun _ => .done ()) =
      some (1, 2) := by decide +kernel
  exact diverges_of_outcomes found (by decide) ⟨trivial, fun _ => ⟨trivial, fun _ => trivial⟩⟩
    (by decide +kernel)

instance (state : TxState Script) (address : Address) : Decidable (state.Unread address) :=
  inferInstanceAs (Decidable (_ = none))

instance (config : Config) (gap : Address → Int) (accounts : Address → Option Account)
    (unread : Address → Prop) [∀ address, Decidable (unread address)] :
    (op : RelaxedOp) → Decidable (op.Allowed config gap accounts unread)
  | .debit address amount => inferInstanceAs (Decidable (amount ≤ balanceIn accounts address →
      ∀ account ∈ accounts address, account.Marked))
  | .plain op => by
    cases op <;> first
      | exact isTrue trivial
      | exact isFalse id
      | exact inferInstanceAs (Decidable (unread _))
      | exact inferInstanceAs (Decidable (_ ∧ (_ ↔ _)))
      | exact inferInstanceAs (Decidable (_ ≠ _ → _ ∧ (_ ↔ _)))
      | exact inferInstanceAs (Decidable (∀ account ∈ accounts _, account.Marked →
          ({ account with nonce := _ } : Account).Marked))
      | exact inferInstanceAs (Decidable (∀ account ∈ accounts _, account.Marked →
          ({ account with codeHash := config.keccak _ } : Account).Marked))

/-- Recording the debits of marked accounts is not enough. -/
theorem relaxed_merge_needs : Diverges unmarking 5 ∧ Diverges overflowing 7 ∧
    Diverges overwriting 7 :=
  ⟨unmarking_diverges, overflowing_diverges, overwriting_diverges⟩

/-- A transaction with the nonce that its sender has after the one before it. It makes an
account, and it debits and credits the sender, whom the other transaction has credited. -/
def spending : Program relaxedOperations Nat :=
  .step (.plain (.setOriginalNonce 7 2)) fun _ => .step (.debit 7 3) fun _ =>
    .step (.plain (.addToBalance 7 1)) fun _ => .step (.plain (.createAccountNoRollback 9)) fun _ =>
      .step (.plain (.setNonce 9 1)) fun _ => .step (.plain (.getNonce 7)) fun nonce => .done nonce

def crediting : Program operations Unit :=
  .step (.setNonce 7 2) fun _ => .step (.addToBalance 7 10) fun _ => .done ()

def spendingReads : List Read := accountRead 7 ++ accountRead 9

theorem words_of_entries {block : BlockState}
    (all : ∀ entry ∈ block.state.entries, ∀ account ∈ entry.2.account.2,
      account.balance ≤ State.maxBalance) : block.Words :=
  fun _ _ account found there => all _ (AList.mem_lookup_iff.mp found) account there

/-- The balance that is written for the account, if the spending transaction can be merged
and does what the theorem asks for. -/
def spent : Option (Option Nat) :=
  match overtaken 7 crediting,
    spending.recorded.run (relaxedInterface (sampleConfig 2) Script.world)
      (.fresh {} { ahead := spendingReads }) with
  | some race, .ok (_, state) =>
    let block := (race.emplaceAccount 9 (relaxedDb.readAccount 9)).2
    match state.world.ahead, block.canMerge true state with
    | [], .ok (true, fixed) =>
      if spending.Along (relaxedInterface (sampleConfig 2) Script.world)
          (fun op at_ => op.Allowed (sampleConfig 2) (balanceGap block state)
            (at_.recentOf state.kept) at_.Unread) (.fresh {} { ahead := spendingReads }) ∧
          (∀ entry ∈ block.state.entries, ∀ account ∈ entry.2.account.2,
            account.balance ≤ State.maxBalance) ∧ race.findAccount 9 = none then
        some ((fixed.journal.current.lookup 7).bind fun stack =>
          stack.recent.account.map (·.balance))
      else none
    | _, _ => none
  | _, _ => none

/-- The account had 6 when it was read and has 16 now; after the debit and the credit it has 14,
in the merged state and in the run on the block state. -/
theorem relaxed_merge_sound_spending : ∃ (final : Race) (state fixed : TxState Script)
    (answers : List (Sigma RelaxedOp.Answer)) (value : Nat) (again : TxState BlockState),
    final.block.canMerge true state = .ok (true, fixed) ∧
    spending.recorded.run (relaxedInterface (sampleConfig 2) Script.world)
      (.fresh {} { ahead := spendingReads }) = .ok ((answers, value), state) ∧
    spending.recorded.run (relaxedInterface (sampleConfig 2) (world relaxedDb))
      (.fresh {} final.block) = .ok ((answers, value), again) ∧
    (again.journal.current.lookup 7).bind (fun stack =>
      stack.recent.account.map (·.balance)) = some 14 := by
  have found : spent = some (some 14) := by decide +kernel
  unfold spent at found
  split at found
  · rename_i block result state merged ran
    dsimp only at found
    split at found
    · rename_i fixed complete mergeable
      split at found
      · rename_i conditions
        obtain ⟨race, rfl, history⟩ := overtaken_history (show crediting.Uses Op.Transactional from
          ⟨trivial, fun _ => ⟨trivial, fun _ => trivial⟩⟩) merged
        obtain ⟨along, words, absent⟩ := conditions
        have born : ∀ address, firstAccount address spendingReads = some none →
            ¬Race.Has relaxedDb { race with
              block := (race.block.emplaceAccount 9 (relaxedDb.readAccount 9)).2 } address
              ⟨0, 0⟩ := by
          intro address first has
          by_cases here : address = 9
          · subst here
            rw [Race.Has, emplaceAccount_seen, BlockState.seen, absent] at has
            cases has
          · by_cases there : address = 7 <;>
              simp [spendingReads, accountRead, relaxedDb, firstAccount, List.findSome?,
                Read.accountOf, here, there] at first
        have stored : race.block.emplaceAccount 9 (relaxedDb.readAccount 9) =
            (relaxedDb.readAccount 9,
             (race.block.emplaceAccount 9 (relaxedDb.readAccount 9)).2) := by
          grind [emplaceAccount, findAccount]
        obtain ⟨_, sound⟩ := relaxed_merge_sound (sampleConfig 2) relaxedDb {} spending
          spendingReads _ (history _ _ (.accountMissed absent .refl stored (.done _))) born
          (words_of_entries words) result.1 result.2 state ran complete along
        obtain ⟨again, rerun, _, _, same⟩ := sound fixed mergeable
        refine ⟨_, state, fixed, result.1, result.2, again, mergeable, ran, rerun, ?_⟩
        rw [(same 7).1]
        exact some.inj found
      · cases found
    · cases found
  · cases found

end MonadChain.Execution
