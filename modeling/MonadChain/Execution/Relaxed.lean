import MonadChain.Execution.AdjustOps
import MonadChain.Execution.Serial

/-!
The relaxed merge. A transaction may be merged into a block state whose balances differ from those
that it has read. `try_fix_account_mismatch` then moves the balances; this is what the transaction
would have done on that block state.
-/

namespace MonadChain.Execution

open Program State StateOver Coupled Adjustment

variable {state swept : AccountState}

/-- An operation of `State`, or a debit that is recorded directly before it is made. -/
inductive RelaxedOp where
  | plain (op : Op)
  | debit (address : Address) (amount : Nat)

@[reducible] def RelaxedOp.Answer : RelaxedOp → Type
  | .plain op => op.Answer
  | .debit _ _ => Option (Except String Unit)

abbrev relaxedOperations : Effects := ⟨RelaxedOp, RelaxedOp.Answer⟩

/-- A debit; `none` if the constraint was answered with false. -/
def State.debit (config : Config) (address : Address) (amount : Nat) :
    Method (Option (Except String Unit)) := do
  if ← State.recordBalanceConstraintForDebit address amount then
    return some (← State.subtractFromBalance config address amount)
  else return none

def RelaxedOp.method (config : Config) : (op : RelaxedOp) → Method op.Answer
  | .plain op => op.method config
  | .debit address amount => State.debit config address amount

def StateOver.relaxedInterface {W : Type} (config : Config) (world : World W) :
    Handler relaxedOperations (TxState W) :=
  handlerOf (RelaxedOp.method config) (handler VersionJournal.handler world)

def RelaxedOp.Underflows : (op : RelaxedOp) → op.Answer → Prop
  | .debit _ _ => fun answer => ∃ reason, answer = some (.error reason)
  | .plain (.selfdestruct _ _) => fun answer => answer = .error "balance underflow"
  | _ => fun _ => False

def balanceIn (accounts : Address → Option Account) (address : Address) : Nat :=
  ((accounts address).map (·.balance)).getD 0

/-- What is asked of an operation, given the accounts that it finds, those that were not read
yet, and by how much the balances of the block state are off: a debited account has a nonce or
a code and does not lose both, a credit fits on both block states or on none, and the nonce of
an original is set before anything was done with the account. -/
def RelaxedOp.Allowed (config : Config) (gap : Address → Int)
    (accounts : Address → Option Account) (unread : Address → Prop) : RelaxedOp → Prop
  | .debit address amount => amount ≤ balanceIn accounts address →
      ∀ account, accounts address = some account → account.Marked
  | .plain (.setNonce address nonce) => ∀ account, accounts address = some account →
      account.Marked → ({ account with nonce := nonce } : Account).Marked
  | .plain (.setCode address code) => ∀ account, accounts address = some account →
      account.Marked → ({ account with codeHash := config.keccak code } : Account).Marked
  | .plain (.addToBalance address delta) =>
    CreditsAlike (gap address) (balanceIn accounts address) delta
  | .plain (.selfdestruct address beneficiary) => address ≠ beneficiary →
      CreditsAlike (gap beneficiary) (balanceIn accounts beneficiary) (balanceIn accounts address)
  | .plain (.subtractFromBalance _ _) => False
  | .plain (.setOriginalNonce address _) => unread address
  | .plain _ => True

section Operation

variable {W : Type} {adjust : Adjustment} {alike : Script → W → Prop} {world : World W}
  {seen : Sight} {address : Address} {config : Config}

theorem coupled_debit (seen : Sight) (valid : adjust.Valid) (answers : Alike adjust world alike)
    (amount : Nat)
    (marked : amount ≤ seen.balance address → ∀ account, seen.account address = some account →
      account.Marked) :
    Alongside adjust world alike seen (debit config address amount)
      fun value result state image => result = value ∧
        (¬∃ reason, value = some (.error reason)) ∧
        Moved adjust alike state image := by
  refine (coupled_record valid answers amount).bind fun recorded also => ?_
  refine of_pure _ (fun _ _ facts => And.intro facts.1 facts.2.2) fun facts => ?_
  obtain ⟨rfl, payable⟩ := facts
  cases also with
  | false =>
    exact done fun _ _ facts => ⟨rfl, by simp, facts.2.1.1⟩
  | true =>
    obtain ⟨first, second, covers⟩ := payable rfl
    refine bind ((coupled_subtractFromBalance valid answers amount (by omega)
      (fun enough _ account _ there => marked enough account there)
      (fun _ => covers)).strengthen fun _ _ facts => facts.2.1) fun paid other => ?_
    refine done ?_
    rintro state image ⟨same, done, moved⟩
    refine ⟨by rw [same], ?_, moved⟩
    rw [done first]
    simp

theorem coupled_frames (action : JournalAction)
    (one : ∀ journal image answer after, JournalMoved adjust journal image →
      VersionJournal.handler action journal = .ok (answer, after) →
      ∃ replayed, VersionJournal.handler action image = .ok (answer, replayed) ∧
        JournalMoved adjust after replayed) :
    Agreeing adjust world alike seen (journal action) := by
  refine ((coupled_journal action action (fun _ => True) (fun value result _ _ => result = value)
    ?_).strengthen fun _ _ moved => ⟨moved.1, trivial⟩).weaken ?_
  · intro state journal image answer after _ _ moved ran
    obtain ⟨replayed, again, journals⟩ := one journal image answer after moved ran
    exact ⟨answer, replayed, again, journals, rfl⟩
  · rintro value result state image ⟨moved, _, _, _, same⟩
    exact ⟨same, moved⟩

theorem covered_destructDead (covered : adjust.Covered address state)
    (changed : destructDead state = some swept) : adjust.Covered address swept := by
  unfold destructDead at changed
  split at changed
  · rename_i dead
    intro first loose
    exact absurd dead.2 (Bool.eq_false_iff.mp (covered.alive loose))
  · cases changed
    exact covered

theorem covered_destructSuicide (covered : adjust.Covered address state)
    (changed : destructSuicide config state = some swept) : adjust.Covered address swept := by
  by_cases destructed : state.destructed = true
  · intro first loose
    obtain ⟨account, there, _, _, standing, _⟩ := covered first loose
    rw [destructed] at standing
    cases standing
  · simp only [destructSuicide, if_neg destructed] at changed
    cases changed
    exact covered

theorem destructDead_shift (valid : adjust.Valid) (covered : adjust.Covered address state) :
    destructDead (adjust.shiftState address state) =
      (destructDead state).map (adjust.shiftState address) := by
  unfold destructDead
  rw [isDead_shift valid covered]
  have touched : (adjust.shiftState address state).touched = state.touched := rfl
  rw [touched]
  split
  · rfl
  · rfl

theorem destructSuicide_shift (state : AccountState) :
    destructSuicide config (adjust.shiftState address state) =
      (destructSuicide config state).map (adjust.shiftState address) := by
  cases there : state.account <;> grind [destructSuicide, shiftState, shiftAccount]

def Settles (adjust : Adjustment) (alike : Script → W → Prop)
    (op : RelaxedOp) (value result : op.Answer) (state : TxState Script) (image : TxState W) :
    Prop :=
  result = value ∧ ¬op.Underflows value ∧ Moved adjust alike state image

section

variable (valid : adjust.Valid) (answers : Alike adjust world alike) (op : Op)
  {unread : Address → Prop}
  (allowed : (RelaxedOp.plain op).Allowed config adjust.shift seen.account unread)
  (others : ∀ address nonce, op ≠ .setOriginalNonce address nonce)

include valid answers allowed others

theorem coupled_agrees : Agreeing adjust world alike seen (op.method config) := by
  cases op with
  | selfdestruct address beneficiary =>
    exact (coupled_selfdestruct valid answers beneficiary allowed).weaken
      fun _ _ _ _ facts => ⟨facts.1, facts.2.2⟩
  | subtractFromBalance address delta => exact allowed.elim
  | setOriginalNonce address nonce => exact absurd rfl (others address nonce)
  | addToBalance address delta =>
    refine (coupled_addToBalance valid answers delta allowed).weaken ?_
    rintro value result state image ⟨same, _, entered, moved⟩
    exact ⟨same, moved.1⟩
  | push => exact coupled_frames .push fun _ _ _ _ moved ran => moved.push ran
  | popAccept => exact coupled_frames .popAccept fun _ _ _ _ moved ran => moved.popAccept ran
  | popReject => exact coupled_frames .popReject fun _ _ _ _ moved ran => moved.popReject ran
  | logs =>
    refine coupled_frames .logs ?_
    intro journal image answer after moved ran
    cases ran
    refine ⟨image, ?_, moved⟩
    simp only [VersionJournal.handler, moved.logs]
  | storeLog log =>
    refine coupled_frames (.storeLog log) ?_
    intro journal image answer after moved ran
    cases ran
    refine ⟨_, rfl, moved.version, moved.dirty, ?_, moved.current, moved.covered⟩
    simp only [moved.logs, moved.version]
  | destructSuicides =>
    refine coupled_frames (.sweep _ (destructSuicide config)) ?_
    intro journal image answer after moved ran
    exact moved.sweep (fun _ state _ => destructSuicide_shift state)
      (fun _ _ _ covered changed => covered_destructSuicide covered changed) ran
  | destructTouchedDead =>
    refine coupled_frames (.sweep _ destructDead) ?_
    intro journal image answer after moved ran
    exact moved.sweep (fun _ _ covered => destructDead_shift valid covered)
      (fun _ _ _ covered changed => covered_destructDead covered changed) ran
  | accountExists address | getNonce address | getCodeHash address =>
    exact coupled_reader valid answers fun account => by
      cases account <;> rfl
  | accountIsDead address =>
    refine (coupled_recentAccount valid answers address).bind fun account other => ?_
    exact done fun _ _ facts => ⟨facts.2.2.1, facts.1.1⟩
  | accountHasCodeOrNonce address =>
    refine (coupled_recentAccount valid answers address).bind_and fun account other facts => ?_
    rw [facts.1]
    cases account with
    | none | some known => exact done fun _ _ moved => ⟨rfl, moved.1⟩
  | getBalance address =>
    refine (coupled_getBalance valid answers address).weaken ?_
    exact fun _ _ _ _ facts => ⟨facts.1, facts.2.1.1⟩
  | getOriginalBalance address =>
    exact coupled_getOriginalBalance valid answers address
  | isDestructed address | getTransientStorage address key =>
    refine (coupled_recentAccountState valid answers address).bind fun state other => ?_
    refine done fun _ _ facts => ⟨?_, facts.1.1⟩
    rw [facts.2.1.moved]
    rfl
  | isCurrentIncarnation address =>
    refine (coupled_isCurrentIncarnation valid answers).weaken ?_
    exact fun _ _ _ _ facts => ⟨facts.1, facts.2.1⟩
  | getStorage address key =>
    exact coupled_getStorage valid answers address key
  | isTouched address =>
    refine (coupled_recent address).bind fun state other => ?_
    refine done ?_
    rintro after image ⟨moved, ⟨rfl, rfl, _⟩ | ⟨current, also, rfl, rfl, shown, _⟩⟩
    · exact ⟨rfl, moved.1⟩
    · refine ⟨?_, moved.1⟩
      rw [shown.moved]
      rfl
  | setNonce address nonce =>
    exact coupled_setNonce valid answers nonce allowed
  | setStorage address key value =>
    exact coupled_setStorage valid answers key value
  | setTransientStorage address key value =>
    refine coupled_change valid answers fun state covered _ => ?_
    exact ⟨(beside_setTransientStorage key value).shift state, covered.of_eq rfl rfl⟩
  | touch address =>
    refine coupled_change valid answers fun state covered _ => ?_
    exact ⟨beside_touch.shift state, covered.of_eq rfl rfl⟩
  | accessAccount address =>
    exact coupled_enterBeside valid answers beside_access fun _ => rfl
  | accessStorage address key =>
    exact coupled_accessStorage valid answers key
  | updatePage address key status =>
    exact coupled_enterBeside valid answers
      (beside_pageTracker fun pages => (updatePage pages key status).2) fun _ => rfl
  | readCode hash => exact coupled_readCode config hash
  | getCode address =>
    refine (coupled_recentAccount valid answers address).bind_and fun account other facts => ?_
    rw [facts.1]
    cases account with
    | none => exact coupled_blockCode config nullHash
    | some known => exact coupled_readCode config known.codeHash
  | getCodeSize address =>
    exact coupled_codeReader valid answers config List.length
      (done fun _ _ facts => ⟨rfl, facts.1⟩)
  | copyCode address offset size =>
    exact coupled_codeReader valid answers config
      (fun code => (code.drop offset).take size)
      (done fun _ _ facts => ⟨rfl, facts.1⟩)
  | setCode address code =>
    exact coupled_setCode valid answers code allowed
  | createContract address =>
    exact coupled_createContract valid answers
  | createAccountNoRollback address =>
    exact coupled_createAccountNoRollback valid answers
  | setToStateIncarnation address =>
    exact coupled_setToStateIncarnation valid answers
  | recordBalanceConstraintForDebit address debit =>
    exact (coupled_record valid answers debit).weaken
      fun _ _ _ _ facts => ⟨facts.1, facts.2.1.1⟩

theorem coupled_plain :
    Alongside adjust world alike seen (op.method config) (Settles adjust alike (.plain op)) := by
  have agrees := coupled_agrees valid answers op allowed others
  cases op with
  | selfdestruct address beneficiary => exact coupled_selfdestruct valid answers beneficiary allowed
  | _ => exact agrees.weaken fun _ _ _ _ same => ⟨same.1, id, same.2⟩

end

theorem tracks_op (op : Op) (others : ∀ address nonce, op ≠ .setOriginalNonce address nonce) :
    (op.method config).Tracks (fun _ _ => True) (fun _ => True) fun _ => True := by
  refine tracks_method (fun _ _ => trivial)
    ⟨fun _ _ _ => trivial, fun _ => trivial, fun _ _ => trivial⟩ op ?_ ?_
  · cases op with
    | setOriginalNonce address nonce => exact absurd rfl (others address nonce)
    | _ => simp [Op.Keeps]
  · cases op <;> simp [Op.Frames]

theorem run_keeping (op : RelaxedOp)
    (others : ∀ address nonce, op ≠ .plain (.setOriginalNonce address nonce))
    (state : TxState Script) : (op.method config).run keepingHandler state =
      relaxedInterface config Script.world op state := by
  have tracked : (op.method config).Tracks (fun _ _ => True) (fun _ => True) fun _ => True := by
    cases op with
    | plain op => exact tracks_op op fun address nonce same => others address nonce (same ▸ rfl)
    | debit address amount =>
      refine (tracks_recordBalanceConstraintForDebit (fun _ _ => trivial) address amount).bind
        fun recorded _ => ?_
      cases recorded with
      | false => trivial
      | true =>
        exact (tracks_op (.subtractFromBalance address amount) fun _ _ => nofun).bind
          fun _ _ => trivial
  refine tracked.run_eq (fun action state allowed => ?_) fun action answer => ?_
  · cases action with
    | setOriginalNonce address nonce => exact allowed.elim
    | _ => rfl
  · cases action with
    | journal action => cases action <;> simp [tracking, keeping]
    | _ => simp [tracking]

def TxState.Unread (state : TxState Script) (address : Address) : Prop :=
  state.original.lookup address = none

section

variable {state after : TxState Script} {image : TxState W}

section

variable {nonce : Nat} {value : Unit} (unread : state.Unread address)
  (ran : relaxedInterface config Script.world (.plain (.setOriginalNonce address nonce)) state =
    .ok (value, after))

include unread ran

/-- The nonce is written to the answer, and the account is kept so to the end. -/
theorem setOriginalNonce_ok :
    ∃ answer script, Script.world.readAccount address state.world = .ok (answer, script) ∧
      after = { state with
        original := state.original.insert address
          { account := some { answer.getD {} with nonce := nonce } }, world := script } := by
  obtain ⟨original, middle, one, two⟩ := run_bind_ok _ ran
  rcases readOriginal_ok ((run_perform ..).symm.trans one) with
    ⟨found, _⟩ | ⟨_, answer, script, asked, rfl, rfl⟩
  · cases unread.symm.trans found
  · have wrote := (run_perform ..).symm.trans two
    simp only [handler, updateOriginal, AList.lookup_insert] at wrote
    cases wrote
    refine ⟨answer, script, asked, ?_⟩
    rw [AList.insert_insert]
    rfl

theorem moved_setOriginalNonce (answers : Alike adjust world alike)
    (moved : Moved adjust alike state image) (ends : adjust.Ahead after) :
    ∃ replayed, relaxedInterface config world (.plain (.setOriginalNonce address nonce)) image =
        .ok (value, replayed) ∧ Moved adjust alike after replayed := by
  obtain ⟨answer, script, asked, rfl⟩ := setOriginalNonce_ok unread ran
  -- The block state has the account as it is kept, so the nonce is there already.
  obtain ⟨block, again, still⟩ := answers.account address state.world image.world answer script _
    moved.alike asked (ends address _ (AList.lookup_insert _)).1
  have next := moved.insert { account := some { answer.getD {} with nonce := nonce } }
    { account := some (adjust.shiftAccount address { answer.getD {} with nonce := nonce }) }
    still rfl rfl
  refine ⟨_, ?_, next⟩
  have reads : (State.originalAccountState address).run (handler VersionJournal.handler world)
      image = _ :=
    (run_perform ..).trans (by
      simp only [handler, readOriginal, moved.unread address unread, again]
      rfl)
  refine (run_bind ..).trans ?_
  rw [reads]
  refine (run_perform ..).trans ?_
  simp only [handler, updateOriginal, AList.lookup_insert, AList.insert_insert]
  rfl

end

variable {op : RelaxedOp} {value : op.Answer}
  (allowed : op.Allowed config adjust.shift (state.recentOf adjust.first) state.Unread)
  (ran : relaxedInterface config Script.world op state = .ok (value, after))
  (ends : adjust.Ahead after)

include allowed ran ends

theorem back_op : adjust.Ahead state := by
  by_cases presumes : ∃ address nonce, op = .plain (.setOriginalNonce address nonce)
  · obtain ⟨address, nonce, rfl⟩ := presumes
    obtain ⟨_, _, _, rfl⟩ := setOriginalNonce_ok allowed ran
    intro other original found
    have apart : other ≠ address := by
      rintro rfl
      cases Eq.symm allowed |>.trans found
    exact ends other original ((AList.lookup_insert_ne apart).trans found)
  · rw [← run_keeping op fun address nonce same => presumes ⟨address, nonce, same⟩] at ran
    exact (sides adjust Script.world).back_run ran ends

theorem moved_op (valid : adjust.Valid) (answers : Alike adjust world alike)
    (moved : Moved adjust alike state image) :
    ∃ replayed, relaxedInterface config world op image = .ok (value, replayed) ∧
      ¬op.Underflows value ∧ Moved adjust alike after replayed := by
  by_cases presumes : ∃ address nonce, op = .plain (.setOriginalNonce address nonce)
  · obtain ⟨address, nonce, rfl⟩ := presumes
    obtain ⟨replayed, again, still⟩ := moved_setOriginalNonce allowed ran answers moved ends
    exact ⟨replayed, again, id, still⟩
  · have others : ∀ address nonce, op ≠ .plain (.setOriginalNonce address nonce) :=
      fun address nonce same => presumes ⟨address, nonce, same⟩
    rw [← run_keeping op others] at ran
    have at_ : MovedAt adjust alike (state.sight adjust.first) state image := ⟨moved, rfl⟩
    have settled : ∃ result replayed, relaxedInterface config world op image =
        .ok (result, replayed) ∧ Settles adjust alike op value result after replayed := by
      cases op with
      | plain op =>
        exact coupled_plain valid answers op allowed
          (fun address nonce same => others address nonce (same ▸ rfl)) state image value after
          at_ ran ends
      | debit address amount =>
        exact coupled_debit (state.sight adjust.first) valid answers amount allowed state image
          value after at_ ran ends
    obtain ⟨result, replayed, again, rfl, fine, still⟩ := settled
    exact ⟨replayed, again, fine, still⟩

end

end Operation

end MonadChain.Execution
