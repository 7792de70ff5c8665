import MonadChain.Execution.Invariants

/-!
A property of the account states that is tracked through the operations. Every operation asks for
storage under the incarnation of a state that has the property, and it changes the states in ways
that keep it.
-/

namespace MonadChain.Execution

open State

variable {address : Address} {change : AccountState → AccountState}

/-- How a transaction uses the states that have a property. What it may ask of the
journal besides is a parameter. -/
def tracking (property : Address → AccountState → Prop) (frames : JournalAction → Prop) :
    Program.Contract accesses where
  allowed
    | .originalStorage address incarnation _ =>
      ∃ state account, property address state ∧ state.account = some account ∧
        account.incarnation = incarnation
    | .setOriginalNonce _ _ => False
    | .journal action => frames action ∧ (keeping property).allowed action
    | _ => True
  possible
    | .original address => fun original => property address original.toAccountState
    | .findOriginal address => fun answer => ∀ original, answer = some original →
        property address original.toAccountState
    | .journal action => (keeping property).possible action
    | _ => fun _ => True

def JournalAction.Single : JournalAction → Prop
  | .recent _ | .current _ _ | .modify _ _ | .logs | .storeLog _ => True
  | _ => False

structure Trackable (config : Config) (property : Address → AccountState → Prop) : Prop where
  sameAccount : ∀ {address state} other, property address state →
    other.account = state.account → property address other
  create : ∀ {address state}, property address state → property address (state.create config)
  rebalance : ∀ {address state} (change : Nat → Nat), property address state →
    property address (state.withBalance change)

section Methods

variable {config : Config} {property : Address → AccountState → Prop}
  {frames : JournalAction → Prop}

abbrev Method.Tracks (property : Address → AccountState → Prop) (frames : JournalAction → Prop)
    {α : Type} (post : α → Prop) (method : Method α) : Prop :=
  method.Follows (tracking property frames) post

variable (single : ∀ action : JournalAction, action.Single → frames action)

include single

theorem tracks_recentAccountState (address : Address) :
    (recentAccountState address).Tracks property frames (property address) := by
  refine .perform ⟨single _ trivial, trivial⟩ fun answer possible => ?_
  cases answer with
  | some state => exact possible state rfl
  | none => exact ⟨trivial, fun original read => read⟩

theorem tracks_currentAccountState (address : Address) :
    (currentAccountState address).Tracks property frames (property address) := by
  refine .perform ⟨single _ trivial, trivial⟩ fun answer possible => ?_
  cases answer with
  | some state => exact ⟨⟨single _ trivial, possible state rfl⟩, fun entered kept => kept⟩
  | none =>
    refine .perform trivial fun original read => ?_
    exact ⟨⟨single _ trivial, read⟩, fun entered kept => kept⟩

theorem tracks_recentAccount (address : Address) :
    (recentAccount address).Tracks property frames fun answer =>
      ∃ state, property address state ∧ state.account = answer :=
  (tracks_recentAccountState single address).bind fun state kept => ⟨state, kept, rfl⟩

section

variable (keeps : ∀ state, property address state → property address (change state))

include keeps

theorem tracks_modify : (modify address change).Tracks property frames fun _ => True :=
  ⟨⟨single _ trivial, keeps⟩, fun _ _ => trivial⟩

theorem tracks_change : (do
      let _ ← currentAccountState address
      modify address change : Method Unit).Tracks property frames fun _ => True :=
  (tracks_currentAccountState single address).bind fun _ _ => tracks_modify single keeps

end

theorem tracks_getBalance (address : Address) :
    (getBalance address).Tracks property frames fun _ => True :=
  (tracks_recentAccount single address).bind fun _ _ =>
    ⟨trivial, fun _ _ => ⟨trivial, fun _ _ => trivial⟩⟩

theorem tracks_isCurrentIncarnation (address : Address) :
    (isCurrentIncarnation config address).Tracks property frames fun _ => True := by
  refine (tracks_recentAccount single address).bind fun answer _ => ?_
  cases answer <;> trivial

theorem tracks_getStorage (address : Address) (key : Key) :
    (getStorage address key).Tracks property frames fun _ => True := by
  refine .perform ⟨single _ trivial, trivial⟩ fun answer possible => ?_
  cases answer with
  | none =>
    refine .perform trivial fun found read => ?_
    cases found with
    | none => trivial
    | some original =>
      dsimp only
      cases there : original.account with
      | none => trivial
      | some account =>
        exact ⟨⟨_, account, read original rfl, there, rfl⟩, fun _ _ => trivial⟩
  | some state =>
    dsimp only
    cases there : state.account with
    | none => trivial
    | some account =>
      cases state.storage.lookup key with
      | some value => trivial
      | none =>
        refine .perform trivial fun found read => ?_
        cases found with
        | none => trivial
        | some original =>
          dsimp only
          split
          · trivial
          · exact ⟨⟨state, account, possible state rfl, there, rfl⟩, fun _ _ => trivial⟩

section

variable (trackable : Trackable config property)

include trackable

theorem tracks_setStorage (address : Address) (key : Key) (value : Value) :
    (setStorage address key value).Tracks property frames fun _ => True := by
  refine (tracks_currentAccountState single address).bind fun state kept => ?_
  cases there : state.account with
  | none => trivial
  | some account =>
    refine .perform trivial fun _ _ =>
      ⟨⟨state, account, kept, there, rfl⟩, fun _ _ => ?_⟩
    refine (tracks_modify single fun _ kept => ?_).bind fun _ _ => trivial
    exact trackable.sameAccount _ kept rfl

theorem tracks_addToBalance (address : Address) (delta : Nat) :
    (addToBalance config address delta).Tracks property frames fun _ => True := by
  refine (tracks_currentAccountState single address).bind fun state _ => ?_
  refine (tracks_modify single fun _ kept => trackable.create kept).bind fun _ _ => ?_
  split
  · trivial
  · refine (tracks_modify single fun _ kept => ?_).bind fun _ _ => trivial
    exact trackable.sameAccount _ (trackable.rebalance (· + delta) kept) rfl

theorem tracks_subtractFromBalance (address : Address) (delta : Nat) :
    (subtractFromBalance config address delta).Tracks property frames fun _ => True := by
  refine (tracks_currentAccountState single address).bind fun state _ => ?_
  refine (tracks_modify single fun _ kept => trackable.create kept).bind fun _ _ => ?_
  split
  · trivial
  · refine (tracks_modify single fun _ kept => ?_).bind fun _ _ => trivial
    exact trackable.sameAccount _ (trackable.rebalance (· - delta) kept) rfl

theorem tracks_accessStorage (address : Address) (key : Key) :
    (accessStorage config address key).Tracks property frames fun _ => True := by
  refine (tracks_currentAccountState single address).bind fun state _ => ?_
  have slot : ∀ state, property address state →
      property address (state.accessStorage key).2 := by
    intro state kept
    refine trackable.sameAccount _ kept ?_
    unfold AccountState.accessStorage
    split <;> rfl
  refine (tracks_modify single slot).bind fun _ _ => ?_
  split
  · refine (tracks_modify single fun _ kept => ?_).bind fun _ _ => trivial
    exact trackable.sameAccount _ kept rfl
  · trivial

theorem tracks_moveBalance (address beneficiary : Address) (balance : Nat) :
    (moveBalance config address beneficiary balance).Tracks property frames
      fun _ => True := by
  unfold moveBalance
  split
  · refine (tracks_addToBalance single trackable beneficiary balance).bind fun added _ => ?_
    cases added with
    | error reason => trivial
    | ok value => exact tracks_subtractFromBalance single trackable address balance
  · exact tracks_subtractFromBalance single trackable address balance

theorem tracks_leaveBalance (address beneficiary : Address) (balance : Nat) :
    (leaveBalance config address beneficiary balance).Tracks property frames
      fun _ => True := by
  unfold leaveBalance
  split
  · exact tracks_moveBalance single trackable address beneficiary balance
  · refine (tracks_isCurrentIncarnation single address).bind fun own _ => ?_
    split
    · exact tracks_moveBalance single trackable address beneficiary balance
    · trivial

theorem tracks_selfdestruct (address beneficiary : Address) :
    (selfdestruct config address beneficiary).Tracks property frames fun _ => True := by
  refine (tracks_currentAccountState single address).bind fun state _ => ?_
  refine (tracks_getBalance single address).bind fun balance _ => ?_
  refine (tracks_leaveBalance single trackable address beneficiary balance).bind
    fun moved _ => ?_
  cases moved with
  | error reason => trivial
  | ok value =>
    refine (tracks_modify single fun _ kept => ?_).bind fun _ _ => trivial
    exact trackable.sameAccount _ kept rfl

end

omit single in
theorem tracks_blockCode (hash : Hash) :
    (blockCode config hash).Tracks property frames fun _ => True := by
  unfold blockCode
  split <;> trivial

omit single in
theorem tracks_readCode (hash : Hash) :
    (readCode config hash).Tracks property frames fun _ => True := by
  refine .perform trivial fun found _ => ?_
  cases found with
  | some code => trivial
  | none => exact tracks_blockCode hash

theorem tracks_getCode (address : Address) :
    (getCode config address).Tracks property frames fun _ => True := by
  refine (tracks_recentAccount single address).bind fun answer _ => ?_
  cases answer with
  | none => exact tracks_blockCode nullHash
  | some account => exact tracks_readCode account.codeHash

theorem tracks_getCodeSize (address : Address) :
    (getCodeSize config address).Tracks property frames fun _ => True := by
  refine (tracks_recentAccount single address).bind fun answer _ => ?_
  cases answer with
  | none => trivial
  | some account => exact (tracks_readCode account.codeHash).bind fun _ _ => trivial

theorem tracks_copyCode (address : Address) (offset size : Nat) :
    (copyCode config address offset size).Tracks property frames fun _ => True := by
  refine (tracks_recentAccount single address).bind fun answer _ => ?_
  cases answer with
  | none => trivial
  | some account => exact (tracks_readCode account.codeHash).bind fun _ _ => trivial

theorem tracks_setCode {code : Code} (keeps : ∀ state, property address state →
      property address (state.withCodeHash (config.keccak code))) :
    (setCode config address code).Tracks property frames fun _ => True := by
  refine (tracks_currentAccountState single address).bind fun state _ => ?_
  cases state.account with
  | none => trivial
  | some account => exact ⟨trivial, fun _ _ => tracks_modify single keeps⟩

theorem tracks_createContract (trackable : Trackable config property)
    (renews : ∀ state account, property address state → state.account = some account →
      account.nonce = 0 → account.codeHash = nullHash →
      ∀ other, property address other →
        property address (other.withIncarnation config.incarnation)) :
    (createContract config address).Tracks property frames fun _ =>
      ∃ state, property address state ∧ (state.account = none ∨
        ∃ account, state.account = some account ∧ account.nonce = 0 ∧
          account.codeHash = nullHash) := by
  refine (tracks_currentAccountState single address).bind fun state kept => ?_
  cases there : state.account with
  | none =>
    exact ⟨⟨single _ trivial, fun _ kept => trackable.create kept⟩,
      fun _ _ => ⟨state, kept, Or.inl there⟩⟩
  | some account =>
    by_cases nonce : account.nonce = 0
    · by_cases code : account.codeHash = nullHash
      · simp only [monadAssert, nonce, code, decide_true, if_true]
        exact ⟨⟨single _ trivial, renews state account kept there nonce code⟩,
          fun _ _ => ⟨state, kept, Or.inr ⟨account, there, nonce, code⟩⟩⟩
      · simp only [monadAssert, nonce, code, decide_true, decide_false, if_true]
        trivial
    · simp only [monadAssert, nonce, decide_false]
      trivial

theorem tracks_recordBalanceConstraintForDebit (address : Address) (debit : Nat) :
    (recordBalanceConstraintForDebit address debit).Tracks property frames fun _ => True := by
  refine (tracks_recentAccount single address).bind fun account _ => ?_
  refine .perform trivial fun original _ => ?_
  dsimp only
  split
  · split
    · exact ⟨trivial, fun _ _ => trivial⟩
    · trivial
  · exact ⟨trivial, fun _ _ => trivial⟩

omit single

/-- What an operation has to keep of the property beyond what every trackable property
allows. -/
def Op.Keeps (config : Config) (property : Address → AccountState → Prop) : Op → Prop
  | .setNonce address nonce => ∀ state, property address state →
      property address ((state.create config).withNonce nonce)
  | .setCode address code => ∀ state, property address state →
      property address (state.withCodeHash (config.keccak code))
  | .createContract address => ∀ state account, property address state →
      state.account = some account → account.nonce = 0 → account.codeHash = nullHash →
      ∀ other, property address other → property address (other.withIncarnation config.incarnation)
  | .setToStateIncarnation address => ∀ state, property address state →
      property address ((state.create config).withIncarnation config.incarnation)
  | .destructSuicides => ∀ address state swept, property address state →
      State.destructSuicide config state = some swept → property address swept
  | .destructTouchedDead => ∀ address state swept, property address state →
      State.destructDead state = some swept → property address swept
  | .createAccountNoRollback address => ∀ state, property address state →
      property address
        (state.create { config with incarnation := ⟨config.incarnation.block, lastTx⟩ })
  | .setOriginalNonce _ _ => False
  | _ => True

def Op.Frames (frames : JournalAction → Prop) : Op → Prop
  | .push => frames .push
  | .popAccept => frames .popAccept
  | .popReject => frames .popReject
  | .destructSuicides => ∀ reason change, frames (.sweep reason change)
  | .destructTouchedDead => ∀ reason change, frames (.sweep reason change)
  | _ => True

theorem tracks_method (single : ∀ action : JournalAction, action.Single → frames action)
    (trackable : Trackable config property) (op : Op) (keeps : op.Keeps config property)
    (framed : op.Frames frames) : (op.method config).Tracks property frames fun _ => True := by
  cases op with
  | push | popAccept | popReject => exact ⟨⟨framed, trivial⟩, fun _ _ => trivial⟩
  | accountExists address | accountIsDead address | getNonce address | getCodeHash address =>
    exact (tracks_recentAccount single address).bind fun _ _ => trivial
  | accountHasCodeOrNonce address =>
    refine (tracks_recentAccount single address).bind fun answer _ => ?_
    cases answer <;> trivial
  | getBalance address => exact tracks_getBalance single address
  | getOriginalBalance address => exact ⟨trivial, fun _ _ => ⟨trivial, fun _ _ => trivial⟩⟩
  | isDestructed address | getTransientStorage address key =>
    exact (tracks_recentAccountState single address).bind fun _ _ => trivial
  | isCurrentIncarnation address => exact tracks_isCurrentIncarnation single address
  | getStorage address key => exact tracks_getStorage single address key
  | isTouched address | logs | storeLog log =>
    exact ⟨⟨single _ trivial, trivial⟩, fun _ _ => trivial⟩
  | setNonce address nonce | setToStateIncarnation address => exact tracks_change single keeps
  | addToBalance address delta => exact tracks_addToBalance single trackable address delta
  | subtractFromBalance address delta =>
    exact tracks_subtractFromBalance single trackable address delta
  | setStorage address key value => exact tracks_setStorage single trackable address key value
  | setTransientStorage address key value | touch address =>
    exact tracks_change single fun _ kept => trackable.sameAccount _ kept rfl
  | accessAccount address | updatePage address key status =>
    refine (tracks_currentAccountState single address).bind fun _ _ => ?_
    refine (tracks_modify single fun _ kept => ?_).bind fun _ _ => trivial
    exact trackable.sameAccount _ kept rfl
  | accessStorage address key => exact tracks_accessStorage single trackable address key
  | selfdestruct address beneficiary =>
    exact tracks_selfdestruct single trackable address beneficiary
  | destructSuicides | destructTouchedDead => exact ⟨⟨framed _ _, keeps⟩, fun _ _ => trivial⟩
  | readCode hash => exact tracks_readCode hash
  | getCode address => exact tracks_getCode single address
  | getCodeSize address => exact tracks_getCodeSize single address
  | copyCode address offset size => exact tracks_copyCode single address offset size
  | setCode address code => exact tracks_setCode single keeps
  | createContract address =>
    exact (tracks_createContract single trackable keeps).weaken fun _ _ => trivial
  | createAccountNoRollback address =>
    refine (tracks_currentAccountState single address).bind fun state _ => ?_
    cases state.account with
    | none => exact tracks_modify single keeps
    | some account => trivial
  | setOriginalNonce address nonce => exact keeps.elim
  | recordBalanceConstraintForDebit address debit =>
    exact tracks_recordBalanceConstraintForDebit single address debit

end Methods

end MonadChain.Execution
