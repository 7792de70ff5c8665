import MonadChain.Execution.BlockState
import MonadChain.Execution.Tracking

/-!
What a transaction reads of the block state, and what it remembers of it. The reads of a run are
listed with their answers, so that a run is one of the same program whatever block states have
answered it. The originals of the state are the first answers.
-/

namespace MonadChain.Execution

open AList Option StateOver List

variable {answer : Option Account} {other swept : AccountState} {original : OriginalAccountState}
  {config : Config} {address : Address}

inductive Read where
  | account (address : Address) (answer : Option Account)
  | storage (address : Address) (incarnation : Incarnation) (key : Key) (answer : Value)

/-- A run with given answers: the reads so far, and those to come. -/
structure Script where
  past : List Read := []
  ahead : List Read

namespace Script

def advance (read : Read) (rest : List Read) (script : Script) : Script :=
  ⟨script.past ++ [read], rest⟩

def world : World Script where
  readAccount address script :=
    match script.ahead with
    | .account other answer :: rest =>
      if address = other then .ok (answer, script.advance (.account other answer) rest)
      else .error "another read"
    | _ => .error "another read"
  readStorage address incarnation key script :=
    match script.ahead with
    | .storage other under slot answer :: rest =>
      if address = other ∧ incarnation = under ∧ key = slot then
        .ok (answer, script.advance (.storage other under slot answer) rest)
      else .error "another read"
    | _ => .error "another read"

theorem readAccount_ok {address : Address} {script after : Script}
    (asked : world.readAccount address script = .ok (answer, after)) :
    ∃ rest, script.ahead = .account address answer :: rest ∧
      after = script.advance (.account address answer) rest := by
  grind [world]

theorem readStorage_ok {address : Address} {incarnation : Incarnation} {key : Key}
    {answer : Value} {script after : Script}
    (asked : world.readStorage address incarnation key script = .ok (answer, after)) :
    ∃ rest, script.ahead = .storage address incarnation key answer :: rest ∧
      after = script.advance (.storage address incarnation key answer) rest := by
  grind [world]

end Script

def Read.accountOf (address : Address) : Read → Option (Option Account)
  | .account other answer => if address = other then some answer else none
  | .storage _ _ _ _ => none

def firstAccount (address : Address) (reads : List Read) : Option (Option Account) :=
  reads.findSome? (Read.accountOf address)

def firstIncarnation (address : Address) (reads : List Read) : Option Incarnation :=
  ((firstAccount address reads).getD none).map (·.incarnation)

theorem firstAccount_append (address : Address) (reads more : List Read) :
    firstAccount address (reads ++ more) =
      (firstAccount address reads).or (firstAccount address more) := List.findSome?_append

section

variable {reads more : List Read} (first : firstAccount address reads = some answer)

include first

theorem firstAccount_prefix : firstAccount address (reads ++ more) = some answer := by
  rw [firstAccount_append, first]
  rfl

theorem firstIncarnation_prefix :
    firstIncarnation address (reads ++ more) = answer.map (·.incarnation) := by
  rw [firstIncarnation, firstAccount_prefix first]
  rfl

end

def Kept (own : Incarnation) (known : Address → Option Incarnation) (address : Address)
    (state : AccountState) : Prop :=
  ∀ account, state.account = some account →
    account.incarnation = own ∨ known address = some account.incarnation

/-- How a transaction uses the incarnations. -/
def reading (own : Incarnation) (known : Address → Option Incarnation) :
    Program.Contract accesses where
  allowed
    | .setOriginalNonce _ _ => False
    | .journal action => (keeping (Kept own known)).allowed action
    | _ => True
  possible
    | .original address => fun original =>
      original.account.map (·.incarnation) = known address
    | .findOriginal address => fun answer => ∀ original, answer = some original →
        original.account.map (·.incarnation) = known address
    | .journal action => (keeping (Kept own known)).possible action
    | _ => fun _ => True

section Changes

variable {own : Incarnation} {known : Address → Option Incarnation} {address : Address}
  {state : AccountState}

section

variable (kept : Kept own known address state)

include kept

theorem Kept.of_account_eq (same : other.account = state.account) : Kept own known address other :=
  fun account there => kept account (same ▸ there)

theorem Kept.map {change : Account → Account}
    (same : ∀ account, (change account).incarnation = account.incarnation) :
    Kept own known address { state with account := state.account.map change } := by
  intro account there
  obtain ⟨before, found, rfl⟩ := map_eq_some_iff.mp there
  rw [same before]
  exact kept before found

end

theorem Kept.create {config : Config} (kept : Kept config.incarnation known address state) :
    Kept config.incarnation known address (state.create config) := by
  intro account there
  cases found : state.account with
  | none =>
    simp only [AccountState.create, found, getD_none, some.injEq] at there
    exact Or.inl (there ▸ rfl)
  | some before =>
    simp only [AccountState.create, found, getD_some, some.injEq] at there
    exact there ▸ kept before found

theorem kept_withIncarnation : Kept own known address (state.withIncarnation own) := by
  intro account there
  obtain ⟨before, found, rfl⟩ := map_eq_some_iff.mp there
  exact Or.inl rfl

theorem Kept.none (gone : other.account = none) : Kept own known address other := by
  intro account there
  rw [gone] at there
  cases there

theorem kept_of_original (read : original.account.map (·.incarnation) = known address) :
    Kept own known address original.toAccountState := by
  intro account there
  rw [there] at read
  exact Or.inr read.symm

end Changes

section Methods

variable {config : Config} {known : Address → Option Incarnation}

theorem kept_trackable : Trackable config (Kept config.incarnation known) where
  sameAccount _ kept same := kept.of_account_eq same
  create kept := kept.create
  rebalance _ kept := kept.map fun _ => rfl

section

variable {state : AccountState} (kept : Kept config.incarnation known address state)

include kept

theorem kept_destructSuicide (changed : State.destructSuicide config state = some swept) :
    Kept config.incarnation known address swept := by
  grind [State.destructSuicide, Kept.none]

theorem kept_destructDead (changed : State.destructDead state = some swept) :
    Kept config.incarnation known address swept := by
  grind [State.destructDead, Kept.none]

end

end Methods

/-- The operations of a transaction. An account of the block itself is made, and an original
overwritten, outside of it. -/
def Op.Transactional : Op → Prop
  | .createAccountNoRollback _ => False
  | .setOriginalNonce _ _ => False
  | _ => True

theorem Op.Transactional.keeps {known : Address → Option Incarnation} {op : Op}
    (transactional : op.Transactional) : op.Keeps config (Kept config.incarnation known) := by
  cases op with
  | setNonce address nonce => exact fun _ kept => kept.create.map fun _ => rfl
  | setCode address code => exact fun _ kept => kept.map fun _ => rfl
  | createContract address => exact fun _ _ _ _ _ _ _ _ => kept_withIncarnation
  | setToStateIncarnation address => exact fun _ _ => kept_withIncarnation
  | destructSuicides => exact fun _ _ _ kept changed => kept_destructSuicide kept changed
  | destructTouchedDead => exact fun _ _ _ kept changed => kept_destructDead kept changed
  | createAccountNoRollback address | setOriginalNonce address nonce => exact transactional.elim
  | _ => trivial

theorem reads_method {known : Address → Option Incarnation} (op : Op)
    (transactional : op.Transactional) :
    (op.method config).Follows (reading config.incarnation known) fun _ => True := by
  have framed : op.Frames fun _ => True := by cases op <;> simp [Op.Frames]
  have tracked : (op.method config).Tracks (Kept config.incarnation known) (fun _ => True)
      fun _ => True :=
    tracks_method (fun _ _ => trivial) kept_trackable op transactional.keeps framed
  refine tracked.mono (fun action allowed => ?_) fun action answer possible => ?_
  · cases action with
    | journal action => exact allowed.2
    | setOriginalNonce address nonce => exact allowed.elim
    | _ => trivial
  · cases action with
    | original address => exact kept_of_original possible
    | findOriginal address => exact fun original found => kept_of_original (possible original found)
    | _ => exact possible

/-- An account is read once, and its slots are read after it. -/
def Ordered (reads : List Read) : Prop :=
  ∀ before read after, reads = before ++ read :: after →
    match read with
    | .account address _ => firstAccount address before = none
    | .storage address _ _ _ => (firstAccount address before).isSome

def Presumed (answer kept : Option Account) : Prop :=
  kept = answer ∨ ∃ nonce, kept = some { answer.getD {} with nonce := nonce }

/-- The state remembers the reads that were made: the first answer for every account, or what
it keeps in its place, and the answers for the slots. -/
structure Remembers (keeps : Option Account → Option Account → Prop) (reads : List Read)
    (state : TxState Script) : Prop where
  whole : state.world.past ++ state.world.ahead = reads
  unread : ∀ address, state.original.lookup address = none →
    firstAccount address state.world.past = none
  accounts : ∀ address original, state.original.lookup address = some original →
    ∃ answer, firstAccount address state.world.past = some answer ∧ keeps answer original.account
  slots : ∀ address incarnation key answer,
    .storage address incarnation key answer ∈ state.world.past →
    ∃ original, state.original.lookup address = some original ∧
      original.storage.lookup key = some answer
  ordered : Ordered state.world.past

theorem ordered_snoc {reads : List Read} (ordered : Ordered reads) {read : Read}
    (last : match read with
      | .account address _ => firstAccount address reads = none
      | .storage address _ _ _ => (firstAccount address reads).isSome) :
    Ordered (reads ++ [read]) := by
  intro before inner after split
  rcases eq_nil_or_concat after with rfl | ⟨rest, final, rfl⟩
  · obtain ⟨rfl, same⟩ := append_inj' split rfl
    cases same
    exact last
  · have shape : reads ++ [read] = (before ++ inner :: rest) ++ [final] := by
      rw [split]
      simp
    exact ordered before inner rest (append_inj_left' shape rfl)

section Remembers

variable {keeps : Option Account → Option Account → Prop} {reads : List Read}
  {state after : TxState Script}

theorem remembers_fresh (keeps : Option Account → Option Account → Prop) (reads : List Read) :
    Remembers keeps reads (.fresh {} { ahead := reads }) where
  whole := rfl
  unread := fun _ _ => rfl
  accounts := fun _ _ found => by cases found
  slots := fun _ _ _ _ member => absurd member not_mem_nil
  ordered := by
    intro before read after split
    have empty : [] = before ++ read :: after := split
    simp at empty

section

variable (remembers : Remembers keeps reads state)

include remembers

theorem Remembers.past (complete : state.world.ahead = []) : state.world.past = reads := by
  rw [← remembers.whole, complete, append_nil]

theorem Remembers.found (complete : state.world.ahead = [])
    (first : firstAccount address reads = some answer) :
    ∃ original, state.original.lookup address = some original ∧ keeps answer original.account := by
  rw [← remembers.past complete] at first
  cases found : state.original.lookup address with
  | none =>
    rw [remembers.unread address found] at first
    cases first
  | some original =>
    obtain ⟨read, there, kept⟩ := remembers.accounts address original found
    cases first.symm.trans there
    exact ⟨original, rfl, kept⟩

theorem Remembers.first (complete : state.world.ahead = [])
    (member : .account address answer ∈ reads) : firstAccount address reads = some answer := by
  obtain ⟨before, after, split⟩ := append_of_mem member
  have ordered := remembers.ordered before (.account address answer) after
    ((remembers.past complete).trans split)
  rw [split, firstAccount_append, show firstAccount address before = none from ordered]
  simp [firstAccount, Read.accountOf]

theorem Remembers.update {changed : OriginalAccountState}
    (found : state.original.lookup address = some original)
    (account : ∀ answer, keeps answer original.account → keeps answer changed.account)
    (storage : changed.storage = original.storage) :
    Remembers keeps reads { state with original := state.original.insert address changed } where
  whole := remembers.whole
  ordered := remembers.ordered
  unread := by
    intro other absent
    have before := remembers.unread other
    grind [lookup_insert_ite]
  accounts := by
    intro other known there
    have before := remembers.accounts other
    grind [lookup_insert_ite]
  slots := by
    intro other incarnation key answer member
    obtain ⟨kept, there, slot⟩ := remembers.slots other incarnation key answer member
    grind [lookup_insert_ite]

theorem Remembers.readOriginal (same : ∀ answer, keeps answer answer)
    (ran : state.readOriginal Script.world address = .ok (original, after)) :
    Remembers keeps reads after := by
  rcases readOriginal_ok ran with ⟨found, rfl⟩ | ⟨absent, answer, script, asked, rfl, rfl⟩
  · exact remembers
  · obtain ⟨rest, ahead, rfl⟩ := Script.readAccount_ok asked
    have none_yet := remembers.unread address absent
    have others : ∀ other, firstAccount other (state.world.past ++ [.account address answer]) =
        if other = address then some answer else firstAccount other state.world.past := by
      intro other
      rw [firstAccount_append]
      by_cases here : other = address
      · subst here
        rw [none_yet]
        simp [firstAccount, Read.accountOf]
      · simp [firstAccount, Read.accountOf, here]
    refine ⟨?_, ?_, ?_, ?_, ordered_snoc remembers.ordered none_yet⟩
    · dsimp only [Script.advance]
      rw [← remembers.whole, ahead, append_assoc]
      rfl
    · intro other missing
      have before := remembers.unread other
      grind [lookup_insert_ite, Script.advance]
    · intro other known there
      have before := remembers.accounts other
      grind [lookup_insert_ite, Script.advance]
    · intro other incarnation key value member
      dsimp only [Script.advance] at member
      have earlier : .storage other incarnation key value ∈ state.world.past := by
        simpa using member
      obtain ⟨kept, there, slot⟩ := remembers.slots other incarnation key value earlier
      grind [lookup_insert_ite]

theorem Remembers.readOriginalStorage {incarnation : Incarnation} {key : Key} {answer : Value}
    (ran : state.readOriginalStorage Script.world address incarnation key = .ok (answer, after)) :
    Remembers keeps reads after := by
  obtain ⟨original, found, ⟨cached, rfl⟩ | ⟨unread, script, asked, rfl⟩⟩ :=
    readOriginalStorage_ok ran
  · exact remembers
  · obtain ⟨rest, ahead, rfl⟩ := Script.readStorage_ok asked
    have known : (firstAccount address state.world.past).isSome := by
      obtain ⟨first, known, _⟩ := remembers.accounts address original found
      rw [known]
      rfl
    have same : ∀ other, firstAccount other
        (state.world.past ++ [.storage address incarnation key answer]) =
        firstAccount other state.world.past := by
      intro other
      rw [firstAccount_append]
      exact or_none
    refine ⟨?_, ?_, ?_, ?_, ordered_snoc remembers.ordered known⟩
    · dsimp only [Script.advance]
      rw [← remembers.whole, ahead, append_assoc]
      rfl
    · intro other missing
      have before := remembers.unread other
      grind [lookup_insert_ite, Script.advance]
    · intro other kept there
      have before := remembers.accounts other
      grind [lookup_insert_ite, Script.advance]
    · intro other kind slot value member
      rcases mem_append.mp member with earlier | last
      · have kept := remembers.slots other kind slot value earlier
        grind [lookup_insert_ite]
      · cases mem_singleton.mp last
        exact ⟨_, lookup_insert _, lookup_insert _⟩

theorem Remembers.access {action : Access} {value : action.Answer}
    (same : ∀ answer, keeps answer answer)
    (presumes : ∀ address nonce, action = .setOriginalNonce address nonce →
      ∀ answer (original : OriginalAccountState), keeps answer original.account →
        keeps answer (original.withNonce nonce).account)
    (ran : handler VersionJournal.handler Script.world action state = .ok (value, after)) :
    Remembers keeps reads after := by
  cases action with
  | original address => exact remembers.readOriginal same ran
  | findOriginal address | findCode hash =>
    cases ran
    exact remembers
  | originalStorage address incarnation key => exact remembers.readOriginalStorage ran
  | setValidateExactBalance address =>
    simp only [handler] at ran
    obtain ⟨original, changed, found, applied, rfl⟩ := updateOriginal_ok ran
    cases applied
    exact remembers.update found (fun _ kept => kept) rfl
  | setMinBalance address value =>
    obtain ⟨original, changed, found, raised, rfl⟩ := updateOriginal_ok ran
    obtain ⟨_, _, _, rfl⟩ := OriginalAccountState.raiseMinBalance_ok raised
    exact remembers.update found (fun _ kept => kept) rfl
  | setOriginalNonce address nonce =>
    simp only [handler] at ran
    obtain ⟨original, changed, found, applied, rfl⟩ := updateOriginal_ok ran
    cases applied
    exact remembers.update found (fun answer => presumes address nonce rfl answer original) rfl
  | journal action =>
    obtain ⟨journal, changed, rfl⟩ := handler_journal_ok ran
    exact ⟨remembers.whole, remembers.unread, remembers.accounts, remembers.slots,
      remembers.ordered⟩
  | putCode hash code =>
    cases ran
    exact ⟨remembers.whole, remembers.unread, remembers.accounts, remembers.slots,
      remembers.ordered⟩

end

theorem Remembers.incarnation (remembers : Remembers (fun answer kept => kept = answer) reads state)
    (found : state.original.lookup address = some original) :
    original.account.map (·.incarnation) = firstIncarnation address reads := by
  obtain ⟨answer, first, same⟩ := remembers.accounts address original found
  rw [← remembers.whole, firstIncarnation_prefix first, same]

theorem presumed_withNonce {nonce : Nat} (kept : Presumed answer original.account) :
    Presumed answer (original.withNonce nonce).account := by
  refine Or.inr ⟨nonce, ?_⟩
  rcases kept with same | ⟨other, same⟩ <;> simp [OriginalAccountState.withNonce, same]

theorem honours_reading (own : Incarnation) (reads : List Read) :
    Program.Honours (reading own (firstIncarnation · reads))
      (fun state => Remembers (fun answer kept => kept = answer) reads state ∧
        state.journal.AllStates (Kept own (firstIncarnation · reads)))
      (handler VersionJournal.handler Script.world) := by
  rintro action state answer after allowed ⟨remembers, states⟩ ran
  have still := remembers.access (fun _ => rfl)
    (fun _ _ presumes => by subst presumes; exact allowed.elim) ran
  cases action with
  | original address =>
    have found : after.original.lookup address = some answer := by
      rcases readOriginal_ok ran with ⟨found, rfl⟩ | ⟨_, _, _, _, rfl, rfl⟩
      · exact found
      · exact lookup_insert _
    have journal : after.journal = state.journal := by
      rcases readOriginal_ok ran with ⟨_, rfl⟩ | ⟨_, _, _, _, _, rfl⟩ <;> rfl
    exact ⟨still.incarnation found, still, journal ▸ states⟩
  | findOriginal address =>
    cases ran
    exact ⟨fun original found => remembers.incarnation found, still, states⟩
  | originalStorage address incarnation key =>
    obtain ⟨_, _, ⟨_, rfl⟩ | ⟨_, _, _, rfl⟩⟩ := readOriginalStorage_ok ran <;>
      exact ⟨trivial, still, states⟩
  | setValidateExactBalance address =>
    simp only [handler] at ran
    obtain ⟨_, _, _, _, rfl⟩ := updateOriginal_ok ran
    exact ⟨trivial, still, states⟩
  | setMinBalance address value =>
    obtain ⟨_, _, _, _, rfl⟩ := updateOriginal_ok ran
    exact ⟨trivial, still, states⟩
  | setOriginalNonce address nonce => exact allowed.elim
  | journal action =>
    obtain ⟨journal, changed, rfl⟩ := handler_journal_ok ran
    obtain ⟨possible, kept⟩ := VersionJournal.honours_keeping _ action state.journal _ journal
      allowed states changed
    exact ⟨possible, still, kept⟩
  | findCode hash | putCode hash code =>
    cases ran
    exact ⟨trivial, still, states⟩

theorem transaction_remembers {α : Type} {program : Program operations α}
    (transactional : program.Uses Op.Transactional) {value : α}
    (ran : program.run (interface config VersionJournal.handler Script.world)
      (.fresh {} { ahead := reads }) = .ok (value, state)) :
    Remembers (fun answer kept => kept = answer) reads state ∧
      state.journal.AllStates (Kept config.incarnation (firstIncarnation · reads)) := by
  have follows : (program.expand (Op.method config)).Follows
      (reading config.incarnation (firstIncarnation · reads)) fun _ => True :=
    transactional.expand fun op allowed => reads_method op allowed
  rw [interface, ← Program.run_expand] at ran
  exact (follows.run (honours_reading config.incarnation reads)
    ⟨remembers_fresh _ reads, fun _ _ found => by cases found⟩ ran).2

end Remembers

end MonadChain.Execution
