import MonadChain.Execution.BlockState
import MonadChain.Execution.JournalRefinement
import MonadChain.Execution.Tracking
import MonadChain.Execution.MessageLogic

/-!
What is seen of the accounts in a transaction. The block state shows the same contents as long as
nothing is merged into it. So the originals grow while a transaction runs, and what is seen
through them stays what it was.
-/

namespace MonadChain.Execution

open AList Option StateOver

variable {db : Db} {block : BlockState} {incarnation : Incarnation} {key : Key} {value : Value}
  {original : OriginalAccountState}

structure Contents where
  accounts : Address → Option Account
  slots : Address → Incarnation → Key → Value

/-- In the states of the block that are good, every read is answered by the contents. -/
structure World.Shows {W : Type} (world : World W) (good : W → Prop) (contents : Contents) :
    Prop where
  account : ∀ {address block answer after}, good block →
    world.readAccount address block = .ok (answer, after) →
    answer = contents.accounts address ∧ good after
  storage : ∀ {address incarnation key block answer after}, good block →
    world.readStorage address incarnation key block = .ok (answer, after) →
    answer = contents.slots address incarnation key ∧ good after

namespace BlockState

def slotOf (db : Db) (address : Address) (incarnation : Incarnation) (key : Key)
    (delta : StateDelta) : Value :=
  if hasIncarnation incarnation delta.account.2 then
    match delta.storage.lookup key with
    | some value => value.2
    | none => databaseStorage db address incarnation key
        (hasIncarnation incarnation delta.account.1)
  else 0

def unread (db : Db) (address : Address) : StateDelta :=
  { account := (db.readAccount address, db.readAccount address) }

def deltaAt (db : Db) (block : BlockState) (address : Address) : StateDelta :=
  (block.state.lookup address).getD (unread db address)

def contents (db : Db) (block : BlockState) : Contents where
  accounts address := (deltaAt db block address).account.2
  slots address incarnation key := slotOf db address incarnation key (deltaAt db block address)

theorem contents_congr {other : BlockState}
    (accounts : ∀ address, (deltaAt db other address).account.2 =
      (deltaAt db block address).account.2) (slots : ∀ address incarnation key,
      slotOf db address incarnation key (deltaAt db other address) =
        slotOf db address incarnation key (deltaAt db block address)) :
    contents db other = contents db block := by
  unfold contents
  congr 1
  · funext address
    exact accounts address
  · funext address incarnation key
    exact slots address incarnation key

theorem contents_insert {address : Address} {delta : StateDelta}
    (account : delta.account.2 = (deltaAt db block address).account.2)
    (slots : ∀ incarnation key, slotOf db address incarnation key delta =
      slotOf db address incarnation key (deltaAt db block address)) :
    contents db ⟨block.state.insert address delta⟩ = contents db block := by
  apply contents_congr
  · intro other
    grind [deltaAt, lookup_insert_ite]
  · intro other incarnation key
    grind [deltaAt, lookup_insert_ite]

theorem readAccount_shows (db : Db) (block : BlockState) (address : Address) :
    (block.readAccount db address).1 = (contents db block).accounts address ∧
      contents db (block.readAccount db address).2 = contents db block := by
  unfold readAccount findAccount emplaceAccount
  cases found : block.state.lookup address with
  | some delta => simp [contents, deltaAt, found]
  | none =>
    have unknown : deltaAt db block address = unread db address := by simp [deltaAt, found]
    refine ⟨?_, contents_insert ?_ fun _ _ => ?_⟩
    · simp [contents, unknown, unread]
    · rw [unknown]
      rfl
    · rw [unknown]
      rfl

theorem readStorage_shows {after : BlockState} {address : Address}
    (read : block.readStorage db address incarnation key = .ok (value, after)) :
    value = (contents db block).slots address incarnation key ∧
      contents db after = contents db block := by
  unfold readStorage lookupStorage at read
  cases found : block.state.lookup address with
  | none =>
    rw [found] at read
    cases read
  | some delta =>
    have known : deltaAt db block address = delta := by simp [deltaAt, found]
    have shown : (contents db block).slots address incarnation key =
        slotOf db address incarnation key delta := by rw [← known]; rfl
    rw [found] at read
    rw [shown]
    dsimp only at read
    by_cases present : hasIncarnation incarnation delta.account.2 = true
    · rw [if_pos present] at read
      cases slot : delta.storage.lookup key with
      | some pair =>
        rw [slot] at read
        cases read
        exact ⟨by simp [slotOf, present, slot], rfl⟩
      | none =>
        simp only [emplaceStorage, found, present, slot, if_true] at read
        cases read
        refine ⟨by simp [slotOf, present, slot], contents_insert ?_ fun other under => ?_⟩
        · rw [known]
        · rw [known]
          unfold slotOf
          by_cases same : hasIncarnation other delta.account.2 = true
          · rw [if_pos same, if_pos same]
            by_cases here : under = key
            · subst here
              rw [lookup_insert, slot]
              have alike : other = incarnation := by
                simp only [hasIncarnation, decide_eq_true_eq] at same present
                exact some.inj (same.symm.trans present)
              rw [alike]
            · rw [lookup_insert_ne here]
          · rw [if_neg same, if_neg same]
    · rw [if_neg present] at read
      cases read
      exact ⟨by simp [slotOf, present], rfl⟩

theorem world_shows (db : Db) (block : BlockState) :
    (world db).Shows (fun other => contents db other = contents db block) (contents db block) where
  account := by
    intro address other answer after same read
    have result : other.readAccount db address = (answer, after) := Except.ok.inj read
    have shown := readAccount_shows db other address
    rw [result] at shown
    exact ⟨shown.1.trans (by rw [same]), shown.2.trans same⟩
  storage := by
    intro address incarnation key other answer after same read
    obtain ⟨answered, kept⟩ := readStorage_shows read
    exact ⟨answered.trans (by rw [same]), kept.trans same⟩

end BlockState

abbrev Originals : Type := Map Address OriginalAccountState

variable (contents : Contents) (originals : Originals) (address : Address)

def origin : AccountState :=
  match originals.lookup address with
  | some original => original.toAccountState
  | none => { account := contents.accounts address }

def originSlot (incarnation : Incarnation) (key : Key) : Value :=
  ((origin contents originals address).storage.lookup key).getD
    (contents.slots address incarnation key)

/-- The value of a slot in a state of the account, as `get_storage` finds it: nothing without an
account. -/
def slotIn (state : AccountState) (key : Key) : Option Value :=
  state.account.map fun account =>
    (state.storage.lookup key).getD
      (if (origin contents originals address).account.map (·.incarnation) ≠
          some account.incarnation then 0
        else originSlot contents originals address account.incarnation key)

/-- The originals have only grown: the accounts are the same, and of the settled accounts the
slots that were filled in are those that were to be read. -/
def Grown (settled : Address → Prop) (start now : Originals) : Prop :=
  ∀ address, ∃ cache,
    origin contents now address = { origin contents start address with storage := cache } ∧
    (settled address → ∀ account, (origin contents start address).account = some account →
      ∀ key, (cache.lookup key).getD (contents.slots address account.incarnation key) =
        originSlot contents start address account.incarnation key)

section Grown

variable {contents : Contents} {settled : Address → Prop} {start now : Originals}
  {address : Address}

theorem Grown.refl (originals : Originals) : Grown contents settled originals originals :=
  fun address => ⟨(origin contents originals address).storage, rfl, fun _ _ _ _ => rfl⟩

section

variable (grown : Grown contents settled start now)

include grown

theorem Grown.account (address : Address) :
    (origin contents now address).account = (origin contents start address).account := by
  obtain ⟨cache, same, _⟩ := grown address
  rw [same]

theorem Grown.of_origin_eq {other : Originals}
    (same : ∀ address, origin contents other address = origin contents now address) :
    Grown contents settled start other := by
  intro address
  rw [same address]
  exact grown address

theorem Grown.originSlot_eq (known : settled address)
    {account : Account} (there : (origin contents start address).account = some account)
    (key : Key) : originSlot contents now address account.incarnation key =
      originSlot contents start address account.incarnation key := by
  obtain ⟨cache, same, filled⟩ := grown address
  have slot := filled known account there key
  rw [← slot]
  unfold originSlot
  rw [same]

theorem Grown.slotIn_eq (known : settled address) (state : AccountState) (key : Key) :
    slotIn contents now address state key = slotIn contents start address state key := by
  unfold slotIn
  rw [grown.account address]
  cases here : state.account with
  | none => rfl
  | some account =>
    simp only [map_some]
    congr 2
    by_cases same : (origin contents start address).account.map (·.incarnation) =
        some account.incarnation
    · rw [if_neg (not_not_intro same), if_neg (not_not_intro same)]
      obtain ⟨original, there, incarnation⟩ := map_eq_some_iff.mp same
      rw [← incarnation]
      exact grown.originSlot_eq known there key
    · rw [if_pos same, if_pos same]

end

theorem slotIn_origin (originals : Originals) (key : Key) :
    slotIn contents originals address (origin contents originals address) key =
      (origin contents originals address).account.map fun account =>
        originSlot contents originals address account.incarnation key := by
  unfold slotIn originSlot
  cases here : (origin contents originals address).account with
  | none => rfl
  | some account =>
    simp only [map_some, ne_eq, not_true_eq_false, if_false]
    cases (origin contents originals address).storage.lookup key <;> rfl

theorem Grown.slotIn_origin_eq (grown : Grown contents settled start now)
    (known : settled address) (key : Key) :
    slotIn contents now address (origin contents now address) key =
      slotIn contents start address (origin contents start address) key := by
  rw [slotIn_origin, slotIn_origin, grown.account address]
  cases there : (origin contents start address).account with
  | none => rfl
  | some account =>
    simp only [map_some]
    rw [grown.originSlot_eq known there key]

end Grown

section Reading

variable {J W : Type} {world : World W} {good : W → Prop} {contents : Contents}
  {settled : Address → Prop} {start : Originals} {state after : StateOver J W} {address : Address}

structure Remembering (good : W → Prop) (contents : Contents) (settled : Address → Prop)
    (start : Originals) (state : StateOver J W) : Prop where
  grown : Grown contents settled start state.original
  good : good state.world

theorem origin_insert_of_eq {originals : Originals}
    (same : original.toAccountState = origin contents originals address) (other : Address) :
    origin contents (originals.insert address original) other =
      origin contents originals other := by
  grind [origin, lookup_insert_ite]

def SameJournal (state after : StateOver J W) : Prop :=
  after.journal = state.journal ∧ after.code = state.code

section

variable (remembering : Remembering good contents settled start state)

include remembering

theorem Remembering.readOriginal (shows : world.Shows good contents)
    (read : state.readOriginal world address = .ok (original, after)) :
    Remembering good contents settled start after ∧ SameJournal state after ∧
      original.toAccountState = origin contents after.original address := by
  rcases readOriginal_ok read with
    ⟨found, rfl⟩ | ⟨absent, account, block, asked, rfl, rfl⟩
  · exact ⟨remembering, ⟨rfl, rfl⟩, by simp [origin, found]⟩
  · obtain ⟨rfl, kept⟩ := shows.account remembering.good asked
    refine ⟨⟨remembering.grown.of_origin_eq (origin_insert_of_eq ?_), kept⟩, ⟨rfl, rfl⟩, ?_⟩
    · simp [origin, absent]
    · simp [origin]

theorem Remembering.updateOriginal
    {change : OriginalAccountState → Except String OriginalAccountState} {answer : Unit}
    (same : ∀ original changed, change original = .ok changed →
      changed.toAccountState = original.toAccountState)
    (ran : state.updateOriginal address change = .ok (answer, after)) :
    Remembering good contents settled start after ∧ SameJournal state after := by
  obtain ⟨original, changed, found, applied, rfl⟩ := updateOriginal_ok ran
  refine ⟨⟨remembering.grown.of_origin_eq (origin_insert_of_eq ?_), remembering.good⟩, ⟨rfl, rfl⟩⟩
  rw [same original changed applied]
  simp [origin, found]

/-- A slot that is remembered is one that was to be read, if it is the same under the
incarnation that is asked for. -/
theorem Remembering.readOriginalStorage (shows : world.Shows good contents)
    (faithful : settled address → ∀ account,
      (origin contents start address).account = some account →
      contents.slots address incarnation key = contents.slots address account.incarnation key)
    (read : state.readOriginalStorage world address incarnation key = .ok (value, after)) :
    Remembering good contents settled start after ∧ SameJournal state after ∧
      value = originSlot contents state.original address incarnation key := by
  obtain ⟨original, found, ⟨cached, rfl⟩ | ⟨unread, block, asked, rfl⟩⟩ :=
    readOriginalStorage_ok read
  · exact ⟨remembering, ⟨rfl, rfl⟩, by simp [originSlot, origin, found, cached]⟩
  · obtain ⟨rfl, kept⟩ := shows.storage remembering.good asked
    refine ⟨⟨fun other => ?_, kept⟩, ⟨rfl, rfl⟩, by simp [originSlot, origin, found, unread]⟩
    by_cases here : other = address
    · subst here
      obtain ⟨cache, same, filled⟩ := remembering.grown other
      have before : original.toAccountState =
          { origin contents start other with storage := cache } := by
        rw [← same]
        simp [origin, found]
      have cached : original.storage = cache := by rw [before]
      refine ⟨cache.insert key (contents.slots other incarnation key), ?_, ?_⟩
      · rw [origin, lookup_insert, before]
      · intro settledHere account there under
        by_cases slot : under = key
        · subst slot
          rw [lookup_insert, getD_some, faithful settledHere account there,
            ← filled settledHere account there under, ← cached, unread, getD_none]
        · rw [lookup_insert_ne slot]
          exact filled settledHere account there under
    · obtain ⟨cache, same, filled⟩ := remembering.grown other
      refine ⟨cache, ?_, filled⟩
      rw [← same]
      unfold origin
      rw [lookup_insert_ne here]

end

end Reading

abbrev Reference (W : Type) : Type := StateOver CopyJournal W

/-- How a query uses the members of `State`: it changes nothing of the journal, which holds the
recent states, and reads storage under the incarnation of the original. -/
def querying (recents : Address → Option AccountState) (accounts : Address → Option Account) :
    Program.Contract accesses where
  allowed
    | .originalStorage address incarnation _ =>
      (accounts address).map (·.incarnation) = some incarnation
    | .setOriginalNonce _ _ | .putCode _ _ => False
    | .journal (.recent _) | .journal .logs => True
    | .journal _ => False
    | _ => True
  possible
    | .original address => fun original => original.account = accounts address
    | .findOriginal address => fun answer => ∀ original, answer = some original →
        original.account = accounts address
    | .journal (.recent address) => fun answer => answer = recents address
    | _ => fun _ => True

section Queries

variable {config : Config} {recents : Address → Option AccountState}
  {accounts : Address → Option Account} (address : Address)

def accountIn (recents : Address → Option AccountState) (accounts : Address → Option Account)
    (address : Address) : Option Account :=
  ((recents address).map (·.account)).getD (accounts address)

abbrev Method.Queries {α : Type} (recents : Address → Option AccountState)
    (accounts : Address → Option Account) (post : α → Prop) (method : Method α) : Prop :=
  method.Follows (querying recents accounts) post

theorem queries_recentAccountState :
    (State.recentAccountState address).Queries recents accounts
      fun state => state.account = accountIn recents accounts address := by
  refine .perform trivial fun answer possible => ?_
  have recent : answer = recents address := possible
  unfold accountIn
  rw [← recent]
  cases answer with
  | some state => exact rfl
  | none => exact ⟨trivial, fun original read => read⟩

theorem queries_recentAccount :
    (State.recentAccount address).Queries recents accounts
      fun account => account = accountIn recents accounts address :=
  (queries_recentAccountState address).bind fun _ read => read

theorem queries_getNonce :
    (State.getNonce address).Queries recents accounts fun nonce =>
      nonce = ((accountIn recents accounts address).map (·.nonce)).getD 0 := by
  refine (queries_recentAccount address).bind fun account read => ?_
  subst read
  exact rfl

theorem queries_getStorage (key : Key) :
    (State.getStorage address key).Queries recents accounts fun _ => True := by
  refine .perform trivial fun answer _ => ?_
  cases answer with
  | none =>
    refine .perform trivial fun found read => ?_
    cases found with
    | none => trivial
    | some original =>
      dsimp only
      cases there : original.account with
      | none => trivial
      | some account =>
        have under := congrArg (Option.map Account.incarnation) (read original rfl)
        rw [there] at under
        exact ⟨under.symm, fun _ _ => trivial⟩
  | some state =>
    dsimp only
    cases state.account with
    | none => trivial
    | some account =>
      cases state.storage.lookup key with
      | some value => trivial
      | none =>
        refine .perform trivial fun found read => ?_
        cases found with
        | none => trivial
        | some original =>
          dsimp only
          split
          · trivial
          · next same =>
            have under := congrArg (Option.map Account.incarnation) (read original rfl)
            exact ⟨under.symm.trans (not_not.mp same), fun _ _ => trivial⟩

theorem queries_blockCode (hash : Hash) :
    (State.blockCode config hash).Queries recents accounts fun _ => True := by
  unfold State.blockCode
  split <;> trivial

theorem queries_readCode (hash : Hash) :
    (State.readCode config hash).Queries recents accounts fun _ => True := by
  refine .perform trivial fun found _ => ?_
  cases found with
  | some code => trivial
  | none => exact queries_blockCode hash

theorem queries_recordBalanceConstraintForDebit (debit : Nat) :
    (State.recordBalanceConstraintForDebit address debit).Queries recents accounts fun enough =>
      enough = decide (debit ≤ ((accountIn recents accounts address).map (·.balance)).getD 0) := by
  refine (queries_recentAccount address).bind fun account read => ?_
  subst read
  refine .perform trivial fun original _ => ?_
  dsimp only
  split
  · next covered =>
    split
    · exact ⟨trivial, fun _ _ => (decide_eq_true covered).symm⟩
    · exact (decide_eq_true covered).symm
  · next short => exact ⟨trivial, fun _ _ => (decide_eq_false short).symm⟩

theorem queries_method (op : Op) (query : op.Query) :
    (op.method config).Queries recents accounts fun _ => True := by
  cases op with
  | accountExists address | accountIsDead address | getCodeHash address =>
    exact (queries_recentAccount address).bind fun _ _ => trivial
  | accountHasCodeOrNonce address | isCurrentIncarnation address =>
    refine (queries_recentAccount address).bind fun answer _ => ?_
    cases answer <;> trivial
  | getNonce address => exact (queries_getNonce address).weaken fun _ _ => trivial
  | getBalance address =>
    exact (queries_recentAccount address).bind fun _ _ =>
      ⟨trivial, fun _ _ => ⟨trivial, fun _ _ => trivial⟩⟩
  | getOriginalBalance address => exact ⟨trivial, fun _ _ => ⟨trivial, fun _ _ => trivial⟩⟩
  | isDestructed address | getTransientStorage address key =>
    exact (queries_recentAccountState address).bind fun _ _ => trivial
  | getStorage address key => exact queries_getStorage address key
  | isTouched address | logs => exact ⟨trivial, fun _ _ => trivial⟩
  | readCode hash => exact queries_readCode hash
  | getCode address =>
    refine (queries_recentAccount address).bind fun answer _ => ?_
    cases answer with
    | none => exact queries_blockCode nullHash
    | some account => exact queries_readCode account.codeHash
  | getCodeSize address | copyCode address offset size =>
    refine (queries_recentAccount address).bind fun answer _ => ?_
    cases answer with
    | none => trivial
    | some account => exact (queries_readCode account.codeHash).bind fun _ _ => trivial
  | recordBalanceConstraintForDebit address debit =>
    exact (queries_recordBalanceConstraintForDebit address debit).weaken fun _ _ => trivial
  | _ => exact query.elim

end Queries

section Honours

variable {W : Type} {config : Config} {world : World W} {good : W → Prop} {contents : Contents}
  {settled : Address → Prop} {start : Originals}

theorem raiseMinBalance_state {value : Nat} (original changed : OriginalAccountState)
    (raised : original.raiseMinBalance value = .ok changed) :
    changed.toAccountState = original.toAccountState := by
  obtain ⟨_, _, _, rfl⟩ := OriginalAccountState.raiseMinBalance_ok raised
  rfl

theorem demandExactBalance_state (original changed : OriginalAccountState)
    (made : (Except.ok original.demandExactBalance : Except String _) = .ok changed) :
    changed.toAccountState = original.toAccountState := by
  cases made
  rfl

def Access.Faithful (contents : Contents) (settled : Address → Prop) (start : Originals) :
    Access → Prop
  | .originalStorage address incarnation key => settled address → ∀ account,
      (origin contents start address).account = some account →
      contents.slots address incarnation key = contents.slots address account.incarnation key
  | .setOriginalNonce _ _ | .journal _ => False
  | _ => True

def Access.Original (contents : Contents) (start : Originals) :
    (action : Access) → action.Answer → Prop
  | .original address => fun original =>
    original.account = (origin contents start address).account
  | .findOriginal address => fun answer => ∀ original, answer = some original →
      original.account = (origin contents start address).account
  | _ => fun _ => True

section

variable (shows : world.Shows good contents)

include shows

theorem Remembering.access {J : Type} {journal : Program.Handler journalActions J}
    {state after : StateOver J W} (remembering : Remembering good contents settled start state)
    {action : Access} {answer : action.Answer} (faithful : action.Faithful contents settled start)
    (ran : handler journal world action state = .ok (answer, after)) :
    Remembering good contents settled start after ∧ after.journal = state.journal ∧
      ((∀ hash code, action ≠ .putCode hash code) → after.code = state.code) ∧
      action.Original contents start answer := by
  cases action with
  | original address =>
    obtain ⟨kept, same, read⟩ := remembering.readOriginal shows ran
    refine ⟨kept, same.1, fun _ => same.2, ?_⟩
    exact (congrArg _ read).trans (kept.grown.account address)
  | findOriginal address =>
    cases ran
    refine ⟨remembering, rfl, fun _ => rfl, fun original found => ?_⟩
    have known := remembering.grown.account address
    rw [origin, found] at known
    exact known
  | originalStorage address incarnation key =>
    obtain ⟨kept, same, _⟩ := remembering.readOriginalStorage shows faithful ran
    exact ⟨kept, same.1, fun _ => same.2, trivial⟩
  | setValidateExactBalance address =>
    obtain ⟨kept, same⟩ := remembering.updateOriginal demandExactBalance_state ran
    exact ⟨kept, same.1, fun _ => same.2, trivial⟩
  | setMinBalance address value =>
    obtain ⟨kept, same⟩ := remembering.updateOriginal raiseMinBalance_state ran
    exact ⟨kept, same.1, fun _ => same.2, trivial⟩
  | setOriginalNonce address nonce | journal action => exact faithful.elim
  | findCode hash =>
    cases ran
    exact ⟨remembering, rfl, fun _ => rfl, trivial⟩
  | putCode hash code =>
    cases ran
    exact ⟨⟨remembering.grown, remembering.good⟩, rfl, fun other => absurd rfl (other hash code),
      trivial⟩

theorem honours_querying (before : Reference W) : Program.Honours
      (querying (fun address => before.journal.now.accounts.lookup address)
        fun address => (origin contents start address).account) (fun state : Reference W =>
        Remembering good contents settled start state ∧ SameJournal before state)
      (handler CopyJournal.handler world) := by
  intro action state answer after allowed holds ran
  obtain ⟨remembering, journal, code⟩ := holds
  -- Everything but the journal remembers; of the journal a query only reads.
  have remember : action.Faithful contents settled start →
      (∀ hash code, action ≠ .putCode hash code) →
      (Remembering good contents settled start after ∧ SameJournal before after) ∧
        action.Original contents start answer := by
    intro faithful other
    obtain ⟨kept, same, codes, answered⟩ := remembering.access shows faithful ran
    exact ⟨⟨kept, same.trans journal, (codes other).trans code⟩, answered⟩
  cases action with
  | original address | findOriginal address => exact (remember trivial (fun _ _ => nofun)).symm
  | originalStorage address incarnation key =>
    refine ⟨trivial, (remember (fun _ account there => ?_) (fun _ _ => nofun)).1⟩
    have under : (origin contents start address).account.map (·.incarnation) =
        some incarnation := allowed
    rw [there] at under
    rw [← some.inj under]
  | setValidateExactBalance address | setMinBalance address value | findCode hash =>
    exact ⟨trivial, (remember trivial (fun _ _ => nofun)).1⟩
  | setOriginalNonce address nonce | putCode hash code => exact allowed.elim
  | journal action =>
    cases action with
    | recent address =>
      cases ran
      refine ⟨?_, remembering, journal, code⟩
      exact congrArg (fun held => held.now.accounts.lookup address) journal
    | logs =>
      cases ran
      exact ⟨trivial, remembering, journal, code⟩
    | _ => exact allowed.elim

theorem query_remembers {op : Op} (query : op.Query) {state after : Reference W}
    {answer : op.Answer} (remembering : Remembering good contents settled start state)
    (ran : interface config CopyJournal.handler world op state = .ok (answer, after)) :
    Remembering good contents settled start after ∧ SameJournal state after :=
  ((queries_method op query).run (honours_querying shows state)
    ⟨remembering, rfl, rfl⟩ ran).2

end

end Honours

def seenIn (contents : Contents) (originals : Originals) (copy : Copy) (address : Address) :
    AccountState :=
  (copy.accounts.lookup address).getD (origin contents originals address)

namespace TxState

def seen (db : Db) (state : TxState BlockState) (address : Address) : AccountState :=
  ((state.journal.current.lookup address).map (·.recent)).getD
    (origin (BlockState.contents db state.world) state.original address)

def slot (db : Db) (state : TxState BlockState) (address : Address) (key : Key) : Option Value :=
  slotIn (BlockState.contents db state.world) state.original address (state.seen db address) key

end TxState

theorem run_on_copies {W α : Type} {config : Config} {world : World W}
    {program : Program operations α} {before after : TxState W} {copies : CopyJournal} {value : α}
    (refines : Refines before.journal copies)
    (ran : program.run (interface config VersionJournal.handler world) before =
      .ok (value, after)) :
    ∃ image : Reference W,
      program.run (interface config CopyJournal.handler world)
        { before with journal := copies } = .ok (value, image) ∧
      StateOver.OverJournals Refines after image := by
  have simulates := (simulates_journals world versions_simulate_copies).expand
    (E := operations) (Op.method config)
  have start : StateOver.OverJournals Refines before
      ({ before with journal := copies } : Reference W) := ⟨rfl, rfl, rfl, refines⟩
  rcases (simulates.run program start).cases with
    ⟨reason, failed, _⟩ | ⟨_, _, image, one, copied, related⟩
  · cases ran.symm.trans failed
  · cases ran.symm.trans one
    exact ⟨image, copied, related⟩

theorem TxState.seen_eq {state : TxState BlockState} {image : Reference BlockState}
    (related : StateOver.OverJournals Refines state image) (address : Address) :
    state.seen db address = seenIn (BlockState.contents db state.world) image.original
      image.journal.now address := by
  obtain ⟨original, _, _, refines⟩ := related
  unfold TxState.seen seenIn
  rw [refines.lookup, original]

theorem Refines.logs {journal : VersionJournal} {image : CopyJournal}
    (refines : Refines journal image) : journal.logs.recent = image.now.logs :=
  some.inj ((VersionStack.view_top refines.sound.logged.top).symm.trans refines.top.2)

end MonadChain.Execution
