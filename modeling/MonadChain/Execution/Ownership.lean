import MonadChain.Execution.MessageFrames

/-!
Accounts with storage. The storage of an account is found under its incarnation, and a contract is
made anew, with another incarnation, only where there is neither code nor nonce. So an account
with storage and one of them keeps its incarnation in every frame.
-/

namespace MonadChain.Execution

variable {state : AccountState} {account : Account} {op : Op}

section

variable (contents : Contents) (originals : Originals) (recent : Address → Option AccountState)
  (address : Address)

/-- The storage of the account is not the same under all incarnations. -/
def HasStorage : Prop :=
  ∃ original, (origin contents originals address).account = some original ∧
    ∃ incarnation key, contents.slots address incarnation key ≠
      contents.slots address original.incarnation key

def Owned (state : AccountState) : Prop :=
  ∃ account original, state.account = some account ∧
    (origin contents originals address).account = some original ∧
    account.incarnation = original.incarnation ∧
    (account.nonce ≠ 0 ∨ account.codeHash ≠ nullHash)

/-- If the account has storage, it is owned, before the transaction and now. -/
def StorageOwned : Prop :=
  HasStorage contents originals address →
    Owned contents originals address (origin contents originals address) ∧
    ∀ state, recent address = some state → Owned contents originals address state

def Guarded : Prop :=
  HasStorage contents originals address ∧ StorageOwned contents originals recent address

def StaysOwned (state : AccountState) : Prop :=
  Guarded contents originals recent address → Owned contents originals address state

end

section Tracking

variable {contents : Contents} {originals : Originals} {recent : Address → Option AccountState}
  {config : Config} {address : Address}

theorem StaysOwned.map {other : AccountState}
    (stays : StaysOwned contents originals recent address state)
    (change : ∀ account, state.account = some account → ∃ changed,
      other.account = some changed ∧ changed.incarnation = account.incarnation ∧
      (account.nonce ≠ 0 ∨ account.codeHash ≠ nullHash →
        changed.nonce ≠ 0 ∨ changed.codeHash ≠ nullHash)) :
    StaysOwned contents originals recent address other := by
  intro guarded
  obtain ⟨account, original, there, read, incarnation, marked⟩ := stays guarded
  obtain ⟨changed, made, same, kept⟩ := change account there
  exact ⟨changed, original, made, read, same.trans incarnation, kept marked⟩

theorem create_of_some
    (there : state.account = some account) : (state.create config).account = some account := by
  simp [AccountState.create, there]

theorem staysOwned_setNonce {nonce : Nat} (set : nonce ≠ 0) :
    (Op.setNonce address nonce).Keeps config (StaysOwned contents originals recent) := by
  intro state stays
  refine stays.map fun account there =>
    ⟨{ account with nonce := nonce }, ?_, rfl, fun _ => .inl set⟩
  rw [AccountState.withNonce, create_of_some there]
  rfl

end Tracking

section Copies

variable {W : Type} {config : Config} {world : World W} {goodWorld : W → Prop}
  {contents : Contents} {start : Reference W}

abbrev Reference.recent (start : Reference W) (address : Address) : Option AccountState :=
  start.journal.now.accounts.lookup address

def OwnedCopy (contents : Contents) (start : Reference W) (copy : Copy) : Prop :=
  ∀ address state, copy.accounts.lookup address = some state →
    StaysOwned contents start.original start.recent address state

theorem OwnedCopy.write {journal : CopyJournal} (owned : OwnedCopy contents start journal.now)
    {address : Address} (stays : StaysOwned contents start.original start.recent address state) :
    OwnedCopy contents start (journal.write address state).now := by
  intro other found there
  grind [CopyJournal.write, lookup_insert_ite, owned other found]

theorem Op.Calm.keeps (calm : op.Calm) {property : Address → AccountState → Prop} :
    op.Keeps config property ∧ op.Frames JournalAction.Single := by
  cases op <;> first | exact ⟨trivial, trivial⟩ | exact calm.elim

theorem Op.Change.keeps (change : op.Change) :
    op.Keeps config (StaysOwned contents start.original start.recent) ∧
      op.Frames JournalAction.Single := by
  cases op <;> first
    | exact ⟨trivial, trivial⟩
    | exact ⟨staysOwned_setNonce change, trivial⟩
    | exact change.elim

end Copies

end MonadChain.Execution
