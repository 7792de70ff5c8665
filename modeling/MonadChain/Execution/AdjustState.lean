import MonadChain.Execution.Adjust

/-!
The two runs side by side, access by access. `recentOf` is the account as the next operation of
the first run sees it, so that the conditions on an operation can be stated before it runs.
-/

namespace MonadChain.Execution

open Program StateOver AList

variable {W : Type} {address : Address}

/-- The account that an operation works on; one that was not read yet will be. -/
def TxState.recentOf (first : Address → Option (Option Account)) (state : TxState Script)
    (address : Address) : Option Account :=
  match state.journal.currentOf address, state.original.lookup address with
  | some current, _ => current.account
  | none, some original => original.account
  | none, none => (first address).getD none

structure Sight where
  account : Address → Option Account
  current : Address → Option AccountState

def TxState.sight (first : Address → Option (Option Account)) (state : TxState Script) : Sight where
  account := state.recentOf first
  current := state.journal.currentOf

theorem TxState.sight_current {first : Address → Option (Option Account)} {state : TxState Script}
    {current : AccountState} (there : (state.sight first).current address = some current) :
    (state.sight first).account address = current.account := by
  have found : state.journal.currentOf address = some current := there
  simp only [TxState.sight, TxState.recentOf, found]

structure Alike (adjust : Adjustment) (world : World W) (alike : Script → W → Prop) : Prop where
  account : ∀ address script other answer after known, alike script other →
    Script.world.readAccount address script = .ok (answer, after) →
    adjust.first address = some known → ∃ replayed, world.readAccount address other =
      .ok (known.map (adjust.shiftAccount address), replayed) ∧ alike after replayed
  storage : ∀ address incarnation key script other answer after, alike script other →
    Script.world.readStorage address incarnation key script = .ok (answer, after) →
    ∃ replayed, world.readStorage address incarnation key other = .ok (answer, replayed) ∧
      alike after replayed

structure Moved (adjust : Adjustment) (alike : Script → W → Prop)
    (state : TxState Script) (image : TxState W) : Prop where
  code : image.code = state.code
  alike : alike state.world image.world
  unread : ∀ address, state.original.lookup address = none → image.original.lookup address = none
  originals : ∀ address original, state.original.lookup address = some original →
    ∃ other, image.original.lookup address = some other ∧
      other.toAccountState = adjust.shiftState address original.toAccountState ∧
      original.destructed = false
  journal : JournalMoved adjust state.journal image.journal

def Adjustment.Ahead (adjust : Adjustment) (state : TxState Script) : Prop :=
  ∀ address original, state.original.lookup address = some original →
    adjust.first address = some original.account ∧
    (original.validateExactBalance = true → adjust.exact address) ∧
      original.minBalance ≤ adjust.floor address

def Grows (original later : OriginalAccountState) : Prop :=
  later.account = original.account ∧
  (original.validateExactBalance = true → later.validateExactBalance = true) ∧
    original.minBalance ≤ later.minBalance

theorem Grows.refl (original : OriginalAccountState) : Grows original original :=
  ⟨rfl, id, Nat.le_refl _⟩

/-- The first run, as far as it does not write to what it has read. -/
def keepingHandler : Handler accesses (TxState Script)
  | .setOriginalNonce _ _, _ => .error "set_original_nonce"
  | action, state => handler VersionJournal.handler Script.world action state

theorem keepingHandler_ok {action : Access} {answer : action.Answer} {state after : TxState Script}
    (ran : keepingHandler action state = .ok (answer, after)) :
    handler VersionJournal.handler Script.world action state = .ok (answer, after) := by
  cases action with
  | setOriginalNonce address nonce => cases ran
  | _ => exact ran

theorem grows_insert {originals : Map Address OriginalAccountState} {place address : Address}
    {original changed : OriginalAccountState}
    (grows : ∀ before, originals.lookup place = some before → Grows before changed)
    (found : originals.lookup address = some original) :
    ∃ later, (originals.insert place changed).lookup address = some later ∧
      Grows original later := by
  grind [lookup_insert_ite, Grows.refl]

theorem demands_grow (action : Access) (state after : TxState Script) (answer : action.Answer)
    (ran : keepingHandler action state = .ok (answer, after)) :
    ∀ address original, state.original.lookup address = some original →
      ∃ later, after.original.lookup address = some later ∧ Grows original later := by
  intro address original found
  have updated : ∀ place change, (∀ before changed, change before = .ok changed →
      Grows before changed) → state.updateOriginal place change = .ok ((), after) →
      ∃ later, after.original.lookup address = some later ∧ Grows original later := by
    intro place change grows result
    obtain ⟨before, changed, there, applied, rfl⟩ := updateOriginal_ok result
    refine grows_insert (fun other known => ?_) found
    cases there.symm.trans known
    exact grows before changed applied
  cases action with
  | original place =>
    rcases readOriginal_ok ran with ⟨_, rfl⟩ | ⟨absent, _, _, _, _, rfl⟩
    · exact ⟨original, found, .refl _⟩
    · exact grows_insert (fun before known => nomatch absent.symm.trans known) found
  | originalStorage place incarnation key =>
    obtain ⟨before, there, ⟨_, rfl⟩ | ⟨_, _, _, rfl⟩⟩ := readOriginalStorage_ok ran
    · exact ⟨original, found, .refl _⟩
    · refine grows_insert (fun other known => ?_) found
      cases there.symm.trans known
      exact ⟨rfl, id, Nat.le_refl _⟩
  | setValidateExactBalance place =>
    refine updated place (fun original => .ok original.demandExactBalance) ?_ ran
    intro before changed applied
    cases applied
    exact ⟨rfl, fun _ => rfl, Nat.le_refl _⟩
  | setMinBalance place value =>
    refine updated place (·.raiseMinBalance value) (fun before changed raised => ?_) ran
    obtain ⟨_, _, _, rfl⟩ := OriginalAccountState.raiseMinBalance_ok raised
    exact ⟨rfl, id, Nat.le_max_left _ _⟩
  | setOriginalNonce place nonce => cases ran
  | journal action =>
    obtain ⟨_, _, rfl⟩ := handler_journal_ok (keepingHandler_ok ran)
    exact ⟨original, found, .refl _⟩
  | _ =>
    cases ran
    exact ⟨original, found, .refl _⟩

/-- The two runs: a transaction on its script, and again on a world that is alike. -/
def sides (adjust : Adjustment) (world : World W) : Sides accesses (TxState Script) (TxState W)
    where
  first := keepingHandler
  second := StateOver.handler VersionJournal.handler world
  ahead := adjust.Ahead
  back := by
    intro action state answer after ran ahead address original found
    obtain ⟨later, kept, same, exact_, floor⟩ :=
      demands_grow action state after answer ran address original found
    obtain ⟨first, demanded, least⟩ := ahead address later kept
    exact ⟨same ▸ first, fun on => demanded (exact_ on), Nat.le_trans floor least⟩

section Accesses

variable {adjust : Adjustment} {alike : Script → W → Prop} {world : World W}
  {state : TxState Script} {image : TxState W}

def MovedAt (adjust : Adjustment) (alike : Script → W → Prop)
    (seen : Sight) (state : TxState Script) (image : TxState W) : Prop :=
  Moved adjust alike state image ∧ state.sight adjust.first = seen

/-- The method keeps the runs side by side: what the first run returns, the second one does. -/
abbrev Alongside (adjust : Adjustment) (world : World W)
    (alike : Script → W → Prop) (seen : Sight) {α : Type} (method : Method α)
    (post : α → α → TxState Script → TxState W → Prop) : Prop :=
  Coupled (sides adjust world) (MovedAt adjust alike seen) method method post

structure Shown (adjust : Adjustment) (address : Address)
    (state other : AccountState) : Prop where
  moved : other = adjust.shiftState address state
  covered : adjust.Covered address state

theorem Shown.accounts {state other : AccountState} (shown : Shown adjust address state other) :
    other.account = state.account.map (adjust.shiftAccount address) :=
  congrArg AccountState.account shown.moved

theorem covered_original (valid : adjust.Valid) {state : AccountState}
    (first : adjust.first address = some state.account)
    (standing : state.destructed = false) : adjust.Covered address state := by
  intro account loose
  obtain ⟨inexact, read, alive⟩ := loose
  rw [first] at read
  refine ⟨account, Option.some.inj read, Nat.le_add_right _ _, ?_, standing, ?_⟩
  · by_cases marked : account.Marked
    · exact Or.inl marked
    · exact Or.inr ⟨marked, Nat.le_refl _⟩
  · intro moved
    obtain ⟨known, balance, ⟨_, same, _⟩, sum, _, small, _⟩ := valid.loose address moved
    rw [first, read] at same
    cases same
    omega

theorem Moved.original (moved : Moved adjust alike state image) (valid : adjust.Valid)
    (ends : adjust.Ahead state) {original other : OriginalAccountState}
    (found : state.original.lookup address = some original)
    (there : image.original.lookup address = some other) :
    Shown adjust address original.toAccountState other.toAccountState := by
  obtain ⟨kept, shown, same, standing⟩ := moved.originals address original found
  rw [there] at shown
  cases shown
  exact ⟨same, covered_original valid (ends address original found).1 standing⟩

theorem Moved.insert (moved : Moved adjust alike state image) (changed also : OriginalAccountState)
    {script : Script} {block : W} (still : alike script block)
    (same : also.toAccountState = adjust.shiftState address changed.toAccountState)
    (standing : changed.destructed = false) :
    Moved adjust alike
      { state with original := state.original.insert address changed, world := script }
      { image with original := image.original.insert address also, world := block } := by
  refine ⟨moved.code, still, fun place absent => ?_, fun place known there => ?_, moved.journal⟩
  · grind [lookup_insert_ite, moved.unread place]
  · have before := moved.originals place known
    grind [lookup_insert_ite]

theorem coupled_original (valid : adjust.Valid) (answers : Alike adjust world alike)
    (seen : Sight) (address : Address) :
    Alongside adjust world alike seen (State.originalAccountState address)
      fun original other state image => MovedAt adjust alike seen state image ∧
        Shown adjust address original.toAccountState other.toAccountState ∧
        adjust.first address = some original.account ∧
        state.original.lookup address = some original := by
  refine Coupled.perform ?_
  intro state image original after start ran ends
  obtain ⟨moved, sees⟩ := start
  simp only [sides, handler, readOriginal]
  rcases readOriginal_ok ran with ⟨found, rfl⟩ | ⟨absent, answer, script, asked, rfl, rfl⟩
  · obtain ⟨other, there, _⟩ := moved.originals address _ found
    rw [there]
    exact ⟨other, image, rfl, ⟨moved, sees⟩, moved.original valid ends found there,
      (ends address original found).1, found⟩
  · have whole : adjust.first address = some answer := (ends address _ (lookup_insert _)).1
    obtain ⟨replayed, again, still⟩ := answers.account address state.world image.world answer
      script answer moved.alike asked whole
    rw [moved.unread address absent]
    rw [again]
    have next := moved.insert { account := answer }
      { account := answer.map (adjust.shiftAccount address) } still rfl rfl
    refine ⟨_, _, rfl, ⟨next, ?_⟩, next.original valid ends (lookup_insert _)
      (lookup_insert _), whole, lookup_insert _⟩
    refine Eq.trans ?_ sees
    simp only [TxState.sight, Sight.mk.injEq, and_true]
    funext place
    grind [TxState.recentOf, lookup_insert_ite]

theorem Moved.update (moved : Moved adjust alike state image)
    {original other : OriginalAccountState} (changed also : OriginalAccountState)
    (found : state.original.lookup address = some original)
    (there : image.original.lookup address = some other)
    (same : changed.toAccountState = original.toAccountState)
    (equal : also.toAccountState = other.toAccountState) :
    Moved adjust alike
      { state with original := state.original.insert address changed }
      { image with original := image.original.insert address also } := by
  obtain ⟨known, shown, shifted, standing⟩ := moved.originals address original found
  rw [there] at shown
  cases shown
  refine moved.insert changed also moved.alike ?_ ?_
  · rw [equal, same, shifted]
  · rw [same]
    exact standing

theorem sight_update {first : Address → Option (Option Account)}
    {original changed : OriginalAccountState}
    {after : TxState Script} (originals : after.original = state.original.insert address changed)
    (journal : after.journal = state.journal)
    (found : state.original.lookup address = some original)
    (same : changed.account = original.account) : after.sight first = state.sight first := by
  simp only [TxState.sight, journal, Sight.mk.injEq, and_true]
  funext place
  grind [TxState.recentOf, lookup_insert_ite]

theorem coupled_findOriginal (valid : adjust.Valid) (seen : Sight) (address : Address) :
    Alongside adjust world alike seen (State.access (.findOriginal address))
      fun found other state image => MovedAt adjust alike seen state image ∧
        (found = none ∨ ∃ original also, found = some original ∧ other = some also ∧
          Shown adjust address original.toAccountState also.toAccountState) := by
  refine Coupled.perform ?_
  intro state image answer after start ran ends
  cases ran
  refine ⟨_, image, rfl, start, ?_⟩
  cases found : state.original.lookup address with
  | none => exact Or.inl rfl
  | some original =>
    obtain ⟨also, there, _⟩ := start.1.originals address original found
    exact Or.inr ⟨original, also, rfl, there, start.1.original valid ends found there⟩

theorem coupled_originalStorage (answers : Alike adjust world alike) (seen : Sight)
    (incarnation : Incarnation) (key : Key) :
    Alongside adjust world alike seen (State.access (.originalStorage address incarnation key))
      fun value result state image => result = value ∧ MovedAt adjust alike seen state image := by
  refine Coupled.perform ?_
  intro state image value after start ran ends
  obtain ⟨moved, sees⟩ := start
  simp only [sides, handler, readOriginalStorage]
  obtain ⟨original, found, outcome⟩ := readOriginalStorage_ok ran
  obtain ⟨other, there, same, standing⟩ := moved.originals address original found
  have slots : other.storage = original.storage := by
    have storages := congrArg AccountState.storage same
    exact storages
  rw [there]
  dsimp only
  rw [slots]
  rcases outcome with ⟨cached, rfl⟩ | ⟨unread, script, asked, rfl⟩
  · rw [cached]
    exact ⟨_, image, rfl, rfl, moved, sees⟩
  · obtain ⟨replayed, again, still⟩ := answers.storage address incarnation key state.world
      image.world _ script moved.alike asked
    rw [unread]
    rw [again]
    refine ⟨_, _, rfl, rfl, ⟨moved.insert _ _ still ?_ standing, ?_⟩⟩
    · have rest := congrArg
        (fun state : AccountState =>
          ({ state with storage := state.storage.insert key value } : AccountState)) same
      exact (slots ▸ rest : _)
    · exact Eq.trans (sight_update rfl rfl found rfl) sees

theorem coupled_demandExactBalance (seen : Sight) (address : Address) :
    Alongside adjust world alike seen (State.access (.setValidateExactBalance address))
      fun _ _ state image => MovedAt adjust alike seen state image ∧ adjust.exact address := by
  refine Coupled.perform ?_
  intro state image answer after start ran ends
  obtain ⟨moved, sees⟩ := start
  simp only [sides, keepingHandler, handler] at ran
  obtain ⟨original, _, found, ⟨⟩, rfl⟩ := updateOriginal_ok ran
  obtain ⟨other, there, _⟩ := moved.originals address original found
  have next := moved.update original.demandExactBalance other.demandExactBalance found there
    rfl rfl
  refine ⟨(), _, ?_, ⟨next, ?_⟩, ?_⟩
  · simp only [sides, handler, updateOriginal, there]
  · exact Eq.trans (sight_update rfl rfl found rfl) sees
  · exact (ends address _ (lookup_insert _)).2.1 rfl

theorem coupled_setMinBalance (valid : adjust.Valid) (seen : Sight)
    (address : Address) (value : Nat) :
    Alongside adjust world alike seen (State.access (.setMinBalance address value))
      fun _ _ state image => MovedAt adjust alike seen state image ∧
        value ≤ adjust.floor address := by
  refine Coupled.perform ?_
  intro state image answer after start ran ends
  obtain ⟨moved, sees⟩ := start
  obtain ⟨original, changed, found, raised, rfl⟩ := updateOriginal_ok ran
  obtain ⟨known, account, enough, rfl⟩ := OriginalAccountState.raiseMinBalance_ok raised
  obtain ⟨other, there, same, standing⟩ := moved.originals address original found
  have least : value ≤ adjust.floor address :=
    Nat.le_trans (Nat.le_max_right _ _) (ends address _ (lookup_insert _)).2.2
  have also : other.account = some (adjust.shiftAccount address known) := by
    have accounts := congrArg AccountState.account same
    rw [accounts]
    simp [Adjustment.shiftState, account]
  have covers : ¬(adjust.shiftAccount address known).balance < value := by
    by_cases zero : adjust.shift address = 0
    · rw [Adjustment.shiftAccount_zero zero]
      exact Nat.not_lt.mpr enough
    · obtain ⟨first, balance, loose, sum, floor, _⟩ := valid.loose address zero
      have read := (ends address _ (lookup_insert _)).1
      rw [loose.2.1, account] at read
      cases read
      simp only [Adjustment.shiftAccount]
      omega
  have next := moved.update
    { original with minBalance := max original.minBalance value }
    { other with minBalance := max other.minBalance value } found there rfl rfl
  refine ⟨(), _, ?_, ⟨next, ?_⟩, least⟩
  · simp only [sides, handler, updateOriginal, there,
      OriginalAccountState.raiseMinBalance, also, if_neg covers]
  · exact Eq.trans (sight_update rfl rfl found rfl) sees

theorem coupled_journal (action other : JournalAction) (pre : TxState Script → Prop)
    (post : action.Answer → other.Answer → VersionJournal → VersionJournal → Prop)
    (one : ∀ state journal image answer after, pre state → state.journal = journal →
      JournalMoved adjust journal image →
      VersionJournal.handler action journal = .ok (answer, after) →
      ∃ result replayed, VersionJournal.handler other image = .ok (result, replayed) ∧
        JournalMoved adjust after replayed ∧ post answer result journal after) :
    Coupled (sides adjust world) (fun state image => Moved adjust alike state image ∧ pre state)
      (State.journal action) (State.journal other)
      fun value result state image => Moved adjust alike state image ∧
        ∃ before, pre before ∧ state = { before with journal := state.journal } ∧
          post value result before.journal state.journal := by
  refine Coupled.perform ?_
  intro state image answer after start ran ends
  obtain ⟨moved, holds⟩ := start
  simp only [sides] at ran
  obtain ⟨journal, first, rfl⟩ := handler_journal_ok (keepingHandler_ok ran)
  obtain ⟨result, replayed, second, journals, done⟩ := one state _ _ _ _ holds rfl moved.journal
    first
  simp only [sides, handler, second]
  exact ⟨result, _, rfl,
    ⟨moved.code, moved.alike, moved.unread, moved.originals, journals⟩,
    state, holds, rfl, done⟩

end Accesses

end MonadChain.Execution
