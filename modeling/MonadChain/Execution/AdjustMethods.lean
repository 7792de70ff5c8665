import MonadChain.Execution.AdjustState

/-!
The operations of `State`, in the two runs. An operation that looks at a balance either demands
the exact balance, which is then not moved, or compares it with an amount that the least balance
covers.
-/

namespace MonadChain.Execution

open Program Coupled State Adjustment Function TxState VersionJournal

variable {W : Type} {adjust : Adjustment} {alike : Script → W → Prop}
  {world : World W} {seen : Sight} {address : Address}

variable {state : AccountState} {first : Address → Option (Option Account)}
  {change : AccountState → AccountState}
  {α : Type} (key : Key)

def Sight.enter (seen : Sight) (address : Address) (state : AccountState) : Sight where
  account := Function.update seen.account address state.account
  current := Function.update seen.current address (some state)

theorem Sight.enter_current (seen : Sight) (address : Address) (state : AccountState) :
    (seen.enter address state).current address = some state := update_self _ _ _

theorem Sight.enter_same {seen : Sight} (same : state.account = seen.account address) :
    (seen.enter address state).account = seen.account := by
  simp [Sight.enter, same]

theorem Sight.enter_other (seen : Sight) (state : AccountState) {other : Address}
    (apart : other ≠ address) : (seen.enter address state).account other = seen.account other :=
  update_of_ne apart _ _

theorem sight_put {before : TxState Script} {journal : VersionJournal}
    (written : ∀ place, journal.currentOf place =
      if place = address then some state else before.journal.currentOf place) :
    sight first { before with journal := journal } =
      (before.sight first).enter address state := by
  have current : journal.currentOf =
      update before.journal.currentOf address (some state) := by
    funext place
    rw [written place, update_apply]
  have accounts : recentOf first { before with journal := journal } =
      update (before.recentOf first) address state.account := by
    funext place
    grind [recentOf]
  simp only [sight, Sight.enter, current, accounts]

theorem coupled_recent (address : Address) :
    Alongside adjust world alike seen (journal (.recent address))
      fun value result state image => MovedAt adjust alike seen state image ∧
        ((value = none ∧ result = none ∧ seen.current address = none) ∨
          ∃ current other, value = some current ∧ result = some other ∧
            Shown adjust address current other ∧ seen.current address = some current) := by
  refine (coupled_journal (.recent address) (.recent address)
    (fun state => state.sight adjust.first = seen)
    (fun value result before after => after = before ∧
      value = before.currentOf address ∧ result = value.map (adjust.shiftState address) ∧
      ∀ current, value = some current → adjust.Covered address current) ?_).weaken ?_
  · intro state journal image answer after holds same moved ran
    cases ran
    refine ⟨_, image, rfl, moved, rfl, rfl, ?_, ?_⟩
    · rw [moved.current address, Option.map_map, Option.map_map]
      rfl
    · intro current found
      obtain ⟨stack, there, rfl⟩ := Option.map_eq_some_iff.mp found
      exact moved.covered address stack there _ recent_mem
  · rintro value result state image ⟨moved, before, sees, rest, same, shown, other, facts⟩
    have equal : state = before := by
      rw [rest, same]
    subst equal
    refine ⟨⟨moved, sees⟩, ?_⟩
    have current : seen.current address = value := by
      rw [← sees]
      exact shown.symm
    cases value with
    | none => exact Or.inl ⟨rfl, other, current⟩
    | some known => exact Or.inr ⟨known, _, rfl, other, ⟨rfl, facts known rfl⟩, current⟩

theorem sight_original {state : TxState Script}
    {original : OriginalAccountState} (absent : seen.current address = none)
    (sees : state.sight first = seen) (found : state.original.lookup address = some original) :
    original.account = seen.account address := by
  have none_yet : state.journal.currentOf address = none := by
    rw [← absent, ← sees]
    rfl
  rw [← sees]
  simp only [sight, recentOf, none_yet, found]

theorem coupled_recentAccountState (valid : adjust.Valid) (answers : Alike adjust world alike)
    (address : Address) :
    Alongside adjust world alike seen (recentAccountState address)
      fun value result state image => MovedAt adjust alike seen state image ∧
        Shown adjust address value result ∧ value.account = seen.account address := by
  refine (coupled_recent address).bind_and fun value result facts => ?_
  rcases facts with ⟨rfl, rfl, absent⟩ | ⟨current, other, rfl, rfl, shown, there⟩
  · refine bind (coupled_original valid answers seen address) fun original other => ?_
    refine done fun state image facts => ?_
    obtain ⟨⟨moved, sees⟩, shown, _, found⟩ := facts
    exact ⟨⟨moved, sees⟩, shown, sight_original absent sees found⟩
  · refine done fun state image facts => ?_
    obtain ⟨moved, sees⟩ := facts
    refine ⟨⟨moved, sees⟩, shown, ?_⟩
    rw [← sees] at there ⊢
    exact (sight_current there).symm

theorem coupled_current {other : AccountState} (shown : Shown adjust address state other)
    (known : seen.current address = none ∨ seen.current address = some state) :
    Coupled (sides adjust world) (MovedAt adjust alike seen)
      (journal (.current address state)) (journal (.current address other))
      fun value result after image => value = state ∧ result = other ∧
        MovedAt adjust alike (seen.enter address state) after image := by
  refine (coupled_journal (.current address state) (.current address other)
    (fun state => state.sight adjust.first = seen)
    (fun value result before after => value = state ∧ result = other ∧
      ∀ place, after.currentOf place =
        if place = address then some state else before.currentOf place) ?_).weaken ?_
  · intro before journal image answer after holds same moved ran
    cases ran
    have entered : (journal.enter address state).recent = state := by
      have shows : journal.currentOf address = none ∨ journal.currentOf address = some state := by
        rw [← same]
        rw [← holds] at known
        exact known
      unfold enter
      rw [VersionStack.recent_current]
      unfold currentOf at shows
      cases found : journal.current.lookup address with
      | none => rfl
      | some stack =>
        rw [found] at shows
        rcases shows with absent | there
        · cases absent
        · exact Option.some.inj there
    have entries := moved.covered.enter shown.covered
    refine ⟨_, _, rfl, ?_, entered, ?_, ?_⟩
    · rw [shown.moved, moved.enter address state]
      exact moved.put entries
    · rw [shown.moved, moved.enter address state, VersionStack.recent_map, entered]
    · intro place
      rw [currentOf_put, entered]
  · rintro value result after image ⟨moved, before, sees, rest, first, second, written⟩
    refine ⟨first, second, moved, ?_⟩
    rw [rest, sight_put written, sees]

theorem coupled_currentAccountState (valid : adjust.Valid) (answers : Alike adjust world alike)
    (address : Address) :
    Alongside adjust world alike seen (currentAccountState address)
      fun value result state image =>
        MovedAt adjust alike (seen.enter address value) state image ∧
        Shown adjust address value result ∧ value.account = seen.account address := by
  refine (coupled_recent address).bind_and fun value result facts => ?_
  rcases facts with ⟨rfl, rfl, absent⟩ | ⟨current, other, rfl, rfl, shown, there⟩
  · refine bind (coupled_original valid answers seen address) fun original other => ?_
    refine of_pure
      (Shown adjust address original.toAccountState other.toAccountState ∧
        original.account = seen.account address) ?_ fun facts => ?_
    · rintro state image ⟨⟨moved, sees⟩, shown, _, found⟩
      exact ⟨shown, sight_original absent sees found⟩
    refine ((coupled_current facts.1 (Or.inl absent)).strengthen fun _ _ facts => facts.1).weaken ?_
    rintro value result state image ⟨first, second, moved⟩
    rw [first, second]
    exact ⟨moved, facts⟩
  · refine of_pure (current.account = seen.account address) ?_ fun same => ?_
    · rintro state image ⟨moved, sees⟩
      rw [← sees] at there ⊢
      exact (sight_current there).symm
    refine (coupled_current shown (Or.inr there)).weaken ?_
    rintro value result state image ⟨first, second, moved⟩
    rw [first, second]
    exact ⟨moved, shown, same⟩

theorem coupled_modify (change other : AccountState → AccountState)
    (there : seen.current address = some state)
    (same : other (adjust.shiftState address state) = adjust.shiftState address (change state))
    (covered : adjust.Covered address (change state)) :
    Coupled (sides adjust world) (MovedAt adjust alike seen)
      (modify address change) (modify address other)
      fun _ _ after image => MovedAt adjust alike (seen.enter address (change state)) after
        image := by
  refine (coupled_journal (.modify address change) (.modify address other)
    (fun state => state.sight adjust.first = seen)
    (fun _ _ before after => ∀ place, after.currentOf place =
      if place = address then some (change state) else before.currentOf place) ?_).weaken ?_
  · intro before journal image answer after holds at_ moved ran
    have recent : journal.currentOf address = some state := by
      rw [← holds] at there
      rw [← at_]
      exact there
    obtain ⟨replayed, again, journals, written⟩ := moved.modify change other recent same covered ran
    exact ⟨(), replayed, again, journals, written⟩
  · rintro value result after image ⟨moved, before, sees, rest, written⟩
    refine ⟨moved, ?_⟩
    rw [rest, sight_put written, sees]

theorem coupled_modify_exact (change : AccountState → AccountState) (valid : adjust.Valid)
    (exact_ : adjust.exact address) :
    Coupled (sides adjust world) (Moved adjust alike)
      (modify address change) (modify address change)
      fun _ _ after image => Moved adjust alike after image := by
  refine ((coupled_journal (.modify address change) (.modify address change) (fun _ => True)
    (fun _ _ _ _ => True) ?_).strengthen fun _ _ moved => ⟨moved, trivial⟩).weaken ?_
  · intro before journal image answer after holds at_ moved ran
    cases recent : journal.currentOf address with
    | none =>
      have absent : journal.current.lookup address = none := Option.map_eq_none_iff.mp recent
      simp only [handler, absent] at ran
      cases ran
    | some state =>
      have zero := shift_of_exact valid exact_
      obtain ⟨replayed, again, journals, _⟩ := moved.modify change change recent
        (by rw [shiftState_zero zero, shiftState_zero zero])
        (covered_of_exact exact_ _) ran
      exact ⟨(), replayed, again, journals, trivial⟩
  · rintro value result after image ⟨moved, _⟩
    exact moved

structure Beside (change : AccountState → AccountState) : Prop where
  commutes : ∀ state account,
    change { state with account := account } = { change state with account := account }
  destructed : ∀ state, (change state).destructed = state.destructed

theorem Beside.account (beside : Beside change)
    (state : AccountState) : (change state).account = state.account := by
  have whole := congrArg AccountState.account (beside.commutes state state.account)
  exact whole

theorem Beside.shift (beside : Beside change) (state : AccountState) :
    change (adjust.shiftState address state) = adjust.shiftState address (change state) := by
  unfold shiftState
  rw [beside.commutes, beside.account]

theorem coupled_beside (beside : Beside change) (there : seen.current address = some state)
    (covered : adjust.Covered address state) :
    Alongside adjust world alike seen (modify address change)
      fun _ _ after image => MovedAt adjust alike (seen.enter address (change state)) after
        image :=
  coupled_modify change change there (beside.shift state)
    (covered.of_eq (beside.account state) (beside.destructed state))

theorem beside_touch : Beside AccountState.touch := ⟨fun _ _ => rfl, fun _ => rfl⟩

theorem beside_access : Beside (·.access.2) := ⟨fun _ _ => rfl, fun _ => rfl⟩

theorem beside_setTransientStorage (value : Value) :
    Beside (·.setTransientStorage key value) := ⟨fun _ _ => rfl, fun _ => rfl⟩

theorem beside_setStorage (value original : Value) :
    Beside fun state => (state.setStorage key value original).2 :=
  ⟨fun _ _ => rfl, fun _ => rfl⟩

theorem beside_pageTracker (change : PageTracker → PageTracker) :
    Beside fun state => { state with pageTracker := change state.pageTracker } :=
  ⟨fun _ _ => rfl, fun _ => rfl⟩

theorem beside_accessStorage : Beside fun state => (state.accessStorage key).2 where
  commutes := by
    intro state account
    unfold AccountState.accessStorage
    split <;> rfl
  destructed := by
    intro state
    unfold AccountState.accessStorage
    split <;> rfl

def Agrees (adjust : Adjustment) (alike : Script → W → Prop) {α : Type}
    (value result : α) (state : TxState Script) (image : TxState W) : Prop :=
  result = value ∧ Moved adjust alike state image

abbrev Agreeing (adjust : Adjustment) (world : World W)
    (alike : Script → W → Prop) (seen : Sight) {α : Type} (method : Method α) : Prop :=
  Alongside adjust world alike seen method (Agrees adjust alike)

section Readers

variable (valid : adjust.Valid) (answers : Alike adjust world alike)

include valid answers

theorem coupled_recentAccount (address : Address) :
    Alongside adjust world alike seen (recentAccount address)
      fun value result state image => MovedAt adjust alike seen state image ∧
        result = value.map (adjust.shiftAccount address) ∧ isDead result = isDead value ∧
        value = seen.account address ∧
        (((result.map (·.balance)).getD 0 : Nat) : Int) =
          (value.map (·.balance)).getD 0 + adjust.shift address := by
  refine (coupled_recentAccountState valid answers address).bind fun state other => ?_
  refine done ?_
  rintro after image ⟨moved, shown, same⟩
  refine ⟨moved, shown.accounts, ?_, same, ?_⟩
  · rw [shown.moved]
    exact isDead_shift valid shown.covered
  · rw [shown.moved]
    exact balance_shift valid shown.covered

theorem coupled_reader {read : Option Account → α}
    (blind : ∀ account, read (account.map (adjust.shiftAccount address)) = read account) :
    Agreeing adjust world alike seen
      (do return read (← recentAccount address) : Method α) := by
  refine (coupled_recentAccount valid answers address).bind fun account other => ?_
  refine done ?_
  rintro state image ⟨⟨moved, _⟩, shifted, _⟩
  exact ⟨by rw [shifted, blind], moved⟩

theorem coupled_getBalance (address : Address) :
    Alongside adjust world alike seen (getBalance address)
      fun value result state image => result = value ∧ MovedAt adjust alike seen state image ∧
        adjust.exact address ∧ value = ((seen.account address).map (·.balance)).getD 0 := by
  refine (coupled_recentAccount valid answers address).bind_and fun account other facts => ?_
  obtain ⟨shifted, _, same, _⟩ := facts
  refine bind (coupled_original valid answers seen address) fun original also => ?_
  refine bind ((coupled_demandExactBalance seen address).strengthen
    fun _ _ facts => facts.1) fun _ _ => ?_
  refine done ?_
  rintro state image ⟨moved, exact_⟩
  refine ⟨?_, moved, exact_, by rw [same]⟩
  rw [shifted, shiftAccount_zero (shift_of_exact valid exact_), Option.map_id_fun, id]

theorem coupled_getOriginalBalance (address : Address) :
    Agreeing adjust world alike seen (getOriginalBalance address) := by
  refine (coupled_original valid answers seen address).bind fun original other => ?_
  refine of_pure (Shown adjust address original.toAccountState other.toAccountState)
    (fun _ _ facts => facts.2.1) fun shown => ?_
  refine bind ((coupled_demandExactBalance seen address).strengthen
    fun _ _ facts => facts.1) fun _ _ => ?_
  refine done ?_
  rintro state image ⟨⟨moved, _⟩, exact_⟩
  have zero := shift_of_exact valid exact_
  have same := shown.moved
  rw [shiftState_zero zero] at same
  exact ⟨by rw [same], moved⟩

theorem coupled_getStorage (address : Address) (key : Key) :
    Agreeing adjust world alike seen (getStorage address key) := by
  refine (coupled_recent address).bind_and fun value result facts => ?_
  have slot : ∀ incarnation, Agreeing adjust world alike seen
      (access (.originalStorage address incarnation key)) :=
    fun incarnation => (coupled_originalStorage answers seen incarnation key).weaken
      fun _ _ _ _ facts => ⟨facts.1, facts.2.1⟩
  rcases facts with ⟨rfl, rfl, absent⟩ | ⟨current, other, rfl, rfl, shown, there⟩
  · refine bind_and (coupled_findOriginal valid seen address) fun found also facts => ?_
    rcases facts with rfl | ⟨original, image, rfl, rfl, shown⟩
    · exact abort
    · dsimp only
      cases account : original.account with
      | none => exact abort
      | some known =>
        have second : image.account = some (adjust.shiftAccount address known) := by
          simp [shown.accounts, account]
        rw [second]
        exact slot known.incarnation
  · have slots := congrArg AccountState.storage shown.moved
    dsimp only
    cases account : current.account with
    | none => exact abort
    | some known =>
      have second : other.account = some (adjust.shiftAccount address known) := by
        simp [shown.accounts, account]
      have stored : other.storage = current.storage := slots
      rw [second, stored]
      cases current.storage.lookup key with
      | some value => exact done fun _ _ moved => ⟨rfl, moved.1⟩
      | none =>
        refine bind_and (coupled_findOriginal valid seen address) fun found also facts => ?_
        rcases facts with rfl | ⟨original, image, rfl, rfl, read⟩
        · exact abort
        · have same : image.account.map (·.incarnation) =
              original.account.map (·.incarnation) := by
            simp [read.accounts, shiftAccount, comp_def]
          dsimp only
          by_cases other : original.account.map (·.incarnation) ≠ some known.incarnation
          · rw [if_pos other, if_pos (same ▸ other)]
            exact done fun _ _ moved => ⟨rfl, moved.1⟩
          · rw [if_neg other, if_neg (same ▸ other)]
            exact slot known.incarnation

end Readers

theorem coupled_findCode (hash : Hash) :
    Alongside adjust world alike seen (access (.findCode hash))
      fun value result state image => result = value ∧ MovedAt adjust alike seen state image := by
  refine perform ?_
  intro state image answer after start ran ends
  cases ran
  refine ⟨_, image, rfl, ?_, start⟩
  rw [start.1.code]

theorem coupled_putCode (hash : Hash) (code : Code) :
    Alongside adjust world alike seen (access (.putCode hash code))
      fun _ _ state image => MovedAt adjust alike seen state image := by
  refine perform ?_
  intro state image answer after start ran ends
  obtain ⟨moved, sees⟩ := start
  cases ran
  refine ⟨(), _, rfl, ⟨?_, moved.alike, moved.unread, moved.originals, moved.journal⟩, sees⟩
  simp only [moved.code]

theorem coupled_blockCode (config : Config) (hash : Hash) :
    Agreeing adjust world alike seen (blockCode config hash) := by
  unfold blockCode
  split
  · exact done fun _ _ facts => ⟨rfl, facts.1⟩
  · exact abort

theorem coupled_readCode (config : Config) (hash : Hash) :
    Agreeing adjust world alike seen (readCode config hash) := by
  refine (coupled_findCode hash).bind fun value result => ?_
  refine of_pure _ (fun _ _ facts => facts.1) fun same => ?_
  subst same
  cases result with
  | some code => exact done fun _ _ facts => ⟨rfl, facts.2.1⟩
  | none => exact (coupled_blockCode config hash).strengthen fun _ _ facts => facts.2

theorem coupled_codeReader (valid : adjust.Valid) (answers : Alike adjust world alike)
    (config : Config) {absent : Method α} (read : Code → α)
    (missing : Agreeing adjust world alike seen absent) :
    Agreeing adjust world alike seen
      (do
        match ← recentAccount address with
        | none => absent
        | some account => return read (← readCode config account.codeHash) : Method α) := by
  refine (coupled_recentAccount valid answers address).bind_and fun account other facts => ?_
  rw [facts.1]
  cases account with
  | none => exact missing
  | some known =>
    refine bind (coupled_readCode config known.codeHash) fun code also => ?_
    exact done fun _ _ facts => ⟨by rw [facts.1], facts.2⟩

end MonadChain.Execution
