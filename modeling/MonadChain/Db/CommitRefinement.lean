import MonadChain.Db.Commit

/-!
What a commit leaves in the trie, for either builder. The leaves that a block touches get the
pages that are recorded for them, the others keep theirs. A removed leaf must have been there: mpt
has no deletion of a key that it does not find.
-/

namespace MonadChain.Db

open Execution AccountUpdate List

variable {L : Type} {keccak : Nat → Hash} {encoding : Encoding L}

variable {touched : List (TouchedLeaf L)} {address : Address} {delta : StateDelta}
  {update : AccountUpdate L} {old : Option (AccountLeaf L)}

structure TouchedLeaf.Fits (keccak : Nat → Hash) (encoding : Encoding L) (storage : Map Hash L)
    (leaf : TouchedLeaf L) : Prop where
  written : ∀ value, leaf.value = some value → encoding.decode value = leaf.page
  removed : leaf.value = none →
    (storage.lookup (keccak leaf.key)).isSome ∧ ∀ offset, leaf.page.get offset = 0

/-- The storage holds the pages of the touched leaves, and the pages of `base` elsewhere. -/
structure Holds (keccak : Nat → Hash) (encoding : Encoding L) (base : Map Hash L)
    (touched : List (TouchedLeaf L)) (storage : Map Hash L) : Prop where
  changed : ∀ leaf ∈ touched, ∀ offset,
    (pageAt keccak encoding storage leaf.key).get offset = leaf.page.get offset
  kept : ∀ key, key ∉ touched.map TouchedLeaf.key →
    pageAt keccak encoding storage key = pageAt keccak encoding base key

abbrev storageUpdates (keccak : Nat → Hash) (touched : List (TouchedLeaf L)) :
    List (StorageUpdate L) :=
  (touched.map fun leaf => ⟨keccak leaf.key, leaf.value⟩).reverse

theorem TouchedLeaf.fits_of {storage : Map Hash L} {key : Key} {page : StoragePage} {value : L}
    {gone : Prop} [Decidable gone] (decodes : encoding.decode value = page)
    (removed : gone → (storage.lookup (keccak key)).isSome ∧ ∀ offset, page.get offset = 0) :
    TouchedLeaf.Fits keccak encoding storage ⟨key, page, if gone then none else some value⟩ := by
  constructor
  · intro other written
    split at written
    · cases written
    · cases written
      exact decodes
  · intro none
    split at none
    · exact removed ‹_›
    · cases none

theorem upsertSlot_ok {old : Option L} {update : StorageUpdate L}
    (present : update.value = none → old.isSome) : upsertSlot old update = .ok update.value := by
  unfold upsertSlot
  split
  · rename_i gone
    cases present gone
  · rfl

theorem upsertStorage_holds (collisionFree : Function.Injective keccak) {base : Map Hash L}
    (distinct : (touched.map TouchedLeaf.key).Nodup)
    (fits : ∀ leaf ∈ touched, leaf.Fits keccak encoding base) :
    ∃ storage, upsertStorage (storageUpdates keccak touched) base = .ok storage ∧
      Holds keccak encoding base touched storage := by
  have keys : (storageUpdates keccak touched).map StorageUpdate.key =
      ((touched.map TouchedLeaf.key).map keccak).reverse := by
    rw [map_reverse, map_map, map_map]
    rfl
  have apart := distinct.map collisionFree
  have succeeds : ∀ update ∈ storageUpdates keccak touched,
      upsertSlot (base.lookup update.key) update = .ok update.value := by
    intro update member
    obtain ⟨leaf, there, rfl⟩ := mem_map.mp (mem_reverse.mp member)
    exact upsertSlot_ok fun gone => ((fits leaf there).removed gone).1
  obtain ⟨storage, ran, updated, kept⟩ := applyBatch_ok (keys ▸ nodup_reverse.mpr apart)
    fun update member => ⟨_, succeeds update member⟩
  refine ⟨storage, ran, ?_, ?_⟩
  · intro leaf there offset
    have member : ⟨keccak leaf.key, leaf.value⟩ ∈ storageUpdates keccak touched :=
      mem_reverse.mpr (mem_map_of_mem there)
    have found : storage.lookup (keccak leaf.key) = leaf.value :=
      Except.ok.inj ((updated _ member).symm.trans (succeeds _ member))
    cases value : leaf.value with
    | some value =>
      rw [pageAt, found, value]
      exact congrArg (·.get offset) ((fits leaf there).written _ value)
    | none =>
      rw [pageAt, found, value]
      exact (StoragePage.get_empty offset).trans (((fits leaf there).removed value).2 offset).symm
  · intro key untouched
    have absent : keccak key ∉ (storageUpdates keccak touched).map StorageUpdate.key := by
      rw [keys, mem_reverse]
      intro member
      obtain ⟨other, there, same⟩ := mem_map.mp member
      exact untouched (collisionFree same ▸ there)
    rw [pageAt, pageAt, kept _ absent]

def baseStorage (old : Option (AccountLeaf L)) (delta : StateDelta) : Map Hash L :=
  match old with
  | some leaf => if reincarnated delta then ∅ else leaf.storage
  | none => ∅

structure Committable (keccak : Nat → Hash) (encoding : Encoding L) (old : Option (AccountLeaf L))
    (delta : StateDelta) (touched : List (TouchedLeaf L)) : Prop where
  started : delta.account.1 = old.map (·.account.2)
  distinct : (touched.map TouchedLeaf.key).Nodup
  fits : ∀ leaf ∈ touched, leaf.Fits keccak encoding (baseStorage old delta)
  gone : delta.account.2 = none → touched = []

def Committed (keccak : Nat → Hash) (encoding : Encoding L) (old : Option (AccountLeaf L))
    (delta : StateDelta) (touched : List (TouchedLeaf L)) (new : Option (AccountLeaf L)) : Prop :=
  new.map (·.account.2) = delta.account.2 ∧
    ∀ leaf ∈ new, Holds keccak encoding (baseStorage old delta) touched leaf.storage

theorem accountUpdate_none (unchanged : accountUpdate keccak address delta touched = none) :
    touched = [] ∧ delta.account.1 = delta.account.2 := by
  unfold accountUpdate at unchanged
  dsimp only at unchanged
  split at unchanged
  · cases unchanged
  · rename_i same
    rw [not_or, not_not, not_not, reverse_eq_nil_iff, map_eq_nil_iff] at same
    exact same

theorem accountUpdate_some (changed : accountUpdate keccak address delta touched = some update) :
    update = ⟨keccak address, delta.account.2.map (address, ·), reincarnated delta,
        storageUpdates keccak touched⟩ ∧
      (touched ≠ [] ∨ delta.account.1 ≠ delta.account.2) := by
  unfold accountUpdate at changed
  dsimp only at changed
  split at changed
  · rename_i differs
    rw [ne_eq, reverse_eq_nil_iff, map_eq_nil_iff] at differs
    exact ⟨(Option.some.inj changed).symm, differs⟩
  · cases changed

theorem reincarnated_of_same (same : delta.account.1 = delta.account.2) :
    reincarnated delta = false := by
  unfold reincarnated
  split
  · rename_i before account accounts
    rw [accounts] at same
    cases same
    exact decide_eq_false (fun differs => differs rfl)
  · rfl

theorem committed_unchanged (started : delta.account.1 = old.map (·.account.2))
    (unchanged : accountUpdate keccak address delta touched = none) :
    Committed keccak encoding old delta touched old := by
  obtain ⟨untouched, same⟩ := accountUpdate_none unchanged
  refine ⟨started.symm.trans same, ?_⟩
  intro leaf there
  have base : baseStorage old delta = leaf.storage := by
    rw [Option.mem_def.mp there, baseStorage, reincarnated_of_same same]
    rfl
  rw [base, untouched]
  exact ⟨fun _ member => absurd member not_mem_nil, fun _ _ => rfl⟩

theorem upsertAccount_committed (collisionFree : Function.Injective keccak)
    (fine : Committable keccak encoding old delta touched)
    (changed : accountUpdate keccak address delta touched = some update) :
    ∃ new, upsertAccount old update = .ok new ∧
      Committed keccak encoding old delta touched new := by
  obtain ⟨rfl, differs⟩ := accountUpdate_some changed
  obtain ⟨storage, ran, holds⟩ := upsertStorage_holds collisionFree fine.distinct fine.fits
  cases now : delta.account.2 with
  | none =>
    -- A deletion: the account was there, since something has changed.
    have untouched := fine.gone now
    have alive : delta.account.1 ≠ none := by
      obtain touches | differs := differs
      · exact absurd untouched touches
      · rwa [now] at differs
    cases old with
    | none => exact absurd fine.started alive
    | some leaf =>
      refine ⟨none, ?_, now.symm, fun _ member => absurd member (Option.not_mem_none _)⟩
      rw [untouched]
      rfl
  | some account =>
    refine ⟨some ⟨(address, account), storage⟩, ?_, now.symm, ?_⟩
    · cases old with
      | none =>
        rw [baseStorage] at ran
        simp only [upsertAccount, Option.map_some, ran]
        rfl
      | some leaf =>
        rw [baseStorage] at ran
        simp only [upsertAccount, isDeletion, Option.map_some,
          Option.isNone_some, Bool.false_and, ran]
        rfl
    · intro leaf member
      rw [← Option.mem_some_iff.mp member]
      exact holds

def AllCommittable (keccak : Nat → Hash) (encoding : Encoding L) (trie : StateTrie L)
    (touched : Address → StateDelta → List (TouchedLeaf L)) (deltas : Map Address StateDelta) :
    Prop :=
  ∀ address delta, deltas.lookup address = some delta →
    Committable keccak encoding (trie.lookup (keccak address)) delta (touched address delta)

structure CommittedState (keccak : Nat → Hash) (encoding : Encoding L) (trie : StateTrie L)
    (touched : Address → StateDelta → List (TouchedLeaf L)) (deltas : Map Address StateDelta)
    (after : StateTrie L) : Prop where
  changed : ∀ address delta, deltas.lookup address = some delta →
    Committed keccak encoding (trie.lookup (keccak address)) delta (touched address delta)
      (after.lookup (keccak address))
  kept : ∀ address, deltas.lookup address = none →
    after.lookup (keccak address) = trie.lookup (keccak address)

theorem commit_state (collisionFree : Function.Injective keccak) {trie : StateTrie L}
    {touched : Address → StateDelta → List (TouchedLeaf L)} {deltas : Map Address StateDelta}
    (fine : AllCommittable keccak encoding trie touched deltas) :
    ∃ after, upsert (addStateDeltas keccak touched deltas).updates trie = .ok after ∧
      CommittedState keccak encoding trie touched deltas after := by
  have made : ∀ update ∈ (addStateDeltas keccak touched deltas).updates,
      ∃ address delta, deltas.lookup address = some delta ∧ update.key = keccak address ∧
        accountUpdate keccak address delta (touched address delta) = some update := by
    intro update member
    obtain ⟨entry, there, changed⟩ := mem_filterMap.mp (mem_reverse.mp member)
    have key := congrArg key (accountUpdate_some changed).1
    exact ⟨entry.1, entry.2, AList.mem_lookup_iff.mpr there, key, changed⟩
  have distinct : ((addStateDeltas keccak touched deltas).updates.map key).Nodup := by
    simp only [addStateDeltas]
    rw [map_reverse, nodup_reverse]
    have keyed : ∀ (entry : Sigma fun _ : Address => StateDelta) (update : AccountUpdate L),
        accountUpdate keccak entry.1 entry.2 (touched entry.1 entry.2) = some update →
          update.key = keccak entry.1 :=
      fun entry update changed => congrArg key (accountUpdate_some changed).1
    have keys : deltas.entries.map (fun entry => keccak entry.1) = deltas.keys.map keccak :=
      (map_map).symm
    exact nodup_filterMap keyed (keys ▸ deltas.keys_nodup.map collisionFree)
  have succeeds : ∀ update ∈ (addStateDeltas keccak touched deltas).updates,
      ∃ result, upsertAccount (trie.lookup update.key) update = .ok result := by
    intro update member
    obtain ⟨address, delta, found, key, changed⟩ := made update member
    obtain ⟨new, ran, _⟩ := upsertAccount_committed collisionFree (fine address delta found) changed
    exact ⟨new, key ▸ ran⟩
  obtain ⟨after, ran, updated, kept⟩ := applyBatch_ok distinct succeeds
  -- An account without an update of its own has no update at all.
  have untouched : ∀ address, (∀ delta, deltas.lookup address = some delta →
      accountUpdate keccak address delta (touched address delta) = none) →
      after.lookup (keccak address) = trie.lookup (keccak address) := by
    intro address unchanged
    apply kept
    intro member
    obtain ⟨update, there, key⟩ := mem_map.mp member
    obtain ⟨other, delta, found, otherKey, changed⟩ := made update there
    have same := collisionFree (otherKey.symm.trans key)
    subst same
    rw [unchanged delta found] at changed
    cases changed
  refine ⟨after, ran, ?_, ?_⟩
  · intro address delta found
    cases changed : accountUpdate keccak address delta (touched address delta) with
    | none =>
      have same := untouched address fun other looked => by
        rw [found] at looked
        cases looked
        exact changed
      rw [same]
      exact committed_unchanged (fine address delta found).started changed
    | some update =>
      have key := congrArg key (accountUpdate_some changed).1
      have member : update ∈ (addStateDeltas keccak touched deltas).updates :=
        mem_reverse.mpr (mem_filterMap.mpr
          ⟨⟨address, delta⟩, AList.mem_lookup_iff.mp found, changed⟩)
      obtain ⟨new, step, committed⟩ :=
        upsertAccount_committed collisionFree (fine address delta found) changed
      have result := updated update member
      rw [key] at result
      rw [Except.ok.inj (result.symm.trans step)]
      exact committed
  · intro address missing
    apply untouched
    intro delta found
    rw [missing] at found
    cases found

end MonadChain.Db
