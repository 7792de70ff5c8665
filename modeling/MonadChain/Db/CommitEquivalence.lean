import MonadChain.Db.CommitAgreement
import MonadChain.Execution.Serial

/-!
A slot-encoded and a page-encoded database that hold the same state hold the same state after both
have committed a block, and the proposals answer alike. A commit removes only leaves that are
there, if no account is created over one that has storage.
-/

namespace MonadChain.Db

open Execution Option AList BlockState StoragePage

/-- The block states that reads and merges make of an empty one, with what is left to write of
the merge that is going on. `allowed` restricts the accounts that are merged. -/
inductive Produced (db : Execution.Db) (allowed : BlockState → Address → AccountState → Prop) :
    BlockState → List (Address × AccountState) → Prop where
  | start : Produced db allowed {} []
  | account {block : BlockState} {pending : List (Address × AccountState)} (address : Address)
      (produced : Produced db allowed block pending) :
      Produced db allowed (block.readAccount db address).2 pending
  | storage {block after : BlockState} {pending : List (Address × AccountState)}
      {address : Address} {incarnation : Incarnation} {key : Key} {value : Value}
      (produced : Produced db allowed block pending)
      (read : block.readStorage db address incarnation key = .ok (value, after)) :
      Produced db allowed after pending
  | beginMerge {block : BlockState} {state : TxState Script}
      {written : List (Address × AccountState)} (produced : Produced db allowed block [])
      (accounts : BlockState.settled state.journal.current = .ok written) :
      Produced db allowed block written
  | mergeAccount {block after : BlockState} {address : Address} {written : AccountState}
      {rest : List (Address × AccountState)}
      (produced : Produced db allowed block ((address, written) :: rest))
      (merged : block.mergeAccount address written = .ok after)
      (permitted : allowed block address written) : Produced db allowed after rest

/-- An account gets another incarnation only when it was deleted, or has no storage in the
database. -/
def CreatesOnEmpty (db : Execution.Db) (block : BlockState) (address : Address)
    (written : AccountState) : Prop :=
  ∀ delta before account, block.state.lookup address = some delta →
    delta.account.2 = some before → written.account = some account →
    before.incarnation ≠ account.incarnation →
    ∀ key, db.readStorage address before.incarnation key = 0

variable {key : Key}

theorem mergeStorage_first {storage : Map Key Value} {deltas : Map Key (Value × Value)}
    {first second : Value} (found : (mergeStorage storage deltas).lookup key = some (first, second))
    (started : first ≠ 0) : ∃ before, deltas.lookup key = some (first, before) := by
  unfold mergeStorage at found
  generalize storage.entries = slots at found
  induction slots generalizing deltas with
  | nil => exact ⟨second, found⟩
  | cons slot rest ih =>
    obtain ⟨before, looked⟩ := ih found
    simp only [lookup_insert_ite] at looked
    split at looked
    · rename_i here
      rw [← here] at looked
      cases known : deltas.lookup key with
      | none => simp_all
      | some values => exact ⟨values.2, by simp_all [Prod.ext_iff]⟩
    · exact ⟨before, looked⟩

section Sound

variable {L : Type} {keccak : Nat → Hash} {encoding : Encoding L} {trie : StateTrie L}
  {block : BlockState} {address : Address}

def SoundBlock (keccak : Nat → Hash) (encoding : Encoding L) (trie : StateTrie L)
    (block : BlockState) : Prop :=
  ∀ address delta, block.state.lookup address = some delta →
    SoundDelta ((trie.lookup (keccak address)).map (·.account.2))
      (slotOf keccak encoding (trie.lookup (keccak address))) delta

theorem SoundBlock.insert {delta : StateDelta} (sound : SoundBlock keccak encoding trie block)
    (new : SoundDelta ((trie.lookup (keccak address)).map (·.account.2))
      (slotOf keccak encoding (trie.lookup (keccak address))) delta) :
    SoundBlock keccak encoding trie ⟨block.state.insert address delta⟩ := by
  intro other found looked
  grind [lookup_insert_ite, sound other found]

theorem SoundBlock.readAccount (address : Address) (sound : SoundBlock keccak encoding trie block) :
    SoundBlock keccak encoding trie
      (block.readAccount (view keccak encoding trie) address).2 := by
  unfold BlockState.readAccount BlockState.emplaceAccount
  split
  · exact sound
  · split
    · exact sound
    · apply sound.insert
      exact ⟨rfl, fun _ _ _ found => by cases found⟩

theorem SoundBlock.readStorage {block after : BlockState} {incarnation : Incarnation}
    {value : Value} (sound : SoundBlock keccak encoding trie block)
    (read : block.readStorage (view keccak encoding trie) address incarnation key =
      .ok (value, after)) : SoundBlock keccak encoding trie after := by
  unfold BlockState.readStorage BlockState.lookupStorage at read
  cases found : block.state.lookup address with
  | none =>
    rw [found] at read
    cases read
  | some delta =>
    rw [found] at read
    dsimp only at read
    by_cases current : BlockState.hasIncarnation incarnation delta.account.2 = true
    · rw [if_pos current] at read
      cases slot : delta.storage.lookup key with
      | some values =>
        rw [slot] at read
        cases read
        exact sound
      | none =>
        rw [slot] at read
        dsimp only [BlockState.emplaceStorage] at read
        rw [found] at read
        dsimp only at read
        rw [if_pos current, slot] at read
        cases read
        apply sound.insert
        have old := sound address delta found
        refine ⟨old.started, ?_⟩
        intro other first second looked started
        by_cases here : other = key
        · subst here
          rw [lookup_insert] at looked
          cases looked
          -- The slot was read from the database, so the account has its old incarnation.
          unfold BlockState.databaseStorage at started ⊢
          split at started
          · rename_i same
            rw [if_pos same]
            exact ⟨readStorage_eq trie address other,
              (of_decide_eq_true same).trans (of_decide_eq_true current).symm⟩
          · exact absurd rfl started
        · dsimp only at looked
          rw [lookup_insert_ne here] at looked
          exact old.slots other first second looked started
    · rw [if_neg current] at read
      cases read
      exact sound

theorem SoundBlock.mergeAccount {block after : BlockState} {written : AccountState}
    (sound : SoundBlock keccak encoding trie block)
    (merged : block.mergeAccount address written = .ok after)
    (created : CreatesOnEmpty (view keccak encoding trie) block address written) :
    SoundBlock keccak encoding trie after := by
  obtain ⟨delta, found, rfl⟩ := mergeAccount_shape merged
  have old := sound address delta found
  apply sound.insert
  refine ⟨old.started, ?_⟩
  intro key first second looked started
  cases now : written.account with
  | none =>
    rw [now] at looked
    cases looked
  | some account =>
    rw [now, isSome_some, if_pos rfl] at looked
    obtain ⟨before, slot⟩ := mergeStorage_first looked started
    obtain ⟨stored, kept⟩ := old.slots key first before slot started
    refine ⟨stored, ?_⟩
    rw [kept]
    cases current : delta.account.2 with
    | none =>
      -- The account is not in the database, so it has no slot there.
      rw [current, map_none, map_eq_none_iff, old.started, map_eq_none_iff] at kept
      rw [kept] at stored
      exact absurd stored started
    | some living =>
      by_contra differs
      have other : living.incarnation ≠ account.incarnation :=
        fun same => differs (congrArg some same)
      have empty := created delta living account found current now other key
      exact started (stored.trans ((readStorage_eq trie address key).symm.trans empty))

theorem produced_sound {pending : List (Address × AccountState)}
    (produced : Produced (view keccak encoding trie)
      (CreatesOnEmpty (view keccak encoding trie)) block pending) :
    SoundBlock keccak encoding trie block := by
  induction produced with
  | start => exact fun _ _ found => by cases found
  | account address _ ih => exact ih.readAccount address
  | storage _ read ih => exact ih.readStorage read
  | beginMerge _ _ ih => exact ih
  | mergeAccount _ merged permitted ih => exact ih.mergeAccount merged permitted

end Sound

section Proposal

variable {L : Type} {keccak : Nat → Hash} {encoding : Encoding L}
  {touched : Address → StateDelta → List (TouchedLeaf L)} {deltas : Map Address StateDelta}
  {delta : StateDelta} {leaves : List (TouchedLeaf L)}

theorem postState_account (address : Address) :
    (addStateDeltas keccak touched deltas).postState.accounts.lookup address =
      (deltas.lookup address).map (·.account.2) := by
  have keys : (deltas.entries.map fun entry => (entry.1, entry.2.account.2)).map Prod.fst =
      deltas.keys := List.map_map
  cases found : deltas.lookup address with
  | none =>
    have absent : address ∉ deltas.keys := lookup_eq_none.mp found
    exact lookup_insertAll_of_not_mem (keys ▸ absent)
  | some delta =>
    exact lookup_insertAll_of_mem (keys ▸ deltas.keys_nodup)
      (List.mem_map.mpr ⟨⟨address, delta⟩, mem_lookup_iff.mp found, rfl⟩)

theorem recordedPages_key {address : Address} {key : StorageKey}
    (member : key ∈ (recordedPages address delta leaves).map Prod.fst) :
    key.address = address ∧ delta.account.2.map (·.incarnation) = some key.incarnation ∧
      key.key ∈ leaves.map TouchedLeaf.key := by
  unfold recordedPages at member
  split at member
  · rename_i account now
    rw [List.map_map] at member
    obtain ⟨leaf, there, rfl⟩ := List.mem_map.mp member
    exact ⟨rfl, by rw [now]; rfl, List.mem_map_of_mem there⟩
  · exact absurd member List.not_mem_nil

theorem recordedPages_distinct {address : Address} (distinct : (leaves.map TouchedLeaf.key).Nodup) :
    ((recordedPages address delta leaves).map Prod.fst).Nodup := by
  unfold recordedPages
  split
  · rename_i account now
    have keys : (leaves.map fun leaf => ((⟨address, account.incarnation, leaf.key⟩ : StorageKey),
        leaf.page)).map Prod.fst =
        (leaves.map TouchedLeaf.key).map (StorageKey.mk address account.incarnation) := by
      rw [List.map_map, List.map_map]
      rfl
    rw [keys]
    exact distinct.map fun first second same => (StorageKey.mk.inj same).2.2
  · exact List.nodup_nil

def leafAt (leaves : List (TouchedLeaf L)) (key : Key) : Option (TouchedLeaf L) :=
  leaves.find? fun leaf => leaf.key = key

theorem leafAt_some {leaf : TouchedLeaf L} (found : leafAt leaves key = some leaf) :
    leaf ∈ leaves ∧ leaf.key = key :=
  ⟨List.mem_of_find?_eq_some found, by simpa using List.find?_some found⟩

theorem leafAt_none (missing : leafAt leaves key = none) : key ∉ leaves.map TouchedLeaf.key := by
  intro member
  obtain ⟨leaf, there, same⟩ := List.mem_map.mp member
  exact List.find?_eq_none.mp missing leaf there (decide_eq_true same)

section

variable (distinct : ∀ address delta, ((touched address delta).map TouchedLeaf.key).Nodup)

include distinct

theorem postState_storage (key : StorageKey) :
    (addStateDeltas keccak touched deltas).postState.storage.lookup key =
      match deltas.lookup key.address with
      | some delta =>
        if hasIncarnation key.incarnation delta.account.2 then
          (leafAt (touched key.address delta) key.key).map TouchedLeaf.page
        else none
      | none => none := by
  -- Nothing is recorded for a key that no touched leaf has.
  have absent : (∀ delta, deltas.lookup key.address = some delta →
      hasIncarnation key.incarnation delta.account.2 = true →
      key.key ∉ (touched key.address delta).map TouchedLeaf.key) →
      (addStateDeltas keccak touched deltas).postState.storage.lookup key = none := by
    intro untouched
    refine (lookup_insertAll_of_not_mem ?_).trans (lookup_empty _)
    intro recorded
    rw [List.map_flatMap] at recorded
    obtain ⟨⟨address, delta⟩, there, here⟩ := List.mem_flatMap.mp recorded
    obtain ⟨same, incarnation, touches⟩ := recordedPages_key here
    dsimp only at same incarnation touches
    subst same
    exact untouched delta (mem_lookup_iff.mpr there) (decide_eq_true incarnation) touches
  cases found : deltas.lookup key.address with
  | none =>
    apply absent
    intro delta looked
    rw [found] at looked
    cases looked
  | some delta =>
    dsimp only
    have only : ∀ other, deltas.lookup key.address = some other → other = delta := by
      intro other looked
      rw [found] at looked
      exact (some.inj looked).symm
    by_cases current : hasIncarnation key.incarnation delta.account.2 = true
    · rw [if_pos current]
      cases leaf : leafAt (touched key.address delta) key.key with
      | none =>
        apply absent
        intro other looked _ member
        rw [only other looked] at member
        exact leafAt_none leaf member
      | some leaf' =>
        obtain ⟨there, same⟩ := leafAt_some leaf
        have now : delta.account.2.map (·.incarnation) = some key.incarnation :=
          of_decide_eq_true current
        obtain ⟨account, accounts, incarnation⟩ := map_eq_some_iff.mp now
        apply lookup_insertAll_of_mem
        · rw [List.map_flatMap, List.nodup_flatMap]
          refine ⟨fun entry _ => recordedPages_distinct (distinct entry.1 entry.2), ?_⟩
          refine (List.pairwise_map.mp deltas.keys_nodup).imp ?_
          intro first second apart key here there
          exact apart ((recordedPages_key here).1.symm.trans (recordedPages_key there).1)
        · refine List.mem_flatMap.mpr
            ⟨⟨key.address, delta⟩, mem_lookup_iff.mp found, ?_⟩
          simp only [recordedPages, accounts]
          refine List.mem_map.mpr ⟨leaf', there, ?_⟩
          rw [incarnation, same]
    · rw [if_neg current]
      apply absent
      intro other looked again
      rw [only other looked] at again
      exact absurd again current

/-- The proposal answers for the accounts of the block: zero for another incarnation, and the
touched leaves for the one that the account has now. -/
theorem answer_eq (address : Address) (incarnation : Incarnation) (key : Key) :
    (addStateDeltas keccak touched deltas).postState.answer encoding address incarnation key =
      match deltas.lookup address with
      | some delta =>
        if hasIncarnation incarnation delta.account.2 then
          (leafAt (touched address delta) (encoding.lookupKey key)).map
            (·.page.get (encoding.lookupOffset key))
        else some 0
      | none => none := by
  unfold ProposalPostState.answer ProposalPostState.tryReadStorage
  rw [postState_account, postState_storage distinct]
  cases deltas.lookup address with
  | none => rfl
  | some delta =>
    dsimp only [map_some]
    split
    · rw [map_map]
      rfl
    · exact congrArg some (get_empty _)

end

theorem answer_read {trie after : StateTrie L}
    (committed : CommittedState keccak encoding trie touched deltas after) {address : Address}
    {incarnation : Incarnation} (found : deltas.lookup address = some delta)
    (current : hasIncarnation incarnation delta.account.2 = true) {leaf : TouchedLeaf L}
    (there : leafAt (touched address delta) (encoding.lookupKey key) = some leaf) :
    leaf.page.get (encoding.lookupOffset key) = readStorage keccak encoding after address key := by
  obtain ⟨accounts, holds⟩ := committed.changed address delta found
  obtain ⟨member, same⟩ := leafAt_some there
  have now : delta.account.2.map (·.incarnation) = some incarnation := of_decide_eq_true current
  rw [readStorage_eq]
  cases stored : after.lookup (keccak address) with
  | none =>
    rw [stored] at accounts
    rw [← accounts] at now
    cases now
  | some new =>
    have changed := (holds new stored).changed leaf member (encoding.lookupOffset key)
    rw [same] at changed
    exact changed.symm

theorem answer_getD
    (distinct : ∀ address delta, ((touched address delta).map TouchedLeaf.key).Nodup)
    {trie after : StateTrie L}
    (committed : CommittedState keccak encoding trie touched deltas after)
    (address : Address) (incarnation : Incarnation) (key : Key) :
    ((addStateDeltas keccak touched deltas).postState.answer encoding address incarnation
        key).getD (readStorage keccak encoding after address key) =
      match deltas.lookup address with
      | some delta =>
        if hasIncarnation incarnation delta.account.2 then
          readStorage keccak encoding after address key
        else 0
      | none => readStorage keccak encoding after address key := by
  rw [answer_eq distinct]
  cases found : deltas.lookup address with
  | none => rfl
  | some delta =>
    dsimp only
    split
    · rename_i current
      cases there : leafAt (touched address delta) (encoding.lookupKey key) with
      | none => rfl
      | some leaf => exact answer_read committed found current there
    · rfl

end Proposal

structure SameState (keccak : Nat → Hash) (slots : StateTrie SlotLeaf)
    (pages : StateTrie PageLeaf) :
    Prop where
  accounts : ∀ address, readAccount keccak slots address = readAccount keccak pages address
  storage : ∀ address key, readStorage keccak slotEncoding slots address key =
    readStorage keccak pageEncoding pages address key

section Both

variable {keccak : Nat → Hash} {slots : StateTrie SlotLeaf} {pages : StateTrie PageLeaf}

theorem SameState.slotOf (same : SameState keccak slots pages) (address : Address) :
    slotOf keccak slotEncoding (slots.lookup (keccak address)) =
      Db.slotOf keccak pageEncoding (pages.lookup (keccak address)) := by
  funext key
  rw [← readStorage_eq, ← readStorage_eq, same.storage]

theorem SoundBlock.toPages {block : BlockState} (same : SameState keccak slots pages)
    (sound : SoundBlock keccak slotEncoding slots block) :
    SoundBlock keccak pageEncoding pages block := by
  intro address delta found
  have old := sound address delta found
  rw [same.slotOf] at old
  exact ⟨old.started.trans (same.accounts address), old.slots⟩

theorem CommittedState.same {deltas : Map Address StateDelta} {slots' : StateTrie SlotLeaf}
    {pages' : StateTrie PageLeaf} (same : SameState keccak slots pages)
    (slotState : CommittedState keccak slotEncoding slots touchedSlots deltas slots')
    (pageState : CommittedState keccak pageEncoding pages
      (touchedPages (loadStoragePage keccak pageEncoding pages)) deltas pages') :
    SameState keccak slots' pages' := by
  constructor
  · intro address
    unfold readAccount
    cases found : deltas.lookup address with
    | none =>
      rw [slotState.kept address found, pageState.kept address found]
      exact same.accounts address
    | some delta =>
      rw [(slotState.changed address delta found).1, (pageState.changed address delta found).1]
  · intro address key
    cases found : deltas.lookup address with
    | none =>
      have kept := same.storage address key
      rw [readStorage_eq, readStorage_eq] at kept ⊢
      rw [slotState.kept address found, pageState.kept address found, kept]
    | some delta =>
      have slotResult := slotState.changed address delta found
      have pageResult := pageState.changed address delta found
      rw [readStorage_eq, readStorage_eq]
      cases now : delta.account.2 with
      | none =>
        have noSlots := slotResult.1.trans now
        have noPages := pageResult.1.trans now
        rw [map_eq_none_iff] at noSlots noPages
        rw [noSlots, noPages]
        rfl
      | some account =>
        rw [committed_slot (touchedSlots_covers now address _) slotResult,
          committed_slot (touchedPages_covers now address) pageResult, same.slotOf]

theorem leafAt_page {address : Address} {delta : StateDelta}
    (slot : (leafAt (touchedSlots address delta) key).isSome) :
    (leafAt (touchedPages (loadStoragePage keccak pageEncoding pages) address delta)
      (computePageKey key)).isSome := by
  cases now : delta.account.2 with
  | none =>
    rw [touchedSlots, now] at slot
    cases slot
  | some account =>
    by_contra missing
    have covers : Covers keccak pageEncoding _ delta
      (touchedPages (loadStoragePage keccak pageEncoding pages) address delta) :=
      touchedPages_covers now address
    have unwritten := covers.others key (leafAt_none (not_isSome_iff_eq_none.mp missing))
    obtain ⟨leaf, there⟩ := isSome_iff_exists.mp slot
    obtain ⟨member, same⟩ := leafAt_some there
    obtain ⟨other, first, second, found, differs, rfl⟩ := (mem_touchedSlots now).mp member
    rw [← same, found, changedTo, if_pos differs] at unwritten
    cases unwritten

/-- Two databases with the same state have the same state after they have committed a block, and
the proposals that they record answer the reads of every slot alike; the pages answer for more
slots, and then as the database with the slots does. -/
theorem commits_agree (keccak : Nat → Hash) (collisionFree : Function.Injective keccak)
    (slots : StateTrie SlotLeaf) (pages : StateTrie PageLeaf) (same : SameState keccak slots pages)
    (block : BlockState) (produced : Produced (view keccak slotEncoding slots)
      (CreatesOnEmpty (view keccak slotEncoding slots)) block []) :
    ∃ (slots' : StateTrie SlotLeaf) (pages' : StateTrie PageLeaf),
      upsert (slotCommit keccak block.state).updates slots = .ok slots' ∧
      upsert (pageCommit keccak pages block.state).updates pages = .ok pages' ∧
      SameState keccak slots' pages' ∧
      (∀ address, (slotCommit keccak block.state).postState.tryReadAccount address =
        (pageCommit keccak pages block.state).postState.tryReadAccount address) ∧
      ∀ address incarnation key,
        ((slotCommit keccak block.state).postState.answer slotEncoding address incarnation
            key).getD (readStorage keccak slotEncoding slots' address key) =
          ((pageCommit keccak pages block.state).postState.answer pageEncoding address incarnation
            key).getD (readStorage keccak pageEncoding pages' address key) ∧
        ∀ value, (slotCommit keccak block.state).postState.answer slotEncoding address incarnation
            key = some value →
          (pageCommit keccak pages block.state).postState.answer pageEncoding address incarnation
            key = some value := by
  have sound := produced_sound produced
  obtain ⟨slots', slotRan, slotState⟩ := commit_state collisionFree
    (fun address delta found => touchedSlots_committable (sound address delta found) address)
  obtain ⟨pages', pageRan, pageState⟩ := commit_state collisionFree
    (fun address delta found => touchedPages_committable address
      (sound.toPages same address delta found))
  have after := CommittedState.same same slotState pageState
  have alike : ∀ address incarnation key,
      ((slotCommit keccak block.state).postState.answer slotEncoding address incarnation
          key).getD (readStorage keccak slotEncoding slots' address key) =
        ((pageCommit keccak pages block.state).postState.answer pageEncoding address incarnation
          key).getD (readStorage keccak pageEncoding pages' address key) := by
    intro address incarnation key
    rw [slotCommit, pageCommit, answer_getD touchedSlots_distinct slotState,
      answer_getD (touchedPages_distinct _) pageState, after.storage]
  refine ⟨slots', pages', slotRan, pageRan, after, ?_, fun address incarnation key =>
    ⟨alike address incarnation key, ?_⟩⟩
  · intro address
    exact (postState_account address).trans (postState_account address).symm
  · intro value answered
    have equal := alike address incarnation key
    rw [answered, getD_some] at equal
    have answers : ((pageCommit keccak pages block.state).postState.answer pageEncoding address
        incarnation key).isSome := by
      rw [slotCommit, answer_eq touchedSlots_distinct] at answered
      rw [pageCommit, answer_eq (touchedPages_distinct _)]
      cases found : block.state.lookup address with
      | none =>
        rw [found] at answered
        cases answered
      | some delta =>
        rw [found] at answered
        dsimp only at answered ⊢
        split at answered
        · rename_i current
          rw [if_pos current, isSome_map]
          obtain ⟨leaf, there, _⟩ := map_eq_some_iff.mp answered
          exact leafAt_page (isSome_of_eq_some there)
        · rename_i other
          rw [if_neg other]
          rfl
    obtain ⟨found, there⟩ := isSome_iff_exists.mp answers
    rw [there, equal, there, getD_some]

end Both

def sampleAccount : Account := { balance := 5 }

def sampleSlots : StateTrie SlotLeaf :=
  AList.singleton 7 ⟨(7, sampleAccount), AList.singleton 1 (1, 5)⟩

def samplePages : StateTrie PageLeaf :=
  AList.singleton 7 ⟨(7, sampleAccount), AList.singleton 0 (0, StoragePage.empty.set 1 5)⟩

theorem lookup_singleton_ne {V : Type} {place other : Nat} (value : V) (apart : other ≠ place) :
    lookup other (singleton place value : Map Nat V) = none :=
  lookup_eq_none.mpr fun member => apart (List.mem_singleton.mp member)

theorem sample_same : SameState id sampleSlots samplePages := by
  constructor
  · intro address
    unfold readAccount
    by_cases here : address = 7
    · rw [here]
      rfl
    · rw [sampleSlots, samplePages, id, lookup_singleton_ne _ here, lookup_singleton_ne _ here]
      rfl
  · intro address key
    rw [readStorage_eq, readStorage_eq]
    by_cases here : address = 7
    · subst here
      change (pageAt id slotEncoding (singleton 1 (1, 5)) key).get 0 =
        (pageAt id pageEncoding (singleton 0 (0, empty.set 1 5))
          (computePageKey key)).get (computeSlotOffset key)
      by_cases page : computePageKey key = 0
      · rw [page]
        change _ = (empty.set 1 5).get (computeSlotOffset key)
        rw [get_set, get_empty]
        by_cases slot : key = 1
        · subst slot
          decide
        · have other : computeSlotOffset key ≠ 1 := fun offset =>
            slot (key_eq_of_page (page.trans rfl) offset)
          rw [if_neg other, pageAt, id, lookup_singleton_ne _ slot]
          exact get_empty _
      · have slot : key ≠ 1 := fun same => page (by rw [same]; rfl)
        rw [pageAt, pageAt, id, id, lookup_singleton_ne _ slot, lookup_singleton_ne _ page,
          get_empty, get_empty]
    · rw [sampleSlots, samplePages, id, lookup_singleton_ne _ here, lookup_singleton_ne _ here]
      rfl

abbrev sampleView : Execution.Db := view id slotEncoding sampleSlots

def mergeRun (check : BlockState → Address → AccountState → Bool) (tx : Nat)
    (program : Program operations Unit) (reads : List Read) (block : BlockState) :
    Option BlockState :=
  match program.run (StateOver.interface (sampleConfig tx) VersionJournal.handler Script.world)
      (.fresh {} { ahead := reads }) with
  | .ok (_, state) =>
    match state.world.ahead, block.canMerge false state with
    | [], .ok (true, fixed) =>
      match BlockState.settled fixed.journal.current with
      | .ok [(place, written)] =>
        if check block place written then (block.mergeAccount place written).toOption
        else none
      | _ => none
    | _, _ => none
  | .error _ => none

theorem mergeRun_produced {db : Execution.Db} {allowed : BlockState → Address → AccountState → Prop}
    {check : BlockState → Address → AccountState → Bool}
    (permits : ∀ block address written, check block address written = true →
      allowed block address written)
    {tx : Nat} {program : Program operations Unit} {reads : List Read} {block after : BlockState}
    (produced : Produced db allowed block [])
    (merged : mergeRun check tx program reads block = some after) :
    Produced db allowed after [] := by
  unfold mergeRun at merged
  split at merged
  · split at merged
    · split at merged
      · rename_i place written accounts
        split at merged
        · rename_i checked
          cases stored : block.mergeAccount place written with
          | error reason =>
            rw [stored] at merged
            cases merged
          | ok final =>
            rw [stored] at merged
            cases merged
            exact .mergeAccount (.beginMerge produced accounts) stored
              (permits block place written checked)
        · cases merged
      · cases merged
    · cases merged
  · cases merged

def sampleStart : Option BlockState :=
  match (({} : BlockState).readAccount sampleView 7).2.readStorage sampleView 7 ⟨0, 0⟩ 1 with
  | .ok (_, block) => some block
  | .error _ => none

theorem sampleStart_produced {allowed : BlockState → Address → AccountState → Prop}
    {block : BlockState} (started : sampleStart = some block) :
    Produced sampleView allowed block [] := by
  unfold sampleStart at started
  split at started
  · rename_i value after read
    cases started
    exact .storage (.account 7 .start) read
  · cases started

def clearing : Program operations Unit := .step (.setStorage 7 1 0) fun _ => .done ()

def recreating : Program operations Unit :=
  .step (.createContract 7) fun _ => .step (.setStorage 7 2 9) fun _ => .done ()

/-- The slot is cleared, and then the account is created anew with another slot. -/
def recreated : Option BlockState :=
  sampleStart.bind fun block =>
    (mergeRun (fun _ _ _ => true) 1 clearing
      [.account 7 (some sampleAccount), .storage 7 ⟨0, 0⟩ 1 5] block).bind fun block =>
    mergeRun (fun _ _ _ => true) 2 recreating
      [.account 7 (some sampleAccount), .storage 7 ⟨1, 2⟩ 2 0] block

def committedPages (block : BlockState) : Option (Value × Value) :=
  (upsert (pageCommit id samplePages block.state).updates samplePages).toOption.map fun pages =>
    (readStorage id pageEncoding pages 7 1, readStorage id pageEncoding pages 7 2)

/-- Over an account with storage, the slots ask for the removal of a leaf that the new account
does not have, and the pages do not. -/
theorem recreation_disagrees : ∃ block pages,
    SameState id sampleSlots samplePages ∧ recreated = some block ∧
    Produced sampleView (fun _ _ _ => True) block [] ∧
    upsert (slotCommit id block.state).updates sampleSlots =
      .error "update.value.has_value()" ∧
    upsert (pageCommit id samplePages block.state).updates samplePages = .ok pages ∧
    readStorage id pageEncoding pages 7 2 = 9 := by
  have outcome : recreated.map (fun block =>
      (errorOf (upsert (slotCommit id block.state).updates sampleSlots), committedPages block)) =
      some (some "update.value.has_value()", some (0, 9)) := by
    decide +kernel
  obtain ⟨block, made, results⟩ := map_eq_some_iff.mp outcome
  obtain ⟨failed, committed⟩ := Prod.mk.inj results
  obtain ⟨pages, ran, values⟩ := map_eq_some_iff.mp committed
  obtain ⟨start, started, rest⟩ := bind_eq_some_iff.mp made
  obtain ⟨cleared, first, second⟩ := bind_eq_some_iff.mp rest
  have permits : ∀ (block : BlockState) (address : Address) (written : AccountState),
      true = true → True := fun _ _ _ _ => trivial
  have afterFirst := mergeRun_produced permits (sampleStart_produced started) first
  exact ⟨block, pages, sample_same, made, mergeRun_produced permits afterFirst second,
    eq_error_of failed, eq_ok_of ran, (Prod.mk.inj values).2⟩

def moving : Program operations Unit :=
  .step (.setStorage 7 1 0) fun _ => .step (.setStorage 7 2 9) fun _ => .done ()

def keepsIncarnation (block : BlockState) (address : Address) (written : AccountState) : Bool :=
  written.account.map (·.incarnation) =
    ((block.state.lookup address).bind (·.account.2)).map (·.incarnation)

theorem createsOnEmpty_of_keeps {db : Execution.Db} (block : BlockState) (address : Address)
    (written : AccountState) (keeps : keepsIncarnation block address written = true) :
    CreatesOnEmpty db block address written := by
  intro delta before account found current now differs
  have same := of_decide_eq_true keeps
  rw [found, now, bind_some, current] at same
  exact absurd (some.inj same).symm differs

def moved : Option BlockState :=
  sampleStart.bind (mergeRun keepsIncarnation 1 moving
    [.account 7 (some sampleAccount), .storage 7 ⟨0, 0⟩ 1 5, .storage 7 ⟨0, 0⟩ 2 0])

theorem commits_agree_moved : ∃ (block : BlockState) (slots : StateTrie SlotLeaf)
    (pages : StateTrie PageLeaf),
    upsert (slotCommit id block.state).updates sampleSlots = .ok slots ∧
    upsert (pageCommit id samplePages block.state).updates samplePages = .ok pages ∧
    SameState id slots pages ∧
    readStorage id slotEncoding slots 7 1 = 0 ∧ readStorage id slotEncoding slots 7 2 = 9 := by
  have outcome : moved.map committedPages = some (some (0, 9)) := by decide +kernel
  obtain ⟨block, made, committed⟩ := map_eq_some_iff.mp outcome
  obtain ⟨start, started, merged⟩ := bind_eq_some_iff.mp made
  have produced : Produced sampleView (CreatesOnEmpty sampleView) block [] :=
    mergeRun_produced createsOnEmpty_of_keeps (sampleStart_produced started) merged
  obtain ⟨slots, pages, slotRan, pageRan, same, _⟩ := commits_agree id Function.injective_id
    sampleSlots samplePages sample_same block produced
  obtain ⟨again, ran, values⟩ := map_eq_some_iff.mp committed
  have only : again = pages := Except.ok.inj ((eq_ok_of ran).symm.trans pageRan)
  subst only
  obtain ⟨first, second⟩ := Prod.mk.inj values
  exact ⟨block, slots, again, slotRan, pageRan, same, (same.storage 7 1).trans first,
    (same.storage 7 2).trans second⟩

end MonadChain.Db
