import MonadChain.Db.CommitRefinement

/-!
The slots after a commit. Both builders leave every slot with the value that the block has given
to it, or with the one that it had.
-/

namespace MonadChain.Db

open Execution AList StoragePage List

def changedTo : Option (Value × Value) → Option Value
  | some (first, second) => if first ≠ second then some second else none
  | none => none

theorem changedTo_ne_none {slot : Option (Value × Value)} (changes : changedTo slot ≠ none) :
    ∃ first second, slot = some (first, second) ∧ first ≠ second := by
  match slot with
  | none => exact absurd rfl changes
  | some (first, second) =>
    refine ⟨first, second, rfl, fun same => changes ?_⟩
    rw [changedTo, if_neg (not_not_intro same)]

def committedSlot (delta : StateDelta) (before : Value) (key : Key) : Value :=
  (changedTo (delta.storage.lookup key)).getD (if reincarnated delta then 0 else before)

/-- A delta as the block state makes it: it starts from the account of the database, and a slot
that does not start from zero is one that the account had, and still has. -/
structure SoundDelta (account : Option Account) (stored : Key → Value) (delta : StateDelta) :
    Prop where
  started : delta.account.1 = account
  slots : ∀ key first second, delta.storage.lookup key = some (first, second) → first ≠ 0 →
    first = stored key ∧
      delta.account.1.map (·.incarnation) = delta.account.2.map (·.incarnation)

section Values

variable {L : Type} {keccak : Nat → Hash} {encoding : Encoding L} {delta : StateDelta}

structure Covers (keccak : Nat → Hash) (encoding : Encoding L) (base : Map Hash L)
    (delta : StateDelta) (touched : List (TouchedLeaf L)) : Prop where
  written : ∀ leaf ∈ touched, ∀ key, encoding.lookupKey key = leaf.key →
    leaf.page.get (encoding.lookupOffset key) = (changedTo (delta.storage.lookup key)).getD
      ((pageAt keccak encoding base leaf.key).get (encoding.lookupOffset key))
  others : ∀ key, encoding.lookupKey key ∉ touched.map TouchedLeaf.key →
    changedTo (delta.storage.lookup key) = none

theorem Covers.value {base storage : Map Hash L} {touched : List (TouchedLeaf L)}
    (covers : Covers keccak encoding base delta touched)
    (holds : Holds keccak encoding base touched storage) (key : Key) :
    (pageAt keccak encoding storage (encoding.lookupKey key)).get (encoding.lookupOffset key) =
      (changedTo (delta.storage.lookup key)).getD
        ((pageAt keccak encoding base (encoding.lookupKey key)).get
          (encoding.lookupOffset key)) := by
  by_cases member : encoding.lookupKey key ∈ touched.map TouchedLeaf.key
  · obtain ⟨leaf, there, same⟩ := mem_map.mp member
    rw [← same, holds.changed leaf there, covers.written leaf there key same.symm]
  · rw [holds.kept _ member, covers.others key member]
    rfl

def slotOf (keccak : Nat → Hash) (encoding : Encoding L) (leaf : Option (AccountLeaf L))
    (key : Key) : Value :=
  match leaf with
  | some leaf => (pageAt keccak encoding leaf.storage (encoding.lookupKey key)).get
      (encoding.lookupOffset key)
  | none => 0

theorem readStorage_eq (trie : StateTrie L) (address : Address) (key : Key) :
    readStorage keccak encoding trie address key =
      slotOf keccak encoding (trie.lookup (keccak address)) key := by
  unfold readStorage loadStoragePage slotOf
  cases trie.lookup (keccak address) with
  | some leaf => rfl
  | none => exact get_empty _

theorem pageAt_empty (key : Key) : pageAt keccak encoding ∅ key = .empty := by
  rw [pageAt, lookup_empty]

theorem pageAt_base (old : Option (AccountLeaf L)) (delta : StateDelta) (key : Key) :
    (pageAt keccak encoding (baseStorage old delta) (encoding.lookupKey key)).get
        (encoding.lookupOffset key) =
      if reincarnated delta then 0 else slotOf keccak encoding old key := by
  cases old with
  | none =>
    rw [baseStorage, pageAt_empty, get_empty, slotOf, ite_self]
  | some leaf =>
    rw [baseStorage]
    split
    · rw [pageAt_empty, get_empty]
    · rfl

theorem committed_slot {old new : Option (AccountLeaf L)} {touched : List (TouchedLeaf L)}
    (covers : Covers keccak encoding (baseStorage old delta) delta touched)
    (committed : Committed keccak encoding old delta touched new) (key : Key) :
    slotOf keccak encoding new key =
      if delta.account.2.isSome then committedSlot delta (slotOf keccak encoding old key) key
      else 0 := by
  rw [← committed.1]
  cases new with
  | none => rfl
  | some leaf =>
    have value := covers.value (committed.2 leaf rfl) key
    rw [pageAt_base] at value
    exact value

theorem slot_present {old : Option (AccountLeaf L)} {key : Key} {first second : Value}
    (sound : SoundDelta (old.map (·.account.2)) (slotOf keccak encoding old) delta)
    (found : delta.storage.lookup key = some (first, second)) (started : first ≠ 0) :
    ((baseStorage old delta).lookup (keccak (encoding.lookupKey key))).isSome := by
  obtain ⟨stored, kept⟩ := sound.slots key first second found started
  have same : reincarnated delta = false := by
    unfold reincarnated
    split
    · rename_i before after accounts
      rw [accounts] at kept
      exact decide_eq_false (not_not_intro (Option.some.inj kept))
    · rfl
  have value : (pageAt keccak encoding (baseStorage old delta) (encoding.lookupKey key)).get
      (encoding.lookupOffset key) = _ := pageAt_base old delta key
  rw [same, ← stored] at value
  cases there : (baseStorage old delta).lookup (keccak (encoding.lookupKey key)) with
  | some leaf => rfl
  | none =>
    rw [pageAt, there] at value
    exact absurd ((get_empty _).symm.trans value).symm started

end Values

section Slots

variable {keccak : Nat → Hash} {delta : StateDelta} {account : Account}

theorem mem_touchedSlots (now : delta.account.2 = some account) {address : Address}
    {leaf : TouchedLeaf SlotLeaf} :
    leaf ∈ touchedSlots address delta ↔ ∃ key first second,
      delta.storage.lookup key = some (first, second) ∧ first ≠ second ∧
        leaf = ⟨key, .single second, if second = 0 then none else some (key, second)⟩ := by
  unfold touchedSlots
  rw [now]
  rw [mem_filterMap]
  constructor
  · rintro ⟨⟨key, first, second⟩, member, touched⟩
    unfold touchedSlot at touched
    split at touched
    · rename_i differs
      exact ⟨key, first, second, mem_lookup_iff.mpr member, differs,
        (Option.some.inj touched).symm⟩
    · cases touched
  · rintro ⟨key, first, second, found, differs, rfl⟩
    exact ⟨⟨key, first, second⟩, mem_lookup_iff.mp found, if_pos differs⟩

theorem touchedSlots_distinct (address : Address) (delta : StateDelta) :
    ((touchedSlots address delta).map TouchedLeaf.key).Nodup := by
  unfold touchedSlots
  split
  · have keyed : ∀ (slot : Sigma fun _ : Key => Value × Value) (leaf : TouchedLeaf SlotLeaf),
        touchedSlot slot.1 slot.2 = some leaf → leaf.key = slot.1 := by
      intro slot leaf touched
      unfold touchedSlot at touched
      split at touched
      · cases touched
        rfl
      · cases touched
    exact nodup_filterMap keyed delta.storage.keys_nodup
  · exact nodup_nil

theorem touchedSlots_covers (now : delta.account.2 = some account) (address : Address)
    (base : Map Hash SlotLeaf) :
    Covers keccak slotEncoding base delta (touchedSlots address delta) := by
  constructor
  · intro leaf member key same
    obtain ⟨slot, first, second, found, differs, rfl⟩ := (mem_touchedSlots now).mp member
    have here : key = slot := same
    rw [here, found, changedTo, if_pos differs]
    exact get_single second
  · intro key untouched
    by_contra changes
    obtain ⟨first, second, found, differs⟩ := changedTo_ne_none changes
    exact untouched (mem_map.mpr
      ⟨_, (mem_touchedSlots now).mpr ⟨key, first, second, found, differs, rfl⟩, rfl⟩)

theorem touchedSlots_committable {old : Option (AccountLeaf SlotLeaf)}
    (sound : SoundDelta (old.map (·.account.2)) (slotOf keccak slotEncoding old) delta)
    (address : Address) :
    Committable keccak slotEncoding old delta (touchedSlots address delta) where
  started := sound.started
  distinct := touchedSlots_distinct address delta
  gone now := by rw [touchedSlots, now]
  fits leaf member := by
    cases now : delta.account.2 with
    | none =>
      rw [touchedSlots, now] at member
      exact absurd member not_mem_nil
    | some account =>
      obtain ⟨key, first, second, found, differs, rfl⟩ := (mem_touchedSlots now).mp member
      refine TouchedLeaf.fits_of rfl ?_
      rintro rfl
      refine ⟨slot_present sound found differs, ?_⟩
      intro offset
      rw [single, get_set, get_empty, ite_self]

end Slots

section Pages

variable {keccak : Nat → Hash} {readPage : Key → StoragePage}
  {slots : List (Sigma fun _ : Key => Value × Value)}

theorem key_eq_of_page {key other : Nat} (page : computePageKey key = computePageKey other)
    (offset : computeSlotOffset key = computeSlotOffset other) : key = other := by
  have low : key % 128 = other % 128 := congrArg Fin.val offset
  have high : key / 128 = other / 128 := by
    simpa only [computePageKey, Nat.shiftRight_eq_div_pow] using page
  omega

def openPage (readPage : Key → StoragePage) (pages : Map Key StoragePage) (key : Key) :
    StoragePage :=
  (pages.lookup (computePageKey key)).getD (readPage (computePageKey key))

theorem openPage_insert {pages : Map Key StoragePage} (slot key : Key) (value : Value) :
    (openPage readPage (pages.insert (computePageKey slot)
        ((openPage readPage pages slot).set (computeSlotOffset slot) value)) key).get
          (computeSlotOffset key) =
      if key = slot then value else (openPage readPage pages key).get (computeSlotOffset key) := by
  by_cases page : computePageKey key = computePageKey slot
  · have opened : openPage readPage (pages.insert (computePageKey slot)
        ((openPage readPage pages slot).set (computeSlotOffset slot) value)) key =
        (openPage readPage pages key).set (computeSlotOffset slot) value := by
      unfold openPage
      rw [page, lookup_insert]
      rfl
    rw [opened, get_set]
    by_cases same : key = slot
    · rw [if_pos same, if_pos (congrArg computeSlotOffset same)]
    · rw [if_neg same, if_neg fun offset => same (key_eq_of_page page offset)]
  · rw [if_neg fun same => page (congrArg computePageKey same)]
    unfold openPage
    rw [lookup_insert_ne page]

theorem writePages_get (distinct : slots.NodupKeys) (pages : Map Key StoragePage) (key : Key) :
    (openPage readPage (writePages readPage slots pages) key).get (computeSlotOffset key) =
      (changedTo (slots.dlookup key)).getD
        ((openPage readPage pages key).get (computeSlotOffset key)) := by
  induction slots generalizing pages with
  | nil => rfl
  | cons slot rest ih =>
    obtain ⟨slotKey, first, second⟩ := slot
    rw [nodupKeys_cons] at distinct
    by_cases same : key = slotKey
    · subst same
      have last : rest.dlookup key = none := dlookup_eq_none.mpr distinct.1
      rw [dlookup_cons_eq, writePages]
      split
      · rename_i differs
        rw [ih distinct.2, last, changedTo, changedTo, if_pos differs]
        exact (openPage_insert key key second).trans (if_pos rfl)
      · rename_i unchanged
        rw [ih distinct.2, last, changedTo, changedTo, if_neg unchanged]
    · rw [dlookup_cons_ne rest ⟨slotKey, first, second⟩ same, writePages]
      split
      · rw [ih distinct.2]
        congr 1
        exact (openPage_insert slotKey key second).trans (if_neg same)
      · exact ih distinct.2 pages

theorem mem_writePages (pages : Map Key StoragePage) (pageKey : Key) :
    pageKey ∈ writePages readPage slots pages ↔ pageKey ∈ pages ∨
      ∃ slot ∈ slots, slot.2.1 ≠ slot.2.2 ∧ computePageKey slot.1 = pageKey := by
  induction slots generalizing pages with
  | nil => simp [writePages]
  | cons slot rest ih =>
    rw [writePages]
    split
    · rename_i differs
      rw [ih, mem_insert, exists_mem_cons_iff]
      constructor
      · rintro ((same | there) | later)
        · exact Or.inr (Or.inl ⟨differs, same.symm⟩)
        · exact Or.inl there
        · exact Or.inr (Or.inr later)
      · rintro (there | here | later)
        · exact Or.inl (Or.inr there)
        · exact Or.inl (Or.inl here.2.symm)
        · exact Or.inr later
    · rename_i unchanged
      rw [ih, exists_mem_cons_iff]
      constructor
      · rintro (there | later)
        · exact Or.inl there
        · exact Or.inr (Or.inr later)
      · rintro (there | here | later)
        · exact Or.inl there
        · exact absurd here.1 unchanged
        · exact Or.inr later

variable {delta : StateDelta} {account : Account}

/-- The pages before the changes: none of an account that is re-created. -/
def startPages (readPage : Address → Key → StoragePage) (address : Address) (delta : StateDelta) :
    Key → StoragePage :=
  if reincarnated delta then fun _ => StoragePage.empty else readPage address

variable {read : Address → Key → StoragePage} {address : Address} {page : StoragePage}
  {pageKey : Key}

theorem mem_touchedPages (now : delta.account.2 = some account) {leaf : TouchedLeaf PageLeaf} :
    leaf ∈ touchedPages read address delta ↔ ∃ pageKey page,
      (writePages (startPages read address delta) delta.storage.entries ∅).lookup pageKey =
        some page ∧ leaf = touchedPage pageKey page := by
  unfold touchedPages startPages
  rw [now]
  rw [mem_map]
  constructor
  · rintro ⟨entry, member, rfl⟩
    exact ⟨entry.1, entry.2, mem_lookup_iff.mpr member, rfl⟩
  · rintro ⟨pageKey, page, found, rfl⟩
    exact ⟨⟨pageKey, page⟩, mem_lookup_iff.mp found, rfl⟩

theorem touchedPages_distinct (read : Address → Key → StoragePage) (address : Address)
    (delta : StateDelta) : ((touchedPages read address delta).map TouchedLeaf.key).Nodup := by
  unfold touchedPages
  split
  · rw [map_map]
    exact keys_nodup _
  · exact nodup_nil

section

variable (found : (writePages (startPages read address delta) delta.storage.entries ∅).lookup
  pageKey = some page)

include found

theorem writtenPage_get {key : Key} (same : computePageKey key = pageKey) :
    page.get (computeSlotOffset key) = (changedTo (delta.storage.lookup key)).getD
      ((startPages read address delta pageKey).get (computeSlotOffset key)) := by
  have value : (openPage (startPages read address delta) (writePages (startPages read address delta)
      delta.storage.entries ∅) key).get (computeSlotOffset key) = _ :=
    writePages_get delta.storage.nodupKeys ∅ key
  unfold openPage at value
  rw [same, found, lookup_empty] at value
  exact value

theorem changed_of_page :
    ∃ key first second, delta.storage.lookup key = some (first, second) ∧ first ≠ second ∧
      computePageKey key = pageKey := by
  have member : pageKey ∈ writePages (startPages read address delta) delta.storage.entries ∅ :=
    lookup_isSome.mp (found ▸ rfl)
  obtain nothing | ⟨⟨key, first, second⟩, there, differs, page⟩ :=
    (mem_writePages ∅ pageKey).mp member
  · exact absurd nothing (notMem_empty _)
  · exact ⟨key, first, second, mem_lookup_iff.mpr there, differs, page⟩

end

variable {trie : StateTrie PageLeaf}

theorem startPages_eq (address : Address) (delta : StateDelta) (pageKey : Key) :
    startPages (loadStoragePage keccak pageEncoding trie) address delta pageKey =
      pageAt keccak pageEncoding (baseStorage (trie.lookup (keccak address)) delta) pageKey := by
  unfold startPages loadStoragePage baseStorage
  cases trie.lookup (keccak address) with
  | none =>
    rw [pageAt_empty, ite_apply, ite_self]
  | some leaf =>
    by_cases again : reincarnated delta = true
    · simp only [if_pos again, pageAt_empty]
    · simp only [if_neg again]

theorem touchedPages_covers (now : delta.account.2 = some account) (address : Address) :
    Covers keccak pageEncoding (baseStorage (trie.lookup (keccak address)) delta) delta
      (touchedPages (loadStoragePage keccak pageEncoding trie) address delta) := by
  constructor
  · intro leaf member key same
    obtain ⟨pageKey, page, found, rfl⟩ := (mem_touchedPages now).mp member
    rw [← startPages_eq]
    exact writtenPage_get found same
  · intro key untouched
    by_contra changes
    obtain ⟨first, second, found, differs⟩ := changedTo_ne_none changes
    have written : computePageKey key ∈ writePages (startPages (loadStoragePage keccak
        pageEncoding trie) address delta) delta.storage.entries ∅ :=
      (mem_writePages ∅ _).mpr (Or.inr ⟨⟨key, first, second⟩, mem_lookup_iff.mp found,
        differs, rfl⟩)
    obtain ⟨page, there⟩ := Option.isSome_iff_exists.mp (lookup_isSome.mpr written)
    exact untouched (mem_map.mpr ⟨_, (mem_touchedPages now).mpr ⟨_, page, there, rfl⟩, rfl⟩)

theorem touchedPages_committable (address : Address)
    (sound : SoundDelta ((trie.lookup (keccak address)).map (·.account.2))
      (slotOf keccak pageEncoding (trie.lookup (keccak address))) delta) :
    Committable keccak pageEncoding (trie.lookup (keccak address)) delta
      (touchedPages (loadStoragePage keccak pageEncoding trie) address delta) where
  started := sound.started
  distinct := touchedPages_distinct _ address delta
  gone now := by rw [touchedPages, now]
  fits leaf member := by
    cases now : delta.account.2 with
    | none =>
      rw [touchedPages, now] at member
      exact absurd member not_mem_nil
    | some account =>
      obtain ⟨pageKey, page, found, rfl⟩ := (mem_touchedPages now).mp member
      refine TouchedLeaf.fits_of rfl fun empty => ?_
      have zero := page.isEmpty_iff.mp empty
      refine ⟨?_, zero⟩
      -- The page has lost its last slot, and the slot was in the trie.
      obtain ⟨key, first, second, slot, differs, rfl⟩ := changed_of_page found
      have value := writtenPage_get found rfl
      rw [zero, slot, changedTo, if_pos differs] at value
      have cleared : second = 0 := value.symm
      exact slot_present sound slot (cleared ▸ differs)

end Pages

end MonadChain.Db
