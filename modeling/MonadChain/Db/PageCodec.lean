import MonadChain.Db.Commit
import MonadChain.Db.PageBits
import MonadChain.Rlp.Fields

/-!
monad/db/storage_page.cpp: the bytes of a storage page. A page is written as the pairs of its
offsets and values, and read back by setting them one after the other.
-/

namespace MonadChain.Db

open Execution (Key Value computePageKey)
open Rlp (Decoder Stop)
open Scanner StoragePage List

variable {enc rest : Bytes} {page result : StoragePage} {fuel : Nat} {first : Bool}
  {prevIndex index : UInt8}

/-! bytes_rlp.hpp -/

def encodeBytes32Compact (value : Value) : Bytes :=
  Rlp.encodeString2 (toBigCompact 32 value)

def decodeBytes32Compact : Decoder Value := do
  let payload ← Rlp.decodeString
  Rlp.failIf (32 < payload.length) .inputTooLong
  Rlp.failIf (payload ≠ [] ∧ payload.headD 0 = 0) .nonCanonical
  return loadBe payload

/-! storage_page.cpp -/

/-- The loop over the bits of the page, with the values that are still to come. -/
def encodePairs : Nat → Bitmap → List Value → Bytes
  | 0, _, _ => []
  | fuel + 1, bits, values =>
    if bits = 0 then []
    else UInt8.ofNat bits.lowestOffset ::
      (encodeBytes32Compact (values.headD 0) ++ encodePairs fuel bits.clearLowest values.tail)

def encodeStoragePage (page : StoragePage) : Bytes := encodePairs 128 page.bitmap page.values

/-- The loop of the decoder, with `first` and `prev_index`. -/
def decodePairs : Nat → Bool → UInt8 → StoragePage → Bytes → Except Stop StoragePage
  | _, _, _, page, [] => .ok page
  | 0, _, _, _, _ :: _ => .error .unfinished
  | fuel + 1, first, prevIndex, page, index :: enc =>
    if inside : index.toNat < 128 then
      if first = false ∧ index ≤ prevIndex then .error (.decode .nonCanonical)
      else
        match decodeBytes32Compact enc with
        | .error fault => .error fault
        | .ok (value, rest) =>
          if value = 0 then .error (.decode .nonCanonical)
          else decodePairs fuel false index (page.set ⟨index.toNat, inside⟩ value) rest
    else .error (.decode .nonCanonical)

/-- Every round takes at least one byte. -/
def decodeStoragePage (enc : Bytes) : Except Stop StoragePage :=
  decodePairs enc.length true 0 .empty enc

theorem decodeBytes32Compact_exact :
    Exact decodeBytes32Compact encodeBytes32Compact (fun value => value < 2 ^ 256) := by
  intro input value rest
  have power : 2 ^ 256 = 256 ^ 32 := by decide
  rw [decodeBytes32Compact, Rlp.decodeString, Rlp.parseStringMetadata_exact.bind]
  constructor
  · rintro ⟨payload, middle, -, split, checked⟩
    obtain ⟨short, checked⟩ := Rlp.accepts_failIf.mp checked
    obtain ⟨stripped, done⟩ := Rlp.accepts_failIf.mp checked
    obtain ⟨rfl, rfl⟩ := accepts_pure.mp done
    have minimal : Minimal payload := by
      intro zero
      cases payload with
      | nil => cases zero
      | cons byte bytes => exact stripped ⟨cons_ne_nil _ _, Option.some.inj zero⟩
    have length : payload.length ≤ 32 := Nat.le_of_not_lt short
    have small : payload.length < 2 ^ 32 := by omega
    refine ⟨?_, ?_⟩
    · rw [power]
      exact Nat.lt_of_lt_of_le (loadBe_lt payload) (Nat.pow_le_pow_right (by decide) length)
    · rw [encodeBytes32Compact, toBigCompact_loadBe minimal length, Rlp.encodeString2_eq small]
      exact split
  · rintro ⟨fits, split⟩
    have length := length_toBigCompact_le 32 value
    have small : (toBigCompact 32 value).length < 2 ^ 32 := by omega
    rw [encodeBytes32Compact, Rlp.encodeString2_eq small] at split
    refine ⟨toBigCompact 32 value, rest, Rlp.sizeable_stringItem small, split, ?_⟩
    refine Rlp.accepts_failIf.mpr ⟨Nat.not_lt.mpr length, Rlp.accepts_failIf.mpr ⟨?_, ?_⟩⟩
    · rintro ⟨some_byte, zero⟩
      apply toBigCompact_minimal 32 value
      cases bytes : toBigCompact 32 value with
      | nil => exact absurd bytes some_byte
      | cons byte rest =>
        rw [bytes] at zero
        exact congrArg some zero
    · have back : loadBe (toBigCompact 32 value) = value :=
        loadBe_toBigCompact (Nat.lt_of_lt_of_eq fits power)
      exact accepts_pure.mpr ⟨back, rfl⟩

theorem decodeBytes32Compact_ok {value : Value} :
    decodeBytes32Compact enc = .ok (value, rest) ↔
      value < 2 ^ 256 ∧ enc = encodeBytes32Compact value ++ rest :=
  decodeBytes32Compact_exact enc value rest

abbrev Pair : Type := Fin 128 × Value

def Pair.Valid (pair : Pair) : Prop := pair.2 ≠ 0 ∧ pair.2 < 2 ^ 256

def Pair.item (pair : Pair) : Bytes :=
  UInt8.ofNat pair.1 :: encodeBytes32Compact pair.2

namespace StoragePage

section

variable (page : StoragePage)

def pairs : List Pair :=
  ((List.finRange 128).filter page.hasBit).map fun offset => (offset, page.get offset)

def setAll (pairs : List Pair) : StoragePage :=
  pairs.foldl (fun page pair => page.set pair.1 pair.2) page

theorem offsets_eq : page.bitmap.offsets = ((finRange 128).filter page.hasBit).map (·.val) := by
  unfold Bitmap.offsets
  rw [← map_coe_finRange_eq_range, filter_map]
  rfl

theorem values_eq : page.values = page.pairs.map (·.2) := by
  have numbered : page.values =
      page.bitmap.offsets.map fun i => page.values.getD (page.bitmap.below i) 0 := by
    rw [← Function.comp_def (fun place => page.values.getD place 0), ← map_map,
      Bitmap.map_below_offsets, ← page.sized]
    apply ext_getElem
    · simp
    · intro place inside _
      simp [getD_eq_getElem?_getD, inside]
  rw [numbered, offsets_eq, pairs, map_map, map_map]
  apply map_congr_left
  intro offset member
  have bit : page.hasBit offset = true := (mem_filter.mp member).2
  simp [get, bit, denseIndex]

theorem values_ascending : page.values = ((finRange 128).map page.get).filter (· ≠ 0) := by
  rw [values_eq, pairs, map_map, filter_map]
  congr 1
  apply filter_congr
  intro offset _
  rw [Bool.eq_iff_iff, hasBit_iff, Function.comp_apply, decide_eq_true_iff]

end

theorem ext_get {other : StoragePage} (same : ∀ offset, page.get offset = other.get offset) :
    page = other := by
  have bits : ∀ offset, page.hasBit offset = other.hasBit offset := by
    intro offset
    rw [Bool.eq_iff_iff, hasBit_iff, hasBit_iff, same]
  have bitmap : page.bitmap = other.bitmap := by
    apply BitVec.eq_of_getLsbD_eq
    intro i inside
    exact bits ⟨i, inside⟩
  have values : page.values = other.values := by
    rw [values_eq, values_eq, pairs, pairs, funext bits, funext same]
  cases page
  cases other
  cases bitmap
  cases values
  rfl

theorem mem_pairs {pair : Pair} : pair ∈ page.pairs ↔ pair.2 ≠ 0 ∧ page.get pair.1 = pair.2 := by
  unfold pairs
  rw [mem_map]
  constructor
  · rintro ⟨offset, member, rfl⟩
    have bit : page.hasBit offset = true := (mem_filter.mp member).2
    exact ⟨page.get_ne_zero bit, rfl⟩
  · rintro ⟨written, stored⟩
    refine ⟨pair.1, mem_filter.mpr ⟨mem_finRange _, ?_⟩, Prod.ext rfl stored⟩
    rw [hasBit_iff, stored]
    exact written

def Ascending (pairs : List Pair) : Prop := pairs.Pairwise fun first second => first.1 < second.1

theorem pairs_ascending (page : StoragePage) : Ascending page.pairs := by
  unfold Ascending pairs
  rw [pairwise_map]
  exact (pairwise_lt_finRange 128).filter _

theorem setAll_cons (page : StoragePage) (pair : Pair) (pairs : List Pair) :
    page.setAll (pair :: pairs) = (page.set pair.1 pair.2).setAll pairs := rfl

theorem get_setAll (page : StoragePage) (writes : List Pair) :
    (page.setAll writes).get =
      writes.foldl (fun slots write => Function.update slots write.1 write.2) page.get := by
  induction writes generalizing page with
  | nil => rfl
  | cons write writes ih =>
    rw [setAll_cons, ih, foldl_cons]
    congr 1
    funext other
    rw [get_set, Function.update_apply]

variable {pairs : List Pair}

theorem get_setAll_absent {offset : Fin 128} (absent : ∀ pair ∈ pairs, pair.1 ≠ offset) :
    (page.setAll pairs).get offset = page.get offset := by
  induction pairs generalizing page with
  | nil => rfl
  | cons pair pairs ih =>
    obtain ⟨differs, others⟩ := forall_mem_cons.mp absent
    rw [setAll_cons, ih others, get_set, if_neg differs.symm]

theorem get_setAll_member (ascending : Ascending pairs) {pair : Pair} (member : pair ∈ pairs) :
    (page.setAll pairs).get pair.1 = pair.2 := by
  induction pairs generalizing page with
  | nil => cases member
  | cons first pairs ih =>
    obtain ⟨above, rest⟩ := pairwise_cons.mp ascending
    rw [setAll_cons]
    rcases mem_cons.mp member with rfl | later
    · rw [get_setAll_absent fun other known => (Fin.ne_of_lt (above other known)).symm,
        get_set, if_pos rfl]
    · exact ih rest later

theorem setAll_pairs (page : StoragePage) : empty.setAll page.pairs = page := by
  apply ext_get
  intro offset
  by_cases written : page.get offset = 0
  · rw [get_setAll_absent, get_empty, written]
    rintro pair member rfl
    obtain ⟨nonzero, stored⟩ := mem_pairs.mp member
    exact nonzero (stored.symm.trans written)
  · have member : (offset, page.get offset) ∈ page.pairs := mem_pairs.mpr ⟨written, rfl⟩
    exact get_setAll_member page.pairs_ascending member

theorem pairs_setAll (ascending : Ascending pairs) (written : ∀ pair ∈ pairs, pair.2 ≠ 0) :
    (empty.setAll pairs).pairs = pairs := by
  have nodup : ∀ {list : List Pair}, Ascending list → list.Nodup := by
    intro list sorted
    refine List.Pairwise.imp (fun order same => ?_) sorted
    rw [same] at order
    exact lt_irrefl _ order
  have same : (empty.setAll pairs).pairs.Perm pairs := by
    rw [perm_ext_iff_of_nodup (nodup (pairs_ascending _)) (nodup ascending)]
    intro pair
    rw [mem_pairs]
    constructor
    · rintro ⟨nonzero, stored⟩
      by_contra missing
      apply nonzero
      rw [← stored, get_setAll_absent, get_empty]
      intro other member offset
      have value : (empty.setAll pairs).get other.1 = other.2 :=
        get_setAll_member ascending member
      rw [offset, stored] at value
      exact missing (Prod.ext offset.symm value ▸ member)
    · intro member
      exact ⟨written pair member, get_setAll_member ascending member⟩
  exact same.eq_of_pairwise (fun first second _ _ one two => absurd one (lt_asymm two))
    (pairs_ascending _) ascending

def Fits (page : StoragePage) : Prop := ∀ value ∈ page.values, value < 2 ^ 256

end StoragePage

open StoragePage (Ascending Fits)

theorem encodePairs_eq (fuel : Nat) (bits : Bitmap) (values : List Value)
    (enough : bits.offsets.length ≤ fuel) (sized : values.length = bits.offsets.length) :
    encodePairs fuel bits values = (bits.offsets.zip values).flatMap fun pair =>
      UInt8.ofNat pair.1 :: encodeBytes32Compact pair.2 := by
  induction fuel generalizing bits values with
  | zero =>
    rw [eq_nil_of_length_eq_zero (Nat.le_zero.mp enough)]
    rfl
  | succ fuel ih =>
    rw [encodePairs]
    by_cases none_left : bits = 0
    · rw [if_pos none_left, none_left, Bitmap.offsets_zero]
      rfl
    · rw [if_neg none_left]
      rw [Bitmap.offsets_cons none_left] at enough sized ⊢
      cases values with
      | nil => cases sized
      | cons value values =>
        have rest : values.length = bits.clearLowest.offsets.length := Nat.succ.inj sized
        rw [zip_cons_cons, flatMap_cons, headD_cons, tail_cons,
          ih _ _ (Nat.le_of_succ_le_succ enough) rest]
        rfl

theorem encodeStoragePage_eq (page : StoragePage) :
    encodeStoragePage page = page.pairs.flatMap Pair.item := by
  have offsets : page.bitmap.offsets = page.pairs.map fun pair => (pair.1 : Nat) := by
    rw [page.offsets_eq, pairs, map_map]
    rfl
  have enough : page.bitmap.offsets.length ≤ 128 := by
    have kept := length_filter_le (fun i => page.bitmap.getLsbD i) (range 128)
    exact kept
  have sized : page.values.length = page.bitmap.offsets.length := by
    rw [page.values_eq, offsets, length_map, length_map]
  rw [encodeStoragePage, encodePairs_eq 128 _ _ enough sized, offsets, page.values_eq,
    zip_map', flatMap_map]
  rfl

theorem uint8_ofNat_offset (offset : Fin 128) : (UInt8.ofNat offset).toNat = offset := by
  rw [UInt8.toNat_ofNat']
  omega

/-- What the decoder asks of a pair after an optional index. -/
def Follows (first : Bool) (prevIndex : UInt8) (pair : Pair) : Prop :=
  first = false → prevIndex.toNat < pair.1

theorem decodePairs_cons :
    decodePairs (fuel + 1) first prevIndex page (index :: enc) = .ok result ↔
      ∃ (pair : Pair) (rest : Bytes), index :: enc = pair.item ++ rest ∧
        pair.Valid ∧ Follows first prevIndex pair ∧
        decodePairs fuel false (UInt8.ofNat pair.1) (page.set pair.1 pair.2) rest = .ok result := by
  constructor
  · intro decoded
    rw [decodePairs] at decoded
    split at decoded
    · rename_i inside
      split at decoded
      · cases decoded
      · rename_i ascends
        split at decoded
        · cases decoded
        · rename_i value rest read
          split at decoded
          · cases decoded
          · rename_i written
            rw [decodeBytes32Compact_ok] at read
            have fits := read.1
            have back : UInt8.ofNat index.toNat = index := UInt8.ofNat_toNat
            refine ⟨(⟨index.toNat, inside⟩, value), rest, ?_, ⟨written, fits⟩, ?_, ?_⟩
            · rw [read.2]
              simp only [Pair.item, back, cons_append]
            · intro later
              apply Nat.lt_of_not_le
              intro before
              exact ascends ⟨later, UInt8.le_iff_toNat_le.mpr before⟩
            · simp only [back]
              exact decoded
    · cases decoded
  · rintro ⟨pair, rest, split, valid, follows, decoded⟩
    have parts : index = UInt8.ofNat pair.1 ∧ enc = encodeBytes32Compact pair.2 ++ rest :=
      cons.inj split
    have number := uint8_ofNat_offset pair.1
    have inside : (UInt8.ofNat pair.1).toNat < 128 := number.trans_lt pair.1.isLt
    have ascends : ¬ (first = false ∧ UInt8.ofNat pair.1 ≤ prevIndex) := by
      rintro ⟨later, before⟩
      have order := follows later
      rw [UInt8.le_iff_toNat_le, number] at before
      omega
    have read : decodeBytes32Compact enc = .ok (pair.2, rest) :=
      decodeBytes32Compact_ok.mpr ⟨valid.2, parts.2⟩
    have offset : (⟨(UInt8.ofNat pair.1).toNat, inside⟩ : Fin 128) = pair.1 := Fin.ext number
    rw [parts.1, decodePairs, dif_pos inside, if_neg ascends, read]
    dsimp only
    rw [if_neg valid.1, offset]
    exact decoded

theorem decodePairs_nil :
    decodePairs fuel first prevIndex page [] = .ok result ↔
      ∃ pairs : List Pair, [] = pairs.flatMap Pair.item ∧ (∀ pair ∈ pairs, pair.Valid) ∧
        Ascending pairs ∧ (∀ pair ∈ pairs, Follows first prevIndex pair) ∧
        result = page.setAll pairs := by
  have finished : decodePairs fuel first prevIndex page [] = .ok page := by
    cases fuel <;> rfl
  rw [finished, Except.ok.injEq]
  constructor
  · rintro rfl
    exact ⟨[], rfl, by simp, List.Pairwise.nil, by simp, rfl⟩
  · rintro ⟨pairs, nothing, -, -, -, done⟩
    cases pairs with
    | nil => exact done.symm
    | cons pair pairs => cases nothing

theorem shorter_rest {pair : Pair}
    (split : index :: enc = pair.item ++ rest) (enough : (index :: enc).length ≤ fuel + 1) :
    rest.length ≤ fuel := by
  have lengths := congrArg length split
  rw [length_append, Pair.item, length_cons, length_cons] at lengths
  rw [length_cons] at enough
  omega

theorem later_above {pair other : Pair} (follows : Follows false (UInt8.ofNat pair.1) other) :
    pair.1 < other.1 := by
  have order := follows rfl
  rw [uint8_ofNat_offset] at order
  exact order

/-- The decoder accepts the ascending lists of pairs without zeros, and sets them. -/
theorem decodePairs_ok (enough : enc.length ≤ fuel) :
    decodePairs fuel first prevIndex page enc = .ok result ↔
      ∃ pairs : List Pair, enc = pairs.flatMap Pair.item ∧
        (∀ pair ∈ pairs, pair.Valid) ∧ Ascending pairs ∧
        (∀ pair ∈ pairs, Follows first prevIndex pair) ∧ result = page.setAll pairs := by
  induction fuel generalizing first prevIndex enc page with
  | zero =>
    rw [eq_nil_of_length_eq_zero (Nat.le_zero.mp enough)]
    exact decodePairs_nil
  | succ fuel ih =>
    cases enc with
    | nil => exact decodePairs_nil
    | cons index enc =>
      rw [decodePairs_cons]
      constructor
      · rintro ⟨pair, rest, split, valid, follows, decoded⟩
        obtain ⟨pairs, same, all, ascending, above, done⟩ :=
          (ih (shorter_rest split enough)).mp decoded
        refine ⟨pair :: pairs, ?_, ?_, ?_, ?_, done⟩
        · rw [split, same, flatMap_cons]
        · exact forall_mem_cons.mpr ⟨valid, all⟩
        · refine pairwise_cons.mpr ⟨fun other member => ?_, ascending⟩
          exact later_above (above other member)
        · refine forall_mem_cons.mpr ⟨follows, fun other member started => ?_⟩
          exact Nat.lt_trans (follows started) (later_above (above other member))
      · rintro ⟨pairs, same, all, ascending, above, done⟩
        cases pairs with
        | nil => cases same
        | cons pair pairs =>
          obtain ⟨valid, all⟩ := forall_mem_cons.mp all
          obtain ⟨larger, ascending⟩ := pairwise_cons.mp ascending
          have follows := above pair mem_cons_self
          refine ⟨pair, pairs.flatMap Pair.item, same, valid, follows, ?_⟩
          refine (ih (shorter_rest same enough)).mpr ⟨pairs, rfl, all, ascending, ?_, done⟩
          intro other member _
          rw [uint8_ofNat_offset]
          exact larger other member

theorem decodeStoragePage_ok :
    decodeStoragePage enc = .ok page ↔
      ∃ pairs : List Pair, enc = pairs.flatMap Pair.item ∧ (∀ pair ∈ pairs, pair.Valid) ∧
        Ascending pairs ∧ page = empty.setAll pairs := by
  rw [decodeStoragePage, decodePairs_ok (Nat.le_refl _)]
  constructor
  · rintro ⟨pairs, same, valid, ascending, -, done⟩
    exact ⟨pairs, same, valid, ascending, done⟩
  · rintro ⟨pairs, same, valid, ascending, done⟩
    exact ⟨pairs, same, valid, ascending, fun _ _ started => absurd started (by decide), done⟩

def computeSlotKey (pageKey : Key) (slotOffset : Nat) : Key :=
  ((pageKey <<< 7) ||| slotOffset) % 2 ^ 256

theorem computeSlotKey_parts {key : Key} (word : key < 2 ^ 256) :
    computeSlotKey (computePageKey key) (computeSlotOffset key) = key := by
  have low : key % 128 < 2 ^ 7 := Nat.mod_lt key (by decide)
  have whole : 2 ^ 7 * (key / 2 ^ 7) + key % 128 = key := Nat.div_add_mod key 128
  unfold computeSlotKey computePageKey computeSlotOffset
  rw [Nat.shiftLeft_eq, Nat.shiftRight_eq_div_pow, Nat.mul_comm,
    ← Nat.two_pow_add_eq_or_of_lt low, whole, Nat.mod_eq_of_lt word]

/-- Pages built by writes are maps of 128 slots, and are read back from their bytes. -/
theorem storage_page_faithful : (∀ writes : List Pair,
      let page := empty.setAll writes
      page.get =
        writes.foldl (fun slots write => Function.update slots write.1 write.2) (fun _ => 0) ∧
      (∀ offset : Fin 128, page.bitmap.getLsbD offset = true ↔ page.get offset ≠ 0) ∧
      page.values = ((finRange 128).map page.get).filter (· ≠ 0) ∧
      ∀ offset : Fin 128, page.bitmap.denseIndex offset = page.denseIndex offset) ∧
    (∀ page : StoragePage, page.Fits → decodeStoragePage (encodeStoragePage page) = .ok page) ∧
    (∀ (enc : Bytes) (page : StoragePage), decodeStoragePage enc = .ok page →
      encodeStoragePage page = enc) ∧
    (∀ key : Key, key < 2 ^ 256 →
      computeSlotKey (computePageKey key) (computeSlotOffset key) = key) ∧
    ∀ key other : Key, key < 2 ^ 256 → other < 2 ^ 256 →
      computePageKey key = computePageKey other →
      computeSlotOffset key = computeSlotOffset other → key = other := by
  refine ⟨fun writes => ⟨?_, ?_, ?_, ?_⟩, ?_, ?_, fun _ => computeSlotKey_parts, ?_⟩
  · rw [get_setAll, funext get_empty]
  · exact hasBit_iff _
  · exact values_ascending _
  · exact Bitmap.denseIndex_eq _
  · intro page fits
    rw [decodeStoragePage_ok]
    refine ⟨page.pairs, encodeStoragePage_eq page, ?_, page.pairs_ascending,
      page.setAll_pairs.symm⟩
    intro pair member
    refine ⟨(mem_pairs.mp member).1, fits pair.2 ?_⟩
    rw [page.values_eq]
    exact mem_map_of_mem member
  · intro enc page decoded
    obtain ⟨pairs, same, valid, ascending, rfl⟩ := decodeStoragePage_ok.mp decoded
    rw [encodeStoragePage_eq, same, pairs_setAll ascending fun pair member => (valid pair member).1]
  · intro key other word otherWord samePage sameOffset
    rw [← computeSlotKey_parts word, samePage, sameOffset, computeSlotKey_parts otherWord]

def samplePage : StoragePage := (StoragePage.empty.set 100 9).set 3 7

theorem sample_page_faithful :
    samplePage.Fits ∧ decodeStoragePage (encodeStoragePage samplePage) = .ok samplePage ∧
      encodeStoragePage samplePage = [3, 7, 100, 9] ∧
      computeSlotKey (computePageKey 300) (computeSlotOffset 300) = 300 := by
  have fits : samplePage.Fits := by
    unfold StoragePage.Fits
    decide +kernel
  obtain ⟨-, decodes, -, keys, -⟩ := storage_page_faithful
  exact ⟨fits, decodes samplePage fits, by decide +kernel, keys 300 (by decide)⟩

end MonadChain.Db
