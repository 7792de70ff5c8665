import MonadChain.Lib.Fallible
import MonadChain.Rlp.Canonical

/-!
Encoded transactions are decoded to themselves, alone and in the list of a block,
where an envelope stands in a string and a legacy transaction does not.
-/

namespace MonadChain.Rlp

open Scanner Transaction List

variable {txn : Transaction}

def rawItem (raw : Bytes) : Bytes := if 0xc0 ≤ raw.headD 0 then raw else stringItem raw

def Transaction.DecodedFrom (txn : Transaction) (raw : Bytes) : Prop :=
  (txn.Legacy ∧ Sizeable raw ∧ raw = legacyItem (stringItem txn.data) txn) ∨
  (txn.Typed ∧ Sizeable (stringItem raw) ∧
    raw = txn.type.code :: envelopeItem (stringItem txn.data) txn)

theorem rawItem_ne_nil (raw : Bytes) : rawItem raw ≠ [] := by
  unfold rawItem
  split
  · rintro rfl
    rename_i large
    exact absurd large (by decide)
  · exact stringItem_ne_nil raw

theorem rawItem_of_legacy {text : Bytes} (sizeable : Sizeable (legacyItem text txn)) :
    rawItem (legacyItem text txn) = legacyItem text txn := by
  have head := legacyItem_head [] sizeable
  rw [append_nil] at head
  exact if_pos head

theorem rawItem_of_typed (type : TransactionType) (bytes : Bytes) :
    rawItem (type.code :: bytes) = stringItem (type.code :: bytes) := if_neg type.code_lt

theorem stringItem_head {string : Bytes} (rest : Bytes) (sizeable : Sizeable (stringItem string)) :
    ¬ 0xc0 ≤ (stringItem string ++ rest).headD 0 := by
  have below : ((stringItem string ++ rest).headD 0).toNat < 0xc0 := by
    cases split : stringItem string ++ rest with
    | nil => exact absurd (append_eq_nil_iff.mp split).1 (stringItem_ne_nil _)
    | cons first tail =>
      rcases stringItem_iff.mp ⟨sizeable, split.symm⟩ with ⟨low, -⟩ | ⟨-, sizeable, split⟩
      · exact Nat.lt_trans low (by decide)
      · exact (header_head (by decide) sizeable split).2
  intro large
  exact Nat.not_lt.mpr (UInt8.le_iff_toNat_le.mp large) below

theorem decodeTransactionListItem_exact :
    Exact decodeTransactionListItem (fun item => rawItem item.2)
      (fun item => item.1.DecodedFrom item.2) := by
  rintro ls ⟨txn, raw⟩ rest
  have step : Accepts decodeTransactionListItem ls (txn, raw) rest ↔
      if 0xc0 ≤ ls.headD 0 then Accepts decodeTransactionLegacy ls txn rest ∧
        ls.take (ls.length - rest.length) = raw
      else Accepts parseStringMetadata ls raw rest ∧
        ∃ left, Accepts decodeTransactionEip2718 raw txn left := by
    unfold Accepts decodeTransactionListItem
    split
    · simp [bind_eq_ok, pure, Except.pure]
    · simp [bind_eq_ok, pure, Except.pure]
  rw [step]
  constructor
  · intro read
    split at read
    · obtain ⟨decoded, rfl⟩ := read
      obtain ⟨⟨legacy, sizeable⟩, rfl⟩ := (decodeTransactionLegacy_exact _ _ _).mp decoded
      dsimp only
      rw [length_append, Nat.add_sub_cancel, take_left, rawItem_of_legacy sizeable]
      exact ⟨.inl ⟨legacy, sizeable, rfl⟩, rfl⟩
    · obtain ⟨parsed, left, decoded⟩ := read
      obtain ⟨sizeable, rfl⟩ := (parseStringMetadata_exact _ _ _).mp parsed
      obtain ⟨-, typed, -, rfl⟩ := accepts_decodeTransactionEip2718.mp decoded
      exact ⟨.inr ⟨typed, sizeable, rfl⟩, congrArg (· ++ rest) (rawItem_of_typed _ _).symm⟩
  · dsimp only
    rintro ⟨⟨legacy, sizeable, rfl⟩ | ⟨typed, sizeable, rfl⟩, rfl⟩
    · rw [rawItem_of_legacy sizeable, if_pos (legacyItem_head rest sizeable), length_append,
        Nat.add_sub_cancel, take_left]
      exact ⟨(decodeTransactionLegacy_exact _ _ _).mpr ⟨⟨legacy, sizeable⟩, rfl⟩, rfl⟩
    · rw [rawItem_of_typed, if_neg (stringItem_head rest sizeable)]
      have inside : Sizeable (envelopeItem (stringItem txn.data) txn) := by
        refine sizeable_of_le ?_ sizeable
        have outer := length_le_stringItem (txn.type.code :: envelopeItem (stringItem txn.data) txn)
        rw [length_cons] at outer
        omega
      exact ⟨(parseStringMetadata_exact _ _ _).mpr ⟨sizeable, rfl⟩, [],
        accepts_decodeTransactionEip2718.mpr ⟨rfl, typed, inside, rfl⟩⟩

theorem accepts_decodeTransactionList {input rest : Bytes} {txns : List Transaction}
    {raws : List Bytes} :
    Accepts decodeTransactionList input (txns, raws) rest ↔
      ∃ items : List (Transaction × Bytes), items.unzip = (txns, raws) ∧
        ((∀ item ∈ items, item.1.DecodedFrom item.2) ∧
          Sizeable (vectorItem (fun item => rawItem item.2) items)) ∧
        input = vectorItem (fun item => rawItem item.2) items ++ rest := by
  have nonempty : ∀ item : Transaction × Bytes, rawItem item.2 ≠ [] :=
    fun item => rawItem_ne_nil item.2
  rw [decodeTransactionList, accepts_bind]
  constructor
  · rintro ⟨items, middle, read, final⟩
    obtain ⟨same, rfl⟩ := accepts_pure.mp final
    obtain ⟨valid, split⟩ := (accepts_vector decodeTransactionListItem_exact nonempty).mp read
    exact ⟨items, same, valid, split⟩
  · rintro ⟨items, same, valid, split⟩
    refine ⟨items, rest, ?_, accepts_pure.mpr ⟨same, rfl⟩⟩
    exact (accepts_vector decodeTransactionListItem_exact nonempty).mpr ⟨valid, split⟩

/-- A transaction with the fields of its type, in range. -/
structure Transaction.Proper (txn : Transaction) : Prop where
  carries : txn.Carries
  noAccess : txn.type = .legacy → txn.accessList = []
  parity : txn.sc.signature.yParity.val ≤ 1
  chained : txn.type ≠ .legacy → txn.sc.chainId.isSome
  bounded : txn.type = .legacy → txn.sc.Bounded
  data : txn.data.length < 2 ^ 32
  access : (txn.accessList.flatMap accessEntryItem).length < 2 ^ 32
  blobs : (txn.blobVersionedHashes.flatMap encodeFixed).length < 2 ^ 32
  authorizations : (txn.authorizationList.flatMap authorizationEntryItem).length < 2 ^ 32

def Transaction.encoding (txn : Transaction) : Bytes :=
  if txn.type = .legacy then legacyItem (stringItem txn.data) txn
  else txn.type.code :: envelopeItem (stringItem txn.data) txn

theorem length_stringItem_le (string : Bytes) : (stringItem string).length ≤ 9 + string.length := by
  have header := length_itemHeader_le 0x80 string.length
  unfold stringItem
  split
  · omega
  · rw [length_append]
    omega

theorem length_listItem_le (payload : Bytes) : (listItem payload).length ≤ 9 + payload.length := by
  have header := length_itemHeader_le 0xc0 payload.length
  rw [listItem, length_append]
  omega

theorem length_encodeWord_le {size : Nat} (small : size ≤ 32) (word : Unsigned size) :
    (encodeWord word).length ≤ 41 := by
  have bytes := length_toBigCompact_le size word.val
  have item := length_stringItem_le (toBigCompact size word.val)
  rw [encodeWord, encodeUnsigned_eq (by omega)]
  omega

theorem length_encodeAddress_le (address : Option Address) :
    (encodeAddress address).length ≤ 29 := by
  cases address with
  | none => decide
  | some address =>
    have item := length_stringItem_le address.val
    rw [address.property] at item
    rw [encodeAddress, encodeFixed_eq (by decide)]
    exact item

section

variable (proper : txn.Proper)

include proper

theorem Transaction.Proper.legacyFits : Sizeable (legacyItem (stringItem txn.data) txn) := by
  have data := proper.data
  have outer := length_listItem_le (legacyPayload (stringItem txn.data) txn)
  have text := length_stringItem_le txn.data
  rw [Sizeable, legacyItem]
  unfold legacyPayload at outer ⊢
  grind [length_encodeWord_le, length_encodeAddress_le]

theorem Transaction.Proper.envelope_lt :
    (envelopeItem (stringItem txn.data) txn).length < 2 ^ 36 := by
  have data := proper.data
  have accessSize := proper.access
  have blobsSize := proper.blobs
  have authorizationsSize := proper.authorizations
  have outer := length_listItem_le (envelopePayload (stringItem txn.data) txn)
  have text := length_stringItem_le txn.data
  have access : (accessListItem txn.accessList).length ≤ _ := length_listItem_le _
  have priority : (priorityFeePart txn.type txn.maxPriorityFeePerGas).length ≤ 41 := by
    grind [priorityFeePart, length_encodeWord_le]
  have blobs : (blobPart txn.type (txn.maxFeePerBlobGas, txn.blobVersionedHashes)).length ≤
      50 + (txn.blobVersionedHashes.flatMap encodeFixed).length := by
    grind [blobPart, vectorItem, length_encodeWord_le, length_listItem_le]
  have authorizations : (authorizationPart txn.type txn.authorizationList).length ≤
      9 + (txn.authorizationList.flatMap authorizationEntryItem).length := by
    unfold authorizationPart
    split
    · exact length_listItem_le _
    · exact Nat.zero_le _
  rw [envelopeItem]
  unfold envelopePayload at outer ⊢
  simp only [length_append] at outer
  grind [length_encodeWord_le, length_encodeAddress_le]

theorem Transaction.Proper.envelopeFits : Sizeable (envelopeItem (stringItem txn.data) txn) :=
  Nat.lt_trans proper.envelope_lt (by decide)

theorem Transaction.Proper.encode : encodeTransaction txn = .ok txn.encoding := by
  unfold encoding
  by_cases legacy : txn.type = .legacy
  · rw [if_pos legacy, encodeTransaction_legacy legacy proper.legacyFits,
      if_pos (proper.bounded legacy), encodeString2_eq proper.data]
  · rw [if_neg legacy, encodeTransaction_typed legacy ⟨proper.chained legacy, proper.carries⟩
      proper.envelopeFits, encodeString2_eq proper.data]

theorem Transaction.Proper.legacy
    (legacy : txn.type = .legacy) : txn.Legacy where
  type := legacy
  carries := proper.carries
  accessList := proper.noAccess legacy
  recovered := ⟨txn.sc.legacyV, (signed_legacyV (proper.bounded legacy) proper.parity).symm⟩

theorem Transaction.Proper.decode : Accepts decodeTransaction txn.encoding txn [] := by
  unfold encoding
  by_cases legacy : txn.type = .legacy
  · rw [if_pos legacy]
    exact accepts_decodeTransaction.mpr
      (.inl ⟨proper.legacy legacy, proper.legacyFits, (append_nil _).symm⟩)
  · rw [if_neg legacy]
    exact accepts_decodeTransaction.mpr
      (.inr ⟨rfl, ⟨proper.chained legacy, proper.carries⟩, proper.envelopeFits, rfl⟩)

end

def Transaction.framed (txn : Transaction) : Bytes :=
  if txn.type = .legacy then txn.encoding else encodeString2 txn.encoding

theorem Transaction.Proper.frame (proper : txn.Proper) :
    encodeBlockTransaction txn = .ok txn.framed := by
  rw [encodeBlockTransaction, proper.encode]
  rfl

section

variable (proper : txn.Proper) (short : txn.type ≠ .legacy → txn.encoding.length < 2 ^ 32)

include proper short

theorem Transaction.Proper.framed_eq : txn.framed = rawItem txn.encoding := by
  unfold framed
  by_cases legacy : txn.type = .legacy
  · rw [if_pos legacy, encoding, if_pos legacy, rawItem_of_legacy proper.legacyFits]
  · rw [if_neg legacy, encodeString2_eq (short legacy), encoding, if_neg legacy, rawItem_of_typed]

theorem Transaction.Proper.decodedFrom : txn.DecodedFrom txn.encoding := by
  by_cases legacy : txn.type = .legacy
  · have same : txn.encoding = legacyItem (stringItem txn.data) txn := if_pos legacy
    rw [same]
    exact .inl ⟨proper.legacy legacy, proper.legacyFits, rfl⟩
  · have same : txn.encoding = txn.type.code :: envelopeItem (stringItem txn.data) txn :=
      if_neg legacy
    have fits := sizeable_stringItem (short legacy)
    rw [same] at fits ⊢
    exact .inr ⟨⟨proper.chained legacy, proper.carries⟩, fits, rfl⟩

end

/-- Proper transactions are encoded and decoded back; and so is a list of them as
`encode_block` writes it, with the encodings as the raw transactions, if no
envelope in it has 2^32 bytes and the list fits in memory. -/
theorem transactions_round_trip (txns : List Transaction) (proper : ∀ txn ∈ txns, txn.Proper) :
    (∀ txn ∈ txns, ∃ encoding, encodeTransaction txn = .ok encoding ∧
      Accepts decodeTransaction encoding txn []) ∧
    ∃ encodings items, txns.mapM encodeTransaction = .ok encodings ∧
      txns.mapM encodeBlockTransaction = .ok items ∧
      encodeBlockTransactions txns = .ok (encodeList2 [items.flatten]) ∧
      ((∀ pair ∈ txns.zip encodings, pair.1.type ≠ .legacy → pair.2.length < 2 ^ 32) →
        items.flatten.length + 9 < 2 ^ 64 →
        ∀ rest, Accepts decodeTransactionList (encodeList2 [items.flatten] ++ rest)
          (txns, encodings) rest) := by
  have framing : txns.mapM encodeBlockTransaction = .ok (txns.map framed) :=
    mapM_ok fun txn member => (proper txn member).frame
  refine ⟨fun txn member => ⟨txn.encoding, (proper txn member).encode, (proper txn member).decode⟩,
    txns.map encoding, txns.map framed,
    mapM_ok fun txn member => (proper txn member).encode, framing, ?_, ?_⟩
  · rw [encodeBlockTransactions, framing]
    rfl
  · intro short fits rest
    have small (txn : Transaction) (member : txn ∈ txns) (modern : txn.type ≠ .legacy) :
        txn.encoding.length < 2 ^ 32 := by
      refine short (txn, txn.encoding) ?_ modern
      rw [zip_map_right, mem_map]
      exact ⟨(txn, txn), by simpa [mem_iff_getElem] using member, rfl⟩
    have items : vectorItem (fun item : Transaction × Bytes => rawItem item.2)
        (txns.map fun txn => (txn, txn.encoding)) = listItem (txns.map framed).flatten := by
      rw [vectorItem, flatMap_map, flatMap_def]
      congr 2
      exact (map_congr_left fun txn member =>
        (proper txn member).framed_eq (small txn member)).symm
    have single : [(txns.map framed).flatten].flatten =
        (txns.map framed).flatten := append_nil _
    have header := length_listItem_le (txns.map framed).flatten
    refine accepts_decodeTransactionList.mpr
      ⟨txns.map fun txn => (txn, txn.encoding), ?_, ⟨?_, ?_⟩, ?_⟩
    · rw [unzip_eq_map, map_map, map_map]
      simp [Function.comp_def]
    · intro item member
      obtain ⟨txn, inside, rfl⟩ := mem_map.mp member
      exact (proper txn inside).decodedFrom (small txn inside)
    · rw [items, Sizeable]
      omega
    · rw [items, encodeList2_eq (by rw [single]; omega), single]

def sampleTransactions : List Transaction :=
  [{ sc := { chainId := some 1 } }, sampleTransaction]

theorem transactions_round_trip_sample :
    ∃ encodings block, sampleTransactions.mapM encodeTransaction = .ok encodings ∧
      encodeBlockTransactions sampleTransactions = .ok block ∧
      Accepts decodeTransactionList (block ++ [0x80]) (sampleTransactions, encodings) [0x80] := by
  have proper : ∀ txn ∈ sampleTransactions, txn.Proper := by
    intro txn member
    rcases mem_cons.mp member with rfl | tail
    · refine ⟨⟨fun _ => rfl, fun _ => ⟨rfl, rfl⟩, fun _ => rfl, by decide, by simp⟩, fun _ => rfl,
        by decide, by decide, fun _ => by decide +kernel, ?_, ?_, ?_, ?_⟩ <;> decide +kernel
    · rw [mem_singleton.mp tail]
      refine ⟨⟨by decide, fun _ => ⟨rfl, rfl⟩, fun _ => rfl, by decide, by decide⟩, by decide,
        by decide, by decide, by decide, ?_, ?_, ?_, ?_⟩ <;> decide +kernel
  obtain ⟨-, encodings, items, encoded, framed, block, back⟩ :=
    transactions_round_trip sampleTransactions proper
  refine ⟨encodings, _, encoded, block, back ?_ ?_ [0x80]⟩
  · have short : (sampleTransactions.mapM encodeTransaction).toOption.all fun encodings =>
        encodings.all (·.length < 2 ^ 32) := by decide +kernel
    rw [encoded] at short
    intro pair member _
    have all : encodings.all (·.length < 2 ^ 32) := short
    exact of_decide_eq_true (all_eq_true.mp all _ (of_mem_zip member).2)
  · have short : (sampleTransactions.mapM encodeBlockTransaction).toOption.all fun items =>
        items.flatten.length + 9 < 2 ^ 64 := by decide +kernel
    rw [framed] at short
    exact of_decide_eq_true short

def longTxn : Transaction :=
  { type := .eip2930, sc := { chainId := some 1 }, data := List.replicate (2 ^ 32 - 1) 0 }

theorem longTxn_proper : longTxn.Proper := by
  refine ⟨⟨fun _ => rfl, fun _ => ⟨rfl, rfl⟩, fun _ => rfl, ?_, ?_⟩, ?_, Nat.zero_le _,
    fun _ => rfl,
    ?_, ?_, ?_, ?_, ?_⟩
  · rintro (impossible | impossible) <;> cases impossible
  · intro entry member
    cases member
  · intro impossible
    cases impossible
  · intro impossible
    cases impossible
  · rw [longTxn, length_replicate]
    decide
  · exact Nat.two_pow_pos 32
  · exact Nat.two_pow_pos 32
  · exact Nat.two_pow_pos 32

theorem longTxn_length : 2 ^ 32 ≤ longTxn.encoding.length := by
  have same : longTxn.encoding = longTxn.type.code ::
      envelopeItem (stringItem longTxn.data) longTxn := if_neg (by decide)
  have size : longTxn.data.length = 2 ^ 32 - 1 := length_replicate
  have text := length_le_stringItem longTxn.data
  have outer := length_le_listItem
    (envelopePayload (stringItem longTxn.data) longTxn)
  unfold envelopePayload at outer
  simp only [length_append] at outer
  rw [same, length_cons, envelopeItem]
  unfold envelopePayload
  omega

/-- Its length is cut to 32 bits in the string of the list. -/
theorem long_envelope_lost :
    longTxn.Proper ∧ ∃ encoding block,
      encodeTransaction longTxn = .ok encoding ∧
      encodeBlockTransactions [longTxn] = .ok block ∧
      ¬ Accepts decodeTransactionList block ([longTxn], [encoding]) [] := by
  have proper := longTxn_proper
  have long := longTxn_length
  have same : longTxn.encoding = longTxn.type.code ::
      envelopeItem (stringItem longTxn.data) longTxn := if_neg (by decide)
  have bound : longTxn.encoding.length < 2 ^ 37 := by
    have inner := proper.envelope_lt
    rw [same, length_cons]
    omega
  have shorter := length_encodeString2_le (Nat.lt_trans bound (by decide))
  have header := length_stringItem_le longTxn.encoding
  have block : encodeBlockTransactions [longTxn] =
      .ok (listItem (encodeString2 longTxn.encoding)) := by
    have framed : longTxn.framed = encodeString2 longTxn.encoding :=
      if_neg (by decide)
    rw [encodeBlockTransactions, mapM_cons, proper.frame, framed]
    change Except.ok (encodeList2 [[encodeString2 longTxn.encoding].flatten]) = _
    have flat : [[encodeString2 longTxn.encoding].flatten].flatten =
        encodeString2 longTxn.encoding := by simp
    rw [encodeList2_eq (by rw [flat]; omega), flat]
  refine ⟨proper, longTxn.encoding, _, proper.encode, block, ?_⟩
  intro accepted
  obtain ⟨items, unzipped, ⟨-, sizeable⟩, split⟩ := accepts_decodeTransactionList.mp accepted
  have only : items = [(longTxn, longTxn.encoding)] := by
    have zipped := zip_unzip items
    rw [unzipped] at zipped
    exact zipped.symm
  rw [only, append_nil, vectorItem, flatMap_singleton, same, rawItem_of_typed, ← same]
    at split
  rw [only, vectorItem, flatMap_singleton, same, rawItem_of_typed, ← same] at sizeable
  have cut := (encodeString2_eq_iff (Nat.lt_trans bound (by decide))).mp
    (listItem_inj sizeable split.symm).symm
  omega

end MonadChain.Rlp
