import MonadChain.Rlp.TransactionCodec

/-!
Decoded transactions against encoded ones. The encoders write what the decoders
accept, except for the transactions they stop at, the data and envelopes whose
length they cut to 32 bits, and the type byte of zero.
-/

namespace MonadChain.Rlp

open Scanner List

variable {α : Type} {values : List α} {string text other : Bytes} {txn : Transaction}

theorem length_flatten_le (args : List Bytes) :
    args.flatten.length ≤ (encodeList2 args).length := by
  unfold encodeList2
  dsimp only
  split
  · simp only [length_cons, length_append]
    omega
  · rw [length_cons]
    omega

theorem length_le_encodeList2 {args : List Bytes} {arg : Bytes} (member : arg ∈ args) :
    arg.length ≤ (encodeList2 args).length :=
  Nat.le_trans (sublist_flatten_of_mem member).length_le (length_flatten_le args)

theorem encodeList2_of_fits {args : List Bytes} {payload : Bytes} (same : args.flatten = payload)
    (fits : Sizeable (encodeList2 args) ∨ Sizeable (listItem payload)) :
    encodeList2 args = listItem payload := by
  rw [encodeList2_eq, same]
  rcases fits with written | read
  · exact Nat.lt_of_le_of_lt (length_flatten_le args) written
  · rw [same]
    exact sizeable_of_listItem read

theorem encodeVector_eq {encode : α → Bytes} (sizeable : Sizeable (vectorItem encode values)) :
    encodeList2 [values.flatMap encode] = vectorItem encode values :=
  encodeList2_of_fits flatten_singleton (.inr sizeable)

theorem encodeAccessEntry_eq {entry : AccessEntry} (sizeable : Sizeable (accessEntryItem entry)) :
    encodeAccessEntry entry = accessEntryItem entry := by
  have keysFit : Sizeable (vectorItem encodeFixed entry.keys) := by
    have total := sizeable_of_listItem sizeable
    rw [length_append] at total
    exact Nat.lt_of_le_of_lt (Nat.le_add_left _ _) total
  rw [encodeAccessEntry, encodeVector_eq keysFit]
  exact encodeList2_of_fits flatten_singleton (.inr sizeable)

theorem encodeAccessList_eq {list : AccessList} (sizeable : Sizeable (accessListItem list)) :
    encodeAccessList list = accessListItem list := by
  have entries : list.flatMap encodeAccessEntry = list.flatMap accessEntryItem :=
    flatMap_congr fun entry member => encodeAccessEntry_eq (sizeable_of_mem member sizeable)
  rw [encodeAccessList, entries, encodeVector_eq sizeable, accessListItem]

theorem encodeAuthorizationEntry_eq {entry : AuthorizationEntry} (chained : entry.sc.chainId.isSome)
    (sizeable : Sizeable (authorizationEntryItem entry)) :
    encodeAuthorizationEntry entry = .ok (authorizationEntryItem entry) := by
  obtain ⟨chainId, same⟩ := Option.isSome_iff_exists.mp chained
  simp only [encodeAuthorizationEntry, same]
  refine congrArg Except.ok (encodeList2_of_fits ?_ (.inr sizeable))
  simp [same]

theorem mapM_ok {β : Type} {f : α → Except Halt β} {g : α → β}
    (each : ∀ value ∈ values, f value = .ok (g value)) : values.mapM f = .ok (values.map g) := by
  induction values with
  | nil => rfl
  | cons value others ih =>
    have rest := ih fun other member => each other (mem_cons_of_mem _ member)
    rw [mapM_cons, each value mem_cons_self, rest]
    rfl

theorem encodeAuthorizationList_eq {list : AuthorizationList}
    (chains : ∀ entry ∈ list, entry.sc.chainId.isSome)
    (sizeable : Sizeable (authorizationListItem list)) :
    encodeAuthorizationList list = .ok (authorizationListItem list) := by
  have entries : list.mapM encodeAuthorizationEntry = .ok (list.map authorizationEntryItem) :=
    mapM_ok fun entry member =>
      encodeAuthorizationEntry_eq (chains entry member) (sizeable_of_mem member sizeable)
  rw [encodeAuthorizationList, entries]
  change Except.ok (encodeList2 [(list.map authorizationEntryItem).flatten]) = _
  rw [← flatMap_def, encodeVector_eq sizeable, authorizationListItem]

/-- The length counter of `encode_string2` makes the encoding of a long string
shorter, not longer. -/
theorem length_encodeString2_lt (fits : string.length < 2 ^ 64) (long : 2 ^ 32 ≤ string.length) :
    (encodeString2 string).length < (stringItem string).length := by
  have several : ¬ SingleByte string := by
    rintro ⟨one, -⟩
    omega
  have lengthBytes : 4 < (toBigCompact 8 string.length).length := by
    by_contra few
    have small := (length_toBigCompact_le_iff (by simpa using fits) (by decide)).mp
      (Nat.le_of_not_lt few)
    omega
  have written : (encodeString2 string).length ≤ 5 + string.length := by
    have four := length_toBigCompact_le 4 (string.length % 2 ^ 32)
    unfold encodeString2
    dsimp only
    split
    · omega
    · split
      · simp only [length_cons, length_append]
        omega
      · simp only [length_cons]
        omega
  rw [stringItem_of_not_single several, length_append, itemHeader, if_neg (by omega), length_cons]
  omega

theorem length_encodeString2_le (fits : string.length < 2 ^ 64) :
    (encodeString2 string).length ≤ (stringItem string).length := by
  by_cases small : string.length < 2 ^ 32
  · exact Nat.le_of_eq (congrArg length (encodeString2_eq small))
  · exact Nat.le_of_lt (length_encodeString2_lt fits (Nat.le_of_not_lt small))

theorem encodeString2_eq_iff (fits : string.length < 2 ^ 64) :
    encodeString2 string = stringItem string ↔ string.length < 2 ^ 32 := by
  constructor
  · intro same
    by_contra long
    have shorter := length_encodeString2_lt fits (Nat.le_of_not_lt long)
    rw [same] at shorter
    exact Nat.lt_irrefl _ shorter
  · exact encodeString2_eq

theorem encodeEip2718Base_eq (typed : txn.Typed) (fits : txn.Fits) :
    ∃ base, encodeEip2718Base txn = .ok base ∧
      base ++ encodeWord txn.sc.signature.yParity ++ encodeWord txn.sc.signature.r ++
        encodeWord txn.sc.signature.s = envelopePayload (encodeString2 txn.data) txn := by
  have authorizations : encodeAuthorizations txn =
      .ok (authorizationPart txn.type txn.authorizationList) := by
    unfold encodeAuthorizations authorizationPart
    split
    · rename_i isSet
      exact encodeAuthorizationList_eq typed.carries.chains (fits.authorizations isSet)
    · rfl
  have blobs : (if txn.type = .eip4844 then encodeWord txn.maxFeePerBlobGas ++
        encodeList2 [txn.blobVersionedHashes.flatMap encodeFixed] else []) =
      blobPart txn.type (txn.maxFeePerBlobGas, txn.blobVersionedHashes) := by
    unfold blobPart
    split
    · rename_i isBlob
      rw [encodeVector_eq (fits.blobs isBlob)]
    · rfl
  rw [encodeEip2718Base, authorizations, blobs, encodeAccessList_eq fits.access]
  exact ⟨_, rfl, rfl⟩

theorem data_lt (sizeable : Sizeable (stringItem string)) :
    string.length < 2 ^ 64 := Nat.lt_of_le_of_lt (length_le_stringItem string) sizeable

theorem encodeTransaction_typed (modern : txn.type ≠ .legacy)
    (typed : txn.Typed) (sizeable : Sizeable (envelopeItem (stringItem txn.data) txn)) :
    encodeTransaction txn = .ok (txn.type.code :: envelopeItem (encodeString2 txn.data) txn) := by
  have fits := fits_of_envelope (Nat.le_refl _) sizeable
  have total := sizeable_of_listItem sizeable
  have shorter := length_encodeString2_le (data_lt fits.data)
  obtain ⟨base, encoded, payload⟩ := encodeEip2718Base_eq typed fits
  have flat : [base, encodeWord txn.sc.signature.yParity, encodeWord txn.sc.signature.r,
      encodeWord txn.sc.signature.s].flatten = envelopePayload (encodeString2 txn.data) txn := by
    rw [← payload]
    simp
  have small : (envelopePayload (encodeString2 txn.data) txn).length < 2 ^ 64 := by
    unfold envelopePayload at total ⊢
    simp only [length_append] at total ⊢
    omega
  rw [encodeTransaction, if_neg modern, encoded]
  change Except.ok (txn.type.code :: encodeList2 _) = _
  rw [encodeList2_eq (by rw [flat]; exact small), flat, envelopeItem]

theorem encodeTransaction_legacy (legacy : txn.type = .legacy)
    (sizeable : Sizeable (legacyItem (stringItem txn.data) txn)) :
    encodeTransaction txn = if txn.sc.Bounded then .ok (legacyItem (encodeString2 txn.data) txn)
      else .error (.exception "get_v: chain_id out of bounds") := by
  have total := sizeable_of_listItem sizeable
  have shorter := length_encodeString2_le
    (data_lt (sizeable_of_le (length_le_legacyItem _ _) sizeable))
  have flat : [encodeLegacyBase txn, encodeWord txn.sc.legacyV, encodeWord txn.sc.signature.r,
      encodeWord txn.sc.signature.s].flatten = legacyPayload (encodeString2 txn.data) txn := by
    simp [encodeLegacyBase, legacyPayload]
  have small : (legacyPayload (encodeString2 txn.data) txn).length < 2 ^ 64 := by
    unfold legacyPayload at total ⊢
    simp only [length_append] at total ⊢
    omega
  rw [encodeTransaction, if_pos legacy, getV_eq]
  split
  · change Except.ok (encodeList2 _) = _
    rw [encodeList2_eq (by rw [flat]; exact small), flat, legacyItem]
  · rfl

theorem listItem_inj {first second : Bytes} (sizeable : Sizeable (listItem first))
    (same : listItem first = listItem second) : first = second :=
  parseListMetadata_exact.encode_inj sizeable (same ▸ sizeable) same

theorem legacyItem_inj (sizeable : Sizeable (legacyItem text txn)) :
    legacyItem text txn = legacyItem other txn ↔ text = other := by
  constructor
  · intro same
    have payload := listItem_inj sizeable same
    unfold legacyPayload at payload
    simpa using payload
  · rintro rfl
    rfl

theorem envelopeItem_inj (sizeable : Sizeable (envelopeItem text txn)) :
    envelopeItem text txn = envelopeItem other txn ↔ text = other := by
  constructor
  · intro same
    have payload := listItem_inj sizeable same
    unfold envelopePayload at payload
    simpa using payload
  · rintro rfl
    rfl

theorem legacyItem_head (rest : Bytes)
    (sizeable : Sizeable (legacyItem text txn)) : 0xc0 ≤ (legacyItem text txn ++ rest).headD 0 := by
  cases split : legacyItem text txn ++ rest with
  | nil => exact absurd (append_eq_nil_iff.mp split).1 (listItem_ne_nil _)
  | cons first tail => exact listItem_head sizeable split.symm

theorem TransactionType.code_ne_zero {type : TransactionType} : type.code ≠ 0 ↔ type ≠ .legacy := by
  cases type <;> decide

theorem encodeList2_head (args : List Bytes) : (encodeList2 args).headD 0 ≠ 0 := by
  unfold encodeList2
  dsimp only
  have few := length_toBigCompact_le 8 ((args.map length).sum % 2 ^ 64)
  split
  all_goals
    rw [headD_cons, ← UInt8.toNat_inj.ne, UInt8.toNat_ofNat', Nat.mod_eq_of_lt (by omega)]
    exact fun zero => absurd (Nat.eq_zero_of_add_eq_zero_right zero) (by decide)

theorem encodeTransaction_head {encoding : Bytes} (legacy : txn.type = .legacy)
    (encoded : encodeTransaction txn = .ok encoding) : encoding.headD 0 ≠ 0 := by
  rw [encodeTransaction, if_pos legacy] at encoded
  cases found : getV txn.sc with
  | error halt =>
    rw [found] at encoded
    cases encoded
  | ok v =>
    rw [found] at encoded
    cases encoded
    exact encodeList2_head _

theorem decoded_cases {input : Bytes} (accepted : Accepts decodeTransaction input txn []) :
    (txn.Legacy ∧ Sizeable (legacyItem (stringItem txn.data) txn) ∧
      input = legacyItem (stringItem txn.data) txn ∧ input.headD 0 ≠ 0) ∨
    (txn.Typed ∧ Sizeable (envelopeItem (stringItem txn.data) txn) ∧
      input = txn.type.code :: envelopeItem (stringItem txn.data) txn ∧
      (input.headD 0 ≠ 0 ↔ txn.type ≠ .legacy)) := by
  rcases accepts_decodeTransaction.mp accepted with
    ⟨legacy, sizeable, split⟩ | ⟨-, typed, sizeable, split⟩
  · left
    have head : 0xc0 ≤ input.headD 0 := by
      rw [split]
      exact legacyItem_head [] sizeable
    rw [append_nil] at split
    refine ⟨legacy, sizeable, split, ?_⟩
    intro zero
    rw [zero] at head
    exact absurd head (by decide)
  · right
    refine ⟨typed, sizeable, split, ?_⟩
    rw [split]
    exact TransactionType.code_ne_zero

/-- The payloads of the items of a list, as `parse_metadata` finds them. -/
def listFields (input : Bytes) : List Bytes :=
  match decodeListOf (decodeRepeated parseMetadata) input with
  | .ok (items, _) => items.map Prod.snd
  | .error _ => []

/-- The recovery value is the seventh field of a legacy transaction. -/
def recoveryField (input : Bytes) : Nat := loadBe ((listFields input).getD 6 [])

/-- The data: the sixth field of a legacy transaction; behind the type byte the
seventh, or the eighth where there is a priority fee. -/
def dataField (input : Bytes) : Bytes :=
  if 0xc0 ≤ input.headD 0 then (listFields input).getD 5 []
  else if input.headD 0 ≤ 1 then (listFields input.tail).getD 6 []
  else (listFields input.tail).getD 7 []

/-- The inputs that are encoded as they are decoded. -/
@[mk_iff] structure Reencodable (input : Bytes) : Prop where
  typeByte : input.headD 0 ≠ 0
  recovery : 0xc0 ≤ input.headD 0 → recoveryField input = 27 ∨ recoveryField input = 28 ∨
    35 ≤ recoveryField input ∧ recoveryField input < 2 ^ 256 - 1
  data : (dataField input).length < 2 ^ 32

theorem listFields_eq {items : List (RlpType × Bytes)}
    (sizeable : Sizeable (vectorItem metadataItem items)) :
    listFields (vectorItem metadataItem items) = items.map Prod.snd := by
  have read : Accepts (decodeListOf (decodeRepeated parseMetadata))
      (vectorItem metadataItem items) items [] :=
    (accepts_vector parseMetadata_exact metadataItem_ne_nil).mpr
      ⟨⟨fun item member => sizeable_of_mem member sizeable, sizeable⟩, (append_nil _).symm⟩
  rw [listFields, read]

def wordItem {size : Nat} (word : Unsigned size) : RlpType × Bytes :=
  (.string, toBigCompact size word.val)

def addressItem (address : Option Address) : RlpType × Bytes :=
  (.string, (address.map Subtype.val).getD [])

theorem encodeWord_item {size : Nat} (small : size < 2 ^ 32) (word : Unsigned size) :
    encodeWord word = metadataItem (wordItem word) := by
  rw [encodeWord, encodeUnsigned_eq small]
  rfl

theorem encodeAddress_item (address : Option Address) :
    encodeAddress address = metadataItem (addressItem address) := by
  cases address with
  | none => rfl
  | some address => exact encodeFixed_eq (by decide) address

theorem legacy_items (txn : Transaction) :
    legacyItem (stringItem txn.data) txn = vectorItem metadataItem
      [wordItem txn.nonce, wordItem txn.maxFeePerGas, wordItem txn.gasLimit,
        addressItem txn.recipient, wordItem txn.value, (.string, txn.data),
        wordItem txn.sc.legacyV, wordItem txn.sc.signature.r, wordItem txn.sc.signature.s] := by
  have text : stringItem txn.data = metadataItem (.string, txn.data) := rfl
  rw [legacyItem, legacyPayload, vectorItem, encodeAddress_item, text]
  simp only [encodeWord_item (show 8 < 2 ^ 32 by decide),
    encodeWord_item (show 32 < 2 ^ 32 by decide),
    flatMap_cons, flatMap_nil, append_assoc, append_nil]

theorem envelope_items (txn : Transaction) :
    ∃ rest, envelopeItem (stringItem txn.data) txn = vectorItem metadataItem
      ([wordItem (txn.sc.chainId.getD 0), wordItem txn.nonce] ++
        (if txn.type.hasPriorityFee then [wordItem txn.maxPriorityFeePerGas] else []) ++
        [wordItem txn.maxFeePerGas, wordItem txn.gasLimit, addressItem txn.recipient,
          wordItem txn.value, (.string, txn.data)] ++ rest) := by
  have text : stringItem txn.data = metadataItem (.string, txn.data) := rfl
  have access : accessListItem txn.accessList =
      metadataItem (.list, txn.accessList.flatMap accessEntryItem) := rfl
  have priority : priorityFeePart txn.type txn.maxPriorityFeePerGas =
      (if txn.type.hasPriorityFee then [wordItem txn.maxPriorityFeePerGas] else []).flatMap
        metadataItem := by
    unfold priorityFeePart
    split
    · rw [flatMap_singleton, encodeWord_item (by decide)]
    · rfl
  have blobs : blobPart txn.type (txn.maxFeePerBlobGas, txn.blobVersionedHashes) =
      (if txn.type = .eip4844 then [wordItem txn.maxFeePerBlobGas,
        (.list, txn.blobVersionedHashes.flatMap encodeFixed)] else []).flatMap metadataItem := by
    unfold blobPart
    split
    · rw [flatMap_cons, flatMap_singleton, encodeWord_item (by decide)]
      rfl
    · rfl
  have authorizations : authorizationPart txn.type txn.authorizationList =
      (if txn.type = .eip7702 then
        [(.list, txn.authorizationList.flatMap authorizationEntryItem)] else []).flatMap
          metadataItem := by
    unfold authorizationPart
    split
    · rw [flatMap_singleton]
      rfl
    · rfl
  refine ⟨(.list, txn.accessList.flatMap accessEntryItem) ::
    ((if txn.type = .eip4844 then [wordItem txn.maxFeePerBlobGas,
        (.list, txn.blobVersionedHashes.flatMap encodeFixed)] else []) ++
      (if txn.type = .eip7702 then
        [(.list, txn.authorizationList.flatMap authorizationEntryItem)] else []) ++
      [wordItem txn.sc.signature.yParity, wordItem txn.sc.signature.r,
        wordItem txn.sc.signature.s]), ?_⟩
  rw [envelopeItem, envelopePayload, vectorItem, encodeAddress_item, text, access, priority, blobs,
    authorizations]
  simp only [encodeWord_item (show 1 < 2 ^ 32 by decide),
    encodeWord_item (show 8 < 2 ^ 32 by decide),
    encodeWord_item (show 32 < 2 ^ 32 by decide), flatMap_append, flatMap_cons,
    flatMap_nil, append_assoc, append_nil]

theorem dataField_envelope (sizeable : Sizeable (envelopeItem (stringItem txn.data) txn)) :
    dataField (txn.type.code :: envelopeItem (stringItem txn.data) txn) = txn.data := by
  obtain ⟨rest, items⟩ := envelope_items txn
  unfold dataField
  rw [headD_cons, tail_cons, if_neg txn.type.code_lt, items, listFields_eq (items ▸ sizeable)]
  cases txn.type <;> rfl

theorem dataField_legacy (sizeable : Sizeable (legacyItem (stringItem txn.data) txn)) :
    dataField (legacyItem (stringItem txn.data) txn) = txn.data := by
  have head := legacyItem_head [] sizeable
  rw [append_nil] at head
  rw [dataField, if_pos head, legacy_items, listFields_eq (legacy_items txn ▸ sizeable)]
  rfl

theorem recoveryField_legacy (sizeable : Sizeable (legacyItem (stringItem txn.data) txn)) :
    recoveryField (legacyItem (stringItem txn.data) txn) = txn.sc.legacyV.val := by
  rw [recoveryField, legacy_items, listFields_eq (legacy_items txn ▸ sizeable)]
  simp only [map_cons, getD_cons_succ, getD_cons_zero, wordItem]
  exact loadBe_toBigCompact txn.sc.legacyV.isLt

theorem bounded_signed (v r s : Unsigned 32) :
    (SignatureAndChain.signed v r s).Bounded ↔
      v.val = 27 ∨ v.val = 28 ∨ 35 ≤ v.val ∧ v.val < 2 ^ 256 - 1 := by
  unfold SignatureAndChain.signed SignatureAndChain.fromV SignatureAndChain.Bounded
  by_cases one : v.val = 28
  · simp [one]
  · by_cases zero : v.val = 27
    · simp [zero]
    · have half : (v.val + (2 ^ 256 - 35)) % 2 ^ 256 / 2 % 256 ^ 32 ≤ maxChainId ↔
          35 ≤ v.val ∧ v.val < 2 ^ 256 - 1 := by
        unfold maxChainId
        omega
      rw [if_neg one, if_neg zero]
      simp only [Option.some.injEq, forall_eq', Fin.val_ofNat, half, one, zero, false_or]

/-- A decoded transaction is encoded to the bytes it was decoded from unless these
started with a type byte of zero, had a recovery value that `get_v` cannot give,
or 2^32 bytes of data. Among the byte strings that do not start with zero each
transaction is decoded from one at most. -/
theorem decoded_transaction_canonical (input : Bytes) (txn : Transaction)
    (accepted : Accepts decodeTransaction input txn []) :
    (encodeTransaction txn = .ok input ↔ Reencodable input) ∧
    ∀ other, Accepts decodeTransaction other txn [] → input.headD 0 ≠ 0 → other.headD 0 ≠ 0 →
      other = input := by
  constructor
  · rcases decoded_cases accepted with
      ⟨legacy, sizeable, rfl, head⟩ | ⟨typed, sizeable, rfl, head⟩
    · have fits := data_lt (sizeable_of_le (length_le_legacyItem _ _) sizeable)
      have isList := legacyItem_head [] sizeable
      rw [append_nil] at isList
      have bounded : txn.sc.Bounded ↔ txn.sc.legacyV.val = 27 ∨ txn.sc.legacyV.val = 28 ∨
          35 ≤ txn.sc.legacyV.val ∧ txn.sc.legacyV.val < 2 ^ 256 - 1 := by
        obtain ⟨v, signature⟩ := legacy.recovered
        rw [signature, legacyV_signed]
        exact bounded_signed v _ _
      rw [encodeTransaction_legacy legacy.type sizeable, reencodable_iff, dataField_legacy sizeable,
        recoveryField_legacy sizeable, ← bounded, ← encodeString2_eq_iff fits]
      by_cases inRange : txn.sc.Bounded
      · rw [if_pos inRange, Except.ok.injEq, eq_comm, legacyItem_inj sizeable, eq_comm]
        simp [-headD_eq_head?_getD, head, inRange]
      · simp [-headD_eq_head?_getD, isList, inRange]
    · have fits := data_lt (fits_of_envelope (Nat.le_refl _) sizeable).data
      rw [reencodable_iff, head, dataField_envelope sizeable,
        ← encodeString2_eq_iff fits, headD_cons]
      by_cases modern : txn.type ≠ .legacy
      · rw [encodeTransaction_typed modern typed sizeable, Except.ok.injEq, cons.injEq,
          eq_comm (a := envelopeItem _ _), envelopeItem_inj sizeable,
          eq_comm (b := encodeString2 _)]
        simp [modern, txn.type.code_lt]
      · rw [not_not] at modern
        have framed : encodeTransaction txn ≠
            .ok (txn.type.code :: envelopeItem (stringItem txn.data) txn) := by
          intro same
          rw [modern] at same
          exact encodeTransaction_head modern same rfl
        exact ⟨fun same => absurd same framed, fun both => absurd modern both.1⟩
  · intro other also inputHead otherHead
    rcases decoded_cases accepted with ⟨legacy, -, split, -⟩ | ⟨-, -, split, modern⟩
    · rcases decoded_cases also with ⟨-, -, same, -⟩ | ⟨-, -, -, modern⟩
      · rw [same, split]
      · exact absurd legacy.type (modern.mp otherHead)
    · rcases decoded_cases also with ⟨legacy, -, -, -⟩ | ⟨-, -, same, -⟩
      · exact absurd legacy.type (modern.mp inputHead)
      · rw [same, split]

def sampleTransaction : Transaction where
  sc := { signature := { r := 5, s := 6, yParity := 1 }, chainId := some 1 }
  nonce := 9
  maxFeePerGas := 100
  gasLimit := 21000
  value := 7
  recipient := some ⟨replicate 20 0x11, rfl⟩
  type := .eip1559
  data := [0xaa, 0xbb]
  accessList := [{ a := ⟨replicate 20 0x22, rfl⟩, keys := [] }]
  maxPriorityFeePerGas := 2

def sampleEnvelope : Bytes :=
  [0x02, 0xf8, 59, 1, 9, 2, 100, 0x82, 0x52, 0x08, 0x94] ++ replicate 20 0x11 ++
    [7, 0x82, 0xaa, 0xbb, 0xd7, 0xd6, 0x94] ++ replicate 20 0x22 ++ [0xc0, 1, 5, 6]

theorem decoded_transaction_canonical_sample :
    Accepts decodeTransaction sampleEnvelope sampleTransaction [] ∧
    encodeTransaction sampleTransaction = .ok sampleEnvelope := by
  have accepted : Accepts decodeTransaction sampleEnvelope sampleTransaction [] := by
    unfold Accepts
    decide +kernel
  refine ⟨accepted, (decoded_transaction_canonical _ _ accepted).1.mpr ⟨?_, ?_, ?_⟩⟩ <;>
    decide +kernel

/-- An empty transaction behind a type byte of zero is accepted, and not encoded
back; a recovery value of zero is accepted, and `get_v` throws on it. -/
theorem decoded_transaction_not_canonical :
    (Accepts decodeTransaction
      [0x00, 0xcb, 0x01, 0x80, 0x80, 0x80, 0x80, 0x80, 0x80, 0xc0, 0x80, 0x80, 0x80]
      { sc := { chainId := some 1 } } [] ∧
    encodeTransaction { sc := { chainId := some 1 } } =
      .ok [0xc9, 0x80, 0x80, 0x80, 0x80, 0x80, 0x80, 0x25, 0x80, 0x80]) ∧
    (Accepts decodeTransaction [0xc9, 0x80, 0x80, 0x80, 0x80, 0x80, 0x80, 0x80, 0x80, 0x80]
      { sc := { signature := { yParity := 1 }, chainId := some (Fin.ofNat _ (2 ^ 255 - 18)) } } [] ∧
    encodeTransaction
      { sc := { signature := { yParity := 1 }, chainId := some (Fin.ofNat _ (2 ^ 255 - 18)) } } =
      .error (.exception "get_v: chain_id out of bounds")) := by
  unfold Accepts
  decide +kernel

end MonadChain.Rlp
