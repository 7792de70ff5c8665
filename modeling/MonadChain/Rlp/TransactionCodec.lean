import MonadChain.Rlp.Fields

/-!
The transaction decoders accept exactly the encodings below, and the encoders
write them. The two differ in what they do with a type byte of zero, with the
recovery value of a legacy transaction, and with data of 2^32 bytes and more.
-/

namespace MonadChain.Rlp

open Scanner SignatureAndChain TransactionType List

variable {payload input rest : Bytes} {α : Type} {encode : α → Bytes} {txn : Transaction}
  (type : TransactionType)

def accessEntryItem (entry : AccessEntry) : Bytes :=
  listItem (encodeAddress (some entry.a) ++ vectorItem encodeFixed entry.keys)

def accessListItem : AccessList → Bytes := vectorItem accessEntryItem

def authorizationEntryItem (entry : AuthorizationEntry) : Bytes :=
  listItem (encodeWord (entry.sc.chainId.getD 0) ++ encodeAddress (some entry.address) ++
    encodeWord entry.nonce ++ encodeWord entry.sc.signature.yParity ++
    encodeWord entry.sc.signature.r ++ encodeWord entry.sc.signature.s)

def authorizationListItem : AuthorizationList → Bytes := vectorItem authorizationEntryItem

theorem sizeable_of_le {inner outer : Bytes} (inside : inner.length ≤ outer.length)
    (sizeable : Sizeable outer) : Sizeable inner := Nat.lt_of_le_of_lt inside sizeable

theorem sizeable_of_listItem (sizeable : Sizeable (listItem payload)) :
    payload.length < 2 ^ 64 := sizeable_of_le (length_le_listItem payload) sizeable

theorem sizeable_of_mem {values : List α} {value : α}
    (member : value ∈ values) (sizeable : Sizeable (vectorItem encode values)) :
    Sizeable (encode value) := by
  have fits := sizeable_of_listItem sizeable
  have inside : (encode value).length ≤ (values.flatMap encode).length :=
    (sublist_flatten_of_mem (mem_map_of_mem member)).length_le
  exact Nat.lt_of_le_of_lt inside fits

theorem length_keys (keys : List Bytes32) :
    (keys.flatMap encodeFixed).length = keys.length * 33 := by
  induction keys with
  | nil => rfl
  | cons key others ih =>
    rw [flatMap_cons, length_append, length_encodeFixed, ih, length_cons]
    omega

theorem decodeAccessEntryKeys_exact :
    Exact decodeAccessEntryKeys (vectorItem encodeFixed)
      (fun keys => Sizeable (vectorItem encodeFixed keys)) := by
  intro input keys rest
  have loop (payload : Bytes) (found : List Bytes32) :
      Accepts (decodeRepeated decodeBytes32) payload found [] ↔
        payload = found.flatMap encodeFixed := by
    rw [accepts_repeated decodeBytes32_exact encodeFixed_ne_nil]
    simp
  rw [decodeAccessEntryKeys, parseListMetadata_exact.bind]
  constructor
  · rintro ⟨payload, middle, sizeable, split, inner⟩
    obtain ⟨found, left, read, later⟩ := accepts_bind.mp inner
    obtain ⟨done, rfl⟩ := accepts_whole.mp read
    obtain ⟨-, final⟩ := accepts_monadAssert.mp later
    obtain ⟨rfl, rfl⟩ := accepts_pure.mp final
    rw [loop] at done
    subst done
    exact ⟨sizeable, split⟩
  · rintro ⟨sizeable, split⟩
    refine ⟨keys.flatMap encodeFixed, rest, sizeable, split, accepts_bind.mpr ⟨keys, rest, ?_, ?_⟩⟩
    · exact accepts_whole.mpr ⟨(loop _ _).mpr rfl, rfl⟩
    · exact accepts_monadAssert.mpr ⟨length_keys keys, accepts_pure.mpr ⟨rfl, rfl⟩⟩

theorem decodeAccessEntry_exact :
    Exact decodeAccessEntry accessEntryItem
      (fun entry => True ∧ Sizeable (accessEntryItem entry)) := by
  refine decodeListOf_record (fun entry => Sizeable (vectorItem encodeFixed entry.keys)) ?_ ?_
  · intro entry sizeable
    have total := sizeable_of_listItem sizeable
    rw [length_append] at total
    exact Nat.lt_of_le_of_lt (Nat.le_add_left _ _) total
  refine decodeAddress_exact.plain fun a => ?_
  refine decodeAccessEntryKeys_exact.last (fun _ base _ => base.2) fun keys fits entry => ?_
  constructor
  · rintro rfl
    exact ⟨⟨trivial, fits⟩, rfl, rfl, trivial⟩
  · rintro ⟨-, rfl, rfl, -⟩
    rfl

theorem vector_exact {read : Decoder α} {good : α → Prop} {fault : Stop}
    (reads : Exact read encode (fun value => good value ∧ Sizeable (encode value)))
    (nonempty : ∀ value, encode value ≠ []) :
    Exact (do let payload ← parseListMetadata
              whole fault (decodeRepeated read) payload) (vectorItem encode)
      (fun values => (∀ value ∈ values, good value) ∧ Sizeable (vectorItem encode values)) := by
  intro input values rest
  rw [accepts_vector reads nonempty]
  constructor
  · rintro ⟨⟨all, sizeable⟩, split⟩
    exact ⟨⟨fun value member => (all value member).1, sizeable⟩, split⟩
  · rintro ⟨⟨all, sizeable⟩, split⟩
    exact ⟨⟨fun value member => ⟨all value member, sizeable_of_mem member sizeable⟩, sizeable⟩,
      split⟩

theorem decodeAccessList_exact :
    Exact decodeAccessList accessListItem (fun list => Sizeable (accessListItem list)) :=
  (vector_exact decodeAccessEntry_exact fun _ => listItem_ne_nil _).mono
    fun _ => ⟨fun both => both.2, fun sizeable => ⟨fun _ _ => trivial, sizeable⟩⟩

theorem decodeAuthorizationEntry_exact :
    Exact decodeAuthorizationEntry authorizationEntryItem
      (fun entry => entry.sc.chainId.isSome ∧ Sizeable (authorizationEntryItem entry)) := by
  refine decodeListOf_exact ?_
  simp only [append_assoc]
  refine word32_exact.plain fun chainId => ?_
  refine decodeAddress_exact.plain fun address => ?_
  refine word8_exact.plain fun nonce => ?_
  refine word1_exact.plain fun yParity => ?_
  refine word32_exact.plain fun r => ?_
  refine word32_exact.last (fun _ _ _ => trivial) fun s _ entry => ?_
  constructor
  · rintro rfl
    exact ⟨rfl, rfl, rfl, rfl, rfl, rfl, rfl, trivial⟩
  · rintro ⟨chained, rfl, rfl, rfl, rfl, rfl, rfl, -⟩
    obtain ⟨chainId, same⟩ := Option.isSome_iff_exists.mp chained
    rw [same, Option.getD_some, ← same]

theorem decodeAuthorizationList_exact :
    Exact decodeAuthorizationList authorizationListItem
      (fun list => (∀ entry ∈ list, entry.sc.chainId.isSome) ∧
        Sizeable (authorizationListItem list)) :=
  vector_exact decodeAuthorizationEntry_exact fun _ => listItem_ne_nil _

def SignatureAndChain.legacyV (sc : SignatureAndChain) : Unsigned 32 :=
  match sc.chainId with
  | some chainId => Fin.ofNat _ (chainId.val * 2 + 35 + sc.signature.yParity.val)
  | none => if sc.signature.yParity.val ≠ 0 then 28 else 27

def SignatureAndChain.signed (v r s : Unsigned 32) : SignatureAndChain :=
  let sc := fromV v
  { sc with signature := { sc.signature with r, s } }

def SignatureAndChain.Bounded (sc : SignatureAndChain) : Prop :=
  ∀ chainId, sc.chainId = some chainId → chainId.val ≤ maxChainId

instance (sc : SignatureAndChain) : Decidable sc.Bounded :=
  match same : sc.chainId with
  | none => .isTrue (by intro chainId found; rw [same] at found; cases found)
  | some chainId =>
    if small : chainId.val ≤ maxChainId then
      .isTrue (by intro other found; rw [same] at found; cases found; exact small)
    else .isFalse (fun bounded => small (bounded chainId same))

theorem getV_eq (sc : SignatureAndChain) :
    getV sc = if sc.Bounded then .ok sc.legacyV
      else .error (.exception "get_v: chain_id out of bounds") := by
  cases found : sc.chainId <;> simp [getV, legacyV, Bounded, found]

theorem legacyV_signed (v r s : Unsigned 32) : (signed v r s).legacyV = v := by
  unfold signed fromV legacyV
  by_cases one : v.val = 28
  · rw [if_pos one]
    exact Fin.ext one.symm
  · rw [if_neg one]
    by_cases zero : v.val = 27
    · rw [if_pos zero]
      exact Fin.ext zero.symm
    · rw [if_neg zero]
      apply Fin.ext
      have parity (n : Nat) : (if n % 2 = 1 then 1 else 0 : Unsigned 1).val = n % 2 := by
        rcases Nat.mod_two_eq_zero_or_one n with even | odd
        · simp [even]
        · simp [odd]
      rw [Fin.val_ofNat, Fin.val_ofNat, parity]
      omega

theorem signed_legacyV {sc : SignatureAndChain} (bounded : sc.Bounded)
    (parity : sc.signature.yParity.val ≤ 1) :
    signed sc.legacyV sc.signature.r sc.signature.s = sc := by
  obtain ⟨⟨r, s, yParity⟩, chainId⟩ := sc
  have bit : yParity = 0 ∨ yParity = 1 := by
    have small : yParity.val ≤ 1 := parity
    rcases Nat.le_one_iff_eq_zero_or_eq_one.mp small with zero | one
    · exact .inl (Fin.ext zero)
    · exact .inr (Fin.ext one)
  cases chainId with
  | none =>
    rcases bit with rfl | rfl
    · rfl
    · rfl
  | some chainId =>
    have small : chainId.val ≤ maxChainId := bounded chainId rfl
    unfold maxChainId at small
    have le : yParity.val ≤ 1 := parity
    have value : (chainId.val * 2 + 35 + yParity.val) % 256 ^ 32 =
        chainId.val * 2 + 35 + yParity.val := by omega
    have back : (chainId.val * 2 + 35 + yParity.val + (2 ^ 256 - 35)) % 2 ^ 256 =
        chainId.val * 2 + yParity.val := by omega
    have half : (chainId.val * 2 + yParity.val) / 2 = chainId.val := by omega
    have odd : (chainId.val * 2 + yParity.val) % 2 = yParity.val := by omega
    unfold signed legacyV fromV
    dsimp only
    rw [Fin.val_ofNat, value, if_neg (by omega), if_neg (by omega), back, half, odd]
    have same : Fin.ofNat (256 ^ 32) chainId.val = chainId :=
      Fin.ext (Nat.mod_eq_of_lt chainId.isLt)
    rw [same]
    rcases bit with rfl | rfl
    · rfl
    · rfl

structure Transaction.Carries (txn : Transaction) : Prop where
  priorityFee : ¬ txn.type.hasPriorityFee → txn.maxPriorityFeePerGas = 0
  blobs : txn.type ≠ .eip4844 → txn.maxFeePerBlobGas = 0 ∧ txn.blobVersionedHashes = []
  authorizations : txn.type ≠ .eip7702 → txn.authorizationList = []
  recipient : txn.type = .eip4844 ∨ txn.type = .eip7702 → txn.recipient ≠ none
  chains : ∀ entry ∈ txn.authorizationList, entry.sc.chainId.isSome

/-- What `decode_transaction_legacy` can return. -/
structure Transaction.Legacy (txn : Transaction) : Prop where
  type : txn.type = .legacy
  carries : txn.Carries
  accessList : txn.accessList = []
  recovered : ∃ v, txn.sc = SignatureAndChain.signed v txn.sc.signature.r txn.sc.signature.s

theorem Transaction.Legacy.eq (legacy : txn.Legacy) {v : Unsigned 32}
    (signature : txn.sc = signed v txn.sc.signature.r txn.sc.signature.s) :
    txn = { type := .legacy, nonce := txn.nonce, maxFeePerGas := txn.maxFeePerGas,
            gasLimit := txn.gasLimit, recipient := txn.recipient, value := txn.value,
            data := txn.data,
            sc := signed v txn.sc.signature.r txn.sc.signature.s } := by
  obtain ⟨isLegacy, carries, noAccess, -⟩ := legacy
  have noFee := carries.priorityFee (by rw [isLegacy]; decide)
  have noBlobs := carries.blobs (by rw [isLegacy]; decide)
  have noAuthorizations := carries.authorizations (by rw [isLegacy]; decide)
  rw [← signature]
  cases txn
  simp only at isLegacy noAccess noFee noBlobs noAuthorizations
  simp only [isLegacy, noAccess, noFee, noBlobs, noAuthorizations]

section

variable (text : Bytes) (txn : Transaction)

def legacyPayload : Bytes :=
  encodeWord txn.nonce ++ encodeWord txn.maxFeePerGas ++ encodeWord txn.gasLimit ++
    encodeAddress txn.recipient ++ encodeWord txn.value ++ text ++ encodeWord txn.sc.legacyV ++
    encodeWord txn.sc.signature.r ++ encodeWord txn.sc.signature.s

def legacyItem : Bytes := listItem (legacyPayload text txn)

theorem length_le_legacyItem : text.length ≤ (legacyItem text txn).length := by
  have outer := length_le_listItem (legacyPayload text txn)
  unfold legacyItem
  unfold legacyPayload at outer ⊢
  simp only [length_append] at outer
  omega

end

theorem decodeTransactionLegacy_exact :
    Exact decodeTransactionLegacy (fun txn => legacyItem (stringItem txn.data) txn)
      (fun txn => txn.Legacy ∧ Sizeable (legacyItem (stringItem txn.data) txn)) := by
  refine decodeListOf_record (fun txn => Sizeable (stringItem txn.data))
    (fun _ => sizeable_of_le (length_le_legacyItem _ _)) ?_
  simp only [decodeSc, bind_assoc, pure_bind, legacyPayload, append_assoc]
  refine word8_exact.plain fun nonce => ?_
  refine word32_exact.plain fun maxFeePerGas => ?_
  refine word8_exact.plain fun gasLimit => ?_
  refine decodeOptionalAddress_exact.plain fun recipient => ?_
  refine word32_exact.plain fun value => ?_
  refine parseStringMetadata_exact.field (fun _ base _ => base.2) fun data sizeable => ?_
  refine word32_exact.plain fun v => ?_
  refine word32_exact.plain fun r => ?_
  refine word32_exact.last (fun _ _ _ => trivial) fun s _ txn => ?_
  constructor
  · rintro rfl
    refine ⟨⟨⟨rfl, ⟨fun _ => rfl, fun _ => ⟨rfl, rfl⟩, fun _ => rfl, ?_, ?_⟩, rfl, v, rfl⟩,
      sizeable⟩, rfl, rfl, legacyV_signed v r s, rfl, rfl, rfl, rfl, rfl, rfl, trivial⟩
    · rintro (impossible | impossible) <;> cases impossible
    · intro entry member
      cases member
  · rintro ⟨⟨legacy, -⟩, rfl, rfl, rfl, rfl, rfl, rfl, rfl, rfl, rfl, -⟩
    obtain ⟨v, signature⟩ := legacy.recovered
    have recovered : txn.sc.legacyV = v := by
      rw [signature, legacyV_signed]
    rw [← recovered] at signature
    exact legacy.eq signature

def priorityFeePart (type : TransactionType) (fee : Unsigned 32) : Bytes :=
  if type.hasPriorityFee then encodeWord fee else []

def blobPart (type : TransactionType) (blobs : Unsigned 32 × List Bytes32) : Bytes :=
  if type = .eip4844 then encodeWord blobs.1 ++ vectorItem encodeFixed blobs.2 else []

def authorizationPart (type : TransactionType) (list : AuthorizationList) : Bytes :=
  if type = .eip7702 then authorizationListItem list else []

theorem decodePriorityFee_exact :
    Exact (decodePriorityFee type) (priorityFeePart type)
      (fun fee => ¬ type.hasPriorityFee → fee = 0) := by
  unfold decodePriorityFee
  by_cases has : type.hasPriorityFee
  · have part : priorityFeePart type = encodeWord := by
      funext fee
      exact if_pos has
    rw [if_pos has, part]
    exact word32_exact.mono fun fee => by simp [has]
  · rw [if_neg has]
    exact (exact_pure 0 (if_neg has)).mono fun fee => by simp [has]

theorem decodeBlobs_exact (recipient : Option Address) :
    Exact (decodeBlobs type recipient) (blobPart type)
      (fun blobs => (type = .eip4844 → recipient ≠ none) ∧
        (type = .eip4844 → Sizeable (vectorItem encodeFixed blobs.2)) ∧
        (type ≠ .eip4844 → blobs = (0, []))) := by
  unfold decodeBlobs
  by_cases has : type = .eip4844
  · have part : blobPart type =
        fun blobs => encodeWord blobs.1 ++ vectorItem encodeFixed blobs.2 :=
      funext fun _ => if_pos has
    rw [if_pos has, part]
    refine .of_fields fun rest => completes_failIf (fun _ base _ => base.1 has) fun present => ?_
    refine word32_exact.plain fun fee => ?_
    refine decodeHashes_exact.last (fun _ base _ => base.2.1 has) fun list sizeable blobs => ?_
    constructor
    · rintro rfl
      exact ⟨⟨fun _ => present, fun _ => sizeable, fun other => absurd has other⟩,
        rfl, rfl, trivial⟩
    · rintro ⟨-, rfl, rfl, -⟩
      rfl
  · rw [if_neg has]
    exact (exact_pure (0, []) (if_neg has)).mono fun blobs => by simp [has]

theorem decodeAuthorizations_exact (recipient : Option Address) :
    Exact (decodeAuthorizations type recipient) (authorizationPart type)
      (fun list => (type = .eip7702 → recipient ≠ none) ∧
        (∀ entry ∈ list, entry.sc.chainId.isSome) ∧
        (type = .eip7702 → Sizeable (authorizationListItem list)) ∧
        (type ≠ .eip7702 → list = [])) := by
  unfold decodeAuthorizations
  by_cases has : type = .eip7702
  · intro input list rest
    rw [if_pos has, accepts_failIf, decodeAuthorizationList_exact, authorizationPart, if_pos has]
    simp [has, and_assoc]
  · rw [if_neg has]
    have empty : authorizationPart type [] = [] := if_neg has
    refine (exact_pure [] empty).mono fun list => ?_
    constructor
    · rintro rfl
      simp [has]
    · rintro ⟨-, -, -, none⟩
      exact none has

def envelopePayload (text : Bytes) (txn : Transaction) : Bytes :=
  encodeWord (txn.sc.chainId.getD 0) ++ encodeWord txn.nonce ++
    priorityFeePart txn.type txn.maxPriorityFeePerGas ++ encodeWord txn.maxFeePerGas ++
    encodeWord txn.gasLimit ++ encodeAddress txn.recipient ++ encodeWord txn.value ++ text ++
    accessListItem txn.accessList ++
    blobPart txn.type (txn.maxFeePerBlobGas, txn.blobVersionedHashes) ++
    authorizationPart txn.type txn.authorizationList ++ encodeWord txn.sc.signature.yParity ++
    encodeWord txn.sc.signature.r ++ encodeWord txn.sc.signature.s

def envelopeItem (text : Bytes) (txn : Transaction) : Bytes :=
  listItem (envelopePayload text txn)

structure Transaction.Fits (txn : Transaction) : Prop where
  data : Sizeable (stringItem txn.data)
  access : Sizeable (accessListItem txn.accessList)
  blobs : txn.type = .eip4844 → Sizeable (vectorItem encodeFixed txn.blobVersionedHashes)
  authorizations : txn.type = .eip7702 → Sizeable (authorizationListItem txn.authorizationList)

theorem fits_of_envelope {text : Bytes} (room : (stringItem txn.data).length ≤ text.length)
    (sizeable : Sizeable (envelopeItem text txn)) : txn.Fits := by
  have total := sizeable_of_listItem sizeable
  unfold envelopePayload at total
  simp only [length_append] at total
  refine ⟨?_, ?_, ?_, ?_⟩
  · rw [Sizeable]
    omega
  · rw [Sizeable]
    omega
  · intro has
    rw [blobPart, if_pos has, length_append] at total
    dsimp only at total
    rw [Sizeable]
    omega
  · intro has
    rw [authorizationPart, if_pos has] at total
    rw [Sizeable]
    omega

theorem decodeEnvelope_exact :
    Exact (decodeListOf (decodeEnvelope type)) (fun txn => envelopeItem (stringItem txn.data) txn)
      (fun txn => (txn.type = type ∧ txn.sc.chainId.isSome ∧ txn.Carries) ∧
        Sizeable (envelopeItem (stringItem txn.data) txn)) := by
  refine decodeListOf_record Transaction.Fits (fun _ => fits_of_envelope (Nat.le_refl _)) ?_
  simp only [decodeEnvelope, envelopePayload, append_assoc]
  refine word32_exact.plain fun chainId => ?_
  refine word8_exact.plain fun nonce => ?_
  refine (decodePriorityFee_exact type).piece (·.maxPriorityFeePerGas)
    (fun _ ⟨⟨same, _, carries⟩, _⟩ _ => ⟨same ▸ carries.priorityFee, same ▸ rfl⟩)
    fun priority noPriority => ?_
  refine word32_exact.plain fun maxFeePerGas => ?_
  refine word8_exact.plain fun gasLimit => ?_
  refine decodeOptionalAddress_exact.plain fun recipient => ?_
  refine word32_exact.plain fun value => ?_
  refine parseStringMetadata_exact.field (fun _ base _ => base.2.data) fun data dataFits => ?_
  refine decodeAccessList_exact.field (fun _ base _ => base.2.access) fun list accessFits => ?_
  refine (decodeBlobs_exact type recipient).piece (fun txn =>
    (txn.maxFeePerBlobGas, txn.blobVersionedHashes)) ?_ fun ⟨fee, hashes⟩ validBlobs => ?_
  · rintro txn ⟨⟨rfl, -, carries⟩, fits⟩ ⟨-, -, -, rfl, -⟩
    exact ⟨⟨fun isBlob => carries.recipient (.inl isBlob), fits.blobs,
      fun other => Prod.ext (carries.blobs other).1 (carries.blobs other).2⟩, rfl⟩
  refine (decodeAuthorizations_exact type recipient).piece (·.authorizationList) ?_
    fun authorizations validList => ?_
  · rintro txn ⟨⟨rfl, -, carries⟩, fits⟩ ⟨-, -, -, -, rfl, -⟩
    exact ⟨⟨fun isSet => carries.recipient (.inr isSet), carries.chains, fits.authorizations,
      carries.authorizations⟩, rfl⟩
  refine word1_exact.plain fun yParity => ?_
  refine word32_exact.plain fun r => ?_
  refine word32_exact.last (fun _ _ _ => trivial) fun s _ txn => ?_
  constructor
  · rintro rfl
    obtain ⟨blobTo, blobsFit, noBlobs⟩ := validBlobs
    obtain ⟨listTo, chains, listFits, noList⟩ := validList
    refine ⟨⟨⟨rfl, rfl, noPriority, fun other => Prod.mk.inj (noBlobs other), noList, ?_, chains⟩,
      ⟨dataFits, accessFits, blobsFit, listFits⟩⟩, rfl, rfl, rfl, rfl, rfl, rfl, rfl, rfl, rfl, rfl,
      rfl, rfl, rfl, rfl, trivial⟩
    rintro (isBlob | isSet)
    · exact blobTo isBlob
    · exact listTo isSet
  · rintro ⟨⟨⟨rfl, chained, -⟩, -⟩, rfl, rfl, rfl, rfl, blobs, rfl, rfl, rfl, rfl, rfl, rfl,
      rfl, rfl,
      rfl, -⟩
    obtain ⟨chainId, same⟩ := Option.isSome_iff_exists.mp chained
    cases blobs
    rw [same, Option.getD_some, ← same]

/-- What `decode_transaction_eip2718` can return: any type, the legacy one too. -/
structure Transaction.Typed (txn : Transaction) : Prop where
  chained : txn.sc.chainId.isSome
  carries : txn.Carries

theorem TransactionType.ofByte_eq {byte : UInt8} {type : TransactionType} :
    ofByte byte = some type ↔ byte = type.code := by
  constructor
  · intro found
    apply UInt8.toNat_inj.mp
    unfold ofByte at found
    split at found <;> first | (cases found; assumption) | cases found
  · rintro rfl
    cases type <;> rfl

theorem accepts_decodeTransactionEip2718 :
    Accepts decodeTransactionEip2718 input txn rest ↔
      rest = [] ∧ txn.Typed ∧ Sizeable (envelopeItem (stringItem txn.data) txn) ∧
        input = txn.type.code :: envelopeItem (stringItem txn.data) txn := by
  cases input with
  | nil =>
    constructor
    · intro impossible
      cases impossible
    · rintro ⟨-, -, -, impossible⟩
      cases impossible
  | cons first enc =>
    constructor
    · intro accepted
      unfold Accepts decodeTransactionEip2718 at accepted
      dsimp only at accepted
      split at accepted
      · cases accepted
      · rename_i type known
        have read : Accepts (do
            let txn ← decodeListOf (decodeEnvelope type)
            decodeEnd
            return txn) enc txn rest := accepted
        obtain ⟨found, middle, valid, split, later⟩ := (decodeEnvelope_exact type).bind.mp read
        obtain ⟨rfl, final⟩ := accepts_decodeEnd.mp later
        obtain ⟨rfl, rfl⟩ := accepts_pure.mp final
        obtain ⟨⟨rfl, chained, carries⟩, sizeable⟩ := valid
        rw [append_nil] at split
        rw [ofByte_eq.mp known, split]
        exact ⟨rfl, ⟨chained, carries⟩, sizeable, rfl⟩
    · rintro ⟨rfl, typed, sizeable, split⟩
      obtain ⟨rfl, rfl⟩ := cons.inj split
      unfold Accepts decodeTransactionEip2718
      dsimp only
      rw [ofByte_eq.mpr rfl]
      refine (decodeEnvelope_exact txn.type).bind.mpr ⟨txn, [],
        ⟨⟨rfl, typed.chained, typed.carries⟩, sizeable⟩, (append_nil _).symm, ?_⟩
      exact accepts_decodeEnd.mpr ⟨rfl, accepts_pure.mpr ⟨rfl, rfl⟩⟩

theorem listItem_head {first : UInt8} {tail : Bytes}
    (sizeable : Sizeable (listItem payload)) (split : first :: tail = listItem payload ++ rest) :
    0xc0 ≤ first :=
  UInt8.le_iff_toNat_le.mpr (header_head (Nat.le_refl _) sizeable split).1

theorem TransactionType.code_lt : ¬ 0xc0 ≤ type.code := by
  cases type <;> decide

theorem accepts_decodeTransaction :
    Accepts decodeTransaction input txn rest ↔
      (txn.Legacy ∧ Sizeable (legacyItem (stringItem txn.data) txn) ∧
        input = legacyItem (stringItem txn.data) txn ++ rest) ∨
      (rest = [] ∧ txn.Typed ∧ Sizeable (envelopeItem (stringItem txn.data) txn) ∧
        input = txn.type.code :: envelopeItem (stringItem txn.data) txn) := by
  cases input with
  | nil =>
    constructor
    · intro impossible
      cases impossible
    · rintro (⟨-, -, impossible⟩ | ⟨-, -, -, impossible⟩)
      · exact absurd (append_eq_nil_iff.mp impossible.symm).1 (listItem_ne_nil _)
      · cases impossible
  | cons first enc =>
    have step : Accepts decodeTransaction (first :: enc) txn rest ↔
        if 0xc0 ≤ first then Accepts decodeTransactionLegacy (first :: enc) txn rest
        else Accepts decodeTransactionEip2718 (first :: enc) txn rest := by
      unfold Accepts decodeTransaction
      dsimp only
      split <;> rfl
    rw [step]
    by_cases isList : 0xc0 ≤ first
    · rw [if_pos isList, decodeTransactionLegacy_exact, and_assoc]
      constructor
      · exact .inl
      · rintro (legacy | ⟨-, -, -, split⟩)
        · exact legacy
        · rw [(cons.inj split).1] at isList
          exact absurd isList txn.type.code_lt
    · rw [if_neg isList, accepts_decodeTransactionEip2718]
      constructor
      · exact .inr
      · rintro (⟨-, sizeable, split⟩ | typed)
        · exact absurd (listItem_head sizeable split) isList
        · exact typed

end MonadChain.Rlp
