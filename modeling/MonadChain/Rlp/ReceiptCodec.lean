import MonadChain.Rlp.BlockCodec

/-!
The encoders of receipt_rlp.cpp against their decoders. The data of a log is the one field of any
length: the decoder takes it up to the size of memory, the encoder keeps its length in 32 bits.
-/

namespace MonadChain.Rlp

open Scanner List

variable {receipt : Receipt} {log : Log}

def encodeTopics (topics : List Bytes32) : Bytes := encodeList2 [topics.flatMap encodeFixed]

def encodeLog (log : Log) : Bytes :=
  encodeList2 [encodeFixed log.address, encodeTopics log.topics, encodeString2 log.data]

section

variable (receipt : Receipt)

def encodeReceiptBytes : Bytes :=
  encodeList2 [encodeWord receipt.status, encodeWord receipt.gasUsed, encodeBloom receipt.bloom,
    encodeList2 [receipt.logs.flatMap encodeLog]]

def encodeReceipt : Bytes :=
  let receiptBytes := encodeReceiptBytes receipt
  if receipt.type = .eip1559 ∨ receipt.type = .eip2930 ∨ receipt.type = .eip4844 ∨
      receipt.type = .eip7702 then receipt.type.code :: receiptBytes
  else receiptBytes

def Receipt.ShortData : Prop := ∀ log ∈ receipt.logs, log.data.length < 2 ^ 32

def topicsItem : List Bytes32 → Bytes := vectorItem encodeFixed

def logPayload (log : Log) : Bytes :=
  encodeFixed log.address ++ (topicsItem log.topics ++ stringItem log.data)

def logItem (log : Log) : Bytes := listItem (logPayload log)

def logsItem : List Log → Bytes := vectorItem logItem

def receiptPayload : Bytes :=
  encodeWord receipt.status ++ (encodeWord receipt.gasUsed ++
    (encodeBloom receipt.bloom ++ logsItem receipt.logs))

def untypedItem : Bytes := listItem (receiptPayload receipt)

def receiptItem : Bytes :=
  if receipt.type = .legacy then untypedItem receipt
  else receipt.type.code :: untypedItem receipt

end

theorem decodeTopics_exact :
    Exact decodeTopics topicsItem (fun topics => Sizeable (topicsItem topics)) :=
  decodeHashes_exact

theorem sizeable_append {first second : Bytes} (sizeable : Sizeable (listItem (first ++ second))) :
    first.length < 2 ^ 64 ∧ second.length < 2 ^ 64 := by
  have whole := sizeable_of_listItem sizeable
  rw [length_append] at whole
  omega

theorem decodeLog_exact : Exact decodeLog logItem (fun log => True ∧ Sizeable (logItem log)) := by
  refine decodeListOf_record (fun log => Sizeable (topicsItem log.topics) ∧
    Sizeable (stringItem log.data)) ?_ ?_
  · intro log sizeable
    have parts := (sizeable_append sizeable).2
    rw [length_append] at parts
    exact ⟨Nat.lt_of_le_of_lt (Nat.le_add_right _ _) parts,
      Nat.lt_of_le_of_lt (Nat.le_add_left _ _) parts⟩
  refine decodeAddress_exact.plain fun address => ?_
  refine decodeTopics_exact.field (fun _ base _ => base.2.1) fun topics fits => ?_
  refine parseStringMetadata_exact.last (fun _ base _ => base.2.2) fun data sizeable log => ?_
  constructor
  · rintro rfl
    exact ⟨⟨trivial, fits, sizeable⟩, rfl, rfl, rfl, trivial⟩
  · rintro ⟨-, rfl, rfl, rfl, -⟩
    rfl

theorem decodeLogs_exact : Exact decodeLogs logsItem (fun logs => Sizeable (logsItem logs)) :=
  (vector_exact decodeLog_exact fun _ => listItem_ne_nil _).mono
    fun _ => ⟨fun both => both.2, fun sizeable => ⟨fun _ _ => trivial, sizeable⟩⟩

theorem decodeUntypedReceipt_exact :
    Exact decodeUntypedReceipt untypedItem
      (fun receipt => receipt.type = .legacy ∧ Sizeable (untypedItem receipt)) := by
  refine decodeListOf_record (fun receipt => Sizeable (logsItem receipt.logs)) ?_ ?_
  · intro receipt sizeable
    have gas := (sizeable_append sizeable).2
    rw [length_append, length_append] at gas
    rw [Sizeable]
    omega
  refine word8_exact.plain fun status => ?_
  refine word8_exact.plain fun gasUsed => ?_
  refine decodeBloom_exact.plain fun bloom => ?_
  refine decodeLogs_exact.last (fun _ base _ => base.2) fun logs sizeable receipt => ?_
  constructor
  · rintro rfl
    exact ⟨⟨rfl, sizeable⟩, rfl, rfl, rfl, rfl, trivial⟩
  · rintro ⟨⟨legacy, -⟩, rfl, rfl, rfl, rfl, -⟩
    rw [← legacy]

def decodeTyped (first : UInt8) : Decoder Receipt := do
  let receipt ← decodeUntypedReceipt
  match TransactionType.ofByte first with
  | none | some .legacy => stop .invalidTxnType
  | some type => return { receipt with type }

theorem accepts_decodeTyped {first : UInt8} {enc rest : Bytes} :
    Accepts (decodeTyped first) enc receipt rest ↔
      Sizeable (untypedItem receipt) ∧ receipt.type ≠ .legacy ∧ first = receipt.type.code ∧
        enc = untypedItem receipt ++ rest := by
  unfold decodeTyped
  rw [decodeUntypedReceipt_exact.bind]
  constructor
  · rintro ⟨untyped, middle, ⟨-, sizeable⟩, split, accepted⟩
    cases known : TransactionType.ofByte first with
    | none =>
      rw [known] at accepted
      exact absurd accepted not_accepts_fail
    | some type =>
      rw [known] at accepted
      have code := TransactionType.ofByte_eq.mp known
      cases type with
      | legacy => exact absurd accepted not_accepts_fail
      | _ =>
        obtain ⟨rfl, rfl⟩ := accepts_pure.mp accepted
        exact ⟨sizeable, (fun impossible => by cases impossible), code, split⟩
  · rintro ⟨sizeable, typed, rfl, split⟩
    refine ⟨{ receipt with type := .legacy }, rest, ⟨rfl, sizeable⟩, split, ?_⟩
    cases receipt with
    | mk bloom status gasUsed type logs =>
      cases type with
      | legacy => exact absurd rfl typed
      | _ => exact accepts_pure.mpr ⟨rfl, rfl⟩

theorem decodeReceipt_exact :
    Exact decodeReceipt receiptItem (fun receipt => Sizeable (untypedItem receipt)) := by
  intro input receipt rest
  cases input with
  | nil =>
    constructor
    · intro impossible
      cases impossible
    · rintro ⟨-, split⟩
      unfold receiptItem at split
      split_ifs at split
      · exact absurd (append_eq_nil_iff.mp split.symm).1 (listItem_ne_nil _)
      · cases split
  | cons first enc =>
    have step : Accepts decodeReceipt (first :: enc) receipt rest ↔
        if first < 0xc0 then Accepts (decodeTyped first) enc receipt rest
        else Accepts decodeUntypedReceipt (first :: enc) receipt rest := by
      unfold Accepts decodeReceipt
      dsimp only
      split <;> rfl
    rw [step, receiptItem]
    constructor
    · intro accepted
      split at accepted
      · obtain ⟨sizeable, differs, rfl, rfl⟩ := accepts_decodeTyped.mp accepted
        exact ⟨sizeable, by rw [if_neg differs, cons_append]⟩
      · obtain ⟨⟨legacy, sizeable⟩, split⟩ := (decodeUntypedReceipt_exact _ _ _).mp accepted
        exact ⟨sizeable, by rw [if_pos legacy]; exact split⟩
    · rintro ⟨sizeable, split⟩
      by_cases legacy : receipt.type = .legacy
      · rw [if_pos legacy] at split
        rw [if_neg (UInt8.not_lt.mpr (listItem_head sizeable split))]
        exact (decodeUntypedReceipt_exact _ _ _).mpr ⟨⟨legacy, sizeable⟩, split⟩
      · rw [if_neg legacy, cons_append, cons.injEq] at split
        rw [if_pos (UInt8.not_le.mp (split.1 ▸ receipt.type.code_lt))]
        exact accepts_decodeTyped.mpr ⟨sizeable, legacy, split⟩

theorem encodeTopics_eq {topics : List Bytes32}
    (fits : Sizeable (encodeTopics topics) ∨ Sizeable (topicsItem topics)) :
    encodeTopics topics = topicsItem topics :=
  encodeList2_of_fits flatten_singleton fits

theorem encodeLog_eq (short : log.data.length < 2 ^ 32)
    (fits : Sizeable (encodeLog log) ∨ Sizeable (logItem log)) : encodeLog log = logItem log := by
  have topics : encodeTopics log.topics = topicsItem log.topics := by
    refine encodeTopics_eq (fits.imp (fun written => ?_) fun read => ?_)
    · exact sizeable_of_le (length_le_encodeList2 (by simp)) written
    · have parts := (sizeable_append read).2
      rw [length_append] at parts
      exact Nat.lt_of_le_of_lt (Nat.le_add_right _ _) parts
  refine encodeList2_of_fits ?_ fits
  rw [topics, encodeString2_eq short]
  simp [logPayload]

theorem encodeLogs_eq {logs : List Log} (short : ∀ log ∈ logs, log.data.length < 2 ^ 32)
    (fits : Sizeable (encodeList2 [logs.flatMap encodeLog]) ∨ Sizeable (logsItem logs)) :
    encodeList2 [logs.flatMap encodeLog] = logsItem logs := by
  refine encodeList2_of_fits ?_ fits
  rw [flatten_singleton]
  apply flatMap_congr
  intro log member
  refine encodeLog_eq (short log member) (fits.imp (fun written => ?_) fun read => ?_)
  · have inside : (encodeLog log).length ≤ (logs.flatMap encodeLog).length :=
      (sublist_flatten_of_mem (mem_map_of_mem member)).length_le
    exact sizeable_of_le (Nat.le_trans inside (length_le_encodeList2 (by simp))) written
  · exact sizeable_of_mem member read

theorem encodeReceiptBytes_eq (short : receipt.ShortData)
    (fits : Sizeable (encodeReceiptBytes receipt) ∨ Sizeable (untypedItem receipt)) :
    encodeReceiptBytes receipt = untypedItem receipt := by
  have logs : encodeList2 [receipt.logs.flatMap encodeLog] = logsItem receipt.logs := by
    refine encodeLogs_eq short (fits.imp (fun written => ?_) fun read => ?_)
    · exact sizeable_of_le (length_le_encodeList2 (by simp)) written
    · have gas := (sizeable_append read).2
      rw [length_append, length_append] at gas
      rw [Sizeable]
      omega
  refine encodeList2_of_fits ?_ fits
  rw [logs]
  simp [receiptPayload]

theorem encodeReceipt_typed (receipt : Receipt) :
    encodeReceipt receipt = if receipt.type = .legacy then encodeReceiptBytes receipt
      else receipt.type.code :: encodeReceiptBytes receipt := by
  unfold encodeReceipt
  cases receipt.type <;> rfl

theorem encodeReceipt_eq (short : receipt.ShortData)
    (fits : Sizeable (encodeReceipt receipt) ∨ Sizeable (untypedItem receipt)) :
    encodeReceipt receipt = receiptItem receipt := by
  have inside : (encodeReceiptBytes receipt).length ≤ (encodeReceipt receipt).length := by
    rw [encodeReceipt_typed]
    split
    · exact Nat.le_refl _
    · exact Nat.le_succ _
  have bytes := encodeReceiptBytes_eq short (fits.imp (sizeable_of_le inside) id)
  rw [encodeReceipt_typed, bytes]
  rfl

/-- Headers, receipts and withdrawals are read back as they were written, and written as
they were read. -/
theorem header_receipt_codecs_inverse :
    (∀ (header : BlockHeader) (rest : Bytes), header.extraData.length ≤ 32 →
      header.InForkOrder →
      decodeBlockHeader (encodeBlockHeader header ++ rest) = .ok (header, rest)) ∧
    (∀ (input rest : Bytes) (header : BlockHeader),
      decodeBlockHeader input = .ok (header, rest) →
      encodeBlockHeader header ++ rest = input) ∧
    (∀ (receipt : Receipt) (rest : Bytes), receipt.ShortData → Sizeable (encodeReceipt receipt) →
      decodeReceipt (encodeReceipt receipt ++ rest) = .ok (receipt, rest)) ∧
    (∀ (input rest : Bytes) (receipt : Receipt), decodeReceipt input = .ok (receipt, rest) →
      receipt.ShortData → encodeReceipt receipt ++ rest = input) ∧
    (∀ (withdrawals : List Withdrawal) (rest : Bytes),
      Sizeable (encodeBlockWithdrawals withdrawals) →
      decodeWithdrawalList (encodeBlockWithdrawals withdrawals ++ rest) =
        .ok (withdrawals, rest)) ∧
    ∀ (input rest : Bytes) (withdrawals : List Withdrawal),
      decodeWithdrawalList input = .ok (withdrawals, rest) →
      encodeBlockWithdrawals withdrawals ++ rest = input := by
  refine ⟨?_, ?_, ?_, ?_, ?_, ?_⟩
  · intro header rest short order
    exact accepts_decodeBlockHeader.mpr ⟨⟨short, order⟩, rfl⟩
  · intro input rest header accepted
    exact (accepts_decodeBlockHeader.mp accepted).2.symm
  · intro receipt rest short fits
    have same := encodeReceipt_eq short (.inl fits)
    have sizeable : Sizeable (untypedItem receipt) := by
      rw [same, receiptItem] at fits
      split at fits
      · exact fits
      · exact sizeable_of_le (Nat.le_succ _) fits
    rw [same]
    exact (decodeReceipt_exact _ _ _).mpr ⟨sizeable, rfl⟩
  · intro input rest receipt accepted short
    obtain ⟨sizeable, split⟩ := (decodeReceipt_exact _ _ _).mp accepted
    rw [encodeReceipt_eq short (.inr sizeable)]
    exact split.symm
  · intro withdrawals rest fits
    have same := encodeBlockWithdrawals_eq (.inl fits)
    rw [same] at fits ⊢
    exact accepts_decodeWithdrawalList.mpr ⟨fits, rfl⟩
  · intro input rest withdrawals accepted
    obtain ⟨sizeable, split⟩ := accepts_decodeWithdrawalList.mp accepted
    rw [encodeBlockWithdrawals_eq (.inr sizeable)]
    exact split.symm

def zeros (size : Nat) : Fixed size := ⟨List.replicate size 0, List.length_replicate⟩

def sampleLog (data : Bytes) : Log := { data, topics := [], address := zeros 20 }

def sampleReceipt (type : TransactionType) (data : Bytes) : Receipt where
  bloom := zeros 256
  status := 1
  gasUsed := 21000
  type := type
  logs := [sampleLog data]

def sampleHeader : BlockHeader where
  parentHash := zeros 32
  ommersHash := zeros 32
  beneficiary := zeros 20
  stateRoot := zeros 32
  transactionsRoot := zeros 32
  receiptsRoot := zeros 32
  logsBloom := zeros 256
  difficulty := 0
  number := 1
  gasLimit := 30000000
  gasUsed := 21000
  timestamp := 1700000000
  extraData := [1, 2, 3]
  prevRandao := zeros 32
  nonce := zeros 8
  baseFeePerGas := some 7
  withdrawalsRoot := some (zeros 32)
  blobGasUsed := none
  excessBlobGas := none
  parentBeaconBlockRoot := none
  requestsHash := none

def nestedItem (front inner text : Bytes) : Bytes :=
  listItem (front ++ listItem (listItem (inner ++ text)))

section Nested

variable {front inner text other : Bytes}

theorem sizeable_nested (fits : front.length + inner.length + text.length < 2 ^ 40) :
    Sizeable (nestedItem front inner text) := by
  have header (payload : Bytes) : (listItem payload).length ≤ 9 + payload.length := by
    rw [listItem, length_append]
    exact Nat.add_le_add_right (length_itemHeader_le _ _) _
  have log := header (inner ++ text)
  have logs := header (listItem (inner ++ text))
  have whole := header (front ++ listItem (listItem (inner ++ text)))
  simp only [length_append] at log whole
  unfold Sizeable nestedItem
  omega

theorem nested_logs (fits : Sizeable (nestedItem front inner text)) :
    Sizeable (listItem (listItem (inner ++ text))) := by
  have fields := sizeable_of_listItem fits
  rw [length_append] at fields
  unfold Sizeable
  omega

theorem nestedItem_inj (fits : Sizeable (nestedItem front inner text))
    (same : nestedItem front inner text = nestedItem front inner other) : text = other := by
  have logs := append_cancel_left (listItem_inj fits same)
  have log := listItem_inj (nested_logs fits) logs
  exact append_cancel_left (listItem_inj (sizeable_of_listItem (nested_logs fits)) log)

end Nested

def sampleFront : Bytes :=
  encodeWord (1 : Unsigned 8) ++ encodeWord (21000 : Unsigned 8) ++ encodeBloom (zeros 256)

def sampleInner : Bytes := encodeFixed (zeros 20) ++ topicsItem []

theorem receiptItem_sample (data : Bytes) : receiptItem (sampleReceipt .legacy data) =
    nestedItem sampleFront sampleInner (stringItem data) := by
  simp [receiptItem, untypedItem, receiptPayload, logsItem, vectorItem, logItem, logPayload,
    sampleReceipt, sampleLog, nestedItem, sampleFront, sampleInner]

theorem encodeReceipt_sample {data : Bytes}
    (fits : Sizeable (nestedItem sampleFront sampleInner (encodeString2 data))) :
    encodeReceipt (sampleReceipt .legacy data) =
      nestedItem sampleFront sampleInner (encodeString2 data) := by
  have log : encodeLog (sampleLog data) = listItem (sampleInner ++ encodeString2 data) := by
    refine encodeList2_of_fits ?_ (.inr (sizeable_of_listItem (nested_logs fits)))
    simp [sampleLog, sampleInner]
    rfl
  have logs : encodeList2 [[sampleLog data].flatMap encodeLog] =
      listItem (listItem (sampleInner ++ encodeString2 data)) := by
    refine encodeList2_of_fits ?_ (.inr (nested_logs fits))
    rw [flatten_singleton, flatMap_singleton, log]
  rw [encodeReceipt_typed, if_pos (show (sampleReceipt .legacy data).type = .legacy from rfl),
    encodeReceiptBytes]
  refine encodeList2_of_fits ?_ (.inr fits)
  rw [← logs]
  simp [sampleReceipt, sampleFront]

@[irreducible]
def longData : Bytes := List.replicate (2 ^ 32) 0

theorem length_longData : longData.length = 2 ^ 32 := by
  unfold longData
  exact length_replicate

/-- Its length is written as zero. -/
theorem long_log_lost :
    Sizeable (encodeReceipt (sampleReceipt .legacy longData)) ∧
      decodeReceipt (encodeReceipt (sampleReceipt .legacy longData)) ≠
        .ok (sampleReceipt .legacy longData, []) := by
  have length := length_longData
  have text := @length_encodeString2_lt longData (by omega) (by omega)
  have fits : Sizeable (nestedItem sampleFront sampleInner (encodeString2 longData)) := by
    have item := length_stringItem_le longData
    have fields : sampleFront.length + sampleInner.length < 2 ^ 20 := by decide +kernel
    exact sizeable_nested (by omega)
  have same := encodeReceipt_sample fits
  rw [same]
  refine ⟨fits, fun accepted => ?_⟩
  obtain ⟨-, split⟩ := (decodeReceipt_exact _ _ _).mp accepted
  rw [append_nil, receiptItem_sample] at split
  rw [nestedItem_inj fits split] at text
  exact Nat.lt_irrefl _ text

theorem codecs_inverse_sample :
    sampleHeader.InForkOrder ∧
      decodeBlockHeader (encodeBlockHeader sampleHeader) = .ok (sampleHeader, []) ∧
      (sampleReceipt .eip1559 [5]).ShortData ∧
      decodeReceipt (encodeReceipt (sampleReceipt .eip1559 [5])) =
        .ok (sampleReceipt .eip1559 [5], []) ∧
      decodeWithdrawalList (encodeBlockWithdrawals [{ index := 3 }]) =
        .ok ([{ index := 3 }], []) := by
  obtain ⟨headers, -, receipts, -, withdrawals, -⟩ := header_receipt_codecs_inverse
  have order : sampleHeader.InForkOrder := by
    refine ⟨?_, ?_, ?_, ?_, ?_⟩ <;> decide
  have short : (sampleReceipt .eip1559 [5]).ShortData := by
    intro log member
    rw [mem_singleton.mp member]
    decide
  have list : Sizeable (encodeBlockWithdrawals [{ index := 3 }]) := by
    unfold Sizeable
    decide +kernel
  have header := headers sampleHeader [] (by decide) order
  have bytes : Sizeable (encodeReceipt (sampleReceipt .eip1559 [5])) := by
    unfold Sizeable
    decide +kernel
  have receipt := receipts _ [] short bytes
  have withdrawal := withdrawals _ [] list
  rw [append_nil] at header receipt withdrawal
  exact ⟨order, header, short, receipt, withdrawal⟩

end MonadChain.Rlp
