import MonadChain.Rlp.Block
import MonadChain.Rlp.RoundTrip

/-!
The encoders of block_rlp.cpp and withdrawal_rlp.cpp against their decoders. A header is read back
only if none of its trailing fields is left out before another.
-/

namespace MonadChain.Rlp

open Scanner Option BlockHeader List

variable {middle input rest : Bytes} {size : Nat} {header : BlockHeader}
  {withdrawals : List Withdrawal} {args : List Bytes}

def encodeIfAny {α : Type} (encode : α → Bytes) : Option α → Bytes
  | none => []
  | some value => encode value

def encodeBloom (bloom : Fixed 256) : Bytes := encodeFixed bloom

namespace BlockHeader

def fixedFields (header : BlockHeader) : Bytes :=
  encodeFixed header.parentHash ++ encodeFixed header.ommersHash ++
    encodeFixed header.beneficiary ++ encodeFixed header.stateRoot ++
    encodeFixed header.transactionsRoot ++ encodeFixed header.receiptsRoot ++
    encodeBloom header.logsBloom ++ encodeWord header.difficulty ++ encodeWord header.number ++
    encodeWord header.gasLimit ++ encodeWord header.gasUsed ++ encodeWord header.timestamp ++
    encodeString2 header.extraData ++ encodeFixed header.prevRandao ++ encodeFixed header.nonce

def forkFields (header : BlockHeader) : Bytes :=
  encodeIfAny encodeWord header.baseFeePerGas ++ encodeIfAny encodeFixed header.withdrawalsRoot ++
    encodeIfAny encodeWord header.blobGasUsed ++ encodeIfAny encodeWord header.excessBlobGas ++
    encodeIfAny encodeFixed header.parentBeaconBlockRoot ++
    encodeIfAny encodeFixed header.requestsHash

/-- The optional fields come in the order of the forks, the three of blobs together. -/
structure InForkOrder (header : BlockHeader) : Prop where
  withdrawals : header.withdrawalsRoot.isSome → header.baseFeePerGas.isSome
  blobs : header.blobGasUsed.isSome → header.withdrawalsRoot.isSome
  excess : header.excessBlobGas.isSome = header.blobGasUsed.isSome
  beacon : header.parentBeaconBlockRoot.isSome = header.blobGasUsed.isSome
  requests : header.requestsHash.isSome → header.blobGasUsed.isSome

end BlockHeader

def encodeBlockHeader (header : BlockHeader) : Bytes :=
  encodeList2 [header.fixedFields ++ header.forkFields]

def encodeWithdrawal (withdrawal : Withdrawal) : Bytes :=
  encodeList2 [encodeWord withdrawal.index, encodeWord withdrawal.validatorIndex,
    encodeFixed withdrawal.recipient, encodeWord withdrawal.amount]

def encodeBlockWithdrawals (withdrawals : List Withdrawal) : Bytes :=
  encodeList2 [withdrawals.flatMap encodeWithdrawal]

section Optional

variable {α β : Type} {read : Decoder α} {encode : α → Bytes} {valid : α → Prop}

theorem encodeIfAny_append_nil (nonempty : ∀ value, encode value ≠ []) {found : Option α}
    (empty : encodeIfAny encode found ++ middle = []) : found = none ∧ middle = [] := by
  obtain ⟨first, second⟩ := append_eq_nil_iff.mp empty
  cases found with
  | none => exact ⟨rfl, second⟩
  | some value => exact absurd first (nonempty value)

theorem accepts_decodeIfAny (reads : Exact read encode valid)
    (nonempty : ∀ value, encode value ≠ []) {next : Option α → Decoder β} {result : β} :
    Accepts (decodeIfAny read >>= next) input result rest ↔
      ∃ found middle, (∀ value ∈ found, valid value) ∧ (found = none → middle = []) ∧
        input = encodeIfAny encode found ++ middle ∧ Accepts (next found) middle result rest := by
  rw [accepts_bind]
  have step {found : Option α} {middle : Bytes} :
      Accepts (decodeIfAny read) input found middle ↔
        (∀ value ∈ found, valid value) ∧ (found = none → middle = []) ∧
          input = encodeIfAny encode found ++ middle := by
    unfold Accepts decodeIfAny
    by_cases empty : input = []
    · rw [if_pos empty, empty]
      constructor
      · intro done
        cases done
        exact ⟨by simp, fun _ => rfl, rfl⟩
      · rintro ⟨-, -, same⟩
        obtain ⟨rfl, rfl⟩ := encodeIfAny_append_nil nonempty same.symm
        rfl
    · rw [if_neg empty]
      change Accepts (read >>= fun value => pure (some value)) input found middle ↔ _
      rw [reads.bind]
      constructor
      · rintro ⟨value, after, good, split, done⟩
        obtain ⟨rfl, rfl⟩ := accepts_pure.mp done
        refine ⟨?_, (fun impossible => by cases impossible), split⟩
        intro other same
        cases same
        exact good
      · rintro ⟨good, last, split⟩
        cases found with
        | none =>
          rw [last rfl] at split
          exact absurd split empty
        | some value =>
          exact ⟨value, middle, good value rfl, split, accepts_pure.mpr ⟨rfl, rfl⟩⟩
  constructor
  · rintro ⟨found, middle, done, later⟩
    obtain ⟨good, last, split⟩ := step.mp done
    exact ⟨found, middle, good, last, split, later⟩
  · rintro ⟨found, middle, good, last, split, later⟩
    exact ⟨found, middle, step.mpr ⟨good, last, split⟩, later⟩

end Optional

section

variable (small : size < 2 ^ 32)

include small

theorem encodeFixed_nonempty (bytes : Fixed size) : encodeFixed bytes ≠ [] := by
  rw [encodeFixed_eq small]
  exact stringItem_ne_nil _

theorem encodeWord_eq (word : Unsigned size) :
    encodeWord word = stringItem (toBigCompact size word.val) := by
  rw [encodeWord, encodeUnsigned_eq small]

theorem encodeWord_nonempty (word : Unsigned size) : encodeWord word ≠ [] := by
  rw [encodeWord_eq small]
  exact stringItem_ne_nil _

theorem length_encodeFixed_le (bytes : Fixed size) : (encodeFixed bytes).length ≤ 9 + size := by
  have bound := length_stringItem_le bytes.val
  rw [bytes.property] at bound
  rw [encodeFixed_eq small]
  exact bound

end

theorem length_encodeIfAny_le {α : Type} {encode : α → Bytes} {bound : Nat}
    (each : ∀ value, (encode value).length ≤ bound) (found : Option α) :
    (encodeIfAny encode found).length ≤ bound := by
  cases found with
  | none => exact Nat.zero_le _
  | some value => exact each value

theorem decodeBloom_exact : Exact (decodeFixed 256) encodeBloom (fun _ => True) :=
  decodeFixed_exact (by decide)

theorem decodeNonce_exact : Exact (decodeFixed 8) encodeFixed (fun _ => True) :=
  decodeFixed_exact (by decide)

def blobItem (blob : Unsigned 8 × Unsigned 8 × Bytes32) : Bytes :=
  encodeWord blob.1 ++ (encodeWord blob.2.1 ++ encodeFixed blob.2.2)

theorem blobItem_nonempty (blob : Unsigned 8 × Unsigned 8 × Bytes32) : blobItem blob ≠ [] := by
  intro empty
  exact encodeWord_nonempty (by decide) blob.1 (append_eq_nil_iff.mp empty).1

theorem decodeBlobGas_exact : Exact decodeBlobGas blobItem (fun _ => True) := by
  refine .of_fields fun rest => ?_
  refine word8_exact.plain fun used => ?_
  refine word8_exact.plain fun excess => ?_
  refine decodeBytes32_exact.last (fun _ _ _ => trivial) fun root _ blob => ?_
  constructor
  · rintro rfl
    exact ⟨trivial, rfl, rfl, rfl, trivial⟩
  · rintro ⟨-, rfl, rfl, rfl, -⟩
    rfl

structure Forks where
  baseFeePerGas : Option (Unsigned 32)
  withdrawalsRoot : Option Bytes32
  blobGas : Option (Unsigned 8 × Unsigned 8 × Bytes32)
  requestsHash : Option Bytes32

namespace Forks

def item (forks : Forks) : Bytes :=
  encodeIfAny encodeWord forks.baseFeePerGas ++ (encodeIfAny encodeFixed forks.withdrawalsRoot ++
    (encodeIfAny blobItem forks.blobGas ++ encodeIfAny encodeFixed forks.requestsHash))

structure InOrder (forks : Forks) : Prop where
  withdrawals : forks.withdrawalsRoot.isSome → forks.baseFeePerGas.isSome
  blobs : forks.blobGas.isSome → forks.withdrawalsRoot.isSome
  requests : forks.requestsHash.isSome → forks.blobGas.isSome

theorem isSome_of_later {α β : Type} {encode : β → Bytes} {earlier : Option α} {later : Option β}
    {after : Bytes} (nonempty : ∀ value, encode value ≠ [])
    (last : earlier = none → middle = []) (split : middle = encodeIfAny encode later ++ after) :
    later.isSome → earlier.isSome := by
  intro present
  cases earlier with
  | some _ => rfl
  | none =>
    have empty := split.symm.trans (last rfl)
    rw [(encodeIfAny_append_nil nonempty empty).1] at present
    exact present

theorem eq_none_of_later {α β : Type} {earlier : Option α} {later : Option β}
    (order : later.isSome → earlier.isSome) (missing : earlier = none) : later = none := by
  rw [missing] at order
  cases later with
  | none => rfl
  | some _ => exact absurd (order rfl) Bool.false_ne_true

end Forks

theorem accepts_forks {α : Type} (build : Forks → α) {result : α} :
    Accepts (do
      let baseFeePerGas ← decodeIfAny (decodeWord 32)
      let withdrawalsRoot ← decodeIfAny decodeBytes32
      let blobGas ← decodeIfAny decodeBlobGas
      let requestsHash ← decodeIfAny decodeBytes32
      return build ⟨baseFeePerGas, withdrawalsRoot, blobGas, requestsHash⟩) input result [] ↔
    ∃ forks : Forks, forks.InOrder ∧ input = forks.item ∧ build forks = result := by
  have hashed : ∀ hash : Bytes32, encodeFixed hash ≠ [] := encodeFixed_nonempty (by decide)
  have worded : ∀ word : Unsigned 32, encodeWord word ≠ [] := encodeWord_nonempty (by decide)
  constructor
  · intro accepted
    obtain ⟨baseFee, _, -, noFee, rfl, fromRoot⟩ :=
      (accepts_decodeIfAny word32_exact worded).mp accepted
    obtain ⟨root, afterRoot, -, noRoot, split, fromBlob⟩ :=
      (accepts_decodeIfAny decodeBytes32_exact hashed).mp fromRoot
    obtain ⟨blob, afterBlob, -, noBlob, splitBlob, fromRequests⟩ :=
      (accepts_decodeIfAny decodeBlobGas_exact blobItem_nonempty).mp fromBlob
    obtain ⟨requests, _, -, -, splitRequests, final⟩ :=
      (accepts_decodeIfAny decodeBytes32_exact hashed).mp fromRequests
    obtain ⟨built, rfl⟩ := accepts_pure.mp final
    refine ⟨⟨baseFee, root, blob, requests⟩, ⟨?_, ?_, ?_⟩, ?_, built⟩
    · exact Forks.isSome_of_later hashed noFee split
    · exact Forks.isSome_of_later blobItem_nonempty noRoot splitBlob
    · exact Forks.isSome_of_later hashed noBlob splitRequests
    · rw [Forks.item, split, splitBlob, splitRequests, append_nil]
  · rintro ⟨forks, order, rfl, built⟩
    have noRoot := Forks.eq_none_of_later order.withdrawals
    have noBlob := Forks.eq_none_of_later order.blobs
    have noRequests := Forks.eq_none_of_later order.requests
    refine (accepts_decodeIfAny word32_exact worded).mpr
      ⟨forks.baseFeePerGas, _, fun _ _ => trivial, ?_, rfl, ?_⟩
    · intro missing
      rw [noRoot missing, noBlob (noRoot missing), noRequests (noBlob (noRoot missing))]
      rfl
    refine (accepts_decodeIfAny decodeBytes32_exact hashed).mpr
      ⟨forks.withdrawalsRoot, _, fun _ _ => trivial, ?_, rfl, ?_⟩
    · intro missing
      rw [noBlob missing, noRequests (noBlob missing)]
      rfl
    refine (accepts_decodeIfAny decodeBlobGas_exact blobItem_nonempty).mpr
      ⟨forks.blobGas, _, fun _ _ => trivial, ?_, rfl, ?_⟩
    · intro missing
      rw [noRequests missing]
      rfl
    refine (accepts_decodeIfAny decodeBytes32_exact hashed).mpr
      ⟨forks.requestsHash, [], fun _ _ => trivial, fun _ => rfl, (append_nil _).symm, ?_⟩
    exact accepts_pure.mpr ⟨built, rfl⟩

namespace BlockHeader

def withForks (header : BlockHeader) (forks : Forks) : BlockHeader :=
  { header with
    baseFeePerGas := forks.baseFeePerGas
    withdrawalsRoot := forks.withdrawalsRoot
    blobGasUsed := forks.blobGas.map (·.1)
    excessBlobGas := forks.blobGas.map (·.2.1)
    parentBeaconBlockRoot := forks.blobGas.map (·.2.2)
    requestsHash := forks.requestsHash }

theorem forkFields_withForks (header : BlockHeader) (forks : Forks) :
    (header.withForks forks).forkFields = forks.item := by
  obtain ⟨baseFee, root, blob, requests⟩ := forks
  cases blob <;> simp [forkFields, withForks, Forks.item, encodeIfAny, blobItem]

theorem exists_triple {α β γ : Type} {first : Option α} {second : Option β} {third : Option γ}
    (with_second : second.isSome = first.isSome) (with_third : third.isSome = first.isSome) :
    ∃ triple : Option (α × β × γ),
      first = triple.map (·.1) ∧ second = triple.map (·.2.1) ∧ third = triple.map (·.2.2) := by
  cases first with
  | none =>
    rw [isSome_none, isSome_eq_false_iff, isNone_iff_eq_none]
      at with_second with_third
    exact ⟨none, rfl, with_second, with_third⟩
  | some one =>
    obtain ⟨two, same⟩ := isSome_iff_exists.mp with_second
    obtain ⟨three, also⟩ := isSome_iff_exists.mp with_third
    exact ⟨some (one, two, three), rfl, same, also⟩

theorem InForkOrder.exists_forks (order : header.InForkOrder) :
    ∃ forks : Forks, forks.InOrder ∧ header.withForks forks = header := by
  obtain ⟨blob, used, excess, beacon⟩ := exists_triple order.excess order.beacon
  have blobs := order.blobs
  have requests := order.requests
  rw [used, isSome_map] at blobs requests
  refine ⟨⟨header.baseFeePerGas, header.withdrawalsRoot, blob, header.requestsHash⟩,
    ⟨order.withdrawals, blobs, requests⟩, ?_⟩
  simp only [withForks, ← used, ← excess, ← beacon]

theorem inForkOrder_withForks (header : BlockHeader) {forks : Forks} (order : forks.InOrder) :
    (header.withForks forks).InForkOrder := by
  refine ⟨order.withdrawals, ?_, ?_, ?_, ?_⟩
  · intro present
    rw [withForks, isSome_map] at present
    exact order.blobs present
  · rw [withForks, isSome_map, isSome_map]
  · rw [withForks, isSome_map, isSome_map]
  · intro present
    rw [withForks, isSome_map]
    exact order.requests present

theorem length_fixedFields_lt (short : header.extraData.length ≤ 32) :
    header.fixedFields.length < 2 ^ 16 := by
  have extra := length_stringItem_le header.extraData
  have small : header.extraData.length < 2 ^ 32 := by omega
  simp only [fixedFields, encodeBloom, encodeString2_eq small, length_append]
  grind [length_encodeFixed_le, length_encodeWord_le]

theorem length_forks_lt (forks : Forks) : forks.item.length < 2 ^ 16 := by
  have hashed (hash : Bytes32) : (encodeFixed hash).length ≤ 41 :=
    length_encodeFixed_le (by decide) hash
  have worded (word : Unsigned 8) : (encodeWord word).length ≤ 41 :=
    length_encodeWord_le (by decide) word
  have blob (triple : Unsigned 8 × Unsigned 8 × Bytes32) : (blobItem triple).length ≤ 123 := by
    have used := worded triple.1
    have excess := worded triple.2.1
    have root := hashed triple.2.2
    rw [blobItem, length_append, length_append]
    omega
  have fee := length_encodeIfAny_le
    (fun word : Unsigned 32 => length_encodeWord_le (by decide) word)
    forks.baseFeePerGas
  have root := length_encodeIfAny_le hashed forks.withdrawalsRoot
  have triple := length_encodeIfAny_le blob forks.blobGas
  have requests := length_encodeIfAny_le hashed forks.requestsHash
  simp only [Forks.item, length_append]
  omega

end BlockHeader

theorem encodeBlockHeader_eq (short : header.extraData.length ≤ 32) (order : header.InForkOrder) :
    encodeBlockHeader header = listItem (header.fixedFields ++ header.forkFields) ∧
      Sizeable (listItem (header.fixedFields ++ header.forkFields)) := by
  obtain ⟨forks, -, same⟩ := order.exists_forks
  have fixed := length_fixedFields_lt short
  have later := length_forks_lt forks
  rw [← forkFields_withForks header forks, same] at later
  have small : (header.fixedFields ++ header.forkFields).length < 2 ^ 32 := by
    rw [length_append]
    omega
  constructor
  · rw [encodeBlockHeader, encodeList2_eq, flatten_singleton]
    rw [flatten_singleton]
    omega
  · exact sizeable_listItem small

theorem decodeBlockHeader_exact :
    Exact decodeBlockHeader (fun header => listItem (header.fixedFields ++ header.forkFields))
      (fun header => (header.extraData.length ≤ 32 ∧ header.InForkOrder) ∧
        Sizeable (listItem (header.fixedFields ++ header.forkFields))) := by
  refine decodeListOf_exact ?_
  simp only [fixedFields, append_assoc]
  refine decodeBytes32_exact.plain fun parentHash => ?_
  refine decodeBytes32_exact.plain fun ommersHash => ?_
  refine decodeAddress_exact.plain fun beneficiary => ?_
  refine decodeBytes32_exact.plain fun stateRoot => ?_
  refine decodeBytes32_exact.plain fun transactionsRoot => ?_
  refine decodeBytes32_exact.plain fun receiptsRoot => ?_
  refine decodeBloom_exact.plain fun logsBloom => ?_
  refine word32_exact.plain fun difficulty => ?_
  refine word8_exact.plain fun number => ?_
  refine word8_exact.plain fun gasLimit => ?_
  refine word8_exact.plain fun gasUsed => ?_
  refine word8_exact.plain fun timestamp => ?_
  refine parseStringMetadata_exact.piece (·.extraData) ?_ fun extraData _ => ?_
  · rintro header ⟨short, -⟩ -
    have small : header.extraData.length < 2 ^ 32 := by omega
    exact ⟨sizeable_stringItem small, encodeString2_eq small⟩
  refine completes_failIf ?_ fun short => ?_
  · rintro header ⟨short, -⟩ ⟨rfl, -⟩
    exact Nat.not_lt.mpr short
  refine decodeBytes32_exact.plain fun prevRandao => ?_
  refine decodeNonce_exact.plain fun nonce input header => ?_
  refine (accepts_forks fun forks => withForks ⟨parentHash, ommersHash, beneficiary, stateRoot,
    transactionsRoot, receiptsRoot, logsBloom, difficulty, number, gasLimit, gasUsed, timestamp,
    extraData, prevRandao, nonce, none, none, none, none, none, none⟩ forks).trans ?_
  rw [append_nil]
  constructor
  · rintro ⟨forks, order, rfl, rfl⟩
    exact ⟨⟨⟨Nat.not_lt.mp short, inForkOrder_withForks _ order⟩, rfl, rfl, rfl, rfl, rfl, rfl, rfl,
      rfl, rfl, rfl, rfl, rfl, rfl, rfl, rfl, trivial⟩, (forkFields_withForks _ _).symm⟩
  · rintro ⟨⟨⟨-, order⟩, rfl, rfl, rfl, rfl, rfl, rfl, rfl, rfl, rfl, rfl, rfl, rfl, rfl, rfl,
      rfl, -⟩,
      rfl⟩
    obtain ⟨forks, inOrder, same⟩ := order.exists_forks
    refine ⟨forks, inOrder, ?_, same⟩
    rw [← forkFields_withForks header forks, same]

theorem accepts_decodeBlockHeader :
    Accepts decodeBlockHeader input header rest ↔
      (header.extraData.length ≤ 32 ∧ header.InForkOrder) ∧
        input = encodeBlockHeader header ++ rest := by
  rw [decodeBlockHeader_exact]
  constructor
  · rintro ⟨⟨⟨short, order⟩, -⟩, split⟩
    rw [(encodeBlockHeader_eq short order).1]
    exact ⟨⟨short, order⟩, split⟩
  · rintro ⟨⟨short, order⟩, split⟩
    obtain ⟨encoded, sizeable⟩ := encodeBlockHeader_eq short order
    rw [encoded] at split
    exact ⟨⟨⟨short, order⟩, sizeable⟩, split⟩

def withdrawalItem (withdrawal : Withdrawal) : Bytes :=
  listItem (encodeWord withdrawal.index ++ (encodeWord withdrawal.validatorIndex ++
    (encodeFixed withdrawal.recipient ++ encodeWord withdrawal.amount)))

theorem length_withdrawal_lt (withdrawal : Withdrawal) :
    (encodeWord withdrawal.index ++ (encodeWord withdrawal.validatorIndex ++
      (encodeFixed withdrawal.recipient ++ encodeWord withdrawal.amount))).length < 2 ^ 16 := by
  have worded (word : Unsigned 8) : (encodeWord word).length ≤ 41 :=
    length_encodeWord_le (by decide) word
  grind [length_encodeFixed_le]

theorem encodeWithdrawal_eq (withdrawal : Withdrawal) :
    encodeWithdrawal withdrawal = withdrawalItem withdrawal := by
  have small := length_withdrawal_lt withdrawal
  rw [encodeWithdrawal, withdrawalItem, encodeList2_eq]
  · simp
  · simp only [flatten_cons, flatten_nil, append_nil]
    omega

theorem decodeWithdrawal_exact :
    Exact (decodeListOf decodeWithdrawalFields) withdrawalItem (fun _ => True) := by
  refine (decodeListOf_exact ?_).mono fun withdrawal =>
    ⟨fun _ => trivial, fun _ => ⟨trivial, sizeable_listItem ?_⟩⟩
  · refine word8_exact.plain fun index => ?_
    refine word8_exact.plain fun validatorIndex => ?_
    refine decodeAddress_exact.plain fun recipient => ?_
    refine word8_exact.last (fun _ _ _ => trivial) fun amount _ withdrawal => ?_
    constructor
    · rintro rfl
      exact ⟨trivial, rfl, rfl, rfl, rfl, trivial⟩
    · rintro ⟨-, rfl, rfl, rfl, rfl, -⟩
      rfl
  · exact Nat.lt_trans (length_withdrawal_lt withdrawal) (by decide)

/-- The loop never calls `decode_withdrawal` at the end of the payload. -/
theorem decodeRepeated_withdrawal :
    decodeRepeated decodeWithdrawal = decodeRepeated (decodeListOf decodeWithdrawalFields) := by
  funext payload
  apply readAll_congr
  intro input some_left
  exact if_neg some_left

theorem accepts_decodeWithdrawalList :
    Accepts decodeWithdrawalList input withdrawals rest ↔
      Sizeable (vectorItem withdrawalItem withdrawals) ∧
        input = vectorItem withdrawalItem withdrawals ++ rest := by
  rw [decodeWithdrawalList, decodeRepeated_withdrawal, decodeListOf,
    accepts_vector decodeWithdrawal_exact fun _ => listItem_ne_nil _]
  simp

theorem encodeBlockWithdrawals_eq
    (fits : Sizeable (encodeBlockWithdrawals withdrawals) ∨
      Sizeable (vectorItem withdrawalItem withdrawals)) :
    encodeBlockWithdrawals withdrawals = vectorItem withdrawalItem withdrawals := by
  refine encodeList2_of_fits ?_ fits
  rw [flatten_singleton, funext encodeWithdrawal_eq]

end MonadChain.Rlp
