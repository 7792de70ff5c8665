import MonadChain.Rlp.RoundTrip
import MonadChain.Rlp.Block

/-!
Which decoders can stop other than with an error code. Every loop ends and no
assertion fails, but one: `decode_transaction_list` hands an empty string to
`decode_transaction_eip2718`, which asserts that there is a type byte.
-/

namespace MonadChain.Rlp

open Scanner List

variable {input : Bytes} (error : DecodeError) (size : Nat) (enc : Bytes) (type : TransactionType)
  {α : Type}

/-- A failed assertion, or a loop without an end. -/
def Stop.Aborts : Stop → Prop
  | .decode _ => False
  | .assertion _ => True
  | .unfinished => True

abbrev Total {α : Type} (read : Decoder α) : Prop := Safe Stop.Aborts read

@[simp] theorem total_pure (value : α) : Total (pure value : Decoder α) :=
  fun _ => not_stops_pure

@[simp] theorem total_stop : Total (stop error : Decoder α) := by
  intro input stops
  exact stops_fail.mp stops

@[simp] theorem total_failIf (bad : Prop) [Decidable bad] (error : DecodeError) :
    Total (failIf bad error) := by
  unfold failIf
  split
  · exact total_stop error
  · exact total_pure ()

@[simp] theorem total_decodeEnd : Total decodeEnd := by
  rintro input ⟨fault, aborts, stopped⟩
  unfold decodeEnd at stopped
  split at stopped
  · cases stopped
  · cases stopped
    exact aborts

def Coded {α : Type} (result : Except Stop α) : Prop :=
  ∀ fault, result = .error fault → ¬ fault.Aborts

@[simp] theorem coded_ok (value : α) : Coded (.ok value) := by
  simp [Coded]

@[simp] theorem coded_decode : Coded (.error (.decode error) : Except Stop α) := by
  simp [Coded, Stop.Aborts]

theorem coded_bind {α β : Type} {first : Except Stop α} {next : α → Except Stop β}
    (coded : Coded first) (later : ∀ value, Coded (next value)) : Coded (first >>= next) := by
  cases first with
  | error fault =>
    intro other same
    cases same
    exact coded fault rfl
  | ok value => exact later value

@[simp] theorem coded_ite {condition : Prop} [Decidable condition] {yes no : Except Stop α} :
    Coded (if condition then yes else no) ↔
      (condition → Coded yes) ∧ (¬ condition → Coded no) := by
  split <;> simp [*]

@[simp] theorem coded_decodeRawNum : Coded (decodeRawNum size enc) := by
  simp [decodeRawNum]

@[simp] theorem coded_extractPayload (i length : Nat) : Coded (extractPayload enc i length) := by
  simp [extractPayload]

@[simp] theorem coded_parseLong (lengthOfLength : Nat) : Coded (parseLong enc lengthOfLength) := by
  simp only [parseLong, coded_ite, coded_decode, implies_true, true_and]
  intro
  exact coded_bind (coded_decodeRawNum 8 _) fun length => by simp

theorem total_of_coded {read : Decoder α} (coded : ∀ input, Coded (read input)) : Total read := by
  rintro input ⟨fault, aborts, stopped⟩
  exact coded input fault stopped aborts

@[simp] theorem total_parseStringMetadata : Total parseStringMetadata := by
  refine total_of_coded fun input => ?_
  cases input <;> simp [parseStringMetadata, parseString]

@[simp] theorem total_parseListMetadata : Total parseListMetadata := by
  refine total_of_coded fun input => ?_
  cases input <;> simp [parseListMetadata, parseList]

@[simp] theorem total_decodeWord : Total (decodeWord size) := by
  have number : Total (decodeUnsigned size) := by
    refine Safe.bind total_parseStringMetadata fun payload => ?_
    have coded := coded_decodeRawNum size payload
    cases decoded : decodeRawNum size payload with
    | ok value => exact total_pure value
    | error fault =>
      intro input stops
      exact coded fault decoded (stops_fail.mp stops)
  exact number.bind fun value => total_pure _

@[simp] theorem total_decodeFixed : Total (decodeFixed size) := by
  refine Safe.bind total_parseStringMetadata fun payload => ?_
  split
  · exact total_pure _
  · exact total_stop _

@[simp] theorem total_decodeOptionalAddress : Total decodeOptionalAddress := by
  refine Safe.bind total_parseStringMetadata fun payload => ?_
  repeat' split
  all_goals simp

section Lists

variable {α : Type} {read : Decoder α}

theorem consumes_decodeListOf (read : Decoder α) : Consumes (decodeListOf read) := by
  intro input value rest _ accepted
  obtain ⟨payload, -, -, rfl⟩ := accepts_list.mp accepted
  have positive := length_pos_of_ne_nil (listItem_ne_nil payload)
  rw [length_append]
  omega

theorem Total.listOf (total : Total read) : Total (decodeListOf read) := by
  refine Safe.bind total_parseListMetadata fun payload => ?_
  intro input stops
  rcases stops_whole.mp stops with inner | ⟨impossible, -⟩
  · exact total payload inner
  · exact impossible

theorem total_repeated (total : Total read) (consumes : Consumes read) :
    Total (decodeRepeated read) := by
  intro payload stops
  obtain ⟨tail, -, -, inner⟩ :=
    (stops_readAll consumes .unfinished payload.length payload (Nat.le_refl _)).mp stops
  exact total tail inner

theorem total_vector (total : Total read) (consumes : Consumes read) :
    Total (decodeVector read) := by
  refine Safe.bind total_parseListMetadata fun payload => ?_
  intro input stops
  rcases stops_whole.mp stops with inner | ⟨-, values, symbol, rest, accepted⟩
  · exact total_repeated total consumes payload inner
  · exact absurd (readAll_rest accepted) (cons_ne_nil _ _)

@[simp] theorem total_decodeIfAny (total : Total read) : Total (decodeIfAny read) := by
  rintro input ⟨fault, aborts, stopped⟩
  unfold decodeIfAny at stopped
  split at stopped
  · cases stopped
  · exact (total.bind fun value => total_pure (some value)) input ⟨fault, aborts, stopped⟩

end Lists

theorem consumes_decodeBytes32 : Consumes decodeBytes32 :=
  decodeBytes32_exact.consumes encodeFixed_ne_nil

@[simp] theorem total_decodeBytes32 : Total decodeBytes32 := total_decodeFixed 32

theorem total_decodeHashes : Total (decodeListOf (decodeRepeated decodeBytes32)) :=
  Total.listOf (total_repeated total_decodeBytes32 consumes_decodeBytes32)

@[simp] theorem total_decodeAddress : Total decodeAddress := total_decodeFixed 20

@[simp] theorem total_decodeAccessEntryKeys : Total decodeAccessEntryKeys := by
  refine Safe.bind total_parseListMetadata fun payload => ?_
  intro input stops
  rcases stops_bind.mp stops with first | ⟨keys, rest, read, later⟩
  · rcases stops_whole.mp first with inner | ⟨impossible, -⟩
    · exact total_repeated total_decodeBytes32 consumes_decodeBytes32 payload inner
    · exact impossible
  · have inner := (accepts_whole.mp read).1
    have split := ((accepts_repeated decodeBytes32_exact encodeFixed_ne_nil).mp inner).2
    have asserted : payload.length = keys.length * 33 := by
      rw [split, length_keys]
    rw [monadAssert, if_pos asserted] at later
    exact total_pure keys rest later

@[simp] theorem total_decodeAccessList : Total decodeAccessList := by
  refine total_vector (Total.listOf fun input => ?_) (consumes_decodeListOf _)
  simp

@[simp] theorem total_decodeAuthorizationList : Total decodeAuthorizationList := by
  refine total_vector (Total.listOf fun input => ?_) (consumes_decodeListOf _)
  simp

theorem total_decodeTransactionLegacy : Total decodeTransactionLegacy := by
  refine Total.listOf fun input => ?_
  simp [decodeSc, decodeString]

@[simp] theorem total_decodePriorityFee : Total (decodePriorityFee type) := by
  unfold decodePriorityFee
  split
  · exact total_decodeWord 32
  · exact total_pure 0

@[simp] theorem total_decodeBlobs (recipient : Option Address) :
    Total (decodeBlobs type recipient) := by
  unfold decodeBlobs
  split
  · exact fun input => by simp [total_decodeHashes]
  · exact total_pure _

@[simp] theorem total_decodeAuthorizations (recipient : Option Address) :
    Total (decodeAuthorizations type recipient) := by
  unfold decodeAuthorizations
  split
  · exact (total_failIf _ _).bind fun _ => total_decodeAuthorizationList
  · exact total_pure _

theorem total_decodeEnvelope : Total (decodeEnvelope type) := by
  intro input
  simp [decodeEnvelope, decodeString]

theorem stops_decodeTransactionEip2718 :
    Stops Stop.Aborts decodeTransactionEip2718 input ↔ input = [] := by
  constructor
  · rintro ⟨fault, aborts, stopped⟩
    cases input with
    | nil => rfl
    | cons first enc =>
      unfold decodeTransactionEip2718 at stopped
      dsimp only at stopped
      split at stopped
      · cases stopped
        exact absurd aborts id
      · rename_i type known
        have total : Total (do
            let txn ← decodeListOf (decodeEnvelope type)
            decodeEnd
            return txn) :=
          (Total.listOf (total_decodeEnvelope type)).bind fun txn =>
            total_decodeEnd.bind fun _ => total_pure txn
        exact absurd ⟨fault, aborts, stopped⟩ (total enc)
  · rintro rfl
    exact ⟨.assertion "enc.size()", trivial, rfl⟩

theorem total_decodeTransaction : Total decodeTransaction := by
  rintro input ⟨fault, aborts, stopped⟩
  cases input with
  | nil =>
    cases stopped
    exact aborts
  | cons first enc =>
    unfold decodeTransaction at stopped
    dsimp only at stopped
    split at stopped
    · exact total_decodeTransactionLegacy _ ⟨fault, aborts, stopped⟩
    · exact absurd (stops_decodeTransactionEip2718.mp ⟨fault, aborts, stopped⟩)
        (cons_ne_nil _ _)

theorem stringItem_nil : stringItem [] = [0x80] := rfl

theorem stops_decodeTransactionListItem {ls : Bytes} :
    Stops Stop.Aborts decodeTransactionListItem ls ↔ ∃ tail, ls = 0x80 :: tail := by
  have parsed (payload rest : Bytes) := parseStringMetadata_exact ls payload rest
  have step : Stops Stop.Aborts decodeTransactionListItem ls ↔
      if 0xc0 ≤ ls.headD 0 then Stops Stop.Aborts decodeTransactionLegacy ls
      else Stops Stop.Aborts parseStringMetadata ls ∨
        ∃ str rest, Accepts parseStringMetadata ls str rest ∧
          Stops Stop.Aborts decodeTransactionEip2718 str := by
    unfold Stops Accepts decodeTransactionListItem
    split
    · simp [bind_eq_error, pure, Except.pure]
    · simp [bind_eq_error, pure, Except.pure]
      grind
  have sizeable : Sizeable (stringItem []) := sizeable_stringItem (by decide)
  rw [stringItem_nil] at sizeable
  rw [step]
  simp [parsed, total_decodeTransactionLegacy, stops_decodeTransactionEip2718, sizeable,
    stringItem_nil, -headD_eq_head?_getD]
  grind

/-- A transaction list in which an empty string follows accepted transactions. -/
def HasEmptyEnvelope (input : Bytes) : Prop :=
  ∃ (items : List (Transaction × Bytes)) (tail rest : Bytes),
    (∀ item ∈ items, item.1.DecodedFrom item.2) ∧
    Sizeable (listItem (items.flatMap (fun item => rawItem item.2) ++ 0x80 :: tail)) ∧
    input = listItem (items.flatMap (fun item => rawItem item.2) ++ 0x80 :: tail) ++ rest

theorem stops_decodeTransactionList :
    Stops Stop.Aborts decodeTransactionList input ↔ HasEmptyEnvelope input := by
  have nonempty : ∀ item : Transaction × Bytes, rawItem item.2 ≠ [] :=
    fun item => rawItem_ne_nil item.2
  have consumes := decodeTransactionListItem_exact.consumes nonempty
  have loop (payload : Bytes) :
      Stops Stop.Aborts (decodeRepeated decodeTransactionListItem) payload ↔
      ∃ (items : List (Transaction × Bytes)) (tail : Bytes),
        (∀ item ∈ items, item.1.DecodedFrom item.2) ∧
        payload = items.flatMap (fun item => rawItem item.2) ++ 0x80 :: tail := by
    refine (stops_readAll consumes .unfinished payload.length payload (Nat.le_refl _)).trans ?_
    constructor
    · rintro ⟨tail, -, reaches, stops⟩
      obtain ⟨items, valid, split⟩ :=
        (decodeTransactionListItem_exact.reaches_iff nonempty).mp reaches
      obtain ⟨after, rfl⟩ := stops_decodeTransactionListItem.mp stops
      exact ⟨items, after, valid, split⟩
    · rintro ⟨items, tail, valid, split⟩
      exact ⟨0x80 :: tail, cons_ne_nil _ _,
        (decodeTransactionListItem_exact.reaches_iff nonempty).mpr ⟨items, valid, split⟩,
        stops_decodeTransactionListItem.mpr ⟨tail, rfl⟩⟩
  rw [decodeTransactionList, stops_bind, decodeTransactionItems, stops_bind]
  constructor
  · rintro ((parse | ⟨ls, rest, parsed, later⟩) | ⟨items, rest, -, impossible⟩)
    · exact absurd parse (total_parseListMetadata input)
    · obtain ⟨sizeable, split⟩ := (parseListMetadata_exact _ _ _).mp parsed
      rcases stops_whole.mp later with inner | ⟨-, _, _, _, accepted⟩
      · obtain ⟨items, tail, valid, rfl⟩ := (loop ls).mp inner
        exact ⟨items, tail, rest, valid, sizeable, split⟩
      · exact absurd (readAll_rest accepted) (cons_ne_nil _ _)
    · exact absurd impossible not_stops_pure
  · rintro ⟨items, tail, rest, valid, sizeable, split⟩
    refine .inl (.inr ⟨_, rest, (parseListMetadata_exact _ _ _).mpr ⟨sizeable, split⟩, ?_⟩)
    exact stops_whole.mpr (.inl ((loop _).mpr ⟨items, tail, valid, rfl⟩))

theorem total_decodeBlockHeader : Total decodeBlockHeader := by
  have blobGas : Total decodeBlobGas := fun input => by simp [decodeBlobGas]
  refine Total.listOf fun input => ?_
  simp [decodeString, blobGas]

theorem total_decodeBlockHeaderVector : Total decodeBlockHeaderVector :=
  Total.listOf (total_repeated total_decodeBlockHeader (consumes_decodeListOf _))

theorem total_decodeWithdrawalList : Total decodeWithdrawalList := by
  have fields : Total (decodeListOf decodeWithdrawalFields) :=
    Total.listOf fun input => by simp [decodeWithdrawalFields]
  refine Total.listOf (total_repeated ?_ ?_)
  · rintro input ⟨fault, aborts, stopped⟩
    unfold decodeWithdrawal at stopped
    split at stopped
    · cases stopped
    · exact fields input ⟨fault, aborts, stopped⟩
  · intro input withdrawal rest nonempty accepted
    unfold Accepts decodeWithdrawal at accepted
    rw [if_neg nonempty] at accepted
    exact consumes_decodeListOf _ input withdrawal rest nonempty accepted

theorem total_decodeReceipt : Total decodeReceipt := by
  have log : Total decodeLog := Total.listOf fun input => by
    simp [decodeString, decodeTopics, total_decodeHashes]
  have logs : Total decodeLogs :=
    Total.listOf (total_repeated log (consumes_decodeListOf _))
  have untyped : Total decodeUntypedReceipt := Total.listOf fun input => by simp [logs]
  rintro input ⟨fault, aborts, stopped⟩
  cases input with
  | nil =>
    cases stopped
    exact aborts
  | cons first enc =>
    unfold decodeReceipt at stopped
    dsimp only at stopped
    split at stopped
    · refine (untyped.bind fun receipt => ?_) enc ⟨fault, aborts, stopped⟩
      split
      · exact total_stop _
      · exact total_stop _
      · exact total_pure _
    · exact untyped _ ⟨fault, aborts, stopped⟩

def BlockHasEmptyEnvelope (input : Bytes) : Prop :=
  ∃ payload rest header transactions, Sizeable (listItem payload) ∧
    input = listItem payload ++ rest ∧ Accepts decodeBlockHeader payload header transactions ∧
    HasEmptyEnvelope transactions

def BodyHasEmptyEnvelope (input : Bytes) : Prop :=
  ∃ execution, Sizeable (listItem (listItem execution)) ∧
    input = listItem (listItem execution) ∧ HasEmptyEnvelope execution

theorem stops_decodeBlock : Stops Stop.Aborts decodeBlock input ↔ BlockHasEmptyEnvelope input := by
  have parsed (payload rest : Bytes) := parseListMetadata_exact input payload rest
  simp [decodeBlock, decodeListOf, BlockHasEmptyEnvelope, parsed, stops_whole, Stop.Aborts,
    stops_decodeTransactionList, total_decodeBlockHeader, total_decodeBlockHeaderVector,
    total_decodeWithdrawalList, and_assoc]

theorem stops_decodeConsensusBlockBody :
    Stops Stop.Aborts decodeConsensusBlockBody input ↔ BodyHasEmptyEnvelope input := by
  have parsed (input payload rest : Bytes) := parseListMetadata_exact input payload rest
  have inside (execution : Bytes) (sizeable : Sizeable (listItem (listItem execution))) :
      Sizeable (listItem execution) := sizeable_of_le (length_le_listItem _) sizeable
  simp [decodeConsensusBlockBody, BodyHasEmptyEnvelope, parsed, stops_whole, accepts_whole,
    accepts_end, Stop.Aborts, stops_decodeTransactionList, total_decodeBlockHeaderVector,
    total_decodeWithdrawalList]
  grind

def Answers {α : Type} (read : Decoder α) (input : Bytes) : Prop :=
  (∃ value rest, read input = .ok (value, rest)) ∨ ∃ error, read input = .error (.decode error)

theorem answers_iff {read : Decoder α} : Answers read input ↔ ¬ Stops Stop.Aborts read input := by
  unfold Answers Stops
  cases read input with
  | ok pair =>
    obtain ⟨value, rest⟩ := pair
    simp
  | error fault => cases fault <;> simp [Stop.Aborts]

/-- The decoders answer on every input, but for the transaction lists with an
empty envelope: alone, in a block, or in the body of a consensus block. -/
theorem decoders_answer (input : Bytes) :
    (Answers decodeTransaction input ∧ Answers decodeBlockHeader input ∧
      Answers decodeReceipt input) ∧
    (Answers decodeTransactionList input ↔ ¬ HasEmptyEnvelope input) ∧
    (Answers decodeBlock input ↔ ¬ BlockHasEmptyEnvelope input) ∧
    (Answers decodeConsensusBlockBody input ↔ ¬ BodyHasEmptyEnvelope input) := by
  refine ⟨⟨?_, ?_, ?_⟩, ?_, ?_, ?_⟩
  · exact answers_iff.mpr (total_decodeTransaction input)
  · exact answers_iff.mpr (total_decodeBlockHeader input)
  · exact answers_iff.mpr (total_decodeReceipt input)
  · rw [answers_iff, stops_decodeTransactionList]
  · rw [answers_iff, stops_decodeBlock]
  · rw [answers_iff, stops_decodeConsensusBlockBody]

theorem empty_envelope_aborts :
    decodeTransactionList [0xc1, 0x80] = .error (.assertion "enc.size()") ∧
    decodeConsensusBlockBody [0xc3, 0xc2, 0xc1, 0x80] = .error (.assertion "enc.size()") := by
  decide +kernel

end MonadChain.Rlp
