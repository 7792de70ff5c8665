import MonadChain.Rlp.Encode
import MonadChain.Rlp.Decode

/-!
core/transaction.hpp, signature.cpp, and the codec of transactions in
transaction_rlp.cpp. An encoder stops at a failed assertion or at the exception
of `get_v`.
-/

namespace MonadChain.Rlp

open Scanner

abbrev Unsigned (size : Nat) : Type := Fin (256 ^ size)

instance neZeroByte : NeZero (256 ^ 1) := ⟨by decide⟩
instance neZeroWord : NeZero (256 ^ 8) := ⟨by decide⟩
instance neZeroUint256 : NeZero (256 ^ 32) := ⟨by decide⟩

abbrev Fixed (size : Nat) : Type := { bytes : Bytes // bytes.length = size }

abbrev Address : Type := Fixed 20
abbrev Bytes32 : Type := Fixed 32

structure Secp256k1Signature where
  r : Unsigned 32 := 0
  s : Unsigned 32 := 0
  yParity : Unsigned 1 := 0
  deriving DecidableEq

structure SignatureAndChain where
  signature : Secp256k1Signature := {}
  chainId : Option (Unsigned 32) := none
  deriving DecidableEq

inductive TransactionType where
  | legacy | eip2930 | eip1559 | eip4844 | eip7702
  deriving DecidableEq, Repr

structure AccessEntry where
  a : Address
  keys : List Bytes32
  deriving DecidableEq

abbrev AccessList : Type := List AccessEntry

structure AuthorizationEntry where
  sc : SignatureAndChain
  address : Address
  nonce : Unsigned 8
  deriving DecidableEq

abbrev AuthorizationList : Type := List AuthorizationEntry

/-- The source's `to` is `recipient`. -/
structure Transaction where
  sc : SignatureAndChain := {}
  nonce : Unsigned 8 := 0
  maxFeePerGas : Unsigned 32 := 0
  gasLimit : Unsigned 8 := 0
  value : Unsigned 32 := 0
  recipient : Option Address := none
  type : TransactionType := .legacy
  data : Bytes := []
  accessList : AccessList := []
  maxPriorityFeePerGas : Unsigned 32 := 0
  maxFeePerBlobGas : Unsigned 32 := 0
  blobVersionedHashes : List Bytes32 := []
  authorizationList : AuthorizationList := []
  deriving DecidableEq

def TransactionType.code : TransactionType → UInt8
  | .legacy => 0
  | .eip2930 => 1
  | .eip1559 => 2
  | .eip4844 => 3
  | .eip7702 => 4

/-- The cast of a byte below `TransactionType::LAST`. -/
def TransactionType.ofByte (byte : UInt8) : Option TransactionType :=
  match byte.toNat with
  | 0 => some .legacy
  | 1 => some .eip2930
  | 2 => some .eip1559
  | 3 => some .eip4844
  | 4 => some .eip7702
  | _ => none

def TransactionType.hasPriorityFee (type : TransactionType) : Prop :=
  type = .eip1559 ∨ type = .eip4844 ∨ type = .eip7702

instance (type : TransactionType) : Decidable type.hasPriorityFee :=
  inferInstanceAs (Decidable (_ ∨ _ ∨ _))

/-! signature.cpp -/

/-- `from_v` on a default value. The subtraction wraps; clearing bit 0 and
shifting by one is halving. -/
def SignatureAndChain.fromV (v : Unsigned 32) : SignatureAndChain :=
  if v.val = 28 then { signature := { yParity := 1 } }
  else if v.val = 27 then {}
  else
    let tmp := (v.val + (2 ^ 256 - 35)) % 2 ^ 256
    { signature := { yParity := if tmp % 2 = 1 then 1 else 0 }
      chainId := some (Fin.ofNat _ (tmp / 2)) }

def maxChainId : Nat := (2 ^ 256 - 1 - 36) / 2

inductive Halt where
  | assertion (expr : String)
  | exception (message : String)
  deriving DecidableEq, Repr

def getV (sc : SignatureAndChain) : Except Halt (Unsigned 32) :=
  match sc.chainId with
  | some chainId =>
    if chainId.val ≤ maxChainId then
      .ok (Fin.ofNat _ (chainId.val * 2 + 35 + sc.signature.yParity.val))
    else .error (.exception "get_v: chain_id out of bounds")
  | none => .ok (if sc.signature.yParity.val ≠ 0 then 28 else 27)

@[irreducible]
def encodeWord {size : Nat} (word : Unsigned size) : Bytes := encodeUnsigned size word.val

@[irreducible]
def encodeFixed {size : Nat} (bytes : Fixed size) : Bytes := encodeString2 bytes.val

def encodeAddress : Option Address → Bytes
  | none => [0x80]
  | some address => encodeFixed address

def encodeAccessEntry (entry : AccessEntry) : Bytes :=
  encodeList2 [encodeAddress (some entry.a) ++ encodeList2 [entry.keys.flatMap encodeFixed]]

def encodeAccessList (accessList : AccessList) : Bytes :=
  encodeList2 [accessList.flatMap encodeAccessEntry]

def encodeAuthorizationEntry (entry : AuthorizationEntry) : Except Halt Bytes :=
  match entry.sc.chainId with
  | none => .error (.assertion "auth_entry.sc.chain_id.has_value()")
  | some chainId => .ok (encodeList2
      [encodeWord chainId, encodeAddress (some entry.address), encodeWord entry.nonce,
        encodeWord entry.sc.signature.yParity, encodeWord entry.sc.signature.r,
        encodeWord entry.sc.signature.s])

def encodeAuthorizationList (list : AuthorizationList) : Except Halt Bytes := do
  let entries ← list.mapM encodeAuthorizationEntry
  return encodeList2 [entries.flatten]

def encodeLegacyBase (txn : Transaction) : Bytes :=
  encodeWord txn.nonce ++ encodeWord txn.maxFeePerGas ++ encodeWord txn.gasLimit ++
    encodeAddress txn.recipient ++ encodeWord txn.value ++ encodeString2 txn.data

def encodeAuthorizations (txn : Transaction) : Except Halt Bytes :=
  if txn.type = .eip7702 then encodeAuthorizationList txn.authorizationList else .ok []

def encodeEip2718Base (txn : Transaction) : Except Halt Bytes := do
  let authorizations ← encodeAuthorizations txn
  return encodeWord (txn.sc.chainId.getD 0) ++ encodeWord txn.nonce ++
    (if txn.type.hasPriorityFee then encodeWord txn.maxPriorityFeePerGas else []) ++
    encodeWord txn.maxFeePerGas ++ encodeWord txn.gasLimit ++ encodeAddress txn.recipient ++
    encodeWord txn.value ++ encodeString2 txn.data ++ encodeAccessList txn.accessList ++
    (if txn.type = .eip4844 then
      encodeWord txn.maxFeePerBlobGas ++ encodeList2 [txn.blobVersionedHashes.flatMap encodeFixed]
    else []) ++ authorizations

def encodeTransaction (txn : Transaction) : Except Halt Bytes :=
  if txn.type = .legacy then do
    let v ← getV txn.sc
    return encodeList2 [encodeLegacyBase txn, encodeWord v, encodeWord txn.sc.signature.r,
      encodeWord txn.sc.signature.s]
  else do
    let base ← encodeEip2718Base txn
    return txn.type.code :: encodeList2 [base, encodeWord txn.sc.signature.yParity,
      encodeWord txn.sc.signature.r, encodeWord txn.sc.signature.s]

def decodeWord (size : Nat) : Decoder (Unsigned size) := do
  let value ← decodeUnsigned size
  return Fin.ofNat (256 ^ size) value

def decodeFixed (size : Nat) : Decoder (Fixed size) := do
  let payload ← parseStringMetadata
  if sized : payload.length = size then return ⟨payload, sized⟩
  else stop .arrayLengthUnexpected

def decodeAddress : Decoder Address := decodeFixed 20

def decodeBytes32 : Decoder Bytes32 := decodeFixed 32

def decodeOptionalAddress : Decoder (Option Address) := do
  let payload ← parseStringMetadata
  if sized : payload.length = 20 then return some ⟨payload, sized⟩
  else if 20 < payload.length then stop .inputTooLong
  else if payload ≠ [] then stop .inputTooShort
  else return none

def decodeAccessEntryKeys : Decoder (List Bytes32) := do
  let payload ← parseListMetadata
  let keys ← whole (.decode .inputTooLong) (decodeRepeated decodeBytes32) payload
  monadAssert (payload.length = keys.length * 33) "list_space == keys.size() * key_size"
  return keys

def decodeAccessEntry : Decoder AccessEntry := decodeListOf do
  let a ← decodeAddress
  let keys ← decodeAccessEntryKeys
  return { a, keys }

/-- A list read to its end, which is then asserted. -/
def decodeVector {α : Type} (read : Decoder α) : Decoder (List α) := do
  let payload ← parseListMetadata
  whole (.assertion "payload.empty()") (decodeRepeated read) payload

def decodeAccessList : Decoder AccessList := decodeVector decodeAccessEntry

def decodeAuthorizationEntry : Decoder AuthorizationEntry := decodeListOf do
  let chainId ← decodeWord 32
  let address ← decodeAddress
  let nonce ← decodeWord 8
  let yParity ← decodeWord 1
  let r ← decodeWord 32
  let s ← decodeWord 32
  return { sc := { signature := { r, s, yParity }, chainId := some chainId }, address, nonce }

def decodeAuthorizationList : Decoder AuthorizationList := decodeVector decodeAuthorizationEntry

def decodeSc : Decoder SignatureAndChain := do
  let v ← decodeWord 32
  return SignatureAndChain.fromV v

def decodeTransactionLegacy : Decoder Transaction := decodeListOf do
  let nonce ← decodeWord 8
  let maxFeePerGas ← decodeWord 32
  let gasLimit ← decodeWord 8
  let recipient ← decodeOptionalAddress
  let value ← decodeWord 32
  let data ← decodeString
  let sc ← decodeSc
  let r ← decodeWord 32
  let s ← decodeWord 32
  return { type := .legacy, nonce, maxFeePerGas, gasLimit, recipient, value, data
           sc := { sc with signature := { sc.signature with r, s } } }

section

variable (type : TransactionType)

def decodePriorityFee : Decoder (Unsigned 32) :=
  if type.hasPriorityFee then decodeWord 32 else pure 0

def decodeBlobs (recipient : Option Address) : Decoder (Unsigned 32 × List Bytes32) :=
  if type = .eip4844 then do
    failIf (recipient = none) .inputTooShort
    let maxFeePerBlobGas ← decodeWord 32
    let hashes ← decodeListOf (decodeRepeated decodeBytes32)
    return (maxFeePerBlobGas, hashes)
  else pure (0, [])

def decodeAuthorizations (recipient : Option Address) : Decoder AuthorizationList :=
  if type = .eip7702 then do
    failIf (recipient = none) .inputTooShort
    decodeAuthorizationList
  else pure []

def decodeEnvelope : Decoder Transaction := do
  let chainId ← decodeWord 32
  let nonce ← decodeWord 8
  let maxPriorityFeePerGas ← decodePriorityFee type
  let maxFeePerGas ← decodeWord 32
  let gasLimit ← decodeWord 8
  let recipient ← decodeOptionalAddress
  let value ← decodeWord 32
  let data ← decodeString
  let accessList ← decodeAccessList
  let (maxFeePerBlobGas, blobVersionedHashes) ← decodeBlobs type recipient
  let authorizationList ← decodeAuthorizations type recipient
  let yParity ← decodeWord 1
  let r ← decodeWord 32
  let s ← decodeWord 32
  return { type, nonce, maxFeePerGas, gasLimit, recipient, value, data, accessList
           maxPriorityFeePerGas, maxFeePerBlobGas, blobVersionedHashes, authorizationList
           sc := { signature := { r, s, yParity }, chainId := some chainId } }

end

def decodeTransactionEip2718 : Decoder Transaction
  | [] => .error (.assertion "enc.size()")
  | first :: enc =>
    match TransactionType.ofByte first with
    | none => .error (.decode .invalidTxnType)
    | some type => (do
        let txn ← decodeListOf (decodeEnvelope type)
        decodeEnd
        return txn : Decoder Transaction) enc

def decodeTransaction : Decoder Transaction
  | [] => .error (.decode .inputTooShort)
  | first :: enc =>
    if 0xc0 ≤ first then decodeTransactionLegacy (first :: enc)
    else decodeTransactionEip2718 (first :: enc)

/-- One round of the loop of `decode_transaction_list`: the transaction and its
entry of `raw_transactions`. -/
def decodeTransactionListItem : Decoder (Transaction × Bytes) := fun ls =>
  if 0xc0 ≤ ls.headD 0 then do
    let (tx, rest) ← decodeTransactionLegacy ls
    return ((tx, ls.take (ls.length - rest.length)), rest)
  else do
    let (str, rest) ← parseStringMetadata ls
    let (tx, _) ← decodeTransactionEip2718 str
    return ((tx, str), rest)

def decodeTransactionItems : Decoder (List (Transaction × Bytes)) := do
  let ls ← parseListMetadata
  whole (.assertion "ls.empty()") (decodeRepeated decodeTransactionListItem) ls

def decodeTransactionList : Decoder (List Transaction × List Bytes) := do
  let items ← decodeTransactionItems
  return items.unzip

/-- The transactions of a block as `encode_block` frames them. -/
def encodeBlockTransaction (tx : Transaction) : Except Halt Bytes := do
  let encoding ← encodeTransaction tx
  return if tx.type = .legacy then encoding else encodeString2 encoding

def encodeBlockTransactions (transactions : List Transaction) : Except Halt Bytes := do
  let items ← transactions.mapM encodeBlockTransaction
  return encodeList2 [items.flatten]

end MonadChain.Rlp
