import MonadChain.Rlp.Transaction

/-!
The decoders of block_rlp.cpp, withdrawal_rlp.cpp, receipt_rlp.cpp and of the
consensus block body in monad_block_rlp.cpp.
-/

namespace MonadChain.Rlp

open Scanner

structure BlockHeader where
  parentHash : Bytes32
  ommersHash : Bytes32
  beneficiary : Address
  stateRoot : Bytes32
  transactionsRoot : Bytes32
  receiptsRoot : Bytes32
  logsBloom : Fixed 256
  difficulty : Unsigned 32
  number : Unsigned 8
  gasLimit : Unsigned 8
  gasUsed : Unsigned 8
  timestamp : Unsigned 8
  extraData : Bytes
  prevRandao : Bytes32
  nonce : Fixed 8
  baseFeePerGas : Option (Unsigned 32)
  withdrawalsRoot : Option Bytes32
  blobGasUsed : Option (Unsigned 8)
  excessBlobGas : Option (Unsigned 8)
  parentBeaconBlockRoot : Option Bytes32
  requestsHash : Option Bytes32
  deriving DecidableEq

structure Withdrawal where
  index : Unsigned 8 := 0
  validatorIndex : Unsigned 8 := 0
  amount : Unsigned 8 := 0
  recipient : Address := ⟨List.replicate 20 0, rfl⟩
  deriving DecidableEq

structure Block where
  header : BlockHeader
  transactions : List Transaction
  ommers : List BlockHeader
  withdrawals : Option (List Withdrawal)
  deriving DecidableEq

structure MonadConsensusBlockBody where
  transactions : List Transaction
  ommers : List BlockHeader
  withdrawals : List Withdrawal
  deriving DecidableEq

structure Log where
  data : Bytes
  topics : List Bytes32
  address : Address
  deriving DecidableEq

structure Receipt where
  bloom : Fixed 256
  status : Unsigned 8
  gasUsed : Unsigned 8
  type : TransactionType
  logs : List Log
  deriving DecidableEq

def decodeIfAny {α : Type} (read : Decoder α) : Decoder (Option α) := fun payload =>
  if payload = [] then .ok (none, payload)
  else (do
    let value ← read
    return some value : Decoder (Option α)) payload

/-! block_rlp.cpp -/

def decodeBlobGas : Decoder (Unsigned 8 × Unsigned 8 × Bytes32) := do
  let blobGasUsed ← decodeWord 8
  let excessBlobGas ← decodeWord 8
  let parentBeaconBlockRoot ← decodeBytes32
  return (blobGasUsed, excessBlobGas, parentBeaconBlockRoot)

def decodeBlockHeader : Decoder BlockHeader := decodeListOf do
  let parentHash ← decodeBytes32
  let ommersHash ← decodeBytes32
  let beneficiary ← decodeAddress
  let stateRoot ← decodeBytes32
  let transactionsRoot ← decodeBytes32
  let receiptsRoot ← decodeBytes32
  let logsBloom ← decodeFixed 256
  let difficulty ← decodeWord 32
  let number ← decodeWord 8
  let gasLimit ← decodeWord 8
  let gasUsed ← decodeWord 8
  let timestamp ← decodeWord 8
  let extraData ← decodeString
  failIf (32 < extraData.length) .overflow
  let prevRandao ← decodeBytes32
  let nonce ← decodeFixed 8
  let baseFeePerGas ← decodeIfAny (decodeWord 32)
  let withdrawalsRoot ← decodeIfAny decodeBytes32
  let blobGas ← decodeIfAny decodeBlobGas
  let requestsHash ← decodeIfAny decodeBytes32
  return { parentHash, ommersHash, beneficiary, stateRoot, transactionsRoot, receiptsRoot
           logsBloom, difficulty, number, gasLimit, gasUsed, timestamp, extraData, prevRandao
           nonce, baseFeePerGas, withdrawalsRoot, requestsHash
           blobGasUsed := blobGas.map (·.1), excessBlobGas := blobGas.map (·.2.1)
           parentBeaconBlockRoot := blobGas.map (·.2.2) }

def decodeBlockHeaderVector : Decoder (List BlockHeader) :=
  decodeListOf (decodeRepeated decodeBlockHeader)

def decodeWithdrawalFields : Decoder Withdrawal := do
  let index ← decodeWord 8
  let validatorIndex ← decodeWord 8
  let recipient ← decodeAddress
  let amount ← decodeWord 8
  return { index, validatorIndex, recipient, amount }

def decodeWithdrawal : Decoder Withdrawal := fun enc =>
  if enc = [] then .ok ({}, enc) else decodeListOf decodeWithdrawalFields enc

def decodeWithdrawalList : Decoder (List Withdrawal) :=
  decodeListOf (decodeRepeated decodeWithdrawal)

/-- `decode_block`, with the raw transactions. -/
def decodeBlock : Decoder (Block × List Bytes) := decodeListOf do
  let header ← decodeBlockHeader
  let (transactions, rawTransactions) ← decodeTransactionList
  let ommers ← decodeBlockHeaderVector
  let withdrawals ← decodeIfAny decodeWithdrawalList
  return ({ header, transactions, ommers, withdrawals }, rawTransactions)

/-! monad_block_rlp.cpp -/

def decodeConsensusBlockBody : Decoder MonadConsensusBlockBody := do
  let consensusBodyPayload ← parseListMetadata
  decodeEnd
  let executionPayload ← whole (.decode .inputTooLong) parseListMetadata consensusBodyPayload
  whole (.decode .inputTooLong) (do
    let (transactions, _) ← decodeTransactionList
    let ommers ← decodeBlockHeaderVector
    let withdrawals ← decodeWithdrawalList
    return { transactions, ommers, withdrawals }) executionPayload

/-! receipt_rlp.cpp -/

def decodeTopics : Decoder (List Bytes32) := decodeListOf (decodeRepeated decodeBytes32)

def decodeLog : Decoder Log := decodeListOf do
  let address ← decodeAddress
  let topics ← decodeTopics
  let data ← decodeString
  return { address, topics, data }

def decodeLogs : Decoder (List Log) := decodeListOf (decodeRepeated decodeLog)

def decodeUntypedReceipt : Decoder Receipt := decodeListOf do
  let status ← decodeWord 8
  let gasUsed ← decodeWord 8
  let bloom ← decodeFixed 256
  let logs ← decodeLogs
  return { status, gasUsed, bloom, logs, type := .legacy }

/-- The type byte is looked at once the rest has been decoded. -/
def decodeReceipt : Decoder Receipt
  | [] => .error (.decode .inputTooShort)
  | first :: enc =>
    if first < 0xc0 then (do
      let receipt ← decodeUntypedReceipt
      match TransactionType.ofByte first with
      | none | some .legacy => stop .invalidTxnType
      | some type => return { receipt with type } : Decoder Receipt) enc
    else decodeUntypedReceipt (first :: enc)

end MonadChain.Rlp
