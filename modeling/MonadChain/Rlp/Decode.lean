import MonadChain.Lib.BigEndian
import MonadChain.Lib.Scanner

/-!
ethereum/rlp/decode.hpp and the decoders of int_rlp.hpp, address_rlp.hpp and bytes_rlp.hpp.
Besides the error codes of the source a decoder can stop at a failed `MONAD_ASSERT`; `unfinished`
would be a loop that does not end.
-/

namespace MonadChain.Rlp

open Scanner

inductive DecodeError where
  | typeUnexpected
  | overflow
  | inputTooLong
  | inputTooShort
  | arrayLengthUnexpected
  | invalidTxnType
  | leadingZero
  | pathTooShort
  | pathTooLong
  | nonCanonical
  deriving DecidableEq, Repr

inductive Stop where
  | decode (error : DecodeError)
  | assertion (expr : String)
  | unfinished
  deriving DecidableEq, Repr

abbrev Decoder (α : Type) : Type := Scanner Stop UInt8 α

def stop (error : DecodeError) {α : Type} : Decoder α := fail (.decode error)

def failIf (bad : Prop) [Decidable bad] (error : DecodeError) : Decoder Unit :=
  if bad then stop error else pure ()

def monadAssert (holds : Prop) [Decidable holds] (expr : String) : Decoder Unit :=
  if holds then pure () else fail (.assertion expr)

def decodeEnd : Decoder Unit := fun enc =>
  if enc = [] then .ok ((), enc) else .error (.decode .inputTooLong)

def decodeRawNum (size : Nat) (enc : Bytes) : Except Stop Nat :=
  if size < enc.length then .error (.decode .overflow)
  else if enc = [] then .ok 0
  else if enc.headD 0 = 0 then .error (.decode .leadingZero)
  else .ok (loadBe enc)

def decodeLength (enc : Bytes) : Except Stop Nat := decodeRawNum 8 enc

def extractPayload (enc : Bytes) (i length : Nat) : Except Stop (Bytes × Bytes) :=
  let finish := (i + length) % 2 ^ 64
  if enc.length < finish ∨ finish < i then .error (.decode .inputTooShort)
  else .ok ((enc.drop i).take length, enc.drop finish)

/-- The long form: the first byte, `lengthOfLength` bytes of length, payload. -/
def parseLong (enc : Bytes) (lengthOfLength : Nat) : Except Stop (Bytes × Bytes) :=
  if enc.length ≤ 1 + lengthOfLength then .error (.decode .inputTooShort)
  else do
    let length ← decodeLength ((enc.drop 1).take lengthOfLength)
    if length < 56 then .error (.decode .typeUnexpected)
    else extractPayload enc (1 + lengthOfLength) length

/-- `detail::parse_string_metadata`, called with a first byte below 0xc0. -/
def parseString (first : UInt8) (enc : Bytes) : Except Stop (Bytes × Bytes) :=
  if first < 0x80 then extractPayload enc 0 1
  else if first < 0xb8 then
    let length := first.toNat - 0x80
    if length = 1 ∧ enc.length < 2 then .error (.decode .inputTooShort)
    else if length = 1 ∧ enc.getD 1 0 < 0x80 then .error (.decode .typeUnexpected)
    else extractPayload enc 1 length
  else parseLong enc (first.toNat - 0xb7)

/-- `detail::parse_list_metadata`, called with a first byte of at least 0xc0. -/
def parseList (first : UInt8) (enc : Bytes) : Except Stop (Bytes × Bytes) :=
  if first < 0xf8 then extractPayload enc 1 (first.toNat - 0xc0)
  else parseLong enc (first.toNat - 0xf7)

def parseStringMetadata : Decoder Bytes
  | [] => .error (.decode .inputTooShort)
  | first :: rest =>
    if 0xc0 ≤ first then .error (.decode .typeUnexpected)
    else parseString first (first :: rest)

def parseListMetadata : Decoder Bytes
  | [] => .error (.decode .inputTooShort)
  | first :: rest =>
    if first < 0xc0 then .error (.decode .typeUnexpected)
    else parseList first (first :: rest)

inductive RlpType where
  | string | list
  deriving DecidableEq, Repr

def parseMetadata : Decoder (RlpType × Bytes)
  | [] => .error (.decode .inputTooShort)
  | first :: rest =>
    if first < 0xc0 then do
      let (payload, rest) ← parseString first (first :: rest)
      return ((.string, payload), rest)
    else do
      let (payload, rest) ← parseList first (first :: rest)
      return ((.list, payload), rest)

def decodeString : Decoder Bytes := parseStringMetadata

def decodeUnsigned (size : Nat) : Decoder Nat := do
  let payload ← parseStringMetadata
  match decodeRawNum size payload with
  | .ok value => pure value
  | .error fault => fail fault

def decodeListOf {α : Type} (read : Decoder α) : Decoder α := do
  let payload ← parseListMetadata
  whole (.decode .inputTooLong) read payload

/-- `while (payload.size() > 0)`: each round takes at least one byte, so the loop
runs at most once per byte. -/
def decodeRepeated {α : Type} (read : Decoder α) : Decoder (List α) := fun payload =>
  readAll .unfinished read payload.length payload

end MonadChain.Rlp
