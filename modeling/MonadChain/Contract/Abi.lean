import MonadChain.Lib.BigEndian

/-!
ethereum/core/contract/big_endian.hpp, abi_decode.hpp and abi_encode.hpp over byte lists.
Fixed-size values are the low bytes of one 32-byte word; dirty high bytes are ignored.
-/

namespace MonadChain

inductive AbiDecodeError where
  | inputTooShort
  | lengthMismatch
  deriving DecidableEq, Repr

def abiDecodeFixed (size : Nat) (enc : Bytes) : Except AbiDecodeError (Nat × Bytes) :=
  if enc.length < 32 then .error .inputTooShort
  else .ok (loadBe ((enc.take 32).drop (32 - size)), enc.drop 32)

theorem abiDecodeFixed_lt {size value : Nat} {enc rest : Bytes} (small : size ≤ 32)
    (decoded : abiDecodeFixed size enc = .ok (value, rest)) : value < 256 ^ size := by
  unfold abiDecodeFixed at decoded
  split at decoded
  · cases decoded
  · rename_i long
    cases decoded
    have bound := loadBe_lt ((enc.take 32).drop (32 - size))
    have length : ((enc.take 32).drop (32 - size)).length = size := by
      simp only [List.length_drop, List.length_take]
      omega
    rwa [length] at bound

def roundUp (value unit : Nat) : Nat := (value + unit - 1) / unit * unit

/-- `abi_decode_bytes_tail<N>`: the length word must be `size`, and the bytes
are padded to whole words. -/
def abiDecodeBytesTail (size : Nat) (enc : Bytes) : Except AbiDecodeError (Bytes × Bytes) := do
  let (length, enc) ← abiDecodeFixed 32 enc
  if length ≠ size then .error .lengthMismatch
  else if enc.length < roundUp size 32 then .error .inputTooShort
  else .ok (enc.take size, enc.drop (roundUp size 32))

/-- `abi_encode_uint`, and `abi_encode_address` for a 160-bit value. -/
def abiEncodeUint (value : Nat) : Bytes := storeBe 32 value

def abiEncodeBool (value : Bool) : Bytes := abiEncodeUint (if value then 1 else 0)

def abiEncodeBytes (input : Bytes) : Bytes :=
  abiEncodeUint input.length ++ input ++
    List.replicate (roundUp input.length 32 - input.length) 0

def abiEncodeUintArray (values : List Nat) : Bytes :=
  abiEncodeUint values.length ++ values.flatMap abiEncodeUint

structure AbiEncoder where
  head : Bytes := []
  tail : Bytes := []
  unresolvedOffsets : List (Nat × Nat) := []

namespace AbiEncoder

section

variable (encoder : AbiEncoder) (data : Bytes)

def addStatic : AbiEncoder :=
  { encoder with head := encoder.head ++ data }

def addDynamic : AbiEncoder :=
  { head := encoder.head ++ List.replicate 32 0
    tail := encoder.tail ++ data
    unresolvedOffsets :=
      encoder.unresolvedOffsets ++ [(encoder.head.length, encoder.tail.length)] }

def addUint (value : Nat) : AbiEncoder :=
  encoder.addStatic (abiEncodeUint value)

def addBool (value : Bool) : AbiEncoder :=
  encoder.addStatic (abiEncodeBool value)

def addUintArray (values : List Nat) : AbiEncoder :=
  encoder.addDynamic (abiEncodeUintArray values)

def addBytes : AbiEncoder :=
  encoder.addDynamic (abiEncodeBytes data)

def resolve (length : Nat) (head : Bytes) (offset : Nat × Nat) : Bytes :=
  head.take offset.1 ++ abiEncodeUint (length + offset.2) ++ head.drop (offset.1 + 32)

def encodeFinal : Bytes :=
  encoder.unresolvedOffsets.foldl (resolve encoder.head.length) encoder.head ++ encoder.tail

end

end AbiEncoder

end MonadChain
