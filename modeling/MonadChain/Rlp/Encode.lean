import MonadChain.Lib.BigEndian

/-!
ethereum/rlp/encode2.hpp, core/rlp/encode.hpp and the encoder of int_rlp.hpp. `encodeString2`
keeps the length of a string in 32 bits. The encoders of core/rlp write to the start of a
destination and return the unused tail. `none` is a violated `MONAD_ASSUME`.
-/

namespace MonadChain.Rlp

/-! encode2.hpp -/

def encodeString2 (string : Bytes) : Bytes :=
  let size := string.length % 2 ^ 32
  if size = 1 ∧ string.headD 0 ≤ 0x7f then string
  else if 55 < size then
    let sizeStr := toBigCompact 4 size
    UInt8.ofNat (0xb7 + sizeStr.length) :: (sizeStr ++ string)
  else UInt8.ofNat (0x80 + size) :: string

def encodeList2 (args : List Bytes) : Bytes :=
  let size := (args.map List.length).sum % 2 ^ 64
  if 55 < size then
    let sizeStr := toBigCompact 8 size
    UInt8.ofNat (0xf7 + sizeStr.length) :: (sizeStr ++ args.flatten)
  else UInt8.ofNat (0xc0 + size) :: args.flatten

def encodeUnsigned (size value : Nat) : Bytes := encodeString2 (toBigCompact size value)

/-! core/rlp/encode.hpp -/

def countlZero (n : Nat) : Nat := 64 - Nat.size n

def lengthLength (n : Nat) : Nat := 8 - countlZero n / 8

def stringLength (string : Bytes) : Nat :=
  if string.length = 1 ∧ string.headD 0 ≤ 0x7f then 1
  else if string.length ≤ 55 then 1 + string.length
  else 1 + lengthLength string.length + string.length

def listLength (concatenatedSize : Nat) : Nat :=
  if concatenatedSize ≤ 55 then 1 + concatenatedSize
  else 1 + lengthLength concatenatedSize + concatenatedSize

def encodeLength (d : Bytes) (n : Nat) : Option (Bytes × Bytes) :=
  let lzBytes := countlZero n / 8
  let shifted := if n ≠ 0 then n * 2 ^ (lzBytes * 8) % 2 ^ 64 else n
  if d.length < 8 then none
  else
    let stored := storeBe 8 shifted ++ d.drop 8
    some (stored.take (8 - lzBytes), stored.drop (8 - lzBytes))

/-- The loop of `encode_length_compact`, from the last byte to the first. -/
def storeCompact : Nat → Nat → Bytes → Bytes
  | 0, _, d => d
  | i + 1, n, d => storeCompact i (n / 256) (d.set i (UInt8.ofNat n))

def encodeLengthCompact (d : Bytes) (n : Nat) : Option (Bytes × Bytes) :=
  let len := lengthLength n
  if d.length < len then none
  else
    let stored := storeCompact len n d
    some (stored.take len, stored.drop len)

/-- `std::copy` of the payload behind the bytes already written. -/
def copyPayload (written payload d : Bytes) : Option (Bytes × Bytes) :=
  if d.length < payload.length then none
  else some (written ++ payload, d.drop payload.length)

def encodeString (d string : Bytes) : Option (Bytes × Bytes) :=
  if d.length = 0 then none
  else if string.length = 1 ∧ string.headD 0 ≤ 0x7f then some ([string.headD 0], d.drop 1)
  else if string.length ≤ 55 then
    copyPayload [UInt8.ofNat (0x80 + string.length)] string (d.drop 1)
  else do
    let (length, d) ← encodeLength (d.drop 1) string.length
    copyPayload (UInt8.ofNat (0xb7 + lengthLength string.length) :: length) string d

def encodeListPrefix (d : Bytes) (payloadSize : Nat) : Option (Bytes × Bytes) :=
  if d.length = 0 then none
  else if payloadSize ≤ 55 then some ([UInt8.ofNat (0xc0 + payloadSize)], d.drop 1)
  else do
    let (length, d) ← encodeLength (d.drop 1) payloadSize
    return (UInt8.ofNat (0xf7 + lengthLength payloadSize) :: length, d)

def encodeListPrefixCompact (d : Bytes) (payloadSize : Nat) : Option (Bytes × Bytes) :=
  if payloadSize ≤ 55 then encodeListPrefix d payloadSize
  else if d.length = 0 then none
  else do
    let (length, d) ← encodeLengthCompact (d.drop 1) payloadSize
    return (UInt8.ofNat (0xf7 + lengthLength payloadSize) :: length, d)

def encodeList (d payload : Bytes) : Option (Bytes × Bytes) := do
  let (written, d) ← encodeListPrefix d payload.length
  copyPayload written payload d

end MonadChain.Rlp
