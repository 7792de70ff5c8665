import MonadChain.Contract.Abi

/-!
What the encoder of abi_encode.hpp writes, read back by the rules of the
Solidity ABI for tuples of the types it has: a head of one word an item, and for
a dynamic item the offset of its tail.
-/

namespace MonadChain

open List

def abiEncodeAddress (address : Nat) : Bytes := abiEncodeUint address

def abiEncodeAddressArray (addresses : List Nat) : Bytes :=
  abiEncodeUint addresses.length ++ addresses.flatMap abiEncodeAddress

/-- `abi_decode_dynamic_bytes_tail<N>`, the body of `abi_decode_bytes_tail<N>`. -/
def abiDecodeDynamicBytesTail (size : Nat) (enc : Bytes) : Except AbiDecodeError (Bytes × Bytes) :=
  abiDecodeBytesTail size enc

namespace AbiEncoder

def addAddress (encoder : AbiEncoder) (address : Nat) : AbiEncoder :=
  encoder.addStatic (abiEncodeAddress address)

def addAddressArray (encoder : AbiEncoder) (addresses : List Nat) : AbiEncoder :=
  encoder.addDynamic (abiEncodeAddressArray addresses)

end AbiEncoder

inductive AbiType where
  | address
  | uint (size : Fin 33)
  | bool
  | bytes
  | uintArray (size : Fin 33)
  | addressArray
  deriving DecidableEq

inductive AbiItem where
  | address (value : Fin (256 ^ 20))
  | uint (size : Fin 33) (value : Fin (256 ^ size.val))
  | bool (value : Bool)
  | bytes (data : Bytes)
  | uintArray (size : Fin 33) (values : List (Fin (256 ^ size.val)))
  | addressArray (values : List (Fin (256 ^ 20)))
  deriving DecidableEq

namespace AbiItem

def type : AbiItem → AbiType
  | address _ => .address
  | uint size _ => .uint size
  | bool _ => .bool
  | bytes _ => .bytes
  | uintArray size _ => .uintArray size
  | addressArray _ => .addressArray

def add (encoder : AbiEncoder) : AbiItem → AbiEncoder
  | address value => encoder.addAddress value
  | uint _ value => encoder.addUint value
  | bool value => encoder.addBool value
  | bytes data => encoder.addBytes data
  | uintArray _ values => encoder.addUintArray (values.map Fin.val)
  | addressArray values => encoder.addAddressArray (values.map Fin.val)

end AbiItem

def encodeItems (items : List AbiItem) : Bytes := (items.foldl AbiItem.add {}).encodeFinal

def readWord (enc : Bytes) : Option Nat :=
  if 32 ≤ enc.length then some (loadBe (enc.take 32)) else none

def readUint (size : Nat) (enc : Bytes) : Option (Fin (256 ^ size)) := do
  let word ← readWord enc
  if fits : word < 256 ^ size then some ⟨word, fits⟩ else none

def readBool (enc : Bytes) : Option Bool := do
  match ← readWord enc with
  | 0 => some false
  | 1 => some true
  | _ => none

def readUints (size : Nat) : Nat → Bytes → Option (List (Fin (256 ^ size)))
  | 0, _ => some []
  | count + 1, enc => do
    let value ← readUint size enc
    let values ← readUints size count (enc.drop 32)
    return value :: values

def readArray (size : Nat) (enc : Bytes) : Option (List (Fin (256 ^ size)) × Nat) := do
  let count ← readWord enc
  let values ← readUints size count (enc.drop 32)
  return (values, 32 + 32 * count)

def readBytes (enc : Bytes) : Option (Bytes × Nat) := do
  let length ← readWord enc
  let padding := roundUp length 32 - length
  if 32 + length ≤ enc.length ∧
      ((enc.drop 32).drop length).take padding = replicate padding 0 then
    some ((enc.drop 32).take length, 32 + roundUp length 32)
  else none

abbrev AbiPart : Type := AbiItem × Option (Nat × Nat)

def readTail {α : Type} (read : Bytes → Option (α × Nat)) (item : α → AbiItem)
    (enc head : Bytes) : Option AbiPart := do
  let start ← readWord head
  let (value, length) ← read (enc.drop start)
  return (item value, some (start, start + length))

def AbiType.decode (enc head : Bytes) : AbiType → Option AbiPart
  | address => (readUint 20 head).map fun value => (.address value, none)
  | uint size => (readUint size head).map fun value => (.uint size value, none)
  | bool => (readBool head).map fun value => (.bool value, none)
  | bytes => readTail readBytes .bytes enc head
  | uintArray size => readTail (readArray size) (.uintArray size) enc head
  | addressArray => readTail (readArray 20) .addressArray enc head

def decodeHeads (enc : Bytes) : List AbiType → Bytes → Option (List AbiPart)
  | [], _ => some []
  | type :: types, head => do
    let part ← type.decode enc head
    let parts ← decodeHeads enc types (head.drop 32)
    return part :: parts

def decodeTuple (types : List AbiType) (enc : Bytes) : Option (List AbiPart) :=
  decodeHeads enc types enc

def Consecutive : Nat → List (Nat × Nat) → Nat → Prop
  | first, [], last => first = last
  | first, (start, stop) :: rest, last =>
    start = first ∧ start + 32 ≤ stop ∧ Consecutive stop rest last

namespace AbiItem

def head (offset : Nat) : AbiItem → Bytes
  | address value => abiEncodeAddress value
  | uint _ value => abiEncodeUint value
  | bool value => abiEncodeBool value
  | _ => abiEncodeUint offset

def tail : AbiItem → Bytes
  | bytes data => abiEncodeBytes data
  | uintArray _ values => abiEncodeUintArray (values.map Fin.val)
  | addressArray values => abiEncodeAddressArray (values.map Fin.val)
  | _ => []

def place (offset : Nat) : AbiItem → Option (Nat × Nat)
  | address _ | uint _ _ | bool _ => none
  | item => some (offset, offset + item.tail.length)

end AbiItem

def heads : Nat → List AbiItem → Bytes
  | _, [] => []
  | offset, item :: items => item.head offset ++ heads (offset + item.tail.length) items

@[simp] theorem length_abiEncodeUint (value : Nat) : (abiEncodeUint value).length = 32 :=
  length_storeBe 32 value

@[simp] theorem length_abiEncodeUintArray (values : List Nat) :
    (abiEncodeUintArray values).length = 32 + 32 * values.length := by
  simp [abiEncodeUintArray, map_const', Nat.mul_comm]

@[simp] theorem abiEncodeAddressArray_eq : abiEncodeAddressArray = abiEncodeUintArray := rfl

theorem le_roundUp (value : Nat) : value ≤ roundUp value 32 := by
  unfold roundUp
  omega

@[simp] theorem length_abiEncodeBytes (data : Bytes) :
    (abiEncodeBytes data).length = 32 + roundUp data.length 32 := by
  have up := le_roundUp data.length
  simp [abiEncodeBytes]
  omega

@[simp] theorem length_head (offset : Nat) (item : AbiItem) : (item.head offset).length = 32 := by
  cases item <;> simp [AbiItem.head, abiEncodeAddress, abiEncodeBool]

theorem aligned_tail (item : AbiItem) : 32 ∣ item.tail.length := by
  unfold AbiItem.tail
  split
  · rw [length_abiEncodeBytes, roundUp]
    omega
  · rw [length_abiEncodeUintArray]
    omega
  · rw [abiEncodeAddressArray_eq, length_abiEncodeUintArray]
    omega
  · exact Nat.dvd_zero 32

namespace AbiEncoder

variable {encoder : AbiEncoder} (length : Nat)

def Placed (encoder : AbiEncoder) : Prop :=
  ∀ offset ∈ encoder.unresolvedOffsets, offset.1 + 32 ≤ encoder.head.length

def resolved (encoder : AbiEncoder) : Bytes :=
  encoder.unresolvedOffsets.foldl (resolve length) encoder.head

theorem foldl_resolve_append (offsets : List (Nat × Nat)) (head more : Bytes)
    (placed : ∀ offset ∈ offsets, offset.1 + 32 ≤ head.length) :
    offsets.foldl (resolve length) (head ++ more) =
      offsets.foldl (resolve length) head ++ more ∧
    (offsets.foldl (resolve length) head).length = head.length := by
  induction offsets generalizing head with
  | nil => simp
  | cons offset offsets ih =>
    have inside := placed offset mem_cons_self
    have kept : (resolve length head offset).length = head.length := by
      simp [resolve]
      omega
    have framed : resolve length (head ++ more) offset = resolve length head offset ++ more := by
      simp [resolve, take_append_of_le_length, drop_append_of_le_length, inside,
        show offset.1 ≤ head.length by omega]
    have later := ih (resolve length head offset) fun other member => by
      rw [kept]
      exact placed other (mem_cons_of_mem _ member)
    rw [foldl_cons, foldl_cons, framed]
    exact ⟨later.1, later.2.trans kept⟩

structure Grows (encoder : AbiEncoder) (word tail : Bytes) (after : AbiEncoder) : Prop where
  placed : after.Placed
  head : after.resolved length = encoder.resolved length ++ word
  tail : after.tail = encoder.tail ++ tail
  size : after.head.length = encoder.head.length + 32

theorem grows_addStatic (placed : encoder.Placed) {data : Bytes} (word : data.length = 32) :
    Grows length encoder data [] (encoder.addStatic data) where
  placed offset member := by
    have inside := placed offset member
    simp [addStatic]
    omega
  head := (foldl_resolve_append length _ _ data placed).1
  tail := (append_nil _).symm
  size := by simp [addStatic, word]

theorem grows_addDynamic (placed : encoder.Placed) (data : Bytes) :
    Grows length encoder (abiEncodeUint (length + encoder.tail.length)) data
      (encoder.addDynamic data) where
  placed offset member := by
    simp only [addDynamic, mem_append, mem_singleton] at member
    rcases member with member | rfl
    · have inside := placed offset member
      simp [addDynamic]
      omega
    · simp [addDynamic]
  head := by
    obtain ⟨framed, kept⟩ := foldl_resolve_append length _ _ (replicate 32 0) placed
    simp only [resolved, addDynamic, foldl_append, framed, foldl_cons, foldl_nil]
    simp [resolve, ← kept]
  tail := rfl
  size := by simp [addDynamic]

theorem grows_add (placed : encoder.Placed) (item : AbiItem) :
    Grows length encoder (item.head (length + encoder.tail.length)) item.tail
      (item.add encoder) := by
  cases item with
  | address | uint | bool =>
    exact grows_addStatic length placed (length_storeBe 32 _)
  | bytes | uintArray | addressArray => exact grows_addDynamic length placed _

theorem resolved_foldl_add (items : List AbiItem) (placed : encoder.Placed) :
    let last := items.foldl AbiItem.add encoder
    last.resolved length = encoder.resolved length ++ heads (length + encoder.tail.length) items ∧
      last.tail = encoder.tail ++ items.flatMap AbiItem.tail ∧
      last.head.length = encoder.head.length + 32 * items.length := by
  induction items generalizing encoder with
  | nil => simp [heads]
  | cons item items ih =>
    have grows := grows_add length placed item
    simp [ih grows.placed, grows.head, grows.tail, grows.size, heads, Nat.add_assoc]
    omega

end AbiEncoder

theorem encodeItems_eq (items : List AbiItem) :
    encodeItems items = heads (32 * items.length) items ++ items.flatMap AbiItem.tail := by
  have start : ({} : AbiEncoder).Placed := by simp [AbiEncoder.Placed]
  obtain ⟨head, tail, length⟩ := AbiEncoder.resolved_foldl_add (32 * items.length) items start
  simp only [AbiEncoder.resolved, foldl_nil, nil_append, length_nil, Nat.add_zero,
    Nat.zero_add] at head tail length
  rw [encodeItems, AbiEncoder.encodeFinal, length, head, tail]

theorem length_heads (offset : Nat) (items : List AbiItem) :
    (heads offset items).length = 32 * items.length := by
  induction items generalizing offset with
  | nil => rfl
  | cons item items ih =>
    simp [heads, ih]
    omega

theorem aligned_tails (items : List AbiItem) : 32 ∣ (items.flatMap AbiItem.tail).length := by
  induction items with
  | nil => simp
  | cons item items ih =>
    rw [flatMap_cons, length_append]
    exact Nat.dvd_add (aligned_tail item) ih

section Reading

variable {size : Nat} (more : Bytes)

theorem readWord_encoded {value : Nat} (fits : value < 256 ^ 32) :
    readWord (abiEncodeUint value ++ more) = some value := by
  rw [readWord, if_pos (by simp), take_append_of_le_length (by simp), take_of_length_le (by simp),
    abiEncodeUint, loadBe_storeBe, Nat.mod_eq_of_lt fits]

theorem readUint_encoded (narrow : size ≤ 32) (value : Fin (256 ^ size)) :
    readUint size (abiEncodeUint value ++ more) = some value := by
  have fits := Nat.lt_of_lt_of_le value.isLt (Nat.pow_le_pow_right (by decide) narrow)
  simp [readUint, readWord_encoded more fits]

theorem readUints_encoded (narrow : size ≤ 32) (values : List (Fin (256 ^ size))) :
    readUints size values.length ((values.map Fin.val).flatMap abiEncodeUint ++ more) =
      some values := by
  induction values with
  | nil => rfl
  | cons value values ih =>
    simp [readUints, readUint_encoded _ narrow, ih]

theorem readArray_encoded (narrow : size ≤ 32) (values : List (Fin (256 ^ size)))
    (fits : values.length < 256 ^ 32) :
    readArray size (abiEncodeUintArray (values.map Fin.val) ++ more) =
      some (values, (abiEncodeUintArray (values.map Fin.val)).length) := by
  rw [length_abiEncodeUintArray, abiEncodeUintArray, append_assoc]
  simp [readArray, readWord_encoded _ fits, readUints_encoded more narrow values]

theorem readBytes_encoded (data : Bytes) (fits : data.length < 256 ^ 32) :
    readBytes (abiEncodeBytes data ++ more) = some (data, (abiEncodeBytes data).length) := by
  rw [length_abiEncodeBytes]
  simp [readBytes, abiEncodeBytes, readWord_encoded _ fits]

theorem abiDecodeDynamicBytesTail_encoded (data : Bytes) (fits : data.length < 256 ^ 32) :
    abiDecodeDynamicBytesTail data.length (abiEncodeBytes data ++ more) = .ok (data, more) := by
  have up := le_roundUp data.length
  have word (more : Bytes) : abiDecodeFixed 32 (abiEncodeUint data.length ++ more) =
      .ok (data.length, more) := by
    rw [abiDecodeFixed, if_neg (by simp)]
    have whole := loadBe_storeBe 32 data.length
    rw [Nat.mod_eq_of_lt fits] at whole
    simp [abiEncodeUint, whole]
  simp only [abiDecodeDynamicBytesTail, abiDecodeBytesTail, abiEncodeBytes, append_assoc, word,
    bind, Except.bind]
  rw [if_neg (by simp), if_neg (by simp; omega)]
  simp [drop_append, drop_of_length_le, up]

theorem readTail_encoded {α : Type} {read : Bytes → Option (α × Nat)} {item : α → AbiItem}
    {value : α} {enc tail rest : Bytes} {start : Nat} (small : start < 256 ^ 32)
    (placed : enc.drop start = tail ++ rest)
    (reads : read (tail ++ rest) = some (value, tail.length)) :
    readTail read item enc (abiEncodeUint start ++ more) =
      some (item value, some (start, start + tail.length)) := by
  simp [readTail, readWord_encoded _ small, placed, reads]

theorem decode_item (item : AbiItem) {enc rest : Bytes} {start : Nat}
    (placed : enc.drop start = item.tail ++ rest) (small : start + item.tail.length < 2 ^ 64) :
    item.type.decode enc (item.head start ++ more) = some (item, item.place start) := by
  have fits : start < 256 ^ 32 := by omega
  cases item with
  | address value =>
    simp [AbiItem.type, AbiItem.head, AbiItem.place, AbiType.decode, abiEncodeAddress,
      readUint_encoded]
  | uint size value =>
    simp [AbiItem.type, AbiItem.head, AbiItem.place, AbiType.decode,
      readUint_encoded more size.is_le]
  | bool value =>
    cases value <;> simp [AbiItem.type, AbiItem.head, AbiItem.place, AbiType.decode,
      abiEncodeBool, readBool, readWord_encoded]
  | bytes data =>
    have up := le_roundUp data.length
    simp [AbiItem.tail] at small
    exact readTail_encoded more fits placed (readBytes_encoded rest data (by omega))
  | uintArray size values =>
    simp [AbiItem.tail] at small
    exact readTail_encoded more fits placed
      (readArray_encoded rest size.is_le values (by omega))
  | addressArray values =>
    simp [AbiItem.tail] at small
    exact readTail_encoded more fits placed
      (readArray_encoded rest (by decide) values (by omega))

theorem decodeHeads_heads (items : List AbiItem) (enc : Bytes) (start : Nat)
    (placed : enc.drop start = items.flatMap AbiItem.tail)
    (size : start + (items.flatMap AbiItem.tail).length = enc.length)
    (small : enc.length < 2 ^ 64) :
    ∃ parts, decodeHeads enc (items.map AbiItem.type) (heads start items ++ more) = some parts ∧
      parts.map Prod.fst = items ∧ Consecutive start (parts.filterMap Prod.snd) enc.length ∧
      ∀ data first last, (.bytes data, some (first, last)) ∈ parts →
        abiDecodeDynamicBytesTail data.length (enc.drop first) = .ok (data, enc.drop last) := by
  induction items generalizing start with
  | nil =>
    refine ⟨[], rfl, rfl, ?_, by simp⟩
    simpa [Consecutive] using size
  | cons item items ih =>
    rw [flatMap_cons] at placed size
    rw [length_append] at size
    have after : enc.drop (start + item.tail.length) = items.flatMap AbiItem.tail := by
      rw [← drop_drop, placed]
      simp
    obtain ⟨parts, decoded, same, places, bytes⟩ := ih _ after (by omega)
    have found := decode_item (heads (start + item.tail.length) items ++ more) item placed
      (by omega)
    refine ⟨(item, item.place start) :: parts, ?_, by simp [same], ?_, ?_⟩
    · simp [decodeHeads, heads, found, decoded]
    · cases item <;> simpa [AbiItem.place, AbiItem.tail, Consecutive] using places
    · intro data first last member
      rcases mem_cons.mp member with here | later
      · obtain ⟨rfl, there⟩ := Prod.mk.inj here
        simp only [AbiItem.place, Option.some.injEq, Prod.mk.injEq] at there
        rw [there.1, there.2, after, placed]
        have up := le_roundUp data.length
        simp only [AbiItem.tail, length_abiEncodeBytes] at size
        exact abiDecodeDynamicBytesTail_encoded _ data (by omega)
      · exact bytes data first last later

end Reading

/-- The encoding has whole words, and the rules of the ABI give back what was
added: the tails follow the head in order and without a gap, and the decoder of
byte strings takes a tail up to the next. -/
theorem encoded_items_decode (items : List AbiItem)
    (addressable : (encodeItems items).length < 2 ^ 64) :
    32 ∣ (encodeItems items).length ∧
    ∃ parts, decodeTuple (items.map AbiItem.type) (encodeItems items) = some parts ∧
      parts.map Prod.fst = items ∧
      Consecutive (32 * items.length) (parts.filterMap Prod.snd) (encodeItems items).length ∧
      ∀ data first last, (.bytes data, some (first, last)) ∈ parts →
        abiDecodeDynamicBytesTail data.length ((encodeItems items).drop first) =
          .ok (data, (encodeItems items).drop last) := by
  have split := encodeItems_eq items
  have headed := length_heads (32 * items.length) items
  have aligned := aligned_tails items
  constructor
  · rw [split, length_append, headed]
    omega
  · obtain ⟨parts, decoded, rest⟩ := decodeHeads_heads (items.flatMap AbiItem.tail) items
      (encodeItems items) (32 * items.length) (by rw [split, drop_left' headed])
      (by rw [split, length_append, headed]) addressable
    rw [← split] at decoded
    exact ⟨parts, decoded, rest⟩

theorem encoded_items_decode_bytes :
    ∃ parts, decodeTuple [.bool, .bytes, .uint 8] (encodeItems
        [.bool true, .bytes [0xab, 0xcd], .uint 8 7]) = some parts ∧
      parts.map Prod.fst = [.bool true, .bytes [0xab, 0xcd], .uint 8 7] := by
  obtain ⟨-, parts, decoded, same, -⟩ :=
    encoded_items_decode [.bool true, .bytes [0xab, 0xcd], .uint 8 7] (by decide +kernel)
  exact ⟨parts, decoded, same⟩

end MonadChain
