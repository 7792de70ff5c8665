import Mathlib.Algebra.Order.BigOperators.Group.List
import Mathlib.Algebra.Order.Group.Nat
import Mathlib.Data.List.Permutation
import MonadChain.Lib.BufferWriter
import MonadChain.Rlp.ReceiptCodec

/-!
ethereum/rlp/execution_witness.cpp. The encoder sums up the sizes of six nested payloads,
allocates that many bytes and writes them in place; the sizes are numbers here, of witnesses that
fit in memory. The parser leaves the payloads to its callers.
-/

namespace MonadChain.Rlp

open Scanner BufferWriter

/-- `segmented_set<Address>`, in the order of its iteration. -/
structure AddressSet where
  entries : List Address
  nodup : entries.Nodup

/-- `std::sort` by the bytes of the addresses. -/
def AddressSet.sorted (set : AddressSet) : List Address :=
  set.entries.mergeSort fun first second => loadBe first.val ≤ loadBe second.val

structure WitnessParts where
  blockRlp : Bytes
  nodes : Bytes
  codes : List Bytes
  headers : List Bytes
  parentSendersAndAuthorities : Option AddressSet
  grandparentSendersAndAuthorities : Option AddressSet

structure ExecutionWitness where
  blockRlp : Bytes
  encodedNodes : Bytes
  encodedCodes : Bytes
  encodedHeaders : Bytes
  encodedParentSendersAndAuthorities : Bytes
  encodedGrandparentSendersAndAuthorities : Bytes

def parseWitnessFields : Decoder ExecutionWitness := do
  let blockRlp ← parseStringMetadata
  let encodedNodes ← parseListMetadata
  let encodedCodes ← parseListMetadata
  let encodedHeaders ← parseListMetadata
  let encodedParentSendersAndAuthorities ← parseListMetadata
  let encodedGrandparentSendersAndAuthorities ← parseListMetadata
  return { blockRlp, encodedNodes, encodedCodes, encodedHeaders
           encodedParentSendersAndAuthorities, encodedGrandparentSendersAndAuthorities }

def parseExecutionWitness (witnessBytes : Bytes) : Except Stop ExecutionWitness :=
  (do let outer ← parseListMetadata
      decodeEnd
      whole (.decode .inputTooLong) parseWitnessFields outer : Decoder ExecutionWitness)
    witnessBytes |>.map (·.1)

namespace WitnessParts

def stringsPayload (strings : List Bytes) : Nat := (strings.map stringLength).sum

/-- An address is a string of 21 bytes. -/
def addressesPayload : Option AddressSet → Nat
  | none => 0
  | some set => set.entries.length * (1 + 20)

def outerPayload (parts : WitnessParts) : Nat :=
  stringLength parts.blockRlp + listLength parts.nodes.length +
    listLength (stringsPayload parts.codes) + listLength (stringsPayload parts.headers) +
    listLength (addressesPayload parts.parentSendersAndAuthorities) +
    listLength (addressesPayload parts.grandparentSendersAndAuthorities)

def size (parts : WitnessParts) : Nat := listLength parts.outerPayload

end WitnessParts

open WitnessParts

def writeString (string : Bytes) : BufferWriter UInt8 := fun d => encodeString d string

def writeListPrefix (payload : Nat) : BufferWriter UInt8 := fun d => encodeListPrefix d payload

def writeRaw (bytes : Bytes) : BufferWriter UInt8 := copyPayload [] bytes

def writeStrings (strings : List Bytes) : BufferWriter UInt8 :=
  (writeListPrefix (stringsPayload strings)).andThen (forEach writeString strings)

def encodeAddresses : Option AddressSet → BufferWriter UInt8
  | none => skip
  | some set => forEach (fun address => writeString address.val) set.sorted

def writeAddresses (set : Option AddressSet) : BufferWriter UInt8 :=
  (writeListPrefix (addressesPayload set)).andThen (encodeAddresses set)

def writeWitness (parts : WitnessParts) : BufferWriter UInt8 :=
  (writeListPrefix parts.outerPayload).andThen <|
    (writeString parts.blockRlp).andThen <|
    ((writeListPrefix parts.nodes.length).andThen (writeRaw parts.nodes)).andThen <|
    (writeStrings parts.codes).andThen <|
    (writeStrings parts.headers).andThen <|
    (writeAddresses parts.parentSendersAndAuthorities).andThen <|
    writeAddresses parts.grandparentSendersAndAuthorities

/-- `memory` is what the new buffer holds before; `none` is a violated assumption on the
room that is left, or the final assertion. -/
def encodeExecutionWitness (memory : Nat → UInt8) (parts : WitnessParts) : Option Bytes :=
  (writeWitness parts).fill ((List.range parts.size).map memory)

theorem writes_string {string : Bytes} (fits : string.length < 2 ^ 64) :
    (writeString string).Writes (stringItem string) := by
  intro d room
  rw [length_stringItem fits] at room ⊢
  refine ⟨_, encodeString_eq fits room, ?_⟩
  rw [List.length_drop]
  omega

/-- The header of a list stores eight bytes if it is long, so the payload must be there. -/
theorem puts_listPrefix {size : Nat} (fits : size < 2 ^ 64) :
    (writeListPrefix size).Puts (itemHeader 0xc0 size) size := by
  intro d room
  rw [length_itemHeader fits] at room ⊢
  unfold writeListPrefix encodeListPrefix itemHeader
  by_cases short : size ≤ 55
  · simp only [if_pos short] at room ⊢
    rw [if_neg (by omega)]
    refine ⟨_, rfl, ?_⟩
    rw [List.length_drop]
    omega
  · simp only [if_neg short] at room ⊢
    have bounds := lengthBytes_bounds fits (by omega)
    have bytes := lengthLength_eq fits
    rw [if_neg (by omega), encodeLength_eq fits (by rw [List.length_drop]; omega)]
    refine ⟨_, by rw [bytes]; rfl, ?_⟩
    rw [List.length_append, List.length_replicate, List.length_drop, List.length_drop]
    omega

theorem writes_raw (bytes : Bytes) : (writeRaw bytes).Writes bytes := by
  intro d room
  refine ⟨_, copyPayload_eq (by omega), ?_⟩
  rw [List.length_drop]
  omega

theorem writes_list {write : BufferWriter UInt8} {payload : Bytes} {size : Nat}
    (sized : payload.length = size) (fits : size < 2 ^ 64) (writes : write.Writes payload) :
    ((writeListPrefix size).andThen write).Writes (listItem payload) := by
  rw [listItem, sized]
  exact (puts_listPrefix fits).andThen writes (by omega)

namespace WitnessParts

def addresses : Option AddressSet → List Address
  | none => []
  | some set => set.sorted

/-- The addresses of the set, each of them once and in ascending order. -/
def Ascending (set : Option AddressSet) (listed : List Address) : Prop :=
  listed.Perm ((set.map (·.entries)).getD []) ∧
    listed.Pairwise fun first second => loadBe first.val ≤ loadBe second.val

theorem addresses_ascending (set : Option AddressSet) : Ascending set (addresses set) := by
  cases set with
  | none => exact ⟨.nil, .nil⟩
  | some set =>
    refine ⟨List.mergeSort_perm _ _,
      .imp of_decide_eq_true (List.pairwise_mergeSort ?_ ?_ set.entries)⟩
    · intro first second third before after
      rw [decide_eq_true_iff] at *
      exact Nat.le_trans before after
    · intro first second
      simp [Nat.le_total]

def stringsItem (strings : List Bytes) : Bytes := strings.flatMap stringItem

def addressesItem (set : Option AddressSet) : Bytes :=
  (addresses set).flatMap fun address => stringItem address.val

def fields (parts : WitnessParts) : ExecutionWitness where
  blockRlp := parts.blockRlp
  encodedNodes := parts.nodes
  encodedCodes := stringsItem parts.codes
  encodedHeaders := stringsItem parts.headers
  encodedParentSendersAndAuthorities := addressesItem parts.parentSendersAndAuthorities
  encodedGrandparentSendersAndAuthorities := addressesItem parts.grandparentSendersAndAuthorities

end WitnessParts

namespace ExecutionWitness

def payload (witness : ExecutionWitness) : Bytes :=
  stringItem witness.blockRlp ++ (listItem witness.encodedNodes ++
    (listItem witness.encodedCodes ++ (listItem witness.encodedHeaders ++
      (listItem witness.encodedParentSendersAndAuthorities ++
        listItem witness.encodedGrandparentSendersAndAuthorities))))

end ExecutionWitness

theorem le_stringLength (string : Bytes) : string.length ≤ stringLength string := by
  unfold stringLength
  split
  · omega
  · split <;> omega

theorem le_listLength (size : Nat) : size ≤ listLength size := by
  unfold listLength
  split <;> omega

variable {strings : List Bytes} {parts : WitnessParts}

theorem length_stringsItem (fits : stringsPayload strings < 2 ^ 64) :
    (stringsItem strings).length = stringsPayload strings := by
  induction strings with
  | nil => rfl
  | cons string strings ih =>
    have sum : stringsPayload (string :: strings) =
        stringLength string + stringsPayload strings := by
      rw [stringsPayload, List.map_cons, List.sum_cons]
      rfl
    have long := le_stringLength string
    have rest := ih (by omega)
    rw [stringsItem] at rest
    rw [stringsItem, List.flatMap_cons, List.length_append, rest, length_stringItem (by omega), sum]

theorem length_address (address : Address) : (stringItem address.val).length = 21 := by
  have several : ¬ SingleByte address.val := by
    rintro ⟨one, -⟩
    rw [address.property] at one
    exact absurd one (by decide)
  rw [stringItem_of_not_single several, List.length_append, address.property]
  rfl

theorem length_addressesItem (set : Option AddressSet) :
    (addressesItem set).length = addressesPayload set := by
  have each (list : List Address) :
      (list.flatMap fun address => stringItem address.val).length = list.length * 21 := by
    induction list with
    | nil => rfl
    | cons address list ih =>
      rw [List.flatMap_cons, List.length_append, length_address, ih, List.length_cons]
      omega
  cases set with
  | none => rfl
  | some set =>
    rw [addressesItem, each, addresses, AddressSet.sorted, List.length_mergeSort]
    rfl

theorem writes_strings (fits : stringsPayload strings < 2 ^ 64) :
    (writeStrings strings).Writes (listItem (stringsItem strings)) := by
  refine writes_list (length_stringsItem fits) fits (writes_forEach fun string member => ?_)
  have inside : stringLength string ≤ stringsPayload strings :=
    List.single_le_sum (fun _ _ => Nat.zero_le _) _ (List.mem_map_of_mem member)
  have long := le_stringLength string
  exact writes_string (by omega)

theorem writes_addresses {set : Option AddressSet} (fits : addressesPayload set < 2 ^ 64) :
    (writeAddresses set).Writes (listItem (addressesItem set)) := by
  refine writes_list (length_addressesItem set) fits ?_
  cases set with
  | none => exact writes_skip
  | some set =>
    refine writes_forEach fun address _ => writes_string ?_
    rw [address.property]
    decide

theorem WitnessParts.parts_fit (fits : parts.size < 2 ^ 64) :
    parts.blockRlp.length < 2 ^ 64 ∧ parts.nodes.length < 2 ^ 64 ∧
      stringsPayload parts.codes < 2 ^ 64 ∧ stringsPayload parts.headers < 2 ^ 64 ∧
      addressesPayload parts.parentSendersAndAuthorities < 2 ^ 64 ∧
      addressesPayload parts.grandparentSendersAndAuthorities < 2 ^ 64 ∧
      parts.outerPayload < 2 ^ 64 := by
  have outer := le_listLength parts.outerPayload
  have block := le_stringLength parts.blockRlp
  have nodes := le_listLength parts.nodes.length
  have codes := le_listLength (stringsPayload parts.codes)
  have headers := le_listLength (stringsPayload parts.headers)
  have parent := le_listLength (addressesPayload parts.parentSendersAndAuthorities)
  have grandparent := le_listLength (addressesPayload parts.grandparentSendersAndAuthorities)
  unfold WitnessParts.size at fits
  unfold WitnessParts.outerPayload at fits outer ⊢
  omega

theorem WitnessParts.length_payload (fits : parts.size < 2 ^ 64) :
    parts.fields.payload.length = parts.outerPayload := by
  obtain ⟨block, nodes, codes, headers, parent, grandparent, -⟩ := parts.parts_fit fits
  have codesSize := length_stringsItem codes
  have headersSize := length_stringsItem headers
  have parentSize := length_addressesItem parts.parentSendersAndAuthorities
  have grandparentSize := length_addressesItem parts.grandparentSendersAndAuthorities
  simp only [ExecutionWitness.payload, WitnessParts.fields, List.length_append]
  rw [length_stringItem block, length_listItem nodes, length_listItem (codesSize ▸ codes),
    length_listItem (headersSize ▸ headers), length_listItem (parentSize ▸ parent),
    length_listItem (grandparentSize ▸ grandparent), codesSize, headersSize, parentSize,
    grandparentSize]
  unfold WitnessParts.outerPayload
  omega

theorem writes_witness (fits : parts.size < 2 ^ 64) :
    (writeWitness parts).Writes (listItem parts.fields.payload) := by
  obtain ⟨block, nodes, codes, headers, parent, grandparent, outer⟩ := parts.parts_fit fits
  apply writes_list (parts.length_payload fits) outer
  apply (writes_string block).then_writes
  apply (writes_list rfl nodes (writes_raw parts.nodes)).then_writes
  apply (writes_strings codes).then_writes
  apply (writes_strings headers).then_writes
  exact (writes_addresses parent).then_writes (writes_addresses grandparent)

theorem parseWitnessFields_exact :
    Exact parseWitnessFields ExecutionWitness.payload (fun witness =>
      Sizeable (stringItem witness.blockRlp) ∧ Sizeable (listItem witness.encodedNodes) ∧
      Sizeable (listItem witness.encodedCodes) ∧ Sizeable (listItem witness.encodedHeaders) ∧
      Sizeable (listItem witness.encodedParentSendersAndAuthorities) ∧
      Sizeable (listItem witness.encodedGrandparentSendersAndAuthorities)) := by
  refine .of_fields fun rest => ?_
  refine parseStringMetadata_exact.field (fun _ base _ => base.1) fun block one => ?_
  refine parseListMetadata_exact.field (fun _ base _ => base.2.1) fun nodes two => ?_
  refine parseListMetadata_exact.field (fun _ base _ => base.2.2.1) fun codes three => ?_
  refine parseListMetadata_exact.field (fun _ base _ => base.2.2.2.1) fun headers four => ?_
  refine parseListMetadata_exact.field (fun _ base _ => base.2.2.2.2.1) fun parent five => ?_
  refine parseListMetadata_exact.last (fun _ base _ => base.2.2.2.2.2)
    fun grandparent six witness => ?_
  constructor
  · rintro rfl
    exact ⟨⟨one, two, three, four, five, six⟩, rfl, rfl, rfl, rfl, rfl, rfl, trivial⟩
  · rintro ⟨-, rfl, rfl, rfl, rfl, rfl, rfl, -⟩
    rfl

theorem parse_listItem {witness : ExecutionWitness}
    (sizeable : Sizeable (listItem witness.payload)) :
    parseExecutionWitness (listItem witness.payload) = .ok witness := by
  have inner := sizeable_of_listItem sizeable
  have parsed : Accepts parseWitnessFields witness.payload witness [] := by
    refine (parseWitnessFields_exact _ _ _).mpr ⟨?_, (List.append_nil _).symm⟩
    simp only [ExecutionWitness.payload, List.length_append] at inner
    simp only [Sizeable]
    omega
  have accepted : Accepts (do
      let outer ← parseListMetadata
      decodeEnd
      whole (.decode .inputTooLong) parseWitnessFields outer)
      (listItem witness.payload) witness [] := by
    refine parseListMetadata_exact.bind.mpr
      ⟨witness.payload, [], sizeable, (List.append_nil _).symm, ?_⟩
    exact accepts_decodeEnd.mpr ⟨rfl, accepts_whole.mpr ⟨parsed, rfl⟩⟩
  rw [parseExecutionWitness, accepted]
  rfl

theorem accepts_strings (fits : stringsPayload strings < 2 ^ 64) :
    decodeRepeated decodeString (stringsItem strings) = .ok (strings, []) := by
  refine (accepts_repeated parseStringMetadata_exact stringItem_ne_nil).mpr ⟨?_, rfl⟩
  intro string member
  have inside : (stringItem string).length ≤ (stringsItem strings).length :=
    (List.sublist_flatten_of_mem (List.mem_map_of_mem member)).length_le
  rw [length_stringsItem fits] at inside
  exact Nat.lt_of_le_of_lt inside fits

theorem accepts_addresses (set : Option AddressSet) :
    decodeRepeated decodeAddress (addressesItem set) = .ok (addresses set, []) := by
  have nonempty (address : Address) : encodeFixed address ≠ [] :=
    encodeFixed_nonempty (by decide) address
  refine (accepts_repeated decodeAddress_exact nonempty).mpr ⟨fun _ _ => trivial, ?_⟩
  apply List.flatMap_congr
  intro address _
  exact (encodeFixed_eq (by decide) address).symm

/-- The witness is filled to its last byte, whatever the memory held, and parsed back to
the parts it was made of. -/
theorem execution_witness_round_trip (memory : Nat → UInt8) (parts : WitnessParts)
    (fits : parts.size < 2 ^ 64) :
    ∃ result, encodeExecutionWitness memory parts = some result ∧ result.length = parts.size ∧
      ∃ witness, parseExecutionWitness result = .ok witness ∧
        witness.blockRlp = parts.blockRlp ∧ witness.encodedNodes = parts.nodes ∧
        decodeRepeated decodeString witness.encodedCodes = .ok (parts.codes, []) ∧
        decodeRepeated decodeString witness.encodedHeaders = .ok (parts.headers, []) ∧
        decodeRepeated decodeAddress witness.encodedParentSendersAndAuthorities =
          .ok (addresses parts.parentSendersAndAuthorities, []) ∧
        Ascending parts.parentSendersAndAuthorities (addresses parts.parentSendersAndAuthorities) ∧
        decodeRepeated decodeAddress witness.encodedGrandparentSendersAndAuthorities =
          .ok (addresses parts.grandparentSendersAndAuthorities, []) ∧
        Ascending parts.grandparentSendersAndAuthorities
          (addresses parts.grandparentSendersAndAuthorities) := by
  obtain ⟨-, -, codes, headers, -, -, outer⟩ := parts.parts_fit fits
  have payload := parts.length_payload fits
  have size : (listItem parts.fields.payload).length = parts.size := by
    rw [length_listItem (payload ▸ outer), payload]
    rfl
  refine ⟨listItem parts.fields.payload, ?_, size, parts.fields, ?_, rfl, rfl,
    accepts_strings codes, accepts_strings headers, accepts_addresses _, addresses_ascending _,
    accepts_addresses _, addresses_ascending _⟩
  · apply (writes_witness fits).fill
    rw [List.length_map, List.length_range, size]
  · apply parse_listItem
    rw [Sizeable, size]
    exact fits

def sampleAddress (byte : UInt8) : Address := ⟨List.replicate 20 byte, List.length_replicate⟩

def sampleParts : WitnessParts where
  blockRlp := [0xc0]
  nodes := List.replicate 60 7
  codes := [[1], List.replicate 56 2, []]
  headers := [[0x80]]
  parentSendersAndAuthorities := some ⟨[sampleAddress 2, sampleAddress 1], by decide⟩
  grandparentSendersAndAuthorities := none

theorem sample_witness_round_trip :
    sampleParts.size < 2 ^ 64 ∧ ∃ result, encodeExecutionWitness (fun _ => 0xff) sampleParts =
      some result ∧ result.length = 175 ∧ ∃ witness, parseExecutionWitness result = .ok witness ∧
        witness.encodedNodes = sampleParts.nodes ∧
        decodeRepeated decodeAddress witness.encodedParentSendersAndAuthorities =
          .ok ([sampleAddress 1, sampleAddress 2], []) := by
  have size : sampleParts.size = 175 := by decide +kernel
  obtain ⟨result, written, length, witness, parsed, -, nodes, -, -, parents, ascending, -⟩ :=
    execution_witness_round_trip (fun _ => 0xff) sampleParts (by rw [size]; decide)
  -- of the two orders only one ascends
  rcases List.perm_pair.mp ascending.1 with same | same <;> rw [same] at parents ascending
  · exact absurd ascending.2 (by decide +kernel)
  · exact ⟨by rw [size]; decide, result, written, length.trans size, witness, parsed, nodes,
      parents⟩

end MonadChain.Rlp
