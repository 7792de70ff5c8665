import MonadChain.Staking.State

/-!
Where the staking contract keeps its storage: `Variables` of staking_contract.hpp, the `Offsets` in
util, StorageVariable and StorageArray. Distinct cells have distinct keys, so that the maps of the
model share no slot.
-/

namespace MonadChain.Staking

/-- `StorageVariable::N` for a type of this many bytes. -/
def slotCount (size : Nat) : Nat := (size + 31) / 32

abbrev Layout : Type := List Nat

structure Slot (layout : Layout) where
  field : Fin layout.length
  index : Fin (slotCount (layout.get field))

def Slot.offset {layout : Layout} (slot : Slot layout) : Nat :=
  ((layout.map slotCount).take slot.field).sum + slot.index

/-- `stake`, `rewards_per_token`, `commission`, `keys`, `address_flags`, `unclaimed_rewards`. -/
def ValExecution.layout : Layout := [32, 32, 32, 33 + 48, 20 + 8, 32]

/-- `stake`, `commission`. -/
def ConsensusView.layout : Layout := [32, 32]

/-- `stake`, `rewards_per_token`, `rewards`, `delta_stake`, `next_delta_stake`, `epochs`,
`list_node`. -/
def Delegator.layout : Layout := [32, 32, 32, 32, 32, 8 + 8, 8 + 8 + 20 + 20]

abbrev Members : Type := List (Σ bits, BitVec bits)

def width (members : Members) : Nat := (members.map Sigma.fst).sum

def loadBeStruct : Members → Nat
  | [] => 0
  | ⟨_, value⟩ :: rest => value.toNat * 2 ^ width rest + loadBeStruct rest

inductive Mapping where
  | epoch
  | inEpochDelayPeriod
  | lastValId
  | proposerValId
  | valId (address : Address)
  | valIdBls (address : Address)
  | valBitset (bucket : UInt64)
  | valExecution (id : ValId)
  | consensusView (id : ValId)
  | snapshotView (id : ValId)
  | delegator (valId : ValId) (address : Address)
  | withdrawalRequest (valId : ValId) (delegator : Address) (withdrawalId : WithdrawalId)
  | accumulatedRewardPerToken (epoch : UInt64) (valId : ValId)

namespace Mapping

def «namespace» : Mapping → BitVec 8
  | epoch | inEpochDelayPeriod | lastValId | proposerValId => 0x00
  | consensusView _ => 0x04
  | snapshotView _ => 0x05
  | valId _ => 0x06
  | valIdBls _ => 0x07
  | valBitset _ => 0x08
  | valExecution _ => 0x09
  | accumulatedRewardPerToken .. => 0x0a
  | delegator .. => 0x0b
  | withdrawalRequest .. => 0x0c

def members : Mapping → Members
  | epoch => [⟨_, 1#248⟩]
  | inEpochDelayPeriod => [⟨_, 2#248⟩]
  | lastValId => [⟨_, 3#248⟩]
  | proposerValId => [⟨_, 4#248⟩]
  | valId address | valIdBls address => [⟨_, address⟩]
  | valBitset id | valExecution id | consensusView id | snapshotView id => [⟨_, id.toBitVec⟩]
  | delegator id address => [⟨_, id.toBitVec⟩, ⟨_, address⟩]
  | withdrawalRequest id address withdrawalId =>
    [⟨_, id.toBitVec⟩, ⟨_, address⟩, ⟨_, withdrawalId.toBitVec⟩]
  | accumulatedRewardPerToken number id => [⟨_, number.toBitVec⟩, ⟨_, id.toBitVec⟩]

def reserved : Mapping → Nat
  | epoch | inEpochDelayPeriod | lastValId | proposerValId => 0
  | valId _ | valIdBls _ => 11
  | valBitset _ | valExecution _ | consensusView _ | snapshotView _ => 23
  | delegator .. => 3
  | withdrawalRequest .. => 2
  | accumulatedRewardPerToken .. => 15

def layout : Mapping → Layout
  | epoch | lastValId | proposerValId | valId _ | valIdBls _ => [8]
  | inEpochDelayPeriod => [1]
  | valBitset _ => [32]
  | valExecution _ => ValExecution.layout
  | consensusView _ | snapshotView _ => ConsensusView.layout
  | delegator .. => Delegator.layout
  | withdrawalRequest .. => [32 + 32 + 8]
  | accumulatedRewardPerToken .. => [32 + 32]

end Mapping

inductive Valset where
  | execution
  | consensus
  | snapshot

def Valset.namespace : Valset → BitVec 8
  | execution => 0x01
  | consensus => 0x02
  | snapshot => 0x03

/-- What has a storage slot of its own. -/
inductive Cell where
  | slot (mapping : Mapping) (slot : Slot mapping.layout)
  | length (valset : Valset)
  | element (valset : Valset) (index : UInt64)

namespace Cell

def «namespace» : Cell → BitVec 8
  | slot mapping _ => mapping.namespace
  | length valset | element valset _ => valset.namespace

def members : Cell → Members
  | slot mapping _ => mapping.members
  | length _ | element .. => []

def offset : Cell → Nat
  | slot _ place => place.offset
  | length _ => 0
  | element _ index => 1 + index.toNat * slotCount 8

def reserved : Cell → Nat
  | slot mapping _ => mapping.reserved
  | length _ | element .. => 31

def struct (cell : Cell) (slots : Nat) : Members :=
  ⟨8, cell.namespace⟩ :: (cell.members ++ [⟨8 * cell.reserved, .ofNat _ slots⟩])

def base (cell : Cell) : Nat := loadBeStruct (cell.struct 0)

def key (cell : Cell) : Nat := (cell.base + cell.offset) % 2 ^ 256

end Cell

variable {layout : Layout}

theorem Slot.offset_lt (slot : Slot layout) {later : Nat} (order : slot.field < later) :
    slot.offset < ((layout.map slotCount).take later).sum := by
  have next := List.sum_take_succ (layout.map slotCount) slot.field (by simp)
  have upTo := List.monotone_sum_take (layout.map slotCount) order
  have inside := slot.index.isLt
  simp only [List.get_eq_getElem, List.getElem_map, Nat.succ_eq_add_one] at next upTo inside
  unfold offset
  omega

theorem Slot.offset_injective {slot other : Slot layout} (same : slot.offset = other.offset) :
    slot = other := by
  rcases lt_trichotomy slot.field other.field with before | equal | after
  · have := slot.offset_lt before
    unfold offset at *
    omega
  · obtain ⟨field, index⟩ := slot
    cases equal
    simp only [offset, Nat.add_left_cancel_iff] at same
    rw [Fin.eq_of_val_eq same]
  · have := other.offset_lt after
    unfold offset at *
    omega

section Members

variable {members others : Members}

theorem loadBeStruct_lt (members : Members) : loadBeStruct members < 2 ^ width members := by
  induction members with
  | nil => decide
  | cons member rest ih =>
    obtain ⟨bits, value⟩ := member
    calc loadBeStruct (⟨bits, value⟩ :: rest)
      _ < (value.toNat + 1) * 2 ^ width rest := by
        rw [loadBeStruct, Nat.succ_mul]
        omega
      _ ≤ 2 ^ bits * 2 ^ width rest := Nat.mul_le_mul_right _ value.isLt
      _ = 2 ^ width (⟨bits, value⟩ :: rest) := (Nat.pow_add ..).symm

theorem loadBeStruct_cons {bits : Nat} {value other : BitVec bits}
    (same : width members = width others)
    (equal : loadBeStruct (⟨bits, value⟩ :: members) = loadBeStruct (⟨bits, other⟩ :: others)) :
    value = other ∧ loadBeStruct members = loadBeStruct others := by
  have high : ∀ number low, low < 2 ^ width others →
      (number * 2 ^ width others + low) / 2 ^ width others = number := by
    intro number low small
    rw [Nat.add_comm, Nat.add_mul_div_right _ _ (Nat.two_pow_pos _), Nat.div_eq_of_lt small,
      Nat.zero_add]
  rw [loadBeStruct, loadBeStruct, same] at equal
  have values : value.toNat = other.toNat := by
    rw [← high value.toNat _ (same ▸ loadBeStruct_lt members), equal,
      high _ _ (loadBeStruct_lt others)]
  rw [values] at equal
  exact ⟨BitVec.eq_of_toNat_eq values, Nat.add_left_cancel equal⟩

theorem loadBeStruct_injective (shape : members.map Sigma.fst = others.map Sigma.fst)
    (equal : loadBeStruct members = loadBeStruct others) : members = others := by
  induction members generalizing others with
  | nil => simpa using shape.symm
  | cons member rest ih =>
    cases others with
    | nil => cases shape
    | cons other tail =>
      obtain ⟨bits, value⟩ := member
      simp only [List.map_cons, List.cons.injEq] at shape
      obtain ⟨rfl, shape⟩ := shape
      obtain ⟨values, rests⟩ := loadBeStruct_cons (congrArg List.sum shape) equal
      rw [values, ih shape rests]

theorem loadBeStruct_concat (members : Members) {bits : Nat} (value : BitVec bits) :
    loadBeStruct (members ++ [⟨bits, value⟩]) = loadBeStruct members * 2 ^ bits + value.toNat := by
  induction members with
  | nil => simp [loadBeStruct, width]
  | cons member rest ih =>
    simp only [List.cons_append, loadBeStruct, ih, width, List.map_append, List.sum_append]
    simp [Nat.pow_add, Nat.add_mul, Nat.mul_assoc, Nat.add_assoc]

end Members

theorem Mapping.offset_lt {mapping : Mapping} (slot : Slot mapping.layout) :
    slot.offset < 2 ^ (8 * mapping.reserved) := by
  refine lt_of_lt_of_le (slot.offset_lt slot.field.isLt) ?_
  cases mapping <;> simp [layout, reserved, slotCount, ValExecution.layout, ConsensusView.layout,
    Delegator.layout]

theorem Mapping.eq_of_loadBe {mapping other : Mapping} {slots slots' : Nat}
    (spaces : mapping.namespace = other.namespace)
    (equal : loadBeStruct (mapping.members ++ [⟨8 * mapping.reserved, .ofNat _ slots⟩]) =
      loadBeStruct (other.members ++ [⟨8 * other.reserved, .ofNat _ slots'⟩])) :
    mapping = other := by
  cases mapping <;> cases other <;> simp only [«namespace», BitVec.reduceEq] at spaces
  all_goals
    have members := loadBeStruct_injective (by rfl) equal
    simp_all [Mapping.members, UInt64.toBitVec_inj, UInt8.toBitVec_inj]

namespace Cell

theorem offset_lt (cell : Cell) : cell.offset < 2 ^ (8 * cell.reserved) := by
  cases cell with
  | slot mapping slot => exact Mapping.offset_lt slot
  | length valset => exact Nat.two_pow_pos _
  | element valset index =>
    have := index.toNat_lt
    simp only [offset, reserved, slotCount]
    omega

theorem width_struct (cell : Cell) (slots : Nat) : width (cell.struct slots).tail = 248 := by
  rcases cell with ⟨mapping, _⟩ | valset | ⟨valset, _⟩
  · cases mapping <;> rfl
  · rfl
  · rfl

theorem base_eq (cell : Cell) : ∃ high, ∀ slots < 2 ^ (8 * cell.reserved),
    loadBeStruct (cell.struct slots) = high * 2 ^ (8 * cell.reserved) + slots := by
  refine ⟨loadBeStruct (⟨8, cell.namespace⟩ :: cell.members), fun slots small => ?_⟩
  rw [struct, ← List.cons_append, loadBeStruct_concat, BitVec.toNat_ofNat, Nat.mod_eq_of_lt small]

theorem key_eq (cell : Cell) : cell.key = loadBeStruct (cell.struct cell.offset) := by
  obtain ⟨high, shape⟩ := cell.base_eq
  have small := loadBeStruct_lt (cell.struct cell.offset)
  have whole : width (cell.struct cell.offset) = 8 + 248 :=
    congrArg (8 + ·) (width_struct cell cell.offset)
  rw [whole, shape _ cell.offset_lt] at small
  rw [key, base, shape 0 (Nat.two_pow_pos _), shape _ cell.offset_lt]
  exact Nat.mod_eq_of_lt small

theorem key_mod (cell : Cell) : cell.key % 2 ^ (8 * cell.reserved) = cell.offset := by
  obtain ⟨high, shape⟩ := cell.base_eq
  rw [key_eq, shape _ cell.offset_lt, Nat.mul_comm, Nat.mul_add_mod,
    Nat.mod_eq_of_lt cell.offset_lt]

theorem key_div (cell : Cell) :
    cell.key / 2 ^ (8 * cell.reserved) = cell.base / 2 ^ (8 * cell.reserved) := by
  obtain ⟨high, shape⟩ := cell.base_eq
  have room := Nat.two_pow_pos (8 * cell.reserved)
  rw [key_eq, base, shape _ cell.offset_lt, shape 0 room, Nat.mul_comm, Nat.mul_add_div room,
    Nat.mul_add_div room, Nat.div_eq_of_lt cell.offset_lt, Nat.zero_div]

theorem key_injective {cell other : Cell} (equal : cell.key = other.key) : cell = other := by
  have offsets (same : cell.reserved = other.reserved) : cell.offset = other.offset := by
    rw [← key_mod, ← key_mod, equal, same]
  rw [key_eq, key_eq] at equal
  obtain ⟨spaces, rests⟩ := loadBeStruct_cons
    ((width_struct cell cell.offset).trans (width_struct other other.offset).symm) equal
  rcases cell with ⟨mapping, place⟩ | valset | ⟨valset, index⟩ <;>
    rcases other with ⟨mapping', place'⟩ | valset' | ⟨valset', index'⟩
  · cases Mapping.eq_of_loadBe spaces rests
    rw [Slot.offset_injective (offsets rfl)]
  · cases mapping <;> cases valset' <;> cases spaces
  · cases mapping <;> cases valset' <;> cases spaces
  · cases mapping' <;> cases valset <;> cases spaces
  · cases valset <;> cases valset' <;> first | rfl | cases spaces
  · have := offsets rfl
    simp only [offset] at this
    omega
  · cases mapping' <;> cases valset <;> cases spaces
  · have := offsets rfl
    simp only [offset] at this
    omega
  · have indices : index = index' :=
      UInt64.toNat_inj.1 (by simpa [offset, slotCount] using offsets rfl)
    cases indices
    cases valset <;> cases valset' <;> first | rfl | cases spaces

end Cell

/-- Distinct cells have distinct storage keys, and adding the offset of a slot changes no byte above
the reserved ones. -/
theorem storage_keys_injective :
    (∀ cell : Cell, cell.key / 256 ^ cell.reserved = cell.base / 256 ^ cell.reserved) ∧
    Function.Injective Cell.key := by
  refine ⟨fun cell => ?_, fun _ _ equal => Cell.key_injective equal⟩
  rw [show 256 = 2 ^ 8 from rfl, ← Nat.pow_mul]
  exact cell.key_div

end MonadChain.Staking
