import Mathlib.Data.List.Range
import Mathlib.Data.List.Nodup

/-!
ethereum/core/contract/storage_variable.hpp and storage_array.hpp. A storage variable is a value
whose all-zero slots are `default`. A storage array keeps its length apart from its elements, so
slots at or past the length may hold stale data.
-/

namespace MonadChain

open List

def loadChecked {α : Type} [DecidableEq α] [Inhabited α] (value : α) : Option α :=
  if value = default then none else some value

theorem loadChecked_isSome {α : Type} [DecidableEq α] [Inhabited α] (value : α) :
    (loadChecked value).isSome = true ↔ value ≠ default := by
  unfold loadChecked
  split <;> simp_all

theorem loadChecked_isNone {α : Type} [DecidableEq α] [Inhabited α] (value : α) :
    (loadChecked value).isNone = true ↔ value = default := by
  unfold loadChecked
  split <;> simp_all

structure StorageArray (α : Type) where
  length : Nat
  slots : Nat → α

namespace StorageArray

variable {α : Type} (array : StorageArray α)

def empty [Inhabited α] : StorageArray α := ⟨0, fun _ => default⟩

section

variable (array : StorageArray α)

def get (index : Nat) : α := array.slots index

def store (index : Nat) (value : α) : StorageArray α :=
  { array with slots := Function.update array.slots index value }

def push (value : α) : StorageArray α :=
  { length := array.length + 1
    slots := Function.update array.slots array.length value }

/-- The popped slot is zeroed. The source asserts a nonzero length first. -/
def pop [Inhabited α] (array : StorageArray α) : α × StorageArray α :=
  (array.slots (array.length - 1),
    { length := array.length - 1
      slots := Function.update array.slots (array.length - 1) default })

def toList : List α :=
  (List.range array.length).map array.slots

end

@[simp] theorem toList_empty [Inhabited α] : (empty : StorageArray α).toList = [] := rfl

@[simp] theorem length_toList : array.toList.length = array.length := by
  simp [toList]

theorem mem_toList {array : StorageArray α} {value : α} :
    value ∈ array.toList ↔ ∃ index < array.length, array.slots index = value := by
  simp [toList]

theorem toList_congr {left right : StorageArray α} (length : left.length = right.length)
    (slots : ∀ index < right.length, left.slots index = right.slots index) :
    left.toList = right.toList := by
  simp only [toList, length]
  apply map_congr_left
  intro index member
  exact slots index (mem_range.mp member)

@[simp] theorem toList_push (value : α) : (array.push value).toList = array.toList ++ [value] := by
  simp only [toList, push, range_succ, map_append, map_cons, map_nil, Function.update_self]
  congr 1
  apply map_congr_left
  intro index member
  have different : index ≠ array.length := by
    have := mem_range.mp member
    omega
  simp [different]

theorem toList_pop [Inhabited α] (nonempty : 0 < array.length) :
    array.toList = array.pop.2.toList ++ [array.pop.1] := by
  have restored : array.toList = (array.pop.2.push array.pop.1).toList := by
    apply toList_congr
    · simp only [pop, push]
      omega
    · intro index _
      by_cases last : index = array.length - 1 <;> simp [pop, push]
  rw [restored, toList_push]

theorem nodup_iff :
    array.toList.Nodup ↔ ∀ left < array.length, ∀ right < array.length,
      array.slots left = array.slots right → left = right := by
  rw [toList, nodup_map_iff_inj_on nodup_range]
  simp

/-- The pop-and-swap of the snapshot: the last element is popped, then stored at
`index`. When `index` is the last one, the store lands past the new length. -/
def swapRemove [Inhabited α] (array : StorageArray α) (index : Nat) : StorageArray α :=
  array.pop.2.store index array.pop.1

theorem swapRemove_slot [Inhabited α] (index : Nat) {other : Nat}
    (inside : other < array.length - 1) : (array.swapRemove index).slots other =
      if other = index then array.slots (array.length - 1) else array.slots other := by
  have notLast : other ≠ array.length - 1 := by omega
  by_cases same : other = index <;> simp [swapRemove, pop, store, same, notLast]

theorem mem_swapRemove [Inhabited α] (index : Nat) (bound : index < array.length)
    (unique : array.toList.Nodup) (value : α) :
    value ∈ (array.swapRemove index).toList ↔ value ∈ array.toList ∧ value ≠ array.slots index := by
  have injective := (nodup_iff array).mp unique
  have length : (array.swapRemove index).length = array.length - 1 := rfl
  simp only [mem_toList, length]
  constructor
  · rintro ⟨other, inside, found⟩
    rw [swapRemove_slot array index inside] at found
    by_cases same : other = index
    · rw [if_pos same] at found
      refine ⟨⟨array.length - 1, by omega, found⟩, ?_⟩
      intro equal
      have := injective _ (by omega) _ bound (found.trans equal)
      omega
    · rw [if_neg same] at found
      refine ⟨⟨other, by omega, found⟩, ?_⟩
      intro equal
      exact same (injective _ (by omega) _ bound (found.trans equal))
  · rintro ⟨⟨other, inside, found⟩, different⟩
    have notIndex : other ≠ index := by
      rintro rfl
      exact different found.symm
    by_cases last : other = array.length - 1
    · refine ⟨index, by omega, ?_⟩
      rw [swapRemove_slot array index (by omega), if_pos rfl, ← last, found]
    · refine ⟨other, by omega, ?_⟩
      rw [swapRemove_slot array index (by omega), if_neg notIndex, found]

theorem nodup_swapRemove [Inhabited α] (index : Nat) (bound : index < array.length)
    (unique : array.toList.Nodup) : (array.swapRemove index).toList.Nodup := by
  have injective := (nodup_iff array).mp unique
  rw [nodup_iff]
  have length : (array.swapRemove index).length = array.length - 1 := rfl
  intro left leftInside right rightInside equal
  rw [swapRemove_slot array index leftInside, swapRemove_slot array index rightInside] at equal
  split at equal <;> split at equal
  · omega
  · have := injective _ (by omega) _ (by omega) equal
    omega
  · have := injective _ (by omega) _ (by omega) equal
    omega
  · exact injective _ (by omega) _ (by omega) equal

/-- Slots before the removed index are untouched, so removals that run from the
highest index down still find the elements they were collected for. -/
theorem slots_swapRemove [Inhabited α] (index other : Nat) (bound : index < array.length)
    (before : other < index) : (array.swapRemove index).slots other = array.slots other := by
  rw [swapRemove_slot array index (by omega), if_neg (Nat.ne_of_lt before)]

end StorageArray

end MonadChain
