import Mathlib.Data.BitVec
import MonadChain.Execution.Account

/-!
monad/db/storage_page.hpp: 128 neighbouring slots. Only the slots that are not zero
have a value in the page; the bitmap tells which, and a value is found at the number
of bits below its own.
-/

namespace MonadChain.Db

open List BitVec

open Execution (Key Value)

variable {first second : Nat} {offset other : Fin 128}

instance neZeroSlots : NeZero 128 := ⟨by decide⟩

abbrev Bitmap : Type := BitVec 128

namespace Bitmap

def below (bitmap : Bitmap) (index : Nat) : Nat :=
  (List.range index).countP fun i => bitmap.getLsbD i

def setBit (bitmap : Bitmap) (index : Fin 128) : Bitmap := bitmap ||| BitVec.twoPow 128 index

def clearBit (bitmap : Bitmap) (index : Fin 128) : Bitmap := bitmap &&& ~~~BitVec.twoPow 128 index

variable (bitmap : Bitmap) (index : Fin 128)

theorem below_succ (index : Nat) :
    bitmap.below (index + 1) = bitmap.below index + (bitmap.getLsbD index).toNat := by
  unfold below
  rw [range_succ, countP_append, countP_singleton]
  cases bitmap.getLsbD index <;> rfl

theorem below_mono (order : first ≤ second) : bitmap.below first ≤ bitmap.below second := by
  induction order with
  | refl => exact Nat.le_refl _
  | step _ ih =>
    rw [below_succ]
    omega

theorem below_lt (order : first < second)
    (bit : bitmap.getLsbD first = true) : bitmap.below first < bitmap.below second := by
  have next := below_succ bitmap first
  have rest : bitmap.below (first + 1) ≤ bitmap.below second := below_mono bitmap order
  rw [bit, Bool.toNat_true] at next
  omega

theorem getLsbD_setBit (other : Nat) :
    (bitmap.setBit index).getLsbD other = (bitmap.getLsbD other || decide (other = index)) := by
  simp only [setBit, getLsbD_or, getLsbD_twoPow]
  by_cases same : other = index <;> simp [eq_comm]

theorem getLsbD_clearBit (other : Nat) :
    (bitmap.clearBit index).getLsbD other = (bitmap.getLsbD other && !decide (other = index)) := by
  simp only [clearBit, getLsbD_and, getLsbD_not, getLsbD_twoPow]
  by_cases same : other = index
  · subst same
    simp
  · by_cases bit : bitmap.getLsbD other = true
    · have range : other < 128 := lt_of_getLsbD bit
      simp [range, eq_comm]
    · simp [Bool.eq_false_iff.mpr bit]

theorem below_setBit (unset : bitmap.getLsbD index = false) (other : Nat) :
    (bitmap.setBit index).below other =
      bitmap.below other + (decide ((index : Nat) < other)).toNat := by
  induction other with
  | zero => rfl
  | succ other ih =>
    rw [below_succ, below_succ, ih, getLsbD_setBit]
    by_cases same : other = index
    · subst same
      rw [unset]
      simp
    · have same_side : (index : Nat) < other + 1 ↔ (index : Nat) < other := by omega
      simp only [same, decide_false, Bool.or_false, same_side]
      omega

theorem below_clearBit (bit : bitmap.getLsbD index = true) (other : Nat) :
    (bitmap.clearBit index).below other + (decide ((index : Nat) < other)).toNat =
      bitmap.below other := by
  induction other with
  | zero => rfl
  | succ other ih =>
    rw [below_succ, below_succ, ← ih, getLsbD_clearBit]
    by_cases same : other = index
    · subst same
      rw [bit]
      simp
    · have same_side : (index : Nat) < other + 1 ↔ (index : Nat) < other := by omega
      simp only [same, decide_false, Bool.not_false, Bool.and_true, same_side]
      omega

end Bitmap

/-- `storage_page_t`, with a value for every set bit. -/
structure StoragePage where
  bitmap : Bitmap := 0
  values : List Value := []
  sized : values.length = bitmap.below 128 := by decide
  nonzero : ∀ value ∈ values, value ≠ 0 := by decide

namespace StoragePage

def empty : StoragePage := {}

section

variable (page : StoragePage) (offset : Fin 128)

def hasBit : Bool := page.bitmap.getLsbD offset

def denseIndex : Nat := page.bitmap.below offset

def get : Value :=
  if page.hasBit offset then page.values.getD (page.denseIndex offset) 0 else 0

def isEmpty : Bool := page.bitmap = 0

end

variable (page : StoragePage)

theorem denseIndex_lt (bit : page.hasBit offset = true) :
    page.denseIndex offset < page.values.length := by
  rw [page.sized]
  exact Bitmap.below_lt page.bitmap offset.isLt bit

section

variable (page : StoragePage) (offset : Fin 128) (value : Value)

theorem denseIndex_le : page.denseIndex offset ≤ page.values.length := by
  rw [page.sized]
  exact Bitmap.below_mono page.bitmap (Nat.le_of_lt offset.isLt)

def eraseValue (bit : page.hasBit offset = true) :
    StoragePage where
  bitmap := page.bitmap.clearBit offset
  values := page.values.eraseIdx (page.denseIndex offset)
  sized := by
    have cleared := Bitmap.below_clearBit page.bitmap offset bit 128
    rw [decide_eq_true offset.isLt, Bool.toNat_true] at cleared
    rw [List.length_eraseIdx_of_lt (page.denseIndex_lt bit), page.sized]
    omega
  nonzero value member := page.nonzero value (List.mem_of_mem_eraseIdx member)

def overwriteValue (written : value ≠ 0) :
    StoragePage where
  bitmap := page.bitmap
  values := page.values.set (page.denseIndex offset) value
  sized := by rw [List.length_set, page.sized]
  nonzero other member := by
    obtain known | same := List.mem_or_eq_of_mem_set member
    · exact page.nonzero other known
    · exact same ▸ written

def insertValue (unset : page.hasBit offset = false) (written : value ≠ 0) : StoragePage where
  bitmap := page.bitmap.setBit offset
  values := page.values.insertIdx (page.denseIndex offset) value
  sized := by
    rw [List.length_insertIdx_of_le_length (page.denseIndex_le offset),
      Bitmap.below_setBit page.bitmap offset unset 128, page.sized, decide_eq_true offset.isLt,
      Bool.toNat_true]
  nonzero other member := by
    obtain same | known := List.eq_or_mem_of_mem_insertIdx member
    · exact same ▸ written
    · exact page.nonzero other known

def set : StoragePage :=
  if zero : value = 0 then
    if present : page.hasBit offset = true then page.eraseValue offset present else page
  else if present : page.hasBit offset = true then page.overwriteValue offset value zero
  else page.insertValue offset value (Bool.eq_false_iff.mpr present) zero

end

theorem get_of_unset (unset : page.hasBit offset = false) : page.get offset = 0 := by
  simp [get, unset]

theorem get_of_bit (bit : page.hasBit offset = true) :
    page.values[page.denseIndex offset]? = some (page.get offset) := by
  have inside := page.denseIndex_lt bit
  simp [get, bit, inside]

theorem get_ne_zero (bit : page.hasBit offset = true) : page.get offset ≠ 0 :=
  page.nonzero _ (mem_of_getElem? (page.get_of_bit bit))

theorem hasBit_iff (offset : Fin 128) : page.hasBit offset = true ↔ page.get offset ≠ 0 := by
  constructor
  · exact page.get_ne_zero
  · intro written
    by_contra unset
    exact written (page.get_of_unset (Bool.eq_false_iff.mpr unset))

theorem get_eq_of {value : Value}
    (place : if page.hasBit offset then page.values[page.denseIndex offset]? = some value
      else value = 0) : page.get offset = value := by
  unfold get
  split at place
  · rename_i bit
    rw [if_pos bit, getD_eq_getElem?_getD, place]
    rfl
  · rename_i unset
    rw [if_neg unset, place]

theorem apart_of_ne (differ : other ≠ offset) : (other : Nat) ≠ (offset : Nat) :=
  fun same => differ (Fin.ext same)

theorem denseIndex_lt_of_lt (order : offset < other) (bit : page.hasBit offset = true) :
    page.denseIndex offset < page.denseIndex other :=
  Bitmap.below_lt page.bitmap order bit

theorem get_eraseValue (offset : Fin 128) (bit : page.hasBit offset = true) (other : Fin 128) :
    (page.eraseValue offset bit).get other = if other = offset then 0 else page.get other := by
  apply get_eq_of
  have bits : (page.eraseValue offset bit).hasBit other =
      (page.hasBit other && !decide ((other : Nat) = offset)) :=
    Bitmap.getLsbD_clearBit page.bitmap offset other
  have places : (page.eraseValue offset bit).denseIndex other +
      (decide ((offset : Nat) < other)).toNat = page.denseIndex other :=
    Bitmap.below_clearBit page.bitmap offset bit other
  rw [bits]
  by_cases same : other = offset
  · subst same
    simp
  · rw [decide_eq_false (apart_of_ne same), if_neg same, Bool.not_false, Bool.and_true]
    by_cases present : page.hasBit other = true
    · rw [if_pos present, ← page.get_of_bit present]
      have stored : (page.eraseValue offset bit).values =
        page.values.eraseIdx (page.denseIndex offset) := rfl
      rw [stored, getElem?_eraseIdx]
      rcases Nat.lt_or_gt_of_ne (apart_of_ne same) with lower | upper
      · have order := page.denseIndex_lt_of_lt lower present
        rw [decide_eq_false (Nat.lt_asymm lower)] at places
        rw [Bool.toNat_false, Nat.add_zero] at places
        rw [places, if_pos order]
      · have order := page.denseIndex_lt_of_lt upper bit
        rw [decide_eq_true upper, Bool.toNat_true] at places
        rw [places, if_neg (by omega)]
    · rw [if_neg present]
      exact page.get_of_unset (Bool.eq_false_iff.mpr present)

theorem get_overwriteValue (offset : Fin 128) (value : Value) (written : value ≠ 0)
    (bit : page.hasBit offset = true) (other : Fin 128) :
    (page.overwriteValue offset value written).get other =
      if other = offset then value else page.get other := by
  apply get_eq_of
  have bits : (page.overwriteValue offset value written).hasBit other = page.hasBit other := rfl
  have places : (page.overwriteValue offset value written).denseIndex other =
    page.denseIndex other := rfl
  rw [bits, places]
  dsimp only [overwriteValue]
  by_cases same : other = offset
  · subst same
    rw [if_pos bit, if_pos rfl, getElem?_set_self (page.denseIndex_lt bit)]
  · rw [if_neg same]
    by_cases present : page.hasBit other = true
    · have differ : page.denseIndex offset ≠ page.denseIndex other := by
        rcases Nat.lt_or_gt_of_ne (apart_of_ne same) with lower | upper
        · exact Nat.ne_of_gt (page.denseIndex_lt_of_lt lower present)
        · exact Nat.ne_of_lt (page.denseIndex_lt_of_lt upper bit)
      rw [if_pos present, getElem?_set_ne differ, page.get_of_bit present]
    · rw [if_neg present]
      exact page.get_of_unset (Bool.eq_false_iff.mpr present)

theorem get_insertValue (offset : Fin 128) (value : Value) (unset : page.hasBit offset = false)
    (written : value ≠ 0) (other : Fin 128) :
    (page.insertValue offset value unset written).get other =
      if other = offset then value else page.get other := by
  apply get_eq_of
  have bits : (page.insertValue offset value unset written).hasBit other =
      (page.hasBit other || decide ((other : Nat) = offset)) :=
    Bitmap.getLsbD_setBit page.bitmap offset other
  have places : (page.insertValue offset value unset written).denseIndex other =
      page.denseIndex other + (decide ((offset : Nat) < other)).toNat :=
    Bitmap.below_setBit page.bitmap offset unset other
  rw [bits, places]
  dsimp only [insertValue]
  by_cases same : other = offset
  · subst same
    simp [getElem?_insertIdx_self, page.denseIndex_le other]
  · rw [decide_eq_false (apart_of_ne same), if_neg same, Bool.or_false]
    by_cases present : page.hasBit other = true
    · rw [if_pos present, ← page.get_of_bit present]
      rcases Nat.lt_or_gt_of_ne (apart_of_ne same) with lower | upper
      · have order := page.denseIndex_lt_of_lt lower present
        rw [decide_eq_false (Nat.lt_asymm lower), Bool.toNat_false, Nat.add_zero,
          getElem?_insertIdx_of_lt order]
      · have order : page.denseIndex offset ≤ page.denseIndex other :=
          Bitmap.below_mono page.bitmap (Nat.le_of_lt upper)
        rw [decide_eq_true upper, Bool.toNat_true,
          getElem?_insertIdx_of_gt (Nat.lt_succ_of_le order), Nat.add_one_sub_one]
    · rw [if_neg present]
      exact page.get_of_unset (Bool.eq_false_iff.mpr present)

theorem get_set (offset : Fin 128) (value : Value) (other : Fin 128) :
    (page.set offset value).get other = if other = offset then value else page.get other := by
  unfold set
  split
  · rename_i zero
    split
    · rename_i present
      rw [get_eraseValue, zero]
    · rename_i absent
      by_cases same : other = offset
      · rw [if_pos same, same, zero]
        exact page.get_of_unset (Bool.eq_false_iff.mpr absent)
      · rw [if_neg same]
  · split
    · rename_i present
      exact page.get_overwriteValue offset value _ present other
    · exact page.get_insertValue offset value _ _ other

theorem get_empty (offset : Fin 128) : empty.get offset = 0 :=
  get_of_unset empty (getLsbD_zero)

theorem isEmpty_iff : page.isEmpty = true ↔ ∀ offset, page.get offset = 0 := by
  rw [isEmpty, decide_eq_true_iff]
  constructor
  · intro none_set offset
    apply page.get_of_unset
    rw [hasBit, none_set]
    exact getLsbD_zero
  · intro zero
    apply eq_of_getLsbD_eq
    intro index inside
    have clear : page.hasBit ⟨index, inside⟩ = false := by
      by_contra bit
      exact page.get_ne_zero (eq_true_of_ne_false bit) (zero ⟨index, inside⟩)
    exact clear.trans getLsbD_zero.symm

def single (value : Value) : StoragePage := empty.set 0 value

theorem get_single (value : Value) : (single value).get 0 = value := by
  rw [single, get_set, if_pos rfl]

end StoragePage

end MonadChain.Db
