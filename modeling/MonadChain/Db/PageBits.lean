import Mathlib.Data.Nat.Bitwise
import MonadChain.Db.StoragePage

/-!
The bit tricks of monad/db/storage_page.hpp: a bitmap of 128 bits is counted and searched through
its halves. What they compute is the list of the offsets that are set, in ascending order.
-/

namespace MonadChain.Db

open List

variable {i number offset : Nat} {bitmap : Bitmap}

def popcount (word : BitVec 64) : Nat := (List.range 64).countP fun i => word.getLsbD i

def countrZero (word : BitVec 64) : Nat :=
  ((List.range 64).find? fun i => word.getLsbD i).getD 64

namespace Bitmap

section

variable (bitmap : Bitmap)

def low : BitVec 64 := bitmap.setWidth 64

def high : BitVec 64 := (bitmap >>> 64).setWidth 64

/-- `dense_index_`: the bits below an offset, counted in both halves. -/
def denseIndex (offset : Fin 128) : Nat :=
  let below := bitmap &&& (BitVec.twoPow 128 offset - 1)
  popcount below.low + popcount below.high

def lowestOffset : Nat :=
  if bitmap.low ≠ 0 then countrZero bitmap.low else 64 + countrZero bitmap.high

def clearLowest : Bitmap := bitmap &&& (bitmap - 1)

theorem getLsbD_low (inside : i < 64) : bitmap.low.getLsbD i = bitmap.getLsbD i := by
  simp [low, inside]

theorem getLsbD_high (inside : i < 64) : bitmap.high.getLsbD i = bitmap.getLsbD (64 + i) := by
  simp [high, inside]

theorem range_halves : range 128 = range 64 ++ (range 64).map (64 + ·) :=
  (range_add : range (64 + 64) = _)

theorem popcount_halves : popcount bitmap.low + popcount bitmap.high = bitmap.below 128 := by
  unfold popcount below
  rw [range_halves, countP_append, countP_map]
  congr 1
  · apply countP_congr
    intro i member
    rw [getLsbD_low bitmap (mem_range.mp member)]
  · apply countP_congr
    intro i member
    rw [getLsbD_high bitmap (mem_range.mp member)]
    rfl

theorem getLsbD_mask (offset : Fin 128) (i : Nat) :
    (BitVec.twoPow 128 offset - 1).getLsbD i = decide (i < offset) := by
  have small : 2 ^ (offset : Nat) < 2 ^ 128 := Nat.pow_lt_pow_right (by decide) offset.isLt
  have power : (BitVec.twoPow 128 offset).toNat = 2 ^ (offset : Nat) := by
    rw [BitVec.toNat_twoPow, Nat.mod_eq_of_lt small]
  have least : (1 : BitVec 128) ≤ BitVec.twoPow 128 offset := by
    rw [BitVec.le_def, power]
    exact Nat.one_le_two_pow
  have value : (BitVec.twoPow 128 offset - 1).toNat = 2 ^ (offset : Nat) - 1 := by
    rw [BitVec.toNat_sub_of_le least, power]
    rfl
  rw [← BitVec.testBit_toNat, value, Nat.testBit_two_pow_sub_one]

theorem countP_below (bits : Nat → Bool) (bound count : Nat) :
    (range count).countP (fun i => bits i && decide (i < bound)) =
      (range (min bound count)).countP bits := by
  induction count with
  | zero => simp
  | succ count ih =>
    rw [range_succ, countP_append, ih, countP_singleton]
    by_cases inside : count < bound
    · rw [Nat.min_eq_right (Nat.le_of_lt inside), Nat.min_eq_right inside, range_succ,
        countP_append, countP_singleton]
      simp [inside]
    · rw [Nat.min_eq_left (Nat.le_of_not_lt inside), Nat.min_eq_left (by omega)]
      simp [inside]

theorem denseIndex_eq (offset : Fin 128) : bitmap.denseIndex offset = bitmap.below offset := by
  unfold denseIndex
  rw [popcount_halves]
  unfold below
  have bits : ∀ i, (bitmap &&& (BitVec.twoPow 128 offset - 1)).getLsbD i =
      (bitmap.getLsbD i && decide (i < offset)) := by
    intro i
    rw [BitVec.getLsbD_and, getLsbD_mask]
  simp only [bits]
  rw [countP_below, Nat.min_eq_left (Nat.le_of_lt offset.isLt)]

end

def Lowest (bits : Nat → Bool) (offset : Nat) : Prop :=
  bits offset = true ∧ ∀ i < offset, bits i = false

theorem countrZero_lowest {word : BitVec 64} (some_bit : word ≠ 0) :
    Lowest word.getLsbD (countrZero word) ∧ countrZero word < 64 := by
  unfold countrZero
  cases found : (range 64).find? fun i => word.getLsbD i with
  | none =>
    rw [find?_eq_none] at found
    refine absurd (BitVec.eq_of_getLsbD_eq fun i inside => ?_) some_bit
    refine Eq.trans ?_ BitVec.getLsbD_zero.symm
    exact Bool.eq_false_iff.mpr (found i (mem_range.mpr inside))
  | some i =>
    rw [find?_range_eq_some] at found
    obtain ⟨bit, member, below⟩ := found
    refine ⟨⟨bit, fun j lower => ?_⟩, mem_range.mp member⟩
    have clear := below j lower
    simpa using clear

theorem lowestOffset_lowest (some_bit : bitmap ≠ 0) :
    Lowest bitmap.getLsbD bitmap.lowestOffset ∧ bitmap.lowestOffset < 128 := by
  unfold lowestOffset
  by_cases lower : bitmap.low ≠ 0
  · rw [if_pos lower]
    obtain ⟨⟨bit, below⟩, inside⟩ := countrZero_lowest lower
    refine ⟨⟨?_, fun i order => ?_⟩, by omega⟩
    · rw [← getLsbD_low bitmap inside]
      exact bit
    · rw [← getLsbD_low bitmap (by omega)]
      exact below i order
  · rw [if_neg lower]
    have clear : ∀ i < 64, bitmap.getLsbD i = false := by
      intro i inside
      rw [← getLsbD_low bitmap inside, not_not.mp lower]
      exact BitVec.getLsbD_zero
    have upper : bitmap.high ≠ 0 := by
      intro none_set
      refine some_bit (BitVec.eq_of_getLsbD_eq fun i inside => ?_)
      refine Eq.trans ?_ BitVec.getLsbD_zero.symm
      by_cases half : i < 64
      · exact clear i half
      · have bit := getLsbD_high bitmap (i := i - 64) (by omega)
        rw [none_set, Nat.add_sub_cancel' (by omega)] at bit
        rw [← bit]
        exact BitVec.getLsbD_zero
    obtain ⟨⟨bit, below⟩, inside⟩ := countrZero_lowest upper
    refine ⟨⟨?_, fun i order => ?_⟩, by omega⟩
    · rw [← getLsbD_high bitmap inside]
      exact bit
    · by_cases half : i < 64
      · exact clear i half
      · have bit := getLsbD_high bitmap (i := i - 64) (by omega)
        rw [Nat.add_sub_cancel' (by omega)] at bit
        rw [← bit]
        exact below (i - 64) (by omega)

theorem eq_of_lowest (lowest : Lowest number.testBit offset) :
    ∃ rest, number = 2 ^ offset * (2 * rest + 1) := by
  have low : number % 2 ^ offset = 0 := by
    apply Nat.eq_of_testBit_eq
    intro i
    rw [Nat.testBit_mod_two_pow, Nat.zero_testBit]
    by_cases inside : i < offset
    · rw [lowest.2 i inside, Bool.and_false]
    · simp [inside]
  have odd : number / 2 ^ offset % 2 = 1 := by
    have bit := lowest.1
    rw [Nat.testBit_eq_decide_div_mod_eq] at bit
    exact of_decide_eq_true bit
  refine ⟨number / 2 ^ offset / 2, ?_⟩
  have split := Nat.div_add_mod number (2 ^ offset)
  have half : 2 * (number / 2 ^ offset / 2) + 1 = number / 2 ^ offset := by omega
  rw [half, ← Nat.add_zero (2 ^ offset * (number / 2 ^ offset)), ← low]
  exact split.symm

theorem testBit_pred (lowest : Lowest number.testBit offset) (i : Nat) :
    (number.testBit i && (number - 1).testBit i) = (number.testBit i && decide (i ≠ offset)) := by
  obtain ⟨rest, rfl⟩ := eq_of_lowest lowest
  have positive : 0 < 2 ^ offset := Nat.two_pow_pos offset
  have pred : 2 ^ offset * (2 * rest + 1) - 1 = 2 ^ offset * (2 * rest) + (2 ^ offset - 1) := by
    rw [Nat.mul_add, Nat.mul_one, Nat.add_sub_assoc positive]
  rw [pred, Nat.testBit_two_pow_mul_add _ (by omega)]
  rcases Nat.lt_trichotomy i offset with below | rfl | above
  · rw [lowest.2 i below, Bool.false_and, Bool.false_and]
  · simp
  · obtain ⟨steps, rfl⟩ : ∃ steps, i = offset + (steps + 1) := ⟨i - offset - 1, by omega⟩
    rw [if_neg (by omega), Nat.add_sub_cancel_left, Nat.testBit_succ, Nat.mul_div_cancel_left _
      (by decide), ← Nat.add_zero (2 ^ offset * (2 * rest + 1)),
      Nat.testBit_two_pow_mul_add _ positive, if_neg (by omega), Nat.add_sub_cancel_left,
      Nat.testBit_succ]
    have half : (2 * rest + 1) / 2 = rest := by omega
    have apart : offset + (steps + 1) ≠ offset := by omega
    rw [half, Bool.and_self, decide_eq_true apart, Bool.and_true]

theorem getLsbD_and_pred {width : Nat} {word : BitVec width}
    (lowest : Lowest word.getLsbD offset) (i : Nat) :
    (word &&& (word - 1)).getLsbD i = (word.getLsbD i && decide (i ≠ offset)) := by
  have numbered : Lowest word.toNat.testBit offset := by
    refine ⟨?_, fun j below => ?_⟩
    · rw [BitVec.testBit_toNat]
      exact lowest.1
    · rw [BitVec.testBit_toNat]
      exact lowest.2 j below
  have positive : 1 ≤ word.toNat := by
    by_contra zero
    have bit := numbered.1
    rw [Nat.lt_one_iff.mp (Nat.lt_of_not_le zero), Nat.zero_testBit] at bit
    cases bit
  have one : (1 : BitVec width).toNat = 1 :=
    Nat.mod_eq_of_lt (Nat.lt_of_le_of_lt positive word.isLt)
  have value : (word - 1).toNat = word.toNat - 1 := by
    rw [BitVec.toNat_sub_of_le (BitVec.le_def.mpr (one ▸ positive)), one]
  rw [BitVec.getLsbD_and, ← BitVec.testBit_toNat, ← BitVec.testBit_toNat, value]
  exact testBit_pred numbered i

theorem getLsbD_clearLowest (lowest : Lowest bitmap.getLsbD offset) (i : Nat) :
    bitmap.clearLowest.getLsbD i = (bitmap.getLsbD i && decide (i ≠ offset)) :=
  getLsbD_and_pred lowest i

def offsets (bitmap : Bitmap) : List Nat := (List.range 128).filter fun i => bitmap.getLsbD i

theorem filter_lowest {bits : Nat → Bool} {count : Nat} (lowest : Lowest bits offset)
    (inside : offset < count) :
    (range count).filter bits =
      offset :: (range count).filter fun i => bits i && decide (i ≠ offset) := by
  induction count with
  | zero => omega
  | succ count ih =>
    rw [range_succ, filter_append, filter_append]
    by_cases last : offset = count
    · subst last
      have none_below : (range offset).filter bits = [] := by
        rw [filter_eq_nil_iff]
        intro i member
        simp [lowest.2 i (mem_range.mp member)]
      have none_left :
          ((range offset).filter fun i => bits i && decide (i ≠ offset)) = [] := by
        rw [filter_eq_nil_iff]
        intro i member
        simp [lowest.2 i (mem_range.mp member)]
      rw [none_below, none_left]
      simp [lowest.1]
    · have apart : count ≠ offset := fun same => last same.symm
      have same :
          [count].filter bits = [count].filter fun i => bits i && decide (i ≠ offset) := by
        simp [filter_cons, apart]
      rw [ih (by omega), same, cons_append]

theorem offsets_cons (some_bit : bitmap ≠ 0) :
    bitmap.offsets = bitmap.lowestOffset :: bitmap.clearLowest.offsets := by
  obtain ⟨lowest, inside⟩ := lowestOffset_lowest some_bit
  unfold offsets
  rw [filter_lowest lowest inside]
  simp only [getLsbD_clearLowest lowest]

theorem offsets_zero : offsets 0 = [] := by
  unfold offsets
  rw [filter_eq_nil_iff]
  intro i _
  simp

theorem map_below_offsets (bitmap : Bitmap) :
    bitmap.offsets.map bitmap.below = range (bitmap.below 128) := by
  have upTo : ∀ count, ((range count).filter fun i => bitmap.getLsbD i).map bitmap.below =
      range (bitmap.below count) := by
    intro count
    induction count with
    | zero => rfl
    | succ count ih =>
      rw [range_succ, filter_append, map_append, ih, below_succ]
      by_cases bit : bitmap.getLsbD count = true
      · simp [bit, range_succ]
      · simp [bit]
  exact upTo 128

end Bitmap

end MonadChain.Db
