import Mathlib.Data.Nat.Size
import Mathlib.Data.UInt
import Mathlib.Data.ZMod.Basic
import Mathlib.Tactic.LinearCombination
import Mathlib.Tactic.Linarith
import Mathlib.Tactic.Ring

/-!
core/runtime/uint256.hpp: products of arrays of words, cut to the words of the result, and powers.
A carry the code no longer keeps up has a weight that vanishes modulo those words.
-/

namespace MonadChain.Uint256

open Function

/-- An array of words, the lowest first. What stands behind its end is never read. -/
abbrev Words : Type := Nat → UInt64

def radix : Nat := 2 ^ 64

def value (words : Words) (count : Nat) : Nat :=
  ∑ i ∈ Finset.range count, (words i).toNat * radix ^ i

def addc (lhs rhs : UInt64) (carryIn : Bool) : UInt64 × Bool :=
  (lhs + rhs + carryIn.toUInt64, radix ≤ lhs.toNat + rhs.toNat + carryIn.toNat)

def mulx (x y : UInt64) : UInt64 × UInt64 := (UInt64.ofNat (x.toNat * y.toNat / radix), x * y)

def adc3 (x2 x1 x0 y1 y0 : UInt64) : UInt64 × UInt64 × UInt64 :=
  let (r0, c0) := addc x0 y0 false
  let (r1, c1) := addc x1 y1 c0
  ((addc x2 0 c1).1, r1, r0)

def adc2 (x1 x0 y1 y0 : UInt64) : UInt64 × UInt64 :=
  let (r0, c0) := addc x0 y0 false
  ((addc x1 y1 c0).1, r0)

namespace Intrinsics

variable (R M : Nat) (x : Words)

def mulLineRecur (y : UInt64) (I : Nat) (result : Words) (carry : UInt64) : Words :=
  if I < min R M then
    if I + 1 < R then
      let (hi, lo) := mulx (x I) y
      let (carry, low) := adc2 hi lo 0 carry
      mulLineRecur y (I + 1) (update result I low) carry
    else update result I (y * x I + carry)
  else if M < R then update result M carry
  else result
termination_by M - I

def mulLine (y : UInt64) (result : Words) : Words :=
  let (carry, low) := mulx y (x 0)
  mulLineRecur R M x y 1 (update result 0 low) carry

def mulAddLineRecur (I : Nat) (yi : UInt64) (J : Nat) (result : Words) (cHi cLo : UInt64) : Words :=
  if J + 1 < M ∧ I + J < R then
    if I + J + 2 < R then
      let (hi, lo) := mulx (x (J + 1)) yi
      let (cHi, cLo, low) := adc3 hi lo (result (I + J)) cHi cLo
      mulAddLineRecur I yi (J + 1) (update result (I + J) low) cHi cLo
    else if I + J + 1 < R then
      -- The old `c_hi` is passed on; from here on nothing reads it.
      let (cLo, low) := adc2 (x (J + 1) * yi) (result (I + J)) cHi cLo
      mulAddLineRecur I yi (J + 1) (update result (I + J) low) cHi cLo
    else mulAddLineRecur I yi (J + 1) (update result (I + J) (result (I + J) + cLo)) cHi cLo
  else if I + M < R then
    let (high, low) := adc2 cHi cLo 0 (result (I + M - 1))
    update (update result (I + M) high) (I + M - 1) low
  else if I + M < R + 1 then update result (I + M - 1) (result (I + M - 1) + cLo)
  else result
termination_by M - J

def mulAddLine (I : Nat) (yi : UInt64) (result : Words) : Words :=
  if I + 1 < R then
    let (cHi, cLo) := mulx (x 0) yi
    mulAddLineRecur R M x I yi 0 result cHi cLo
  else mulAddLineRecur R M x I yi 0 result 0 (x 0 * yi)

def truncatingMulRecur (N : Nat) (y : Words) (I : Nat) (result : Words) : Words :=
  if I < N then truncatingMulRecur N y (I + 1) (mulAddLine R M x I (y I) result) else result
termination_by N - I

/-- The words of the result are not set before the first line. -/
def truncatingMul (N : Nat) (y uninitialized : Words) : Words :=
  truncatingMulRecur R M x N y 1 (mulLine R M x (y 0) uninitialized)

end Intrinsics

namespace Portable

variable (R M : Nat) (x : Words)

def line (j : Nat) (yj : UInt64) (i : Nat) (result : Words) (carry : UInt64) : Words :=
  if i < M ∧ i + j < R then
    let (hi, lo) := mulx (x i) yj
    let (s0, c0) := addc lo (result (i + j)) false
    let (s1, c1) := addc s0 carry false
    line j yj (i + 1) (update result (i + j) s1) (addc hi c0.toUInt64 c1).1
  else if j + M < R then update result (j + M) carry
  else result
termination_by M - i

def lines (N : Nat) (y : Words) (j : Nat) (result : Words) : Words :=
  if j < N then lines N y (j + 1) (line R M x j (y j) 0 result 0) else result
termination_by N - j

def truncatingMul (N : Nat) (y : Words) : Words := lines R M x N y 0 0

end Portable

/-- Constant expressions are evaluated without the instructions of the machine. -/
def truncatingMul (constant : Bool) (uninitialized : Words) (R M N : Nat) (x y : Words) : Words :=
  if constant then Portable.truncatingMul R M x N y
  else Intrinsics.truncatingMul R M x N y uninitialized

def countSignificantWords (x : Words) : Nat → Nat
  | 0 => 0
  | i + 1 => if x i ≠ 0 then i + 1 else countSignificantWords x i

def countlZero (x : UInt64) : Nat := 64 - x.toNat.size

def quad (w0 w1 w2 w3 : UInt64) : Words
  | 0 => w0
  | 1 => w1
  | 2 => w2
  | 3 => w3
  | _ => 0

def shld (high low : UInt64) (shift : UInt8) : UInt64 :=
  high <<< shift.toUInt64 ||| low >>> 1 >>> (63 - shift.toUInt64)

def shiftLeftWord (x : Words) (shift0 : UInt64) : Words :=
  if 256 ≤ shift0 then 0
  else
    let shift := shift0.toUInt8
    if shift < 128 then
      if shift < 64 then
        quad (x 0 <<< shift.toUInt64) (shld (x 1) (x 0) shift) (shld (x 2) (x 1) shift)
          (shld (x 3) (x 2) shift)
      else
        let shift := shift &&& 63
        quad 0 (x 0 <<< shift.toUInt64) (shld (x 1) (x 0) shift) (shld (x 2) (x 1) shift)
    else if shift < 192 then
      let shift := shift &&& 127
      quad 0 0 (x 0 <<< shift.toUInt64) (shld (x 1) (x 0) shift)
    else
      let shift := shift &&& 63
      quad 0 0 0 (x 0 <<< shift.toUInt64)

def shiftLeft (x shift : Words) : Words :=
  if shift 3 ||| shift 2 ||| shift 1 ≠ 0 then 0 else shiftLeftWord x (shift 0)

section Exp

variable (mul : Words → Words → Words)

def expBits : Nat → UInt64 → Words × Words → Words × Words
  | 0, _, state => state
  | bits + 1, wordExp, (result, base) =>
    let result := if wordExp &&& 1 ≠ 0 then mul result base else result
    expBits bits (wordExp >>> 1) (result, mul base base)

def exp (base exponent : Words) : Words :=
  let result := quad 1 0 0 0
  if base 0 = 2 ∧ base 1 = 0 ∧ base 2 = 0 ∧ base 3 = 0 then shiftLeft result exponent
  else
    let sigWords := countSignificantWords exponent 4
    ((List.range sigWords).foldl (fun state w =>
      let wordExp := exponent w
      let significantBits := if w + 1 = sigWords then 64 - countlZero wordExp else 64
      expBits mul significantBits wordExp state) (result, base)).1

end Exp

theorem value_succ (words : Words) (count : Nat) :
    value words (count + 1) = value words count + (words count).toNat * radix ^ count :=
  Finset.sum_range_succ ..

theorem value_lt (words : Words) (count : Nat) : value words count < radix ^ count := by
  induction count with
  | zero => exact Nat.one_pos
  | succ count ih =>
    have small : (words count).toNat + 1 ≤ radix := (words count).toNat_lt
    have bounded := Nat.mul_le_mul_right (radix ^ count) small
    rw [value_succ, pow_succ']
    rw [Nat.add_mul] at bounded
    omega

theorem value_update_of_le {words : Words} {i count : Nat} (outside : count ≤ i) (word : UInt64) :
    value (update words i word) count = value words count := by
  refine Finset.sum_congr rfl fun j inside => ?_
  rw [update_of_ne (Nat.ne_of_lt (Nat.lt_of_lt_of_le (Finset.mem_range.1 inside) outside))]

section Rings

variable {S : Type} [CommRing S] {words : Words}

theorem cast_value_succ (words : Words) (count : Nat) : (value words (count + 1) : S) =
    value words count + (words count).toNat * (radix : S) ^ count := by
  rw [value_succ]
  push_cast
  rfl

theorem cast_value_update {i count : Nat} (inside : i < count) (word : UInt64) :
    (value (update words i word) count : S) =
      value words count + ((word.toNat : S) - (words i).toNat) * (radix : S) ^ i := by
  induction count with
  | zero => cases inside
  | succ count ih =>
    rw [cast_value_succ, cast_value_succ]
    rcases Nat.lt_succ_iff_lt_or_eq.1 inside with below | rfl
    · rw [ih below, update_of_ne (Nat.ne_of_gt below)]
      ring
    · rw [value_update_of_le (Nat.le_refl i), update_self]
      ring

theorem exists_tail (words : Words) {i count : Nat} (inside : i ≤ count) :
    ∃ tail : S, (value words count : S) = value words i + tail * (radix : S) ^ i := by
  induction count, inside using Nat.le_induction with
  | base => exact ⟨0, by ring⟩
  | succ count inside ih =>
    obtain ⟨tail, split⟩ := ih
    refine ⟨tail + (words count).toNat * (radix : S) ^ (count - i), ?_⟩
    rw [cast_value_succ, split, ← Nat.add_sub_of_le inside, pow_add, Nat.add_sub_cancel_left]
    ring

theorem cast_mod (number : Nat) :
    ∃ lost : S, ((number % radix : Nat) : S) = number - lost * radix := by
  refine ⟨(number / radix : Nat), eq_sub_of_add_eq ?_⟩
  exact_mod_cast congrArg (Nat.cast : Nat → S) (Nat.mod_add_div' number radix)

theorem cast_add (a b : UInt64) :
    ∃ lost : S, ((a + b).toNat : S) = a.toNat + b.toNat - lost * radix := by
  rw [UInt64.toNat_add, ← Nat.cast_add]
  exact cast_mod _

theorem cast_mul (a b : UInt64) :
    ∃ lost : S, ((a * b).toNat : S) = a.toNat * b.toNat - lost * radix := by
  rw [UInt64.toNat_mul, ← Nat.cast_mul]
  exact cast_mod _

end Rings

theorem toNat_toUInt64 (carry : Bool) : carry.toUInt64.toNat = carry.toNat := by
  cases carry <;> rfl

theorem addc_eq (lhs rhs : UInt64) (carryIn : Bool) :
    (addc lhs rhs carryIn).1.toNat + (addc lhs rhs carryIn).2.toNat * radix =
      lhs.toNat + rhs.toNat + carryIn.toNat := by
  have left := lhs.toNat_lt
  have right := rhs.toNat_lt
  have carry := carryIn.toNat_le
  simp only [addc, UInt64.toNat_add, toNat_toUInt64, radix]
  by_cases carried : 2 ^ 64 ≤ lhs.toNat + rhs.toNat + carryIn.toNat
  · simp only [carried, decide_true, Bool.toNat_true]
    omega
  · simp only [carried, decide_false, Bool.toNat_false]
    omega

theorem addc_false (lhs rhs : UInt64) :
    (addc lhs rhs false).1.toNat + (addc lhs rhs false).2.toNat * radix = lhs.toNat + rhs.toNat :=
  addc_eq lhs rhs false

theorem mulx_eq (x y : UInt64) :
    (mulx x y).2.toNat + (mulx x y).1.toNat * radix = x.toNat * y.toNat := by
  have small : x.toNat * y.toNat / radix < 2 ^ 64 :=
    Nat.div_lt_of_lt_mul (Nat.mul_lt_mul'' x.toNat_lt y.toNat_lt)
  rw [mulx, UInt64.toNat_mul, UInt64.toNat_ofNat_of_lt' small]
  exact Nat.mod_add_div' _ _

theorem no_carry {x y : UInt64} {low high a b : Nat} {carry : Bool} (first : a < radix)
    (second : b < radix)
    (sum : low + (high + carry.toNat * radix) * radix = x.toNat * y.toNat + a + b) :
    carry.toNat = 0 := by
  have left : x.toNat < radix := x.toNat_lt
  have right : y.toNat < radix := y.toNat_lt
  cases carry with
  | false => rfl
  | true =>
    simp only [Bool.toNat_true] at sum
    nlinarith

theorem adc2_eq (x1 x0 y1 y0 : UInt64) : ∃ carry : Bool,
    (adc2 x1 x0 y1 y0).2.toNat + ((adc2 x1 x0 y1 y0).1.toNat + carry.toNat * radix) * radix =
      x0.toNat + y0.toNat + (x1.toNat + y1.toNat) * radix := by
  refine ⟨(addc x1 y1 (addc x0 y0 false).2).2, ?_⟩
  simp only [adc2, addc_eq]
  linear_combination addc_false x0 y0

theorem adc2_mulx (x y carry : UInt64) :
    let sum := adc2 (mulx x y).1 (mulx x y).2 0 carry
    sum.2.toNat + sum.1.toNat * radix = x.toNat * y.toNat + carry.toNat := by
  intro sum
  obtain ⟨carried, split⟩ := adc2_eq (mulx x y).1 (mulx x y).2 0 carry
  rw [UInt64.toNat_zero, Nat.add_zero] at split
  have total : sum.2.toNat + (sum.1.toNat + carried.toNat * radix) * radix =
      x.toNat * y.toNat + carry.toNat + 0 := by
    linear_combination split + mulx_eq x y
  have none := no_carry carry.toNat_lt (by decide) total
  rw [none, Nat.zero_mul] at total
  exact total

theorem adc3_mulx (x y x0 y1 y0 : UInt64) :
    let sum := adc3 (mulx x y).1 (mulx x y).2 x0 y1 y0
    sum.2.2.toNat + sum.2.1.toNat * radix + sum.1.toNat * radix ^ 2 =
      x0.toNat + y0.toNat + (y1.toNat + x.toNat * y.toNat) * radix := by
  simp only [adc3]
  have low := addc_false x0 y0
  generalize addc x0 y0 false = first at low ⊢
  have middle := addc_eq (mulx x y).2 y1 first.2
  generalize addc (mulx x y).2 y1 first.2 = second at middle ⊢
  have high := addc_eq (mulx x y).1 0 second.2
  generalize addc (mulx x y).1 0 second.2 = third at high ⊢
  rw [UInt64.toNat_zero, Nat.add_zero] at high
  have total : second.1.toNat + (third.1.toNat + third.2.toNat * radix) * radix =
      x.toNat * y.toNat + y1.toNat + first.2.toNat := by
    linear_combination middle + radix * high + mulx_eq x y
  have none := no_carry y1.toNat_lt (Nat.lt_of_le_of_lt first.2.toNat_le (by decide)) total
  rw [none] at total
  linear_combination low + radix * total

theorem sums_mulx (x y word carry : UInt64) :
    let first := addc (mulx x y).2 word false
    let second := addc first.1 carry false
    second.1.toNat + (addc (mulx x y).1 first.2.toUInt64 second.2).1.toNat * radix =
      x.toNat * y.toNat + word.toNat + carry.toNat := by
  intro first second
  have low : first.1.toNat + first.2.toNat * radix = _ := addc_false (mulx x y).2 word
  have middle : second.1.toNat + second.2.toNat * radix = _ := addc_false first.1 carry
  have high := addc_eq (mulx x y).1 first.2.toUInt64 second.2
  generalize addc (mulx x y).1 first.2.toUInt64 second.2 = third at high ⊢
  rw [toNat_toUInt64] at high
  have total : second.1.toNat + (third.1.toNat + third.2.toNat * radix) * radix =
      x.toNat * y.toNat + word.toNat + carry.toNat := by
    linear_combination low + middle + radix * high + mulx_eq x y
  have none := no_carry word.toNat_lt carry.toNat_lt total
  rw [none, Nat.zero_mul] at total
  exact total

section Lines

variable {S : Type} [CommRing S] {R M I w : Nat} {x : Words} (vanishes : (radix : S) ^ w = 0)
  {y : UInt64} {result : Words}

include vanishes

theorem mulLineRecur_eq {I : Nat} {carry : UInt64} (width : w = min R (M + 1))
    (inside : I ≤ min R M) :
    (value (Intrinsics.mulLineRecur R M x y I result carry) w : S) =
      value result I + carry.toNat * (radix : S) ^ I + y.toNat * (value x M - value x I) := by
  fun_induction Intrinsics.mulLineRecur R M x y I result carry with
  | case1 I result carry bound more hi lo product next low sum ih =>
    have split := adc2_mulx (x I) y carry
    simp only [product, sum] at split
    have step := congrArg (Nat.cast : Nat → S) split
    push_cast at step
    rw [ih (by omega), cast_value_succ, value_update_of_le (Nat.le_refl I), update_self,
      cast_value_succ x]
    linear_combination (radix : S) ^ I * step
  | case2 I result carry bound last =>
    obtain rfl : w = I + 1 := by omega
    obtain ⟨tail, rest⟩ := exists_tail (S := S) x (show I + 1 ≤ M by omega)
    obtain ⟨lost, product⟩ := cast_mul (S := S) y (x I)
    obtain ⟨more, sum⟩ := cast_add (S := S) (y * x I) carry
    rw [cast_value_succ, value_update_of_le (Nat.le_refl I), update_self, rest, cast_value_succ x,
      sum, product]
    linear_combination (-lost - more - y.toNat * tail) * vanishes
  | case3 I result carry bound more =>
    obtain rfl : I = M := by omega
    obtain rfl : w = I + 1 := by omega
    rw [cast_value_succ, value_update_of_le (Nat.le_refl I), update_self]
    ring
  | case4 I result carry bound less =>
    obtain rfl : w = I := by omega
    obtain ⟨tail, rest⟩ := exists_tail (S := S) x (show w ≤ M by omega)
    rw [rest]
    linear_combination (-carry.toNat - y.toNat * tail) * vanishes

theorem mulAddLineRecur_eq {I J : Nat} {cHi cLo : UInt64} (width : w = min R (I + M + 1))
    (inside : J < M) :
    (value (Intrinsics.mulAddLineRecur R M x I y J result cHi cLo) w : S) =
      value result (min R (I + M)) + (cLo.toNat + cHi.toNat * radix) * (radix : S) ^ (I + J) +
        y.toNat * (radix : S) ^ I * (value x M - value x (J + 1)) := by
  fun_induction Intrinsics.mulAddLineRecur R M x I y J result cHi cLo with
  | case1 J result cHi cLo bound more hi lo product high middle low sum ih =>
    have split := adc3_mulx (x (J + 1)) y (result (I + J)) cHi cLo
    simp only [product, sum] at split
    have step := congrArg (Nat.cast : Nat → S) split
    push_cast at step
    rw [ih bound.1, cast_value_update (by omega), cast_value_succ x (J + 1)]
    linear_combination (radix : S) ^ (I + J) * step
  | case2 J result cHi cLo bound less more middle low sum ih =>
    obtain rfl : w = I + J + 2 := by omega
    obtain ⟨carried, split⟩ := adc2_eq (x (J + 1) * y) (result (I + J)) cHi cLo
    simp only [sum] at split
    have step := congrArg (Nat.cast : Nat → S) split
    push_cast at step
    obtain ⟨lost, product⟩ := cast_mul (S := S) (x (J + 1)) y
    rw [product] at step
    rw [ih bound.1, cast_value_update (by omega), cast_value_succ x (J + 1)]
    linear_combination (radix : S) ^ (I + J) * step + (cHi.toNat - carried.toNat - lost) * vanishes
  | case3 J result cHi cLo bound less last ih =>
    obtain rfl : w = I + J + 1 := by omega
    obtain ⟨lost, sum⟩ := cast_add (S := S) (result (I + J)) cLo
    rw [ih bound.1, cast_value_update (by omega), cast_value_succ x (J + 1), sum]
    linear_combination (cLo.toNat + cHi.toNat * radix - cHi.toNat - lost -
      y.toNat * (x (J + 1)).toNat) * vanishes
  | case4 J result cHi cLo bound more high low sum =>
    obtain rfl : M = J + 1 := by omega
    obtain rfl : w = I + J + 2 := by omega
    obtain ⟨carried, split⟩ := adc2_eq cHi cLo 0 (result (I + (J + 1) - 1))
    simp only [sum, UInt64.toNat_zero] at split
    have step := congrArg (Nat.cast : Nat → S) split
    push_cast at step
    rw [Nat.min_eq_right (Nat.le_of_lt more), cast_value_update (by omega),
      show I + J + 2 = I + (J + 1) + 1 by omega, cast_value_succ, update_self,
      value_update_of_le (Nat.le_refl _), update_of_ne (by omega)]
    rw [show I + (J + 1) - 1 = I + J by omega] at step ⊢
    linear_combination (radix : S) ^ (I + J) * step - carried.toNat * vanishes
  | case5 J result cHi cLo bound less last =>
    obtain rfl : M = J + 1 := by omega
    obtain rfl : w = I + J + 1 := by omega
    obtain ⟨lost, sum⟩ := cast_add (S := S) (result (I + J)) cLo
    rw [show I + (J + 1) - 1 = I + J by omega, cast_value_update (by omega), sum,
      show min R (I + (J + 1)) = I + J + 1 by omega]
    linear_combination (-lost - cHi.toNat) * vanishes
  | case6 J result cHi cLo bound less none =>
    have zero := pow_eq_zero_of_le (show w ≤ I + J by omega) vanishes
    obtain ⟨tail, rest⟩ := exists_tail (S := S) x (show J + 1 ≤ M by omega)
    rw [rest, show min R (I + M) = w by omega]
    linear_combination (-cLo.toNat - cHi.toNat * radix - y.toNat * tail * radix) * zero

theorem mulAddLine_eq (width : w = min R (I + M + 1)) (some : 0 < M) (y : UInt64) (result : Words) :
    (value (Intrinsics.mulAddLine R M x I y result) w : S) =
      value result (min R (I + M)) + y.toNat * (radix : S) ^ I * value x M := by
  have first : (value x 1 : S) = (x 0).toNat := by simp [value]
  unfold Intrinsics.mulAddLine
  split
  · have split := congrArg (Nat.cast : Nat → S) (mulx_eq (x 0) y)
    push_cast at split
    rw [mulAddLineRecur_eq vanishes width some, first]
    linear_combination (radix : S) ^ I * split
  · have zero := pow_eq_zero_of_le (show w ≤ I + 1 by omega) vanishes
    obtain ⟨lost, product⟩ := cast_mul (S := S) (x 0) y
    rw [mulAddLineRecur_eq vanishes width some, first, product]
    simp only [UInt64.toNat_zero, Nat.cast_zero]
    linear_combination -lost * zero

theorem mulLine_eq (width : w = min R (M + 1)) (room : 0 < R) (some : 0 < M) (y : UInt64)
    (result : Words) :
    (value (Intrinsics.mulLine R M x y result) w : S) = y.toNat * value x M := by
  have split := congrArg (Nat.cast : Nat → S) (mulx_eq y (x 0))
  push_cast at split
  rw [Intrinsics.mulLine, mulLineRecur_eq vanishes width (by omega)]
  simp only [value, Finset.sum_range_one, update_self, pow_zero, mul_one, pow_one]
  linear_combination split

theorem line_eq {j i : Nat} {carry : UInt64} (width : w = min R (j + M + 1)) (inside : i ≤ M) :
    (value (Portable.line R M x j y i result carry) w : S) =
      value result (min R (j + M)) + carry.toNat * (radix : S) ^ (i + j) +
        y.toNat * (radix : S) ^ j * (value x M - value x i) := by
  fun_induction Portable.line R M x j y i result carry with
  | case1 i result carry bound hi lo product s0 c0 first s1 c1 second ih =>
    have split := sums_mulx (x i) y (result (i + j)) carry
    simp only [product, first, second] at split
    have step := congrArg (Nat.cast : Nat → S) split
    push_cast at step
    rw [ih (by omega), cast_value_update (by omega), cast_value_succ x]
    linear_combination (radix : S) ^ (i + j) * step
  | case2 i result carry bound more =>
    obtain rfl : i = M := by omega
    obtain rfl : w = j + i + 1 := by omega
    rw [cast_value_succ, value_update_of_le (Nat.le_refl _), update_self,
      Nat.min_eq_right (Nat.le_of_lt more), Nat.add_comm j i]
    ring
  | case3 i result carry bound less =>
    have zero := pow_eq_zero_of_le (show w ≤ i + j by omega) vanishes
    obtain ⟨tail, rest⟩ := exists_tail (S := S) x inside
    rw [rest, show min R (j + M) = w by omega]
    linear_combination (-carry.toNat - y.toNat * tail) * zero

end Lines

section Products

variable {R M N I w : Nat} {x y result after : Words}

theorem value_eq_mod {number : Nat} (same : (value result w : ZMod (radix ^ w)) = number) :
    value result w = number % radix ^ w := by
  rw [← Nat.mod_eq_of_lt (value_lt result w)]
  exact (ZMod.natCast_eq_natCast_iff' ..).1 same

/-- A line takes the product with the words before it to that with its own word. While the
product has room it is there as a whole. -/
theorem product_succ (width : w = min R (I + M + 1))
    (before : value result (min R (I + M)) = value x M * value y I % radix ^ min R (I + M))
    (added : (value after w : ZMod (radix ^ w)) = value result (min R (I + M)) +
      (y I).toNat * (radix : ZMod (radix ^ w)) ^ I * value x M) :
    value after w = value x M * value y (I + 1) % radix ^ w := by
  have same : (value result (min R (I + M)) : ZMod (radix ^ w)) =
      (value x M * value y I : Nat) := by
    rcases Nat.lt_or_ge (I + M) R with room | full
    · have small := Nat.mul_lt_mul'' (value_lt x M) (value_lt y I)
      rw [← pow_add, Nat.add_comm] at small
      rw [Nat.min_eq_right (Nat.le_of_lt room)] at before ⊢
      rw [before, Nat.mod_eq_of_lt small]
    · rw [before, show min R (I + M) = w by omega, ZMod.natCast_mod]
  refine value_eq_mod ?_
  rw [added, same, value_succ]
  push_cast
  ring

theorem vanishes (w : Nat) : (radix : ZMod (radix ^ w)) ^ w = 0 := by
  rw [← Nat.cast_pow, ZMod.natCast_self]

theorem truncatingMulRecur_eq (some : 0 < M) (inside : I ≤ N)
    (before : value result (min R (I + M)) = value x M * value y I % radix ^ min R (I + M)) :
    value (Intrinsics.truncatingMulRecur R M x N y I result) (min R (N + M)) =
      value x M * value y N % radix ^ min R (N + M) := by
  fun_induction Intrinsics.truncatingMulRecur R M x N y I result with
  | case1 I result more ih =>
    refine ih more ?_
    rw [Nat.add_right_comm]
    exact product_succ rfl before (mulAddLine_eq (vanishes _) rfl some _ _)
  | case2 I result last =>
    obtain rfl : I = N := by omega
    exact before

theorem lines_eq (result : Words) (inside : I ≤ N)
    (before : value result (min R (I + M)) = value x M * value y I % radix ^ min R (I + M)) :
    value (Portable.lines R M x N y I result) (min R (N + M)) =
      value x M * value y N % radix ^ min R (N + M) := by
  fun_induction Portable.lines R M x N y I result with
  | case1 I result more ih =>
    refine ih more ?_
    rw [Nat.add_right_comm]
    refine product_succ rfl before ?_
    rw [line_eq (vanishes _) rfl (Nat.zero_le M)]
    simp [value]
  | case2 I result last =>
    obtain rfl : I = N := by omega
    exact before

theorem truncatingMul_eq (constant : Bool) (uninitialized x y : Words) (room : 0 < R) (some : 0 < M)
    (lines : 0 < N) (small : R ≤ M + N) :
    value (truncatingMul constant uninitialized R M N x y) R =
      value x M * value y N % radix ^ R := by
  have width : min R (N + M) = R := by omega
  unfold truncatingMul
  split
  · have empty : value 0 (min R (0 + M)) = value x M * value y 0 % radix ^ min R (0 + M) := by
      simp [value]
    have run := lines_eq 0 (Nat.zero_le N) empty
    rw [width] at run
    exact run
  · have first : value (Intrinsics.mulLine R M x (y 0) uninitialized) (min R (1 + M)) =
        value x M * value y 1 % radix ^ min R (1 + M) := by
      refine value_eq_mod ?_
      rw [mulLine_eq (vanishes _) (by rw [Nat.add_comm]) room some]
      simp [value, mul_comm]
    have run := truncatingMulRecur_eq some lines first
    rw [width] at run
    exact run

end Products

theorem value_countSignificantWords (x : Words) (count : Nat) :
    value x (countSignificantWords x count) = value x count := by
  induction count with
  | zero => rfl
  | succ count ih =>
    unfold countSignificantWords
    split
    · rfl
    · rename_i zero
      rw [ih, value_succ, not_not.1 zero, UInt64.toNat_zero, Nat.zero_mul, Nat.add_zero]

section Squaring

variable {S : Type} [CommSemiring S] {mul : Words → Words → Words}
  (exact : ∀ a b, (value (mul a b) 4 : S) = value a 4 * value b 4)

include exact

theorem expBits_eq (bits : Nat) (word : UInt64) (state : Words × Words) :
    (value (expBits mul bits word state).1 4 : S) =
        value state.1 4 * (value state.2 4 : S) ^ (word.toNat % 2 ^ bits) ∧
      (value (expBits mul bits word state).2 4 : S) = (value state.2 4 : S) ^ 2 ^ bits := by
  induction bits generalizing word state with
  | zero => simp [expBits, Nat.mod_one]
  | succ bits ih =>
    obtain ⟨result, base⟩ := state
    obtain ⟨power, square⟩ := ih (word >>> 1)
      (if word &&& 1 ≠ 0 then mul result base else result, mul base base)
    have half : (word >>> 1).toNat = word.toNat / 2 := by
      exact Nat.shiftRight_one _
    have bit : word &&& 1 ≠ 0 ↔ word.toNat % 2 = 1 := by
      rw [ne_eq, ← UInt64.toNat_inj, UInt64.toNat_and]
      simp
    have split : word.toNat % 2 ^ (bits + 1) =
        word.toNat % 2 + 2 * (word.toNat / 2 % 2 ^ bits) := by
      rw [pow_succ', Nat.mod_mul]
    simp only [expBits]
    rw [power, square, half, split, exact]
    refine ⟨?_, by ring⟩
    by_cases odd : word.toNat % 2 = 1
    · rw [if_pos (bit.2 odd), exact, odd]
      ring
    · rw [if_neg (mt bit.1 odd), show word.toNat % 2 = 0 by omega]
      ring

theorem expWords_eq (base exponent : Words) (sigWords k : Nat) (inside : k ≤ sigWords) :
    let after := (List.range k).foldl (fun state w =>
      expBits mul (if w + 1 = sigWords then 64 - countlZero (exponent w) else 64) (exponent w)
        state) (quad 1 0 0 0, base)
    (value after.1 4 : S) = (value base 4 : S) ^ value exponent k ∧
      (k < sigWords → (value after.2 4 : S) = (value base 4 : S) ^ radix ^ k) := by
  induction k with
  | zero => simp [value, Finset.sum_range_succ, quad]
  | succ k ih =>
    obtain ⟨power, square⟩ := ih (Nat.le_of_lt inside)
    rw [List.range_succ, List.foldl_append, List.foldl_cons, List.foldl_nil]
    generalize (List.range k).foldl _ _ = state at power square ⊢
    generalize read : (if k + 1 = sigWords then _ else 64) = bits
    obtain ⟨result, base'⟩ := expBits_eq exact bits (exponent k) state
    have enough : (exponent k).toNat < 2 ^ bits := by
      split at read
      · rw [← read, countlZero, Nat.sub_sub_self (Nat.size_le.2 (exponent k).toNat_lt)]
        exact Nat.lt_size_self _
      · rw [← read]
        exact (exponent k).toNat_lt
    rw [Nat.mod_eq_of_lt enough, power, square inside, ← pow_mul, ← pow_add] at result
    rw [square inside, ← pow_mul] at base'
    refine ⟨?_, fun more => ?_⟩
    · rw [result, value_succ exponent, Nat.mul_comm]
    · rw [if_neg (Nat.ne_of_lt more)] at read
      rw [base', ← read]
      rfl

end Squaring

variable (shift : UInt8)

theorem toNat_one_shiftLeft : ((1 : UInt64) <<< shift.toUInt64).toNat = 2 ^ (shift.toNat % 64) := by
  have small : 2 ^ (shift.toNat % 64) < 2 ^ 64 :=
    Nat.pow_lt_pow_right (by decide) (Nat.mod_lt _ (by decide))
  rw [UInt64.toNat_shiftLeft, UInt8.toNat_toUInt64, UInt64.toNat_one, Nat.one_shiftLeft,
    Nat.mod_eq_of_lt small]

theorem shld_zero : shld 0 0 shift = 0 := by
  simp [shld]

theorem shld_one : shld 0 1 shift = 0 := by
  have gone : (1 : UInt64) >>> 1 = 0 := rfl
  simp [shld, gone]

theorem value_quad (w0 w1 w2 w3 : UInt64) : value (quad w0 w1 w2 w3) 4 =
    w0.toNat + w1.toNat * radix + w2.toNat * radix ^ 2 + w3.toNat * radix ^ 3 := by
  simp [value, Finset.sum_range_succ, quad]

theorem pow_eq_mod {shift : Nat} (count : Nat) (places : shift / 64 = count) (small : shift < 256) :
    2 ^ (shift % 64) * radix ^ count = 2 ^ shift % radix ^ 4 := by
  have below : 2 ^ shift < radix ^ 4 :=
    Nat.lt_of_lt_of_le (Nat.pow_lt_pow_right (by decide) small) (by decide)
  rw [Nat.mod_eq_of_lt below, radix, ← pow_mul, ← pow_add, ← places, Nat.mod_add_div]

theorem shiftLeftWord_one (shift : UInt64) :
    value (shiftLeftWord (quad 1 0 0 0) shift) 4 = 2 ^ shift.toNat % radix ^ 4 := by
  unfold shiftLeftWord
  split
  · rename_i far
    have zero : 2 ^ shift.toNat % radix ^ 4 = 0 :=
      Nat.mod_eq_zero_of_dvd (pow_dvd_pow 2 (UInt64.le_iff_toNat_le.1 far))
    rw [zero]
    rfl
  · rename_i near
    have small : shift.toNat < 256 := UInt64.lt_iff_toNat_lt.1 (UInt64.not_le.1 near)
    have byte : shift.toUInt8.toNat = shift.toNat := Nat.mod_eq_of_lt small
    have low : (shift.toUInt8 &&& 63).toNat = shift.toNat % 64 := by
      rw [UInt8.toNat_and, byte]
      exact Nat.and_two_pow_sub_one_eq_mod _ 6
    have mid : (shift.toUInt8 &&& 127).toNat = shift.toNat % 128 := by
      rw [UInt8.toNat_and, byte]
      exact Nat.and_two_pow_sub_one_eq_mod _ 7
    simp only [UInt8.lt_iff_toNat_lt, UInt8.reduceToNat, byte, quad, shld_one, shld_zero]
    split
    · split
      · rw [value_quad, toNat_one_shiftLeft, byte, ← pow_eq_mod 0 (by omega) small]
        simp
      · rw [value_quad, toNat_one_shiftLeft, low, ← pow_eq_mod 1 (by omega) small]
        simp
    · split
      · rw [value_quad, toNat_one_shiftLeft, mid, ← pow_eq_mod 2 (by omega) small,
          Nat.mod_mod_of_dvd _ (by decide)]
        simp
      · rw [value_quad, toNat_one_shiftLeft, low, ← pow_eq_mod 3 (by omega) small]
        simp

theorem shiftLeft_one (shift : Words) :
    value (shiftLeft (quad 1 0 0 0) shift) 4 = 2 ^ value shift 4 % radix ^ 4 := by
  generalize upper : (shift 1).toNat + (shift 2).toNat * radix + (shift 3).toNat * radix ^ 2 = high
  have total : value shift 4 = (shift 0).toNat + high * radix := by
    simp only [value, Finset.sum_range_succ, Finset.sum_range_zero, ← upper]
    ring
  have none : shift 3 ||| shift 2 ||| shift 1 = 0 ↔ high = 0 := by
    simp [← upper, ← UInt64.toNat_inj, radix, and_comm, and_assoc]
  unfold shiftLeft
  split
  · rename_i far
    have large : radix ≤ high * radix :=
      Nat.le_mul_of_pos_left _ (Nat.pos_of_ne_zero (mt none.2 far))
    have zero : 2 ^ value shift 4 % radix ^ 4 = 0 := by
      refine Nat.mod_eq_zero_of_dvd (pow_dvd_pow 2 (show 256 ≤ _ from ?_))
      have wide : 256 ≤ radix := by decide
      omega
    rw [zero]
    rfl
  · rename_i near
    rw [shiftLeftWord_one, total, none.1 (not_not.1 near), Nat.zero_mul, Nat.add_zero]

section Exactness

variable {mul : Words → Words → Words}
  (exact : ∀ a b, value (mul a b) 4 = value a 4 * value b 4 % radix ^ 4)

include exact

theorem exp_eq (base exponent : Words) :
    value (exp mul base exponent) 4 = value base 4 ^ value exponent 4 % radix ^ 4 := by
  unfold exp
  split
  · rename_i two
    have same : value base 4 = 2 := by
      simp [value, Finset.sum_range_succ, two]
    rw [same, shiftLeft_one]
  · have squares : ∀ a b, (value (mul a b) 4 : ZMod (radix ^ 4)) = value a 4 * value b 4 := by
      intro a b
      rw [exact, ZMod.natCast_mod, Nat.cast_mul]
    have run := (expWords_eq squares base exponent _ _
      (Nat.le_refl (countSignificantWords exponent 4))).1
    rw [value_countSignificantWords, ← Nat.cast_pow] at run
    exact value_eq_mod run

end Exactness

/-- Products and powers are those of the numbers, cut to the words of the result. -/
theorem multiplication_exact (constant : Bool) (uninitialized : Words) :
    (∀ R M N x y, 0 < R → 0 < M → 0 < N → R ≤ M + N →
      value (truncatingMul constant uninitialized R M N x y) R =
        value x M * value y N % 2 ^ (64 * R)) ∧
    ∀ base exponent, value (exp (truncatingMul constant uninitialized 4 4 4) base exponent) 4 =
      value base 4 ^ value exponent 4 % 2 ^ 256 := by
  refine ⟨fun R M N x y room some lines small => ?_, fun base exponent => ?_⟩
  · rw [pow_mul]
    exact truncatingMul_eq constant uninitialized x y room some lines small
  · have exact : ∀ a b, value (truncatingMul constant uninitialized 4 4 4 a b) 4 =
        value a 4 * value b 4 % radix ^ 4 := fun a b =>
      truncatingMul_eq constant uninitialized a b (by decide) (by decide) (by decide) (by decide)
    exact exp_eq exact base exponent

theorem multiplication_exact_cut : value (truncatingMul false 0 2 2 2 1 1) 2 = 2 * 2 ^ 64 + 1 := by
  rw [(multiplication_exact false 0).1 2 2 2 1 1 (by decide) (by decide) (by decide) (by decide)]
  decide

end MonadChain.Uint256
