import Mathlib.Logic.Function.Basic
import Mathlib.Order.Defs.LinearOrder

/-!
Sets of numbers stored one bit each in words of `w` bits. Setting or clearing a
bit by its mask changes the membership of that number and of no other.
-/

namespace MonadChain.Bitset

variable {w : Nat} (words : Nat → BitVec w)

section

variable (words : Nat → BitVec w) (number : Nat)

def Contains : Prop :=
  words (number / w) &&& 1#w <<< (number % w) ≠ 0

def insert : Nat → BitVec w :=
  Function.update words (number / w) (words (number / w) ||| 1#w <<< (number % w))

def erase : Nat → BitVec w :=
  Function.update words (number / w) (words (number / w) &&& ~~~(1#w <<< (number % w)))

end

theorem mask_bit (word : BitVec w) {offset : Nat} (inside : offset < w) :
    word &&& 1#w <<< offset ≠ 0 ↔ word.getLsbD offset = true := by
  rw [← BitVec.twoPow_eq, BitVec.and_twoPow]
  constructor
  · intro some
    by_contra clear
    exact some (if_neg clear)
  · intro set zero
    rw [if_pos set] at zero
    have bit := congrArg (BitVec.getLsbD · offset) zero
    simp [inside] at bit

theorem contains_iff (positive : 0 < w) (number : Nat) :
    Contains words number ↔ (words (number / w)).getLsbD (number % w) = true :=
  mask_bit _ (Nat.mod_lt number positive)

theorem eq_of_word_offset {left right : Nat} (word : left / w = right / w)
    (offset : left % w = right % w) : left = right := by
  rw [← Nat.div_add_mod left w, ← Nat.div_add_mod right w, word, offset]

theorem contains_insert (positive : 0 < w) (number other : Nat) :
    Contains (insert words number) other ↔ other = number ∨ Contains words other := by
  rw [contains_iff _ positive, contains_iff _ positive]
  have inside := Nat.mod_lt other positive
  unfold insert
  by_cases word : other / w = number / w
  · rw [word, Function.update_self, ← BitVec.twoPow_eq, BitVec.getLsbD_or, BitVec.getLsbD_twoPow]
    by_cases offset : other % w = number % w
    · have same := eq_of_word_offset word offset
      subst same
      simp [inside]
    · have different : other ≠ number := fun same => offset (by rw [same])
      simp [different, Ne.symm offset]
  · have different : other ≠ number := fun same => word (by rw [same])
    rw [Function.update_of_ne word]
    simp [different]

theorem contains_erase (positive : 0 < w) (number other : Nat) :
    Contains (erase words number) other ↔ other ≠ number ∧ Contains words other := by
  rw [contains_iff _ positive, contains_iff _ positive]
  have inside := Nat.mod_lt other positive
  unfold erase
  by_cases word : other / w = number / w
  · rw [word, Function.update_self, ← BitVec.twoPow_eq, BitVec.getLsbD_and, BitVec.getLsbD_not,
      BitVec.getLsbD_twoPow]
    by_cases offset : other % w = number % w
    · have same := eq_of_word_offset word offset
      subst same
      simp
    · have different : other ≠ number := fun same => offset (by rw [same])
      simp [different, Ne.symm offset, inside]
  · have different : other ≠ number := fun same => word (by rw [same])
    rw [Function.update_of_ne word]
    simp [different]

end MonadChain.Bitset
