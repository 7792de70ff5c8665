import Mathlib.Data.Nat.ModEq

/-!
A map of which only the keys of one window are kept: key `v` has cell `v % size`. The window moves
up past keys that have the value of the keys that take their cells, and down again in the same
way.
-/

namespace MonadChain.CircularWindow

variable {α : Type*} {size lo lo' i u v : Nat} {cells : Nat → α} {map : Nat → α} {x : α}

def Holds (size : Nat) (cells : Nat → α) (lo : Nat) (map : Nat → α) : Prop :=
  ∀ v, lo ≤ v → v < lo + size → cells (v % size) = map v

theorem cell_injective (lowU : lo ≤ u) (highU : u < lo + size) (lowV : lo ≤ v)
    (highV : v < lo + size) (same : u % size = v % size) : u = v := by
  rcases Nat.le_total u v with order | order
  · have divides : size ∣ v - u := (Nat.modEq_iff_dvd' order).1 same
    have zero : v - u = 0 := Nat.eq_zero_of_dvd_of_lt divides (by omega)
    omega
  · have divides : size ∣ u - v := (Nat.modEq_iff_dvd' order).1 same.symm
    have zero : u - v = 0 := Nat.eq_zero_of_dvd_of_lt divides (by omega)
    omega

namespace Holds

section

variable (holds : Holds size cells lo map)

include holds

theorem update (low : lo ≤ i) (high : i < lo + size) :
    Holds size (Function.update cells (i % size) x) lo (Function.update map i x) := by
  intro v lowV highV
  by_cases same : v = i
  · rw [same, Function.update_self, Function.update_self]
  · have apart : v % size ≠ i % size := fun eq => same (cell_injective lowV highV low high eq)
    rw [Function.update_of_ne apart, Function.update_of_ne same]
    exact holds v lowV highV

theorem raise (up : lo ≤ lo') (near : lo' ≤ lo + size)
    (left : ∀ v, lo ≤ v → v < lo' → map (v + size) = map v) : Holds size cells lo' map := by
  intro v low high
  by_cases inside : v < lo + size
  · exact holds v (by omega) inside
  · obtain ⟨u, rfl⟩ : ∃ u, v = u + size := ⟨v - size, by omega⟩
    rw [Nat.add_mod_right, left u (by omega) (by omega)]
    exact holds u (by omega) (by omega)

theorem lower (down : lo' ≤ lo) (near : lo ≤ lo' + size)
    (entered : ∀ v, lo' ≤ v → v < lo → map (v + size) = map v) : Holds size cells lo' map := by
  intro v low high
  by_cases inside : lo ≤ v
  · exact holds v inside (by omega)
  · rw [← entered v low (by omega), ← Nat.add_mod_right]
    exact holds (v + size) (by omega) (by omega)

end

end Holds

end MonadChain.CircularWindow
