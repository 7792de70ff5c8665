import Mathlib.Algebra.Order.BigOperators.Group.Finset
import Mathlib.Data.Fintype.BigOperators

/-!
Total maps with point updates, and sums of a map over a finite index type. The
sum lemmas state a change of one entry as an equation without subtraction, so
that linear arithmetic can finish from them.
-/

namespace MonadChain.Maps

variable {ι κ μ γ : Type} [DecidableEq ι] [DecidableEq κ] [DecidableEq μ] (map : ι → κ → μ → γ)

def update2 (map : ι → κ → γ) (outer : ι) (inner : κ) (value : γ) : ι → κ → γ :=
  fun i k => if i = outer ∧ k = inner then value else map i k

def update3 (map : ι → κ → μ → γ) (outer : ι) (middle : κ) (inner : μ) (value : γ) :
    ι → κ → μ → γ :=
  fun i k m => if i = outer ∧ k = middle ∧ m = inner then value else map i k m

section

variable (map : ι → κ → γ) (outer : ι) (inner : κ)

@[simp] theorem update2_self (value : γ) : update2 map outer inner value outer inner = value := by
  simp [update2]

theorem update2_apply (outer i : ι) (inner k : κ) (value : γ) :
    update2 map outer inner value i k =
      if i = outer ∧ k = inner then value else map i k := rfl

theorem update2_outer_ne {outer i : ι} (inner k : κ) (value : γ)
    (different : i ≠ outer) : update2 map outer inner value i k = map i k := by
  simp [update2, different]

theorem update2_inner_ne (outer i : ι) {inner k : κ} (value : γ)
    (different : k ≠ inner) : update2 map outer inner value i k = map i k := by
  simp [update2, different]

theorem update2_eq_update (value : γ) : update2 map outer inner value =
    Function.update map outer (Function.update (map outer) inner value) := by
  funext i k
  by_cases here : i = outer
  · simp [update2, here, Function.update_apply]
  · simp [update2, here]

@[simp] theorem update2_update2 (old new : γ) :
    update2 (update2 map outer inner old) outer inner new = update2 map outer inner new := by
  simp [update2_eq_update]

@[simp] theorem update2_eq_self : update2 map outer inner (map outer inner) = map := by
  simp [update2_eq_update]

end

section

variable (outer : ι) (middle : κ) (inner : μ)

theorem update3_eq_update (value : γ) : update3 map outer middle inner value =
      Function.update map outer (update2 (map outer) middle inner value) := by
  funext i k m
  by_cases here : i = outer
  · simp [update3, update2, here]
  · simp [update3, here]

@[simp] theorem update3_eq_self :
    update3 map outer middle inner (map outer middle inner) = map := by
  simp [update3_eq_update]

end

theorem update3_apply (outer i : ι) (middle k : κ) (inner m : μ) (value : γ) :
    update3 map outer middle inner value i k m =
      if i = outer ∧ k = middle ∧ m = inner then value else map i k m := rfl

section Sums

variable [Fintype ι] (measure : γ → Nat)

theorem sum_update (map : ι → γ) (measure : γ → Nat) (index : ι) (value : γ) :
    ∑ i, measure (Function.update map index value i) + measure (map index) =
      ∑ i, measure (map i) + measure value := by
  rw [← Finset.add_sum_erase Finset.univ _ (Finset.mem_univ index),
    ← Finset.add_sum_erase Finset.univ (fun i => measure (map i)) (Finset.mem_univ index),
    Function.update_self]
  have rest : ∑ i ∈ Finset.univ.erase index, measure (Function.update map index value i) =
      ∑ i ∈ Finset.univ.erase index, measure (map i) := by
    apply Finset.sum_congr rfl
    intro i member
    rw [Function.update_of_ne (Finset.ne_of_mem_erase member)]
  omega

omit [Fintype ι] in
theorem row_update2 [Fintype κ] (map : ι → κ → γ) (measure : γ → Nat) (outer : ι) (inner : κ)
    (value : γ) :
    ∑ k, measure (update2 map outer inner value outer k) + measure (map outer inner) =
      ∑ k, measure (map outer k) + measure value := by
  rw [update2_eq_update, Function.update_self]
  exact sum_update (map outer) measure inner value

theorem sum2_update2 [Fintype κ] (map : ι → κ → γ) (measure : γ → Nat) (outer : ι) (inner : κ)
    (value : γ) :
    ∑ i, ∑ k, measure (update2 map outer inner value i k) + measure (map outer inner) =
      ∑ i, ∑ k, measure (map i k) + measure value := by
  have rows := sum_update map (fun row => ∑ k, measure (row k)) outer
    (Function.update (map outer) inner value)
  have row := sum_update (map outer) measure inner value
  rw [update2_eq_update]
  omega

omit [Fintype ι] in
theorem plane_update3 [Fintype κ] [Fintype μ] (outer : ι) (middle : κ) (inner : μ) (value : γ) :
    ∑ k, ∑ m, measure (update3 map outer middle inner value outer k m) +
        measure (map outer middle inner) = ∑ k, ∑ m, measure (map outer k m) + measure value := by
  rw [update3_eq_update, Function.update_self]
  exact sum2_update2 (map outer) measure middle inner value

theorem sum3_update3 [Fintype κ] [Fintype μ] (outer : ι) (middle : κ) (inner : μ) (value : γ) :
    ∑ i, ∑ k, ∑ m, measure (update3 map outer middle inner value i k m) +
        measure (map outer middle inner) = ∑ i, ∑ k, ∑ m, measure (map i k m) + measure value := by
  have planes := sum_update map (fun plane => ∑ k, ∑ m, measure (plane k m)) outer
    (update2 (map outer) middle inner value)
  have plane := sum2_update2 (map outer) measure middle inner value
  rw [update3_eq_update]
  omega

omit [DecidableEq ι] in
theorem le_sum (values : ι → Nat) (index : ι) : values index ≤ ∑ i, values i :=
  Finset.single_le_sum (fun _ _ => Nat.zero_le _) (Finset.mem_univ index)

end Sums

end MonadChain.Maps
