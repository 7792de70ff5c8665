import Mathlib.Algebra.Group.Basic

/-!
Sequences of labelled moves. The label of a sequence is the sum of the labels
of its moves, so a quantity that every move changes by its label changes by the
label of the whole sequence.
-/

namespace MonadChain

variable {label state : Type} [AddMonoid label]

variable {first second total : label}

inductive Path (move : label → state → state → Prop) : label → state → state → Prop
  | refl (before : state) : Path move 0 before before
  | tail {total last : label} {before middle after : state}
      (earlier : Path move total before middle) (final : move last middle after) :
      Path move (total + last) before after

namespace Path

variable {move : label → state → state → Prop} {before middle after : state}

theorem single {last : label} (only : move last before after) : Path move last before after := by
  simpa using tail (refl before) only

theorem trans (earlier : Path move first before middle)
    (later : Path move second middle after) : Path move (first + second) before after := by
  induction later with
  | refl => simpa using earlier
  | tail _ final ih =>
    rw [← add_assoc]
    exact tail (ih earlier) final

theorem relabel (path : Path move first before after)
    (same : first = second) : Path move second before after :=
  same ▸ path

theorem measure {quantity : state → label} (step : ∀ last before after, move last before after →
      quantity after = quantity before + last) (path : Path move total before after) :
    quantity after = quantity before + total := by
  induction path with
  | refl => simp
  | tail _ final ih => rw [step _ _ _ final, ih, add_assoc]

end Path

end MonadChain
