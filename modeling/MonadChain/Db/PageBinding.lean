import MonadChain.Db.PageCodec
import MonadChain.Db.PageCommit

/-!
What a page commitment binds to. Two pages with one commitment are the same page, unless
somewhere in their two trees different inputs were hashed to one digest.
-/

namespace MonadChain.Db.StoragePage

open Bitmap

variable {Digest : Type} {hashes : PageHashes Digest} {page other : StoragePage}

/-- A place of the two trees where different inputs have one digest. -/
inductive Collision (hashes : PageHashes Digest) (page other : StoragePage) : Prop
  | leaf (i : Nat) : page.pair i ≠ (0, 0) → other.pair i ≠ (0, 0) → page.pair i ≠ other.pair i →
      hashes.leaf (page.pair i).1 (page.pair i).2 = hashes.leaf (other.pair i).1 (other.pair i).2 →
      Collision hashes page other
  | node (height index : Nat) (left right left' right' : Digest) :
      page.inducedNode hashes height (2 * index) = some left →
      page.inducedNode hashes height (2 * index + 1) = some right →
      other.inducedNode hashes height (2 * index) = some left' →
      other.inducedNode hashes height (2 * index + 1) = some right' →
      (left, right) ≠ (left', right') → hashes.node left right = hashes.node left' right' →
      Collision hashes page other
  | seal :
      (page.bitmap, page.inducedNode hashes 6 0) ≠ (other.bitmap, other.inducedNode hashes 6 0) →
      hashes.blake3Seal page.bitmap (page.inducedNode hashes 6 0) =
        hashes.blake3Seal other.bitmap (other.inducedNode hashes 6 0) →
      Collision hashes page other

section Binding

variable (bitmap : page.bitmap = other.bitmap) (apart : ¬ Collision hashes page other)

include bitmap

theorem pair_zero_iff (i : Nat) : page.pair i = (0, 0) ↔ other.pair i = (0, 0) := by
  rw [← not_iff_not, ← ne_eq, ← ne_eq, page.pair_ne_zero, other.pair_ne_zero, pairBitmap,
    pairBitmap, bitmap]

theorem inducedNode_none_iff (hashes : PageHashes Digest) (height index : Nat) :
    page.inducedNode hashes height index = none ↔ other.inducedNode hashes height index = none := by
  simp only [inducedNode_eq_none, pair_zero_iff bitmap]

include apart

theorem pair_eq_of_node (height index : Nat)
    (same : page.inducedNode hashes height index = other.inducedNode hashes height index) :
    ∀ i, i >>> height = index → page.pair i = other.pair i := by
  induction height generalizing index with
  | zero =>
    rintro i rfl
    have zero := pair_zero_iff bitmap i
    simp only [inducedNode, Nat.shiftRight_zero] at same
    by_contra differ
    by_cases empty : page.pair i = (0, 0)
    · exact differ (empty.trans (zero.1 empty).symm)
    · rw [if_neg empty, if_neg (zero.not.1 empty)] at same
      exact apart (.leaf i empty (zero.not.1 empty) differ (Option.some.inj same))
  | succ height ih =>
    have children : page.inducedNode hashes height (2 * index) =
          other.inducedNode hashes height (2 * index) ∧
        page.inducedNode hashes height (2 * index + 1) =
          other.inducedNode hashes height (2 * index + 1) := by
      have lefts := inducedNode_none_iff bitmap hashes height (2 * index)
      have rights := inducedNode_none_iff bitmap hashes height (2 * index + 1)
      simp only [inducedNode] at same
      by_contra differ
      -- Only a node of two children hides them behind a digest.
      split at same <;> split at same <;> grind [Collision.node]
    intro i parent
    rw [Nat.shiftRight_succ] at parent
    obtain child | child : i >>> height = 2 * index ∨ i >>> height = 2 * index + 1 := by omega
    · exact ih _ children.1 i child
    · exact ih _ children.2 i child

end Binding

/-- Whatever the arrays held before, two pages have one commitment exactly when they are the same
page, or their trees show a collision. -/
theorem page_commit_binding (hashes : PageHashes Digest) (page other : StoragePage)
    (scratch scratch' : Scratch Digest) :
    (page.pageCommit hashes scratch = other.pageCommit hashes scratch' ↔ page = other) ∨
      Collision hashes page other := by
  rw [pageCommit_sealed, pageCommit_sealed, or_iff_not_imp_right]
  intro apart
  refine ⟨fun same => ?_, fun same => by rw [same]⟩
  obtain ⟨bitmap, root⟩ : page.bitmap = other.bitmap ∧
      page.inducedNode hashes 6 0 = other.inducedNode hashes 6 0 := by
    by_contra differ
    exact apart (.seal (fun equal => differ (Prod.mk.inj equal)) same)
  apply ext_get
  intro offset
  have pairs := Prod.mk.inj (pair_eq_of_node bitmap apart 6 0 root (offset / 2) (by omega))
  have slots : page.slot offset = other.slot offset := by
    obtain even | odd : (offset : Nat) = 2 * (offset / 2) ∨
        (offset : Nat) = 2 * (offset / 2) + 1 := by omega
    · rw [even]
      exact pairs.1
    · rw [odd]
      exact pairs.2
  rwa [slot, slot, dif_pos offset.isLt, dif_pos offset.isLt] at slots

end MonadChain.Db.StoragePage
