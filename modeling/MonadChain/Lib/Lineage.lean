import Mathlib.Data.List.Basic

/-!
Trees given by their parent links, with a height that falls by one along every link. A node has at
most one ancestor at each height; a path lists the nodes between an ancestor and a node from the
bottom up.
-/

namespace MonadChain

structure Lineage (Id : Type) where
  parent : Id → Option Id
  height : Id → Nat
  height_parent : ∀ {child id}, parent child = some id → height child = height id + 1
  parent_exists : ∀ {id}, 0 < height id → ∃ up, parent id = some up

namespace Lineage

variable {Id : Type} {tree : Lineage Id} {base tip : Id} {ids : List Id}

/-- The second node is the first one or one of its ancestors. -/
inductive Descends (tree : Lineage Id) : Id → Id → Prop
  | refl (id : Id) : Descends tree id id
  | step {child id ancestor : Id} : tree.parent child = some id →
      Descends tree id ancestor → Descends tree child ancestor

theorem Descends.trans {low middle high : Id} (first : tree.Descends low middle)
    (second : tree.Descends middle high) : tree.Descends low high := by
  induction first with
  | refl id => exact second
  | step link _ ih => exact .step link (ih second)

theorem Descends.height_le {id ancestor : Id} (below : tree.Descends id ancestor) :
    tree.height ancestor ≤ tree.height id := by
  induction below with
  | refl id => exact Nat.le_refl _
  | step link _ ih => have := tree.height_parent link; omega

theorem Descends.eq_of_height {id ancestor : Id} (below : tree.Descends id ancestor)
    (level : tree.height id ≤ tree.height ancestor) : id = ancestor := by
  cases below with
  | refl id => rfl
  | step link rest =>
    have up := tree.height_parent link
    have bounded := rest.height_le
    omega

theorem Descends.of_parent {child up ancestor : Id} (below : tree.Descends child ancestor)
    (link : tree.parent child = some up) (lower : tree.height ancestor < tree.height child) :
    tree.Descends up ancestor := by
  cases below with
  | refl id => omega
  | step found rest =>
    have same := Option.some.inj (found.symm.trans link)
    exact same ▸ rest

section

variable {id first second : Id} (toFirst : tree.Descends id first)
  (toSecond : tree.Descends id second)

include toFirst toSecond

theorem Descends.comparable (level : tree.height second ≤ tree.height first) :
    tree.Descends first second := by
  induction toFirst with
  | refl id => exact toSecond
  | step link rest ih =>
    refine ih ?_ level
    have up := tree.height_parent link
    have bounded := rest.height_le
    exact toSecond.of_parent link (by omega)

theorem Descends.unique (level : tree.height first = tree.height second) : first = second :=
  (toFirst.comparable toSecond (Nat.le_of_eq level.symm)).eq_of_height (Nat.le_of_eq level)

end

theorem ancestor_exists (tree : Lineage Id) (id : Id) {level : Nat}
    (bounded : level ≤ tree.height id) :
    ∃ ancestor, tree.Descends id ancestor ∧ tree.height ancestor = level := by
  generalize distance : tree.height id - level = gap
  induction gap generalizing id with
  | zero => exact ⟨id, .refl id, by omega⟩
  | succ gap ih =>
    obtain ⟨up, link⟩ := tree.parent_exists (show 0 < tree.height id by omega)
    have lower := tree.height_parent link
    obtain ⟨ancestor, below, level⟩ := ih up (by omega) (by omega)
    exact ⟨ancestor, .step link below, level⟩

/-- The nodes above the first node up to the last one, lowest first. -/
inductive Path (tree : Lineage Id) : Id → List Id → Id → Prop
  | nil (id : Id) : Path tree id [] id
  | cons {base next tip : Id} {rest : List Id} : tree.parent next = some base →
      Path tree next rest tip → Path tree base (next :: rest) tip

theorem Path.append {base middle tip : Id} {front back : List Id}
    (first : tree.Path base front middle) (second : tree.Path middle back tip) :
    tree.Path base (front ++ back) tip := by
  induction first with
  | nil id => exact second
  | cons link _ ih => exact .cons link (ih second)

theorem Path.descends (path : tree.Path base ids tip) : tree.Descends tip base := by
  induction path with
  | nil id => exact .refl id
  | cons link _ ih => exact ih.trans (.step link (.refl _))

theorem Path.between (path : tree.Path base ids tip) :
    ∀ id ∈ ids, tree.height base < tree.height id ∧ tree.Descends tip id ∧
      tree.Descends id base := by
  induction path with
  | nil id => intro other member; cases member
  | cons link rest ih =>
    intro other member
    have up := tree.height_parent link
    rcases List.mem_cons.mp member with rfl | later
    · exact ⟨by omega, rest.descends, .step link (.refl _)⟩
    · obtain ⟨higher, below, above⟩ := ih other later
      exact ⟨by omega, below, above.trans (.step link (.refl _))⟩

theorem Path.mem {base tip id : Id} (path : tree.Path base ids tip) (below : tree.Descends tip id)
    (above : tree.height base < tree.height id) : id ∈ ids := by
  induction path with
  | nil base => exact absurd below.height_le (Nat.not_le_of_lt above)
  | @cons base next tip rest link pathRest ih =>
    have up := tree.height_parent link
    have reached : tree.height next ≤ tree.height id := by omega
    rcases Nat.lt_or_eq_of_le reached with higher | level
    · exact List.mem_cons_of_mem _ (ih below higher)
    · rw [below.unique pathRest.descends level.symm]
      exact List.mem_cons_self

theorem Path.nodup (path : tree.Path base ids tip) : ids.Nodup := by
  induction path with
  | nil base => exact List.nodup_nil
  | cons link rest ih =>
    refine List.nodup_cons.mpr ⟨fun again => ?_, ih⟩
    exact Nat.lt_irrefl _ (rest.between _ again).1

theorem Path.getLast? (path : tree.Path base ids tip) :
    ids = [] ∧ tip = base ∨ ids.getLast? = some tip := by
  induction path with
  | nil id => exact Or.inl ⟨rfl, rfl⟩
  | cons link rest ih =>
    refine Or.inr ?_
    rcases ih with ⟨rfl, rfl⟩ | last
    · rfl
    · rw [List.getLast?_cons, last]
      rfl

end Lineage

end MonadChain
