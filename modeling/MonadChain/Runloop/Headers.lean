import Mathlib.Algebra.GroupWithZero.Nat
import MonadChain.Lib.Lineage

/-!
The consensus ledger of the run loop: headers stored under their block ids, and
the walk of `for_each_header` from a head pointer back to the last finalized
block.
-/

namespace MonadChain.Runloop

open Lineage

variable {last : Nat}

/-- A `bytes32_t`; zero stands for a head pointer that is not there. -/
abbrev BlockId : Type := Nat

structure Header where
  seqno : Nat
  parentId : BlockId
  /-- `execution_inputs.number`. -/
  number : Nat
  deriving DecidableEq, Repr

/-- The header files. Every ancestor of a stored block is stored, except that the
genesis block, the parent of the first one, need not be, and a child has the next
sequence number. -/
structure Ledger where
  header : BlockId → Option Header
  zero_absent : header 0 = none
  linked : ∀ id h, header id = some h → 1 < h.seqno →
    ∃ up, header h.parentId = some up ∧ h.seqno = up.seqno + 1
  first : ∀ id h, header id = some h → h.seqno = 1 →
    ∀ up, header h.parentId = some up → up.seqno = 0

/-- A block is executed under its sequence number, which the database can take. -/
def Ledger.Numbered (ledger : Ledger) : Prop :=
  ∀ id h, ledger.header id = some h → h.number = h.seqno ∧ h.seqno < 2 ^ 63

def Ledger.seqno (ledger : Ledger) (id : BlockId) : Nat :=
  ((ledger.header id).map Header.seqno).getD 0

def Ledger.parent (ledger : Ledger) (id : BlockId) : Option BlockId :=
  (ledger.header id).bind fun h => if h.seqno = 0 then none else some h.parentId

variable {ledger : Ledger} {id up head base tip : BlockId} {h : Header}
  {seen : List (BlockId × Header)}

section

variable (found : ledger.header id = some h)

include found

theorem Ledger.seqno_eq : ledger.seqno id = h.seqno := by
  rw [Ledger.seqno, found]
  rfl

theorem Ledger.parent_eq (later : 0 < h.seqno) : ledger.parent id = some h.parentId := by
  rw [Ledger.parent, found, Option.bind_some, if_neg (by omega)]

theorem Ledger.ne_zero : id ≠ 0 := by
  rintro rfl
  rw [ledger.zero_absent] at found
  cases found

end

theorem Ledger.header_of_parent (link : ledger.parent id = some up) :
    ∃ h, ledger.header id = some h ∧ h.parentId = up ∧ 0 < h.seqno := by
  obtain ⟨h, found, chosen⟩ := Option.bind_eq_some_iff.mp link
  split at chosen
  · cases chosen
  · exact ⟨h, found, Option.some.inj chosen, by omega⟩

theorem Ledger.parentId_eq (found : ledger.header id = some h)
    (link : ledger.parent id = some up) : h.parentId = up := by
  obtain ⟨other, stored, same, _⟩ := ledger.header_of_parent link
  rw [← same, Option.some.inj (stored.symm.trans found)]

theorem Ledger.header_of_seqno (later : 0 < ledger.seqno id) : ∃ h, ledger.header id = some h := by
  cases found : ledger.header id with
  | some h => exact ⟨h, rfl⟩
  | none =>
    rw [Ledger.seqno, found] at later
    exact absurd later (Nat.lt_irrefl 0)

theorem Ledger.seqno_parent {child : BlockId} (link : ledger.parent child = some id) :
    ledger.seqno child = ledger.seqno id + 1 := by
  obtain ⟨h, found, rfl, positive⟩ := ledger.header_of_parent link
  rw [Ledger.seqno_eq found]
  by_cases early : h.seqno = 1
  · -- The parent of the first block is at height zero, stored or not.
    cases stored : ledger.header h.parentId with
    | none => rw [Ledger.seqno, stored, early]; rfl
    | some up => rw [Ledger.seqno_eq stored, ledger.first child h found early up stored, early]
  · obtain ⟨up, stored, next⟩ := ledger.linked child h found (by omega)
    rw [Ledger.seqno_eq stored, next]

def Ledger.tree (ledger : Ledger) : Lineage BlockId where
  parent := ledger.parent
  height := ledger.seqno
  height_parent := ledger.seqno_parent
  parent_exists := by
    intro id later
    obtain ⟨h, found⟩ := ledger.header_of_seqno later
    rw [Ledger.seqno_eq found] at later
    exact ⟨h.parentId, ledger.parent_eq found later⟩

abbrev Ledger.Descends (ledger : Ledger) : BlockId → BlockId → Prop := ledger.tree.Descends

/-- `handle_header`: whether the callback runs, and where the walk continues. -/
def handleHeader (id : BlockId) (h : Header) (startExclusive endInclusive : Nat) :
    List (BlockId × Header) × Option BlockId :=
  (if startExclusive < h.seqno ∧ h.seqno ≤ endInclusive then [(id, h)] else [],
    if h.seqno ≤ startExclusive + 1 then none else some h.parentId)

/-- The loop of `for_each_header`: the blocks the callback sees, in that order. A
missing file aborts. -/
def walk (ledger : Ledger) (startExclusive endInclusive : Nat) :
    Nat → BlockId → Option (List (BlockId × Header))
  | 0, _ => none
  | fuel + 1, id =>
    match ledger.header id with
    | none => none
    | some h =>
      match handleHeader id h startExclusive endInclusive with
      | (seen, none) => some seen
      | (seen, some next) =>
        (walk ledger startExclusive endInclusive fuel next).map (seen ++ ·)

/-- `for_each_header`. The walk takes at most one round for each sequence number
up to that of the head. -/
def forEachHeader (ledger : Ledger) (head : BlockId) (startExclusive endInclusive : Nat) :
    Option (List (BlockId × Header)) :=
  if head = 0 then some []
  else walk ledger startExclusive endInclusive (ledger.seqno head + 1) head

theorem walk_stop (start last fuel : Nat) (found : ledger.header id = some h)
    (low : h.seqno ≤ start + 1) :
    walk ledger start last (fuel + 1) id =
      some (if start < h.seqno ∧ h.seqno ≤ last then [(id, h)] else []) := by
  simp only [walk, found, handleHeader, if_pos low]

theorem walk_continue (start last fuel : Nat) (found : ledger.header id = some h)
    (high : ¬ h.seqno ≤ start + 1) :
    walk ledger start last (fuel + 1) id =
      (walk ledger start last fuel h.parentId).map
        ((if start < h.seqno ∧ h.seqno ≤ last then [(id, h)] else []) ++ ·) := by
  simp only [walk, found, handleHeader, if_neg high]

def ids (seen : List (BlockId × Header)) : List BlockId := seen.map Prod.fst

def Stored (ledger : Ledger) (seen : List (BlockId × Header)) : Prop :=
  ∀ entry ∈ seen, ledger.header entry.1 = some entry.2

theorem Stored.nil (ledger : Ledger) : Stored ledger [] := by
  intro entry member
  cases member

/-- What a walk down to an ancestor at the starting height collects: the path from
that ancestor up to the head, cut at the last height asked for. -/
structure Walked (ledger : Ledger) (head base : BlockId) (last : Nat)
    (seen : List (BlockId × Header)) (tip : BlockId) : Prop where
  path : ledger.tree.Path base (ids seen).reverse tip
  below : ledger.Descends head tip
  height : ledger.seqno tip = min last (ledger.seqno head)
  stored : Stored ledger seen

theorem Walked.pathUp (walked : Walked ledger head base last seen tip) :
    ledger.tree.Path base (ids seen.reverse) tip := by
  rw [ids, List.map_reverse]
  exact walked.path

theorem Walked.storedUp (walked : Walked ledger head base last seen tip) :
    Stored ledger seen.reverse :=
  fun entry member => walked.stored entry (List.mem_reverse.mp member)

theorem walk_path {fuel : Nat} (bounded : ledger.seqno base ≤ last)
    (found : ledger.header head = some h) (enough : h.seqno < fuel)
    (below : ledger.Descends head base) :
    ∃ seen tip, walk ledger (ledger.seqno base) last fuel head = some seen ∧
      Walked ledger head base last seen tip := by
  -- One more header in the walk is one more block at the upper end of the path.
  induction fuel generalizing head h with
  | zero => exact absurd enough (Nat.not_lt_zero _)
  | succ fuel ih =>
    have headHeight := Ledger.seqno_eq found
    have above := below.height_le
    change ledger.seqno base ≤ ledger.seqno head at above
    by_cases low : h.seqno ≤ ledger.seqno base + 1
    · rw [walk_stop _ _ _ found low]
      by_cases taken : ledger.seqno base < h.seqno ∧ h.seqno ≤ last
      · rw [if_pos taken]
        have link := ledger.parent_eq found (by omega)
        have up := ledger.seqno_parent link
        have rest := below.of_parent (show ledger.tree.parent head = some h.parentId from link)
          (show ledger.seqno base < ledger.seqno head by omega)
        have same : h.parentId = base := rest.eq_of_height
          (show ledger.seqno h.parentId ≤ ledger.seqno base by omega)
        refine ⟨_, head, rfl, ?_, .refl _, by omega, ?_⟩
        · exact .cons (same ▸ link) (.nil _)
        · exact List.forall_mem_singleton.mpr found
      · rw [if_neg taken]
        exact ⟨_, base, rfl, .nil _, below, by omega, Stored.nil ledger⟩
    · rw [walk_continue _ _ _ found low]
      have link := ledger.parent_eq found (by omega)
      obtain ⟨parent, stored, next⟩ := ledger.linked head h found (by omega)
      have parentHeight := Ledger.seqno_eq stored
      have rest := below.of_parent (show ledger.tree.parent head = some h.parentId from link)
        (show ledger.seqno base < ledger.seqno head by omega)
      obtain ⟨seen, tip, walked, result⟩ := ih stored (by omega) rest
      rw [walked]
      have tipHeight := result.height
      by_cases taken : ledger.seqno base < h.seqno ∧ h.seqno ≤ last
      · rw [if_pos taken]
        have same : h.parentId = tip := result.below.eq_of_height
          (show ledger.seqno h.parentId ≤ ledger.seqno tip by omega)
        refine ⟨_, head, rfl, ?_, .refl _, by omega, ?_⟩
        · have grown := result.path.append (.cons (same ▸ link) (.nil head))
          simpa [ids] using grown
        · exact List.forall_mem_cons.mpr ⟨found, result.stored⟩
      · rw [if_neg taken]
        exact ⟨_, tip, rfl, result.path, .step link result.below, by omega, result.stored⟩

def Ledger.Reachable (ledger : Ledger) (head : BlockId) : Prop :=
  head = 0 ∨ ∃ h, ledger.header head = some h

theorem Ledger.zero_seqno (ledger : Ledger) : ledger.seqno 0 = 0 := by
  rw [Ledger.seqno, ledger.zero_absent]
  rfl

theorem forEachHeader_path (last : Nat) (reachable : ledger.Reachable head)
    (bounded : ledger.seqno base ≤ last) (below : ledger.Descends head base) :
    ∃ seen tip, forEachHeader ledger head (ledger.seqno base) last = some seen ∧
      Walked ledger head base last seen tip := by
  by_cases absent : head = 0
  · subst absent
    have level := below.height_le
    have same : 0 = base := below.eq_of_height
      (show ledger.seqno 0 ≤ ledger.seqno base by rw [ledger.zero_seqno]; omega)
    subst same
    refine ⟨[], 0, by simp [forEachHeader], .nil _, .refl _, ?_, Stored.nil ledger⟩
    rw [ledger.zero_seqno, Nat.min_eq_right (Nat.zero_le _)]
  · rcases reachable with zero | ⟨h, found⟩
    · exact absurd zero absent
    · rw [forEachHeader, if_neg absent]
      exact walk_path bounded found (by rw [Ledger.seqno_eq found]; omega) below

theorem forEachHeader_low {start : Nat} (last : Nat) (reachable : ledger.Reachable head)
    (low : ledger.seqno head ≤ start) :
    forEachHeader ledger head start last = some [] := by
  rcases reachable with rfl | ⟨h, found⟩
  · rfl
  · rw [Ledger.seqno_eq found] at low
    rw [forEachHeader]
    split
    · rfl
    · rw [walk_stop _ _ _ found (by omega), if_neg (by omega)]

end MonadChain.Runloop
