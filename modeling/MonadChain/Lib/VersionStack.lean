import Mathlib.Data.List.Basic
import Mathlib.Order.Basic

/-!
Stacks of versions: the values of one object in a run of nested frames, of which only those are
stored that a frame has written. `view level` is the value that the frame `level` sees; the
operations of the stack are stated through it. `versions` are the frames that have written.
-/

namespace MonadChain

open List

/-- The stack is never empty: it has a top, and older entries below. -/
structure VersionStack (T : Type) where
  top : Nat × T
  older : List (Nat × T)

namespace VersionStack

variable {T : Type} {entry : Nat × T} {level : Nat}

def start (value : T) (version : Nat) : VersionStack T := ⟨(version, value), []⟩

def size (stack : VersionStack T) : Nat := stack.older.length + 1

def version (stack : VersionStack T) : Nat := stack.top.1

def recent (stack : VersionStack T) : T := stack.top.2

def current (version : Nat) (stack : VersionStack T) : VersionStack T :=
  if stack.top.1 < version then ⟨(version, stack.top.2), stack.top :: stack.older⟩ else stack

/-- An assignment through the reference that `recent` or `current` returned. -/
def assign (value : T) (stack : VersionStack T) : VersionStack T :=
  { stack with top := (stack.top.1, value) }

def popAccept (version : Nat) (stack : VersionStack T) : VersionStack T :=
  if version = stack.top.1 then
    match stack.older with
    | (below, _) :: rest =>
      if below + 1 = stack.top.1 then ⟨(below, stack.top.2), rest⟩
      else ⟨(version - 1, stack.top.2), stack.older⟩
    | [] => ⟨(version - 1, stack.top.2), []⟩
  else stack

/-- `pop_reject`; `none` is a stack that has become empty. -/
def popReject (version : Nat) (stack : VersionStack T) : Option (VersionStack T) :=
  if version = stack.top.1 then
    match stack.older with
    | below :: rest => some ⟨below, rest⟩
    | [] => none
  else some stack

def entries (stack : VersionStack T) : List (Nat × T) := stack.top :: stack.older

/-- The newest value that is not newer than the level. -/
def viewOf (level : Nat) (entries : List (Nat × T)) : Option T :=
  (entries.find? fun entry => decide (entry.1 ≤ level)).map Prod.snd

def view (level : Nat) (stack : VersionStack T) : Option T := viewOf level stack.entries

def versions (stack : VersionStack T) : List Nat := stack.entries.map Prod.fst

theorem viewOf_cons_le {rest : List (Nat × T)} (below : entry.1 ≤ level) :
    viewOf level (entry :: rest) = some entry.2 := by
  simp [viewOf, below]

theorem viewOf_cons_gt {rest : List (Nat × T)} (above : level < entry.1) :
    viewOf level (entry :: rest) = viewOf level rest := by
  simp [viewOf, Nat.not_le.mpr above]

theorem view_top {stack : VersionStack T} (below : stack.version ≤ level) :
    stack.view level = some stack.recent := viewOf_cons_le below

theorem view_older {stack : VersionStack T} (above : level < stack.version) :
    stack.view level = viewOf level stack.older := viewOf_cons_gt above

section Operations

variable {stack : VersionStack T} {level version : Nat} {rest : List Nat}

theorem version_of_versions {first : Nat} (known : stack.versions = first :: rest) :
    stack.version = first :=
  (cons.inj known).1

theorem versions_current (bounded : stack.version ≤ version) :
    (stack.current version).versions =
      if stack.version = version then stack.versions else version :: stack.versions := by
  unfold current
  split
  · rename_i newer
    rw [if_neg (show stack.version ≠ version from Nat.ne_of_lt newer)]
    rfl
  · rename_i old
    rw [if_pos (Nat.le_antisymm bounded (Nat.not_lt.mp old))]

theorem versions_popAccept (known : stack.versions = (version + 1) :: rest) :
    (stack.popAccept (version + 1)).versions =
      if rest.head? = some version then rest else version :: rest := by
  obtain ⟨⟨top, value⟩, older⟩ := stack
  obtain ⟨same, tail⟩ := cons.inj known
  subst same
  subst tail
  cases older with
  | nil => simp [popAccept, versions, entries]
  | cons below others =>
    obtain ⟨lower, kept⟩ := below
    by_cases adjacent : lower = version
    · subst adjacent
      simp [popAccept, versions, entries]
    · simp [popAccept, versions, entries, adjacent]

theorem popReject_none (known : stack.versions = [version]) : stack.popReject version = none := by
  obtain ⟨⟨top, value⟩, older⟩ := stack
  obtain ⟨same, tail⟩ := cons.inj known
  have empty : older = [] := map_eq_nil_iff.mp tail
  subst empty
  subst same
  simp [popReject]

theorem popReject_some {next : Nat} (known : stack.versions = version :: next :: rest) :
    ∃ below, stack.popReject version = some below ∧ below.versions = next :: rest := by
  obtain ⟨⟨top, value⟩, older⟩ := stack
  obtain ⟨same, tail⟩ := cons.inj known
  subst same
  cases older with
  | nil => cases tail
  | cons below others => exact ⟨⟨below, others⟩, by simp [popReject], tail⟩

theorem view_start (value : T) :
    (start value version).view level = if version ≤ level then some value else none := by
  by_cases below : version ≤ level
  · rw [if_pos below]
    exact viewOf_cons_le below
  · rw [if_neg below]
    exact viewOf_cons_gt (Nat.not_le.mp below)

theorem version_current (bounded : stack.version ≤ version) :
    (stack.current version).version = version := by
  unfold current
  split
  · rfl
  · rename_i old
    exact Nat.le_antisymm bounded (Nat.not_lt.mp old)

theorem recent_current : (stack.current version).recent = stack.recent := by
  unfold current
  split <;> rfl

theorem view_current : (stack.current version).view level = stack.view level := by
  unfold current
  split
  · rename_i newer
    by_cases below : version ≤ level
    · rw [view_top (show VersionStack.version ⟨(version, stack.top.2), _⟩ ≤ level from below),
        view_top (Nat.le_trans (Nat.le_of_lt newer) below)]
      rfl
    · exact viewOf_cons_gt (Nat.not_le.mp below)
  · rfl

theorem view_assign {value : T} :
    (stack.assign value).view level =
      if stack.version ≤ level then some value else stack.view level := by
  by_cases below : stack.version ≤ level
  · rw [if_pos below]
    exact viewOf_cons_le below
  · rw [if_neg below, view_older (Nat.not_le.mp below)]
    exact viewOf_cons_gt (Nat.not_le.mp below)

theorem view_popAccept (bounded : stack.version ≤ version) (inside : level < version) :
    (stack.popAccept version).view level =
      if level + 1 = version then stack.view version else stack.view level := by
  obtain ⟨⟨top, value⟩, older⟩ := stack
  have whole : view version ⟨(top, value), older⟩ = some value := view_top bounded
  dsimp only [VersionStack.version] at bounded
  unfold popAccept
  by_cases same : version = top
  · subst same
    have skip : view level ⟨(version, value), older⟩ = viewOf level older := view_older inside
    rw [if_pos rfl, whole, skip]
    -- The relabelled top is seen exactly by the level below the frame.
    have relabelled : view level ⟨(version - 1, value), older⟩ =
        if level + 1 = version then some value else viewOf level older := by
      by_cases last : level + 1 = version
      · rw [if_pos last]
        exact view_top (show version - 1 ≤ level by omega)
      · rw [if_neg last]
        exact view_older (show level < version - 1 by omega)
    cases older with
    | nil => exact relabelled
    | cons below rest =>
      obtain ⟨lower, kept⟩ := below
      dsimp only
      by_cases adjacent : lower + 1 = version
      · rw [if_pos adjacent]
        by_cases last : level + 1 = version
        · rw [if_pos last]
          exact view_top (show lower ≤ level by omega)
        · rw [if_neg last, viewOf_cons_gt (show level < lower by omega)]
          exact view_older (show level < lower by omega)
      · rw [if_neg adjacent]
        exact relabelled
  · rw [if_neg same, whole]
    by_cases last : level + 1 = version
    · rw [if_pos last]
      exact view_top (show top ≤ level by omega)
    · rw [if_neg last]

theorem view_popReject (inside : level < version) :
    (stack.popReject version).bind (·.view level) = stack.view level := by
  obtain ⟨⟨top, value⟩, older⟩ := stack
  unfold popReject
  by_cases same : version = top
  · subst same
    rw [if_pos rfl, view_older inside]
    cases older <;> rfl
  · rw [if_neg same]
    rfl

theorem mem_popAccept (member : entry ∈ (stack.popAccept version).entries) :
    ∃ old ∈ stack.entries, old.2 = entry.2 := by
  obtain ⟨⟨top, value⟩, older⟩ := stack
  have first : ∃ old ∈ entries ⟨(top, value), older⟩, old.2 = value :=
    ⟨(top, value), mem_cons_self, rfl⟩
  unfold popAccept at member
  split at member
  · cases older with
    | nil =>
      rcases mem_cons.mp member with rfl | inner
      · exact first
      · cases inner
    | cons below rest =>
      dsimp only at member
      split at member
      · rcases mem_cons.mp member with rfl | inner
        · exact first
        · exact ⟨entry, mem_cons_of_mem _ (mem_cons_of_mem _ inner), rfl⟩
      · rcases mem_cons.mp member with rfl | inner
        · exact first
        · exact ⟨entry, mem_cons_of_mem _ inner, rfl⟩
  · exact ⟨entry, member, rfl⟩

theorem mem_popReject {rest : VersionStack T} (popped : stack.popReject version = some rest)
    (member : entry ∈ rest.entries) : entry ∈ stack.entries := by
  obtain ⟨⟨top, value⟩, older⟩ := stack
  unfold popReject at popped
  split at popped
  · cases older with
    | nil => cases popped
    | cons below others =>
      cases popped
      exact mem_cons_of_mem _ member
  · cases popped
    exact member

theorem mem_current (member : entry ∈ (stack.current version).entries) :
    ∃ old ∈ stack.entries, old.2 = entry.2 := by
  unfold current at member
  split at member
  · rcases mem_cons.mp member with rfl | inner
    · exact ⟨stack.top, mem_cons_self, rfl⟩
    · exact ⟨entry, inner, rfl⟩
  · exact ⟨entry, member, rfl⟩

theorem popAccept_of_lt (older : stack.version < version) : stack.popAccept version = stack :=
  if_neg (Nat.ne_of_gt older)

theorem popReject_of_lt (older : stack.version < version) :
    stack.popReject version = some stack := if_neg (Nat.ne_of_gt older)

end Operations

section Map

variable {S : Type}

def map (change : T → S) (stack : VersionStack T) : VersionStack S :=
  ⟨(stack.top.1, change stack.top.2), stack.older.map fun entry => (entry.1, change entry.2)⟩

variable (change : T → S) (stack : VersionStack T) (version : Nat)

theorem map_id (stack : VersionStack T) : stack.map id = stack := by
  simp [map]

theorem map_of_single (change : T → T) {stack : VersionStack T} (single : stack.size = 1) :
    stack.map change = stack.assign (change stack.recent) := by
  obtain ⟨top, older⟩ := stack
  have empty : older = [] := length_eq_zero_iff.mp (Nat.succ.inj single)
  subst empty
  rfl

@[simp] theorem size_map : (stack.map change).size = stack.size := by
  simp [size, map]

@[simp] theorem version_map : (stack.map change).version = stack.version := rfl

@[simp] theorem recent_map : (stack.map change).recent = change stack.recent := rfl

theorem current_map : (stack.map change).current version = (stack.current version).map change := by
  unfold current
  by_cases newer : stack.top.1 < version
  · rw [if_pos newer, if_pos (show (stack.map change).top.1 < version from newer)]
    rfl
  · rw [if_neg newer, if_neg (show ¬(stack.map change).top.1 < version from newer)]

theorem popAccept_map :
    (stack.map change).popAccept version = (stack.popAccept version).map change := by
  obtain ⟨⟨top, value⟩, older⟩ := stack
  by_cases same : version = top
  · cases older with
    | nil => simp [popAccept, map, same]
    | cons below rest =>
      by_cases adjacent : below.1 + 1 = top
      · simp [popAccept, map, same, adjacent]
      · simp [popAccept, map, same, adjacent]
  · simp [popAccept, map, same]

theorem popReject_map :
    (stack.map change).popReject version = (stack.popReject version).map (·.map change) := by
  obtain ⟨⟨top, value⟩, older⟩ := stack
  unfold popReject
  by_cases same : version = top
  · rw [if_pos same, if_pos (show version = (map change ⟨(top, value), older⟩).top.1 from same)]
    cases older <;> rfl
  · rw [if_neg same, if_neg (show ¬version = (map change ⟨(top, value), older⟩).top.1 from same)]
    rfl

end Map

structure Based (stack : VersionStack T) (level : Nat) : Prop where
  descending : stack.versions.Pairwise (· > ·)
  base : stack.versions.getLast? = some 0
  top : stack.version ≤ level

section Based

variable {stack : VersionStack T} {level : Nat}

theorem based_start (value : T) : (start value 0).Based 0 :=
  ⟨pairwise_singleton _ _, rfl, Nat.le_refl 0⟩

theorem Based.mono (based : stack.Based level) {above : Nat} (le : level ≤ above) :
    stack.Based above :=
  ⟨based.descending, based.base, Nat.le_trans based.top le⟩

theorem Based.current (based : stack.Based level) : (stack.current level).Based level := by
  have versions := versions_current based.top
  refine ⟨?_, ?_, Nat.le_of_eq (version_current based.top)⟩
  · rw [versions]
    split
    · exact based.descending
    · rename_i older
      refine pairwise_cons.mpr ⟨?_, based.descending⟩
      intro entry member
      have below : entry ≤ stack.version := by
        rcases mem_cons.mp member with rfl | inner
        · exact Nat.le_refl _
        · exact Nat.le_of_lt ((pairwise_cons.mp based.descending).1 entry inner)
      exact Nat.lt_of_le_of_lt below (Nat.lt_of_le_of_ne based.top older)
  · rw [versions]
    split
    · exact based.base
    · exact (getLast?_cons_of_ne_nil (cons_ne_nil _ _)).trans based.base

theorem Based.assign (based : stack.Based level) (value : T) : (stack.assign value).Based level :=
  ⟨based.descending, based.base, based.top⟩

section

variable (based : stack.Based (level + 1))

include based

theorem Based.older (same : stack.version = level + 1) :
    ∃ next rest, stack.versions = (level + 1) :: next :: rest := by
  obtain ⟨⟨top, value⟩, older⟩ := stack
  subst same
  cases older with
  | nil =>
    have base := based.base
    cases base
  | cons below rest => exact ⟨below.1, rest.map Prod.fst, rfl⟩

theorem Based.popAccept : (stack.popAccept (level + 1)).Based level := by
  by_cases same : stack.version = level + 1
  · obtain ⟨next, rest, shape⟩ := based.older same
    have accepted := versions_popAccept shape
    have descending := based.descending
    have base := based.base
    rw [shape] at descending base
    obtain ⟨first, inner⟩ := pairwise_cons.mp descending
    have lower : next < level + 1 := first next mem_cons_self
    by_cases adjacent : next = level
    · rw [head?_cons, if_pos (congrArg some adjacent)] at accepted
      refine ⟨accepted ▸ inner, accepted ▸ base, ?_⟩
      rw [version_of_versions accepted]
      exact Nat.le_of_eq adjacent
    · rw [head?_cons, if_neg fun equal => adjacent (Option.some.inj equal)] at accepted
      refine ⟨?_, ?_, ?_⟩
      · rw [accepted]
        refine pairwise_cons.mpr ⟨?_, inner⟩
        intro entry member
        have bound : entry ≤ next := by
          rcases mem_cons.mp member with rfl | deeper
          · exact Nat.le_refl _
          · exact Nat.le_of_lt ((pairwise_cons.mp inner).1 entry deeper)
        exact Nat.lt_of_le_of_lt bound (Nat.lt_of_le_of_ne (Nat.le_of_lt_succ lower) adjacent)
      · rw [accepted, getLast?_cons_of_ne_nil (cons_ne_nil _ _)]
        exact base
      · exact Nat.le_of_eq (version_of_versions accepted)
  · have older : stack.version < level + 1 := Nat.lt_of_le_of_ne based.top same
    rw [popAccept_of_lt older]
    exact ⟨based.descending, based.base, Nat.le_of_lt_succ older⟩

theorem Based.popReject : ∃ rest, stack.popReject (level + 1) = some rest ∧ rest.Based level := by
  by_cases same : stack.version = level + 1
  · obtain ⟨next, others, shape⟩ := based.older same
    obtain ⟨rest, popped, versions⟩ := popReject_some shape
    have descending := based.descending
    have base := based.base
    rw [shape] at descending base
    obtain ⟨first, inner⟩ := pairwise_cons.mp descending
    refine ⟨rest, popped, versions ▸ inner, versions ▸ base, ?_⟩
    rw [version_of_versions versions]
    exact Nat.le_of_lt_succ (first next mem_cons_self)
  · have older : stack.version < level + 1 := Nat.lt_of_le_of_ne based.top same
    exact ⟨stack, popReject_of_lt older, based.descending, based.base, Nat.le_of_lt_succ older⟩

end

end Based

end VersionStack

end MonadChain
