import MonadChain.Execution.Journal

/-!
The journal of the code refines whole copies. The invariant ties the versions of every stack to
the frames that have written the account; a copy is what its frame sees of the stacks.
-/

namespace MonadChain.Execution

open VersionJournal Option AList List VersionStack

variable {dirty rest : List (List Address)} {level : Nat} {frame accounts : List Address}
  {other : Address} {stack : VersionStack AccountState} {address : Address}
  {journal : VersionJournal}

def levels (address : Address) : List (List Address) → List Nat
  | [] => []
  | frame :: rest =>
    if address ∈ frame then (rest.length + 1) :: levels address rest else levels address rest

theorem levels_le (member : level ∈ levels address dirty) : level ≤ dirty.length := by
  induction dirty with
  | nil => cases member
  | cons frame rest ih =>
    unfold levels at member
    split at member
    · rcases mem_cons.mp member with rfl | inner
      · exact Nat.le_refl _
      · exact Nat.le_succ_of_le (ih inner)
    · exact Nat.le_succ_of_le (ih member)

theorem levels_cons_mem (member : address ∈ frame) :
    levels address (frame :: rest) = (rest.length + 1) :: levels address rest := if_pos member

theorem levels_cons_not_mem (absent : address ∉ frame) :
    levels address (frame :: rest) = levels address rest := if_neg absent

@[simp] theorem length_mark (address : Address) (dirty : List (List Address)) :
    (mark address dirty).length = dirty.length := by
  cases dirty <;> rfl

theorem levels_mark_ne (apart : other ≠ address) (dirty : List (List Address)) :
    levels other (mark address dirty) = levels other dirty := by
  cases dirty with
  | nil => rfl
  | cons frame rest => simp [mark, levels, apart]

theorem levels_mark (address : Address) (frame : List Address) (rest : List (List Address)) :
    levels address (mark address (frame :: rest)) = (rest.length + 1) :: levels address rest :=
  levels_cons_mem (mem_insert_self ..)

theorem nodup_mark (distinct : ∀ frame ∈ dirty, frame.Nodup) :
    ∀ frame ∈ mark address dirty, frame.Nodup := by
  cases dirty with
  | nil => exact distinct
  | cons first rest =>
    intro frame member
    rcases mem_cons.mp member with rfl | inner
    · exact (distinct first mem_cons_self).insert
    · exact distinct frame (mem_cons_of_mem _ inner)

@[simp] theorem length_markAll (accounts : List Address) (dirty : List (List Address)) :
    (markAll accounts dirty).length = dirty.length := by
  induction accounts generalizing dirty with
  | nil => rfl
  | cons first rest ih => exact (ih (mark first dirty)).trans (length_mark first dirty)

theorem markAll_nil (accounts : List Address) : markAll accounts [] = [] := by
  induction accounts with
  | nil => rfl
  | cons first rest ih => exact ih

theorem nodup_markAll (distinct : ∀ frame ∈ dirty, frame.Nodup) :
    ∀ frame ∈ markAll accounts dirty, frame.Nodup := by
  induction accounts generalizing dirty with
  | nil => exact distinct
  | cons first rest ih => exact ih (nodup_mark distinct)

theorem levels_markAll_not_mem (absent : other ∉ accounts) (dirty : List (List Address)) :
    levels other (markAll accounts dirty) = levels other dirty := by
  induction accounts generalizing dirty with
  | nil => rfl
  | cons first rest ih =>
    have apart : other ≠ first := fun same => absent (same ▸ mem_cons_self)
    have still : other ∉ rest := fun member => absent (mem_cons_of_mem _ member)
    exact (ih still (mark first dirty)).trans (levels_mark_ne apart dirty)

theorem markAll_cons (accounts frame : List Address) (rest : List (List Address)) :
    ∃ marked, markAll accounts (frame :: rest) = marked :: rest ∧
      ∀ address, address ∈ marked ↔ address ∈ accounts ∨ address ∈ frame := by
  induction accounts generalizing frame with
  | nil => exact ⟨frame, rfl, by simp⟩
  | cons first others ih =>
    obtain ⟨marked, shape, members⟩ := ih (frame.insert first)
    refine ⟨marked, shape, ?_⟩
    intro address
    rw [members, mem_insert_iff, mem_cons]
    tauto

theorem levels_markAll_mem (member : address ∈ accounts) (frame : List Address)
    (rest : List (List Address)) :
    levels address (markAll accounts (frame :: rest)) =
      (rest.length + 1) :: levels address rest := by
  obtain ⟨marked, shape, members⟩ := markAll_cons accounts frame rest
  rw [shape]
  exact levels_cons_mem ((members address).mpr (Or.inl member))

/-- The entries of an account are those of the frames that have written it, and possibly one
of the transaction itself. -/
def Labelled (stack : VersionStack AccountState) (written : List Nat) : Prop :=
  stack.versions = written ∨ stack.versions = written ++ [0]

structure VersionJournal.Sound (journal : VersionJournal) : Prop where
  depth : journal.dirty.length = journal.version
  distinct : ∀ frame ∈ journal.dirty, frame.Nodup
  labelled : ∀ address stack, journal.current.lookup address = some stack →
    Labelled stack (levels address journal.dirty)
  missing : ∀ address, journal.current.lookup address = none → levels address journal.dirty = []
  logged : journal.logs.Based journal.version

theorem Labelled.version_le (labelled : Labelled stack (levels address dirty)) :
    stack.version ≤ dirty.length := by
  have first : stack.version ∈ stack.versions := mem_cons_self
  rcases labelled with only | more
  · exact levels_le (only ▸ first)
  · rw [more] at first
    rcases mem_append.mp first with inner | zero
    · exact levels_le inner
    · rw [mem_singleton.mp zero]
      exact Nat.zero_le _

theorem VersionJournal.Sound.version_le (sound : journal.Sound)
    (found : journal.current.lookup address = some stack) : stack.version ≤ journal.version :=
  sound.depth ▸ (sound.labelled address stack found).version_le

def AgreeAt (journal : VersionJournal) (level : Nat) (copy : Copy) : Prop :=
  (∀ address, copy.accounts.lookup address =
    (journal.current.lookup address).bind (·.view level)) ∧
  journal.logs.view level = some copy.logs

def Below (journal : VersionJournal) : Nat → List Copy → Prop
  | 0, [] => True
  | level + 1, copy :: rest => AgreeAt journal level copy ∧ Below journal level rest
  | _, _ => False

structure Refines (journal : VersionJournal) (image : CopyJournal) : Prop where
  sound : journal.Sound
  top : AgreeAt journal journal.version image.now
  below : Below journal journal.version image.saved

theorem Below.mono {journal after : VersionJournal} {copies : List Copy}
    (same : ∀ lower < level, ∀ copy, AgreeAt journal lower copy → AgreeAt after lower copy)
    (below : Below journal level copies) : Below after level copies := by
  induction level generalizing copies with
  | zero =>
    cases copies with
    | nil => trivial
    | cons copy rest => exact below
  | succ level ih =>
    cases copies with
    | nil => exact below
    | cons copy rest =>
      refine ⟨same level (Nat.lt_succ_self level) copy below.1, ?_⟩
      exact ih (fun lower inside => same lower (Nat.lt_succ_of_lt inside)) below.2

theorem Refines.saved_nil_iff {image : CopyJournal} (refines : Refines journal image) :
    image.saved = [] ↔ journal.version = 0 := by
  have below := refines.below
  cases level : journal.version with
  | zero =>
    rw [level] at below
    cases saved : image.saved with
    | nil => simp
    | cons copy rest =>
      rw [saved] at below
      exact below.elim
  | succ lower =>
    rw [level] at below
    cases saved : image.saved with
    | nil =>
      rw [saved] at below
      exact below.elim
    | cons copy rest => simp

theorem Refines.lookup {image : CopyJournal} (refines : Refines journal image) (address : Address) :
    image.now.accounts.lookup address = (journal.current.lookup address).map (·.recent) := by
  rw [refines.top.1 address]
  cases found : journal.current.lookup address with
  | none => rfl
  | some stack => exact view_top (refines.sound.version_le found)

section Write

variable {journal : VersionJournal} {image : CopyJournal} {address : Address}
  (fallback : AccountState)

theorem enter_versions (sound : journal.Sound) (fallback : AccountState) :
    Labelled (journal.enter address fallback) (levels address (mark address journal.dirty)) := by
  have depth := sound.depth
  cases found : journal.current.lookup address with
  | none =>
    have fresh : (journal.enter address fallback).versions = [journal.version] := by
      unfold enter
      rw [found]
      exact (versions_current (Nat.le_refl _)).trans (if_pos rfl)
    have empty := sound.missing address found
    cases shape : journal.dirty with
    | nil =>
      rw [shape] at depth
      refine Or.inr ?_
      rw [fresh, ← depth]
      rfl
    | cons frame rest =>
      refine Or.inl ?_
      rw [shape] at depth empty
      have absent : address ∉ frame := by
        intro member
        rw [levels_cons_mem member] at empty
        cases empty
      rw [levels_cons_not_mem absent] at empty
      rw [levels_mark, empty, fresh, ← depth]
      rfl
  | some stack =>
    have bounded := sound.version_le found
    have labelled := sound.labelled address stack found
    have entered : (journal.enter address fallback).versions =
        if stack.version = journal.version then stack.versions
        else journal.version :: stack.versions := by
      simp only [enter, found, getD_some]
      exact versions_current bounded
    cases shape : journal.dirty with
    | nil =>
      rw [shape] at depth labelled
      have zero : stack.version = journal.version :=
        Nat.le_antisymm bounded (depth ▸ Nat.zero_le _)
      rw [if_pos zero] at entered
      exact labelled.imp entered.trans entered.trans
    | cons frame rest =>
      rw [shape] at depth labelled
      rw [levels_mark]
      by_cases member : address ∈ frame
      · rw [levels_cons_mem member] at labelled
        have same : stack.version = journal.version := by
          rw [← depth]
          exact labelled.elim version_of_versions
            version_of_versions
        rw [if_pos same] at entered
        exact labelled.imp entered.trans entered.trans
      · rw [levels_cons_not_mem member] at labelled
        have lower : stack.version ≠ journal.version := by
          have inner := labelled.version_le
          have whole : rest.length + 1 = journal.version := depth
          omega
        rw [if_neg lower, ← depth] at entered
        refine labelled.imp (fun only => ?_) (fun more => ?_)
        · rw [entered, only]
          rfl
        · rw [entered, more]
          rfl

theorem sound_put (sound : journal.Sound)
    (labelled : Labelled stack (levels address (mark address journal.dirty))) :
    (journal.put address stack).Sound where
  depth := (length_mark address journal.dirty).trans sound.depth
  distinct := nodup_mark sound.distinct
  labelled := by
    intro other kept found
    grind [put, lookup_insert_ite, levels_mark_ne, sound.labelled other kept]
  missing := by
    intro other found
    grind [put, lookup_insert_ite, levels_mark_ne, sound.missing other]
  logged := sound.logged

theorem refines_put (refines : Refines journal image)
    (labelled : Labelled stack (levels address (mark address journal.dirty)))
    (lower : ∀ level < journal.version,
      stack.view level = (journal.current.lookup address).bind (·.view level)) :
    Refines (journal.put address stack) (image.write address stack.recent) where
  sound := sound_put refines.sound labelled
  top := by
    have bounded : stack.version ≤ journal.version :=
      refines.sound.depth ▸ length_mark address journal.dirty ▸ labelled.version_le
    refine ⟨?_, refines.top.2⟩
    intro other
    grind [put, CopyJournal.write, lookup_insert_ite, view_top bounded, refines.top.1 other]
  below := by
    refine Below.mono ?_ refines.below
    intro level inside copy agrees
    refine ⟨?_, agrees.2⟩
    intro other
    grind [put, lookup_insert_ite, agrees.1 other]

theorem enter_view (inside : level < journal.version) :
    (journal.enter address fallback).view level =
      (journal.current.lookup address).bind (·.view level) := by
  unfold enter
  rw [view_current]
  cases journal.current.lookup address with
  | none => exact (view_start fallback).trans (if_neg (Nat.not_le.mpr inside))
  | some stack => rfl

theorem enter_recent (refines : Refines journal image) (fallback : AccountState) :
    (journal.enter address fallback).recent =
      (image.now.accounts.lookup address).getD fallback := by
  unfold enter
  rw [recent_current, refines.lookup address]
  cases journal.current.lookup address <;> rfl

theorem enter_version (sound : journal.Sound) (fallback : AccountState) :
    (journal.enter address fallback).version = journal.version := by
  refine version_current ?_
  cases found : journal.current.lookup address with
  | none => exact Nat.le_refl _
  | some stack => exact sound.version_le found

theorem enter_of_some (found : journal.current.lookup address = some stack) :
    journal.enter address fallback = stack.current journal.version := by
  unfold enter
  rw [found]
  rfl

theorem current_agrees (refines : Refines journal image) (fallback : AccountState) :
    Program.Agree Refines (handler (.current address fallback) journal)
      (CopyJournal.handler (.current address fallback) image) := by
  refine ⟨enter_recent refines fallback, ?_⟩
  rw [← enter_recent refines fallback]
  exact refines_put refines (enter_versions refines.sound fallback)
    fun level inside => enter_view fallback inside

theorem modify_agrees (refines : Refines journal image) (change : AccountState → AccountState) :
    Program.Agree Refines (handler (.modify address change) journal)
      (CopyJournal.handler (.modify address change) image) := by
  have same := refines.lookup address
  cases found : journal.current.lookup address with
  | none =>
    simp only [handler, CopyJournal.handler, found, same]
    rfl
  | some stack =>
    simp only [handler, CopyJournal.handler, found, same, map_some]
    refine ⟨rfl, ?_⟩
    have entered := enter_of_some stack.recent found
    have kept : (stack.current journal.version).recent = stack.recent :=
      recent_current
    have labelled : Labelled ((journal.enter address stack.recent).assign (change stack.recent))
        (levels address (mark address journal.dirty)) :=
      enter_versions refines.sound stack.recent
    rw [kept, ← entered]
    refine refines_put refines labelled ?_
    intro level inside
    rw [view_assign, enter_version refines.sound, if_neg (Nat.not_le.mpr inside)]
    exact enter_view stack.recent inside

end Write

section Frames

variable {journal : VersionJournal} {image : CopyJournal}

theorem push_agrees (refines : Refines journal image) :
    Program.Agree Refines (handler .push journal) (CopyJournal.handler .push image) := by
  obtain ⟨sound, top, below⟩ := refines
  simp only [handler, push, CopyJournal.handler, sound.depth, ne_eq, not_true_eq_false, if_false]
  refine ⟨rfl, ?_, ?_, top, ?_⟩
  · constructor
    · exact congrArg Nat.succ sound.depth
    · intro frame member
      rcases mem_cons.mp member with rfl | inner
      · exact nodup_nil
      · exact sound.distinct frame inner
    · intro address stack found
      exact sound.labelled address stack found
    · intro address found
      exact sound.missing address found
    · exact sound.logged.mono (Nat.le_succ _)
  · -- The new frame sees what the frame below it sees.
    constructor
    · intro address
      rw [top.1 address]
      cases found : journal.current.lookup address with
      | none => rfl
      | some stack =>
        have bounded := sound.version_le found
        exact (view_top bounded).trans
          (view_top (Nat.le_succ_of_le bounded)).symm
    · rw [← top.2]
      exact (view_top (Nat.le_succ_of_le sound.logged.top)).trans
        (view_top sound.logged.top).symm
  · refine Below.mono ?_ below
    intro lower inside copy agrees
    exact agrees

section

variable (sound : journal.Sound)

include sound

theorem open_frame {lower : Nat} (level : journal.version = lower + 1) :
    ∃ frame rest, journal.dirty = frame :: rest ∧ rest.length = lower := by
  have depth := sound.depth
  rw [level] at depth
  cases shape : journal.dirty with
  | nil =>
    rw [shape] at depth
    cases depth
  | cons frame rest =>
    rw [shape] at depth
    exact ⟨frame, rest, rfl, Nat.succ.inj depth⟩

section

variable (shape : journal.dirty = frame :: rest)

include shape

theorem written_entry (member : address ∈ frame) :
    ∃ stack tail, journal.current.lookup address = some stack ∧
      stack.versions = journal.version :: tail ∧
      (tail = levels address rest ∨ tail = levels address rest ++ [0]) := by
  have depth := sound.depth
  have written : levels address journal.dirty = journal.version :: levels address rest := by
    rw [shape] at depth ⊢
    rw [levels_cons_mem member, ← depth]
    rfl
  cases found : journal.current.lookup address with
  | none =>
    have empty := sound.missing address found
    rw [written] at empty
    cases empty
  | some stack =>
    have labelled := sound.labelled address stack found
    rw [written] at labelled
    rcases labelled with only | more
    · exact ⟨stack, _, rfl, only, Or.inl rfl⟩
    · exact ⟨stack, _, rfl, more, Or.inr rfl⟩

theorem unwritten_entry (absent : address ∉ frame)
    (found : journal.current.lookup address = some stack) :
    Labelled stack (levels address rest) ∧ stack.version < journal.version := by
  have labelled := sound.labelled address stack found
  have depth := sound.depth
  rw [shape, levels_cons_not_mem absent] at labelled
  rw [shape] at depth
  exact ⟨labelled, depth ▸ Nat.lt_succ_of_le labelled.version_le⟩

theorem close_all (close : VersionStack AccountState → Option (VersionStack AccountState))
    (leaves : ∀ stack, stack.version < journal.version → close stack = some stack) :
    ∃ current, updateAll "it != current_.end()" (fun stack => .ok (close stack)) frame
        journal.current = .ok current ∧
      ∀ address, current.lookup address = (journal.current.lookup address).bind close := by
  have distinct := sound.distinct frame (shape ▸ mem_cons_self)
  have succeeds : ∀ address ∈ frame, ∃ stack, journal.current.lookup address = some stack ∧
      (.ok (close stack) : Except String _) = .ok (close stack) := by
    intro address member
    obtain ⟨stack, tail, found, rest⟩ := written_entry sound shape member
    exact ⟨stack, found, rfl⟩
  obtain ⟨current, ran, looks⟩ := updateAll_ok (fun stack => .ok (close stack)) close distinct
    succeeds
  refine ⟨current, ran, fun address => ?_⟩
  rw [looks address]
  by_cases member : address ∈ frame
  · rw [if_pos member]
  · rw [if_neg member]
    cases found : journal.current.lookup address with
    | none => rfl
    | some stack => exact (leaves stack (unwritten_entry sound shape member found).2).symm

theorem labelled_popAccept (found : journal.current.lookup address = some stack) :
    Labelled (stack.popAccept journal.version) (levels address (markAll frame rest)) := by
  have depth := sound.depth
  rw [shape] at depth
  by_cases member : address ∈ frame
  · obtain ⟨entry, tail, known, versions, kinds⟩ := written_entry sound shape member
    rw [found] at known
    cases known
    rw [← depth] at versions ⊢
    have accepted := versions_popAccept versions
    cases rest with
    | nil =>
      rw [markAll_nil]
      refine Or.inr (accepted.trans ?_)
      rcases kinds with rfl | rfl <;> rfl
    | cons below others =>
      rw [levels_markAll_mem member]
      by_cases again : address ∈ below
      · rw [levels_cons_mem again] at kinds
        rcases kinds with rfl | rfl
        · exact Or.inl (accepted.trans (if_pos rfl))
        · exact Or.inr (accepted.trans (if_pos rfl))
      · rw [levels_cons_not_mem again] at kinds
        -- No entry of the frame below: the accepted one is relabelled.
        have apart : tail.head? ≠ some (others.length + 1) := by
          intro head
          have first : others.length + 1 ∈ tail := mem_of_mem_head? head
          rcases kinds with rfl | rfl
          · exact Nat.not_succ_le_self _ (levels_le first)
          · rcases mem_append.mp first with inner | zero
            · exact Nat.not_succ_le_self _ (levels_le inner)
            · cases mem_singleton.mp zero
        rw [show (below :: others).length = others.length + 1 from rfl, if_neg apart] at accepted
        rcases kinds with rfl | rfl
        · exact Or.inl accepted
        · exact Or.inr accepted
  · obtain ⟨labelled, older⟩ := unwritten_entry sound shape member found
    rw [popAccept_of_lt older, levels_markAll_not_mem member]
    exact labelled

end

end

theorem Refines.opened (refines : Refines journal image) {lower : Nat}
    (level : journal.version = lower + 1) :
    ∃ frame rest copy copies, journal.dirty = frame :: rest ∧ rest.length = lower ∧
      image.saved = copy :: copies ∧ AgreeAt journal lower copy ∧ Below journal lower copies := by
  obtain ⟨frame, rest, shape, length⟩ := open_frame refines.sound level
  have below := refines.below
  rw [level] at below
  cases saved : image.saved with
  | nil =>
    rw [saved] at below
    exact below.elim
  | cons copy copies =>
    rw [saved] at below
    exact ⟨frame, rest, copy, copies, shape, length, rfl, below.1, below.2⟩

theorem popAccept_agrees (refines : Refines journal image) :
    Program.Agree Refines (handler .popAccept journal) (CopyJournal.handler .popAccept image) := by
  have sound := refines.sound
  cases level : journal.version with
  | zero =>
    have empty := refines.saved_nil_iff.mpr level
    simp only [handler, VersionJournal.popAccept, CopyJournal.handler, level, empty]
    rfl
  | succ lower =>
    obtain ⟨frame, rest, copy, copies, shape, length, saved, _, below⟩ := refines.opened level
    obtain ⟨current, ran, closed⟩ := close_all sound shape
      (fun stack => some (stack.popAccept journal.version))
      fun _ older => congrArg some (popAccept_of_lt older)
    have looks : ∀ address, current.lookup address =
        (journal.current.lookup address).map (·.popAccept journal.version) := fun address =>
      (closed address).trans (map_eq_bind ..).symm
    have top := refines.top
    have logged := sound.logged
    rw [level] at top ran looks logged
    simp only [handler, VersionJournal.popAccept, CopyJournal.handler, level, saved, length, shape,
      headD_cons, tail_cons, ran, Nat.add_one_sub_one, length_cons, Nat.add_eq_zero_iff,
      Nat.one_ne_zero, and_false, if_false, ne_eq, not_true_eq_false]
    -- A frame below sees what it saw, the frame that was below the accepted one its writes.
    have views : ∀ inner < lower + 1, ∀ older,
        AgreeAt journal (if inner + 1 = lower + 1 then lower + 1 else inner) older →
        AgreeAt ⟨current, lower, markAll frame rest, journal.logs.popAccept (lower + 1)⟩ inner
          older := by
      intro inner inside older agrees
      refine ⟨fun address => ?_, ?_⟩
      · rw [agrees.1 address, looks address]
        cases found : journal.current.lookup address with
        | none => rfl
        | some stack =>
          have bounded : stack.version ≤ lower + 1 := level ▸ sound.version_le found
          rw [map_some, bind_some, bind_some, view_popAccept bounded inside, apply_ite stack.view]
      · rw [view_popAccept logged.top inside, ← apply_ite journal.logs.view]
        exact agrees.2
    refine ⟨rfl, ⟨(length_markAll frame rest).trans length, nodup_markAll fun inner member =>
      sound.distinct inner (shape ▸ mem_cons_of_mem _ member), ?_, ?_, logged.popAccept⟩, ?_, ?_⟩
    · intro address stack found
      rw [looks address] at found
      obtain ⟨before, known, rfl⟩ := map_eq_some_iff.mp found
      rw [← level]
      exact labelled_popAccept sound shape known
    · intro address found
      rw [looks address, map_eq_none_iff] at found
      have missing := sound.missing address found
      have absent : address ∉ frame := by
        intro member
        rw [shape, levels_cons_mem member] at missing
        cases missing
      rw [shape, levels_cons_not_mem absent] at missing
      rw [levels_markAll_not_mem absent]
      exact missing
    · refine views lower (Nat.lt_succ_self lower) _ ?_
      rw [if_pos rfl]
      exact top
    · refine below.mono fun inner inside older agrees => ?_
      refine views inner (Nat.lt_succ_of_lt inside) older ?_
      rw [if_neg fun same => Nat.ne_of_lt inside (Nat.succ.inj same)]
      exact agrees

theorem popReject_entry (sound : journal.Sound) (shape : journal.dirty = frame :: rest)
    (address : Address) :
    match (journal.current.lookup address).bind (·.popReject journal.version) with
    | some stack => Labelled stack (levels address rest)
    | none => levels address rest = [] := by
  by_cases member : address ∈ frame
  · obtain ⟨stack, tail, known, versions, kinds⟩ := written_entry sound shape member
    rw [known, bind_some]
    cases tail with
    | nil =>
      rw [popReject_none versions]
      rcases kinds with only | more
      · exact only.symm
      · exact absurd more.symm (by simp)
    | cons next others =>
      obtain ⟨kept, popped, left⟩ := popReject_some versions
      rw [popped]
      exact kinds.imp left.trans left.trans
  · cases known : journal.current.lookup address with
    | none =>
      have missing := sound.missing address known
      rw [shape, levels_cons_not_mem member] at missing
      exact missing
    | some stack =>
      obtain ⟨labelled, older⟩ := unwritten_entry sound shape member known
      rw [bind_some, popReject_of_lt older]
      exact labelled

theorem popReject_agrees (refines : Refines journal image) :
    Program.Agree Refines (handler .popReject journal) (CopyJournal.handler .popReject image) := by
  have sound := refines.sound
  cases level : journal.version with
  | zero =>
    have empty := refines.saved_nil_iff.mpr level
    simp only [handler, VersionJournal.popReject, CopyJournal.handler, level, empty]
    rfl
  | succ lower =>
    obtain ⟨frame, rest, copy, copies, shape, length, saved, agrees, below⟩ := refines.opened level
    obtain ⟨current, ran, looks⟩ := close_all sound shape (·.popReject journal.version)
      fun _ older => popReject_of_lt older
    have logged := sound.logged
    rw [level] at ran looks logged
    obtain ⟨logs, popped, based⟩ := logged.popReject
    simp only [handler, VersionJournal.popReject, CopyJournal.handler, level, saved, length, shape,
      headD_cons, tail_cons, ran, Nat.add_one_sub_one, length_cons, popped, Nat.add_eq_zero_iff,
      Nat.one_ne_zero, and_false, if_false, ne_eq, not_true_eq_false]
    have views : ∀ inner < lower + 1, ∀ older, AgreeAt journal inner older →
        AgreeAt ⟨current, lower, rest, logs⟩ inner older := by
      intro inner inside older agrees
      refine ⟨?_, ?_⟩
      · intro address
        rw [agrees.1 address, looks address]
        cases journal.current.lookup address with
        | none => rfl
        | some stack => exact (view_popReject inside).symm
      · have same : (journal.logs.popReject (lower + 1)).bind (·.view inner) =
            journal.logs.view inner := view_popReject inside
        rw [popped] at same
        exact same.trans agrees.2
    have entries := popReject_entry sound shape
    simp only [level, ← looks] at entries
    refine ⟨rfl, ⟨length, fun inner member =>
      sound.distinct inner (shape ▸ mem_cons_of_mem _ member), ?_, ?_, based⟩,
      views lower (Nat.lt_succ_self lower) copy agrees,
      below.mono fun inner inside => views inner (Nat.lt_succ_of_lt inside)⟩
    · intro address stack found
      have entry := entries address
      rw [found] at entry
      exact entry
    · intro address found
      have entry := entries address
      rw [found] at entry
      exact entry

end Frames

section Sweeps

variable {journal : VersionJournal} {image : CopyJournal}

theorem VersionJournal.Sound.single (sound : journal.Sound) (outside : journal.version = 0)
    (found : journal.current.lookup address = some stack) : stack.size = 1 ∧ stack.version = 0 := by
  have depth := sound.depth
  rw [outside] at depth
  have labelled := sound.labelled address stack found
  rw [length_eq_zero_iff.mp depth] at labelled
  rcases labelled with empty | single
  · cases empty
  · refine ⟨?_, version_of_versions single⟩
    have length := congrArg length single
    rw [VersionStack.versions, length_map] at length
    exact length

theorem sweepStack_eq (sound : journal.Sound) (outside : journal.version = 0) (reason : String)
    (change : AccountState → Option AccountState)
    (found : journal.current.lookup address = some stack) :
    sweepStack reason change stack =
      (orAbort reason (change stack.recent)).map fun state => some (stack.assign state) := by
  obtain ⟨size, version⟩ := sound.single outside found
  simp [sweepStack, size, version]

theorem refines_sweep (refines : Refines journal image) (outside : journal.version = 0)
    {change : AccountState → Option AccountState}
    (fine : ∀ address stack, journal.current.lookup address = some stack →
      ∃ state, change stack.recent = some state)
    {current : Map Address (VersionStack AccountState)} {accounts : Map Address AccountState}
    (onEach : ∀ address, current.lookup address = (journal.current.lookup address).bind
      fun stack => (change stack.recent).map fun state => stack.assign state)
    (states : ∀ address, accounts.lookup address =
      (image.now.accounts.lookup address).bind change) :
    Refines { journal with current := current }
      { image with now := { image.now with accounts := accounts } } := by
  have sound := refines.sound
  have closed : journal.dirty = [] := length_eq_zero_iff.mp (sound.depth.trans outside)
  refine ⟨⟨sound.depth, sound.distinct, ?_, ?_, sound.logged⟩, ⟨?_, refines.top.2⟩, ?_⟩
  · intro address stack found
    rw [onEach address] at found
    obtain ⟨before, known, swept⟩ := bind_eq_some_iff.mp found
    obtain ⟨state, changed, rfl⟩ := map_eq_some_iff.mp swept
    exact sound.labelled address before known
  · intro address found
    rw [closed]
    rfl
  · intro address
    rw [states address, onEach address, refines.lookup address]
    cases found : journal.current.lookup address with
    | none => rfl
    | some stack =>
      obtain ⟨state, changed⟩ := fine address stack found
      have bounded : (stack.assign state).version ≤ journal.version :=
        Nat.le_trans (Nat.le_of_eq (sound.single outside found).2) (Nat.zero_le _)
      simp only [map_some, bind_some, changed]
      exact (view_top bounded).symm
  · have below := refines.below
    rw [outside, refines.saved_nil_iff.mpr outside] at below ⊢
    exact below

theorem sweep_agrees (refines : Refines journal image) (reason : String)
    (change : AccountState → Option AccountState) :
    Program.Agree Refines (handler (.sweep reason change) journal)
      (CopyJournal.handler (.sweep reason change) image) := by
  have sound := refines.sound
  simp only [handler, sweep, CopyJournal.handler, CopyJournal.sweep]
  by_cases outside : journal.version = 0
  · rw [if_neg (not_not.mpr outside), if_neg (not_not.mpr (refines.saved_nil_iff.mpr outside))]
    let onState := fun state : AccountState => (orAbort reason (change state)).map some
    by_cases fine : ∀ address stack, journal.current.lookup address = some stack →
        ∃ state, change stack.recent = some state
    · have onStacks : ∀ address stack, journal.current.lookup address = some stack →
          sweepStack reason change stack =
            .ok ((change stack.recent).map fun state => stack.assign state) := by
        intro address stack found
        obtain ⟨state, changed⟩ := fine address stack found
        rw [sweepStack_eq sound outside reason change found, changed]
        rfl
      have onStates : ∀ address state, image.now.accounts.lookup address = some state →
          onState state = .ok (change state) := by
        intro address state found
        rw [refines.lookup address] at found
        obtain ⟨stack, known, rfl⟩ := map_eq_some_iff.mp found
        obtain ⟨state, changed⟩ := fine address stack known
        simp only [onState, changed]
        rfl
      obtain ⟨current, ran, onEach⟩ := updateAll_keys "it" _ _ onStacks
      obtain ⟨accounts, also, states⟩ := updateAll_keys "it" _ _ onStates
      rw [ran, also]
      exact ⟨rfl, refines_sweep refines outside fine onEach states⟩
    · -- Some entry fails, and the failure has one reason.
      obtain ⟨address, fails⟩ := not_forall.mp fine
      obtain ⟨stack, fails⟩ := not_forall.mp fails
      obtain ⟨found, fails⟩ := not_forall.mp fails
      have failed : change stack.recent = none :=
        eq_none_iff_forall_ne_some.mpr fun state changed => fails ⟨state, changed⟩
      have onEach : updateAll "it" (sweepStack reason change)
          journal.current.keys journal.current = .error reason := by
        refine updateAll_keys_error _ ?_ found ?_
        · intro other kept known
          rw [sweepStack_eq sound outside reason change known]
          cases change kept.recent with
          | none => exact Or.inl rfl
          | some state => exact Or.inr ⟨_, rfl⟩
        · rw [sweepStack_eq sound outside reason change found, failed]
          rfl
      have states : updateAll "it" onState image.now.accounts.keys image.now.accounts =
          .error reason := by
        have there : image.now.accounts.lookup address = some stack.recent := by
          rw [refines.lookup address, found]
          rfl
        refine updateAll_keys_error _ ?_ there ?_
        · intro other kept known
          simp only [onState]
          cases change kept with
          | none => exact Or.inl rfl
          | some state => exact Or.inr ⟨_, rfl⟩
        · simp only [onState, failed]
          rfl
      rw [onEach, states]
      rfl
  · have inside : image.saved ≠ [] := fun empty => outside (refines.saved_nil_iff.mp empty)
    rw [if_pos outside, if_pos inside]
    rfl

theorem storeLog_agrees (refines : Refines journal image) (log : Log) :
    Program.Agree Refines (handler (.storeLog log) journal)
      (CopyJournal.handler (.storeLog log) image) := by
  obtain ⟨sound, top, below⟩ := refines
  have bounded := sound.logged.top
  have version := version_current bounded
  have recent : journal.logs.recent = image.now.logs :=
    some.inj ((view_top bounded).symm.trans top.2)
  refine ⟨rfl, ?_, ⟨top.1, ?_⟩, ?_⟩
  · exact ⟨sound.depth, sound.distinct, sound.labelled, sound.missing,
      sound.logged.current.assign _⟩
  · rw [view_assign, if_pos (Nat.le_of_eq version), recent_current, recent]
  · refine Below.mono ?_ below
    intro lower inside copy agrees
    refine ⟨agrees.1, ?_⟩
    rw [view_assign, version, if_neg (Nat.not_le.mpr inside), view_current]
    exact agrees.2

end Sweeps

theorem versions_simulate_copies : Program.Simulates Refines handler CopyJournal.handler := by
  intro action journal image refines
  cases action with
  | recent address => exact ⟨(refines.lookup address).symm, refines⟩
  | current address fallback => exact current_agrees refines fallback
  | modify address change => exact modify_agrees refines change
  | sweep reason change => exact sweep_agrees refines reason change
  | push => exact push_agrees refines
  | popAccept => exact popAccept_agrees refines
  | popReject => exact popReject_agrees refines
  | logs =>
    exact ⟨some.inj ((view_top refines.sound.logged.top).symm.trans
      refines.top.2), refines⟩
  | storeLog log => exact storeLog_agrees refines log

theorem refines_start : Refines {} {} where
  sound := {
    depth := rfl
    distinct := fun _ member => absurd member not_mem_nil
    labelled := fun _ _ found => by cases found
    missing := fun _ _ => rfl
    logged := based_start [] }
  top := ⟨fun _ => rfl, rfl⟩
  below := trivial

/-- Whatever is called on a state, the stacks of versions answer as whole copies do, abort
where they abort, and outside all frames hold one entry of version zero for each account. -/
theorem journal_equals_copies {W : Type} (config : Config) (world : World W) (block : W)
    (calls : List Op) :
    let run := Program.trace (StateOver.interface config handler world) calls
      (.fresh {} block)
    let reference := Program.trace (StateOver.interface config CopyJournal.handler world) calls
      (.fresh {} block)
    run.1 = reference.1 ∧
    (∀ reason, run.2 = .error reason ↔ reference.2 = .error reason) ∧
    ∀ state, run.2 = .ok state → state.journal.version = 0 →
      ∀ address stack, state.journal.current.lookup address = some stack →
        stack.size = 1 ∧ stack.version = 0 := by
  intro run reference
  have simulates := (StateOver.simulates_journals world versions_simulate_copies).expand
    (E := operations) (Op.method config)
  have start : StateOver.OverJournals Refines (.fresh ({} : VersionJournal) block)
      (.fresh ({} : CopyJournal) block) := ⟨rfl, rfl, rfl, refines_start⟩
  obtain ⟨answers, ends⟩ := simulates.trace calls start
  refine ⟨answers, ?_, ?_⟩
  · intro reason
    exact ends.error_iff
  · intro state ended outside address stack found
    obtain ⟨image, related⟩ := ends.of_ok ended
    exact related.2.2.2.sound.single outside found

end MonadChain.Execution
