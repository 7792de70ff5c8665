import MonadChain.Execution.Journal

/-!
Invariants of the account states. A property of the single account states that every
change of an operation keeps holds in all frames of the journal.
-/

namespace MonadChain.Execution

variable {address : Address} {stack : VersionStack AccountState}

def VersionJournal.AllStates (property : Address → AccountState → Prop)
    (journal : VersionJournal) : Prop :=
  ∀ address stack, journal.current.lookup address = some stack →
    ∀ entry ∈ stack.entries, property address entry.2

def keeping (property : Address → AccountState → Prop) : Program.Contract journalActions where
  allowed
    | .current address fallback => property address fallback
    | .modify address change => ∀ state, property address state → property address (change state)
    | .sweep _ change => ∀ address state swept, property address state →
        change state = some swept → property address swept
    | _ => True
  possible
    | .recent address => fun answer => ∀ state, answer = some state → property address state
    | .current address _ => fun answer => property address answer
    | _ => fun _ => True

namespace VersionJournal

variable {property : Address → AccountState → Prop} {journal after : VersionJournal}

theorem AllStates.put (all : journal.AllStates property)
    (entries : ∀ entry ∈ stack.entries, property address entry.2) :
    (journal.put address stack).AllStates property := by
  intro other kept found entry member
  grind [VersionJournal.put, lookup_insert_ite, all other kept]

theorem AllStates.enter (all : journal.AllStates property)
    {fallback : AccountState} (good : property address fallback) :
    ∀ entry ∈ (journal.enter address fallback).entries, property address entry.2 := by
  intro entry member
  obtain ⟨old, inside, same⟩ := VersionStack.mem_current member
  rw [← same]
  cases found : journal.current.lookup address with
  | none =>
    rw [found] at inside
    rw [List.mem_singleton.mp inside]
    exact good
  | some stack =>
    rw [found] at inside
    exact all address stack found old inside

theorem recent_mem : stack.top ∈ stack.entries :=
  List.mem_cons_self

section

variable (all : journal.AllStates property)

include all

theorem AllStates.modify {change : AccountState → AccountState}
    (keeps : ∀ state, property address state → property address (change state))
    (found : journal.current.lookup address = some stack) :
    (journal.put address ((stack.current journal.version).assign
      (change (stack.current journal.version).recent))).AllStates property := by
  have current : ∀ entry ∈ (stack.current journal.version).entries,
      property address entry.2 := by
    intro entry member
    obtain ⟨old, inside, same⟩ := VersionStack.mem_current member
    exact same ▸ all address stack found old inside
  refine all.put ?_
  intro entry member
  rcases List.mem_cons.mp member with rfl | inner
  · exact keeps _ (current _ recent_mem)
  · exact current entry (List.mem_cons_of_mem _ inner)

theorem AllStates.popAccept
    (popped : journal.popAccept = .ok ((), after)) : after.AllStates property := by
  unfold VersionJournal.popAccept at popped
  dsimp only at popped
  split at popped
  · cases popped
  split at popped
  · cases popped
  split at popped
  · cases popped
  · rename_i current ran
    cases popped
    refine updateAll_forall ?_ ran all
    intro address stack accepted entries same entry member
    cases same
    obtain ⟨old, inside, value⟩ := VersionStack.mem_popAccept member
    exact value ▸ entries old inside

theorem AllStates.popReject
    (popped : journal.popReject = .ok ((), after)) : after.AllStates property := by
  unfold VersionJournal.popReject at popped
  split at popped
  · cases popped
  split at popped
  · cases popped
  split at popped
  · cases popped
  · rename_i current ran
    split at popped
    · cases popped
    · cases popped
      refine updateAll_forall ?_ ran all
      intro address stack rest entries same entry member
      exact entries entry (VersionStack.mem_popReject (Except.ok.inj same) member)

theorem AllStates.sweep {reason : String} {change : AccountState → Option AccountState}
    (keeps : ∀ address state swept, property address state → change state = some swept →
      property address swept)
    (ran : journal.sweep reason change = .ok ((), after)) : after.AllStates property := by
  unfold VersionJournal.sweep at ran
  split at ran
  · cases ran
  split at ran
  · cases ran
  · rename_i current loop
    cases ran
    refine updateAll_forall ?_ loop all
    intro address stack swept entries changed entry member
    unfold VersionJournal.sweepStack at changed
    split at changed
    · cases changed
    split at changed
    · cases changed
    cases outcome : change stack.recent with
    | none =>
      rw [outcome] at changed
      cases changed
    | some state =>
      rw [outcome] at changed
      cases changed
      rcases List.mem_cons.mp member with rfl | inner
      · exact keeps address stack.recent state (entries _ recent_mem) outcome
      · exact entries entry (List.mem_cons_of_mem _ inner)

end

theorem honours_keeping (property : Address → AccountState → Prop) :
    Program.Honours (keeping property) (AllStates property) VersionJournal.handler := by
  intro action journal answer after allowed all ran
  cases action with
  | recent address =>
    cases ran
    refine ⟨?_, all⟩
    intro state shown
    obtain ⟨stack, found, rfl⟩ := Option.map_eq_some_iff.mp shown
    exact all address stack found _ recent_mem
  | current address fallback =>
    cases ran
    have entries : ∀ entry ∈ (journal.enter address fallback).entries, property address entry.2 :=
      all.enter allowed
    exact ⟨entries _ recent_mem, all.put entries⟩
  | modify address change =>
    simp only [VersionJournal.handler] at ran
    split at ran
    · cases ran
    · rename_i stack found
      cases ran
      exact ⟨trivial, all.modify allowed found⟩
  | sweep reason change => exact ⟨trivial, all.sweep allowed ran⟩
  | push =>
    simp only [VersionJournal.handler, VersionJournal.push] at ran
    split at ran
    · cases ran
    · cases ran
      exact ⟨trivial, all⟩
  | popAccept => exact ⟨trivial, all.popAccept ran⟩
  | popReject => exact ⟨trivial, all.popReject ran⟩
  | logs | storeLog log =>
    cases ran
    exact ⟨trivial, all⟩

end VersionJournal

end MonadChain.Execution
