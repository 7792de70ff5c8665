import Mathlib.Data.List.AList

/-!
Loops over the keys of a map that replace, or remove, the entry of each key. A
loop over distinct keys acts on every entry alone, in whatever order it runs.
-/

namespace MonadChain

open AList

variable {K V : Type} [DecidableEq K]

variable {keys : List K} {map after : AList fun _ : K => V}
  {change : V → Except String (Option V)} {reason : String}

/-- Applies a change to the entries of the keys; the result `none` removes an entry. -/
def updateAll (missing : String) (change : V → Except String (Option V)) :
    List K → AList (fun _ : K => V) → Except String (AList fun _ : K => V)
  | [], map => .ok map
  | key :: rest, map =>
    match map.lookup key with
    | none => .error missing
    | some value =>
      match change value with
      | .error reason => .error reason
      | .ok (some value) => updateAll missing change rest (map.insert key value)
      | .ok none => updateAll missing change rest (map.erase key)

variable {missing : String}

def putEntry (key : K) (entry : Option V) (map : AList fun _ : K => V) : AList fun _ : K => V :=
  match entry with
  | some value => map.insert key value
  | none => map.erase key

theorem lookup_putEntry (key : K) (entry : Option V) :
    (putEntry key entry map).lookup key = entry := by
  cases entry with
  | some value => exact lookup_insert _
  | none => exact lookup_erase _ _

theorem lookup_putEntry_ne {key other : K} (apart : other ≠ key) (entry : Option V) :
    (putEntry key entry map).lookup other = map.lookup other := by
  cases entry with
  | some value => exact lookup_insert_ne apart
  | none => exact lookup_erase_ne apart

theorem updateAll_step {first : K} {rest : List K} {value : V} {entry : Option V}
    (found : map.lookup first = some value) (changed : change value = .ok entry) :
    updateAll missing change (first :: rest) map =
      updateAll missing change rest (putEntry first entry map) := by
  simp only [updateAll, found, changed]
  cases entry <;> rfl

theorem updateAll_cons {first : K} {rest : List K}
    (ran : updateAll missing change (first :: rest) map = .ok after) :
    ∃ value entry, map.lookup first = some value ∧ change value = .ok entry ∧
      updateAll missing change rest (putEntry first entry map) = .ok after := by
  cases found : map.lookup first with
  | none =>
    simp only [updateAll, found] at ran
    cases ran
  | some value =>
    cases changed : change value with
    | error reason =>
      simp only [updateAll, found, changed] at ran
      cases ran
    | ok entry => exact ⟨value, entry, rfl, changed, updateAll_step found changed ▸ ran⟩

theorem updateAll_ok (change : V → Except String (Option V)) (result : V → Option V)
    (distinct : keys.Nodup) (succeeds : ∀ key ∈ keys, ∃ value, map.lookup key = some value ∧
      change value = .ok (result value)) :
    ∃ after, updateAll missing change keys map = .ok after ∧
      ∀ key, after.lookup key =
        if key ∈ keys then (map.lookup key).bind result else map.lookup key := by
  induction keys generalizing map with
  | nil => exact ⟨map, rfl, fun key => by simp⟩
  | cons first rest ih =>
    obtain ⟨value, found, changed⟩ := succeeds first List.mem_cons_self
    obtain ⟨apart, others⟩ := List.nodup_cons.mp distinct
    have still : ∀ key ∈ rest, ∃ kept, (putEntry first (result value) map).lookup key = some kept ∧
        change kept = .ok (result kept) := by
      intro key member
      rw [lookup_putEntry_ne (ne_of_mem_of_not_mem member apart)]
      exact succeeds key (List.mem_cons_of_mem _ member)
    obtain ⟨after, ran, looks⟩ := ih others still
    refine ⟨after, (updateAll_step found changed).trans ran, fun key => ?_⟩
    rw [looks key]
    by_cases here : key = first
    · subst here
      rw [if_neg apart, lookup_putEntry, if_pos List.mem_cons_self, found]
      rfl
    · rw [lookup_putEntry_ne here]
      simp [here]

theorem updateAll_forall {property : K → V → Prop}
    (keeps : ∀ key value replaced, property key value → change value = .ok (some replaced) →
      property key replaced) (ran : updateAll missing change keys map = .ok after)
    (start : ∀ key value, map.lookup key = some value → property key value) :
    ∀ key value, after.lookup key = some value → property key value := by
  induction keys generalizing map with
  | nil =>
    cases ran
    exact start
  | cons first rest ih =>
    obtain ⟨value, entry, found, changed, ran⟩ := updateAll_cons ran
    refine ih ran fun key kept there => ?_
    by_cases here : key = first
    · subst here
      rw [lookup_putEntry] at there
      subst there
      exact keeps key value kept (start key value found) changed
    · rw [lookup_putEntry_ne here] at there
      exact start key kept there

theorem updateAll_keys (missing : String) (change : V → Except String (Option V))
    (result : V → Option V)
    (succeeds : ∀ key value, map.lookup key = some value → change value = .ok (result value)) :
    ∃ after, updateAll missing change map.keys map = .ok after ∧
      ∀ key, after.lookup key = (map.lookup key).bind result := by
  have each : ∀ key ∈ map.keys, ∃ value, map.lookup key = some value ∧
      change value = .ok (result value) := by
    intro key member
    obtain ⟨value, found⟩ := Option.isSome_iff_exists.mp
      (lookup_isSome.mpr (mem_keys.mpr member))
    exact ⟨value, found, succeeds key value found⟩
  obtain ⟨after, ran, looks⟩ := updateAll_ok change result map.keys_nodup each
  refine ⟨after, ran, ?_⟩
  intro key
  rw [looks key]
  split
  · rfl
  · rename_i absent
    rw [← mem_keys, ← lookup_eq_none] at absent
    rw [absent]
    rfl

theorem updateAll_each_keys (missing : String) (map : AList fun _ : K => V)
    (change : V → Except String (Option V)) {result : K → Option V}
    (succeeds : ∀ key value, map.lookup key = some value → change value = .ok (result key)) :
    ∃ after, updateAll missing change map.keys map = .ok after ∧
      (∀ key value, map.lookup key = some value → after.lookup key = result key) ∧
      ∀ key, map.lookup key = none → after.lookup key = none := by
  let outcome : V → Option V := fun value =>
    match change value with
    | .ok replaced => replaced
    | .error _ => none
  have each : ∀ key value, map.lookup key = some value → change value = .ok (outcome value) := by
    intro key value found
    simp only [outcome, succeeds key value found]
  obtain ⟨after, ran, looks⟩ := updateAll_keys missing change outcome each
  refine ⟨after, ran, ?_, ?_⟩
  · intro key value found
    rw [looks key, found]
    simp [outcome, succeeds key value found]
  · intro key absent
    rw [looks key, absent]
    rfl

theorem updateAll_error (change : V → Except String (Option V)) (distinct : keys.Nodup)
    (known : ∀ key ∈ keys, ∃ value, map.lookup key = some value ∧
      (change value = .error reason ∨ ∃ replaced, change value = .ok replaced))
    (fails : ∃ key ∈ keys, ∃ value, map.lookup key = some value ∧ change value = .error reason) :
    updateAll missing change keys map = .error reason := by
  induction keys generalizing map with
  | nil =>
    obtain ⟨key, member, rest⟩ := fails
    cases member
  | cons first rest ih =>
    obtain ⟨value, found, outcome⟩ := known first List.mem_cons_self
    obtain ⟨apart, others⟩ := List.nodup_cons.mp distinct
    rcases outcome with failed | ⟨replaced, changed⟩
    · simp only [updateAll, found, failed]
    · have same : ∀ key ∈ rest, (putEntry first replaced map).lookup key = map.lookup key :=
        fun key member => lookup_putEntry_ne (ne_of_mem_of_not_mem member apart) _
      refine (updateAll_step found changed).trans (ih others (fun key member => ?_) ?_)
      · rw [same key member]
        exact known key (List.mem_cons_of_mem _ member)
      · obtain ⟨key, member, kept, there, failed⟩ := fails
        rcases List.mem_cons.mp member with rfl | inside
        · cases found.symm.trans there
          cases changed.symm.trans failed
        · exact ⟨key, inside, kept, (same key inside).trans there, failed⟩

theorem updateAll_map {U : Type} (other : U → Except String (Option U)) (image : K → V → U)
    (same : ∀ key value, other (image key value) = (change value).map (·.map (image key)))
    {copy : AList fun _ : K => U}
    (alike : ∀ key, copy.lookup key = (map.lookup key).map (image key))
    (ran : updateAll missing change keys map = .ok after) :
    ∃ replayed, updateAll missing other keys copy = .ok replayed ∧
      ∀ key, replayed.lookup key = (after.lookup key).map (image key) := by
  induction keys generalizing map copy with
  | nil =>
    cases ran
    exact ⟨copy, rfl, alike⟩
  | cons first rest ih =>
    obtain ⟨value, entry, found, changed, ran⟩ := updateAll_cons ran
    have there : copy.lookup first = some (image first value) := by rw [alike, found]; rfl
    have also : other (image first value) = .ok (entry.map (image first)) := by
      rw [same, changed]
      rfl
    rw [updateAll_step there also]
    refine ih (fun key => ?_) ran
    by_cases here : key = first
    · subst here
      rw [lookup_putEntry, lookup_putEntry]
    · rw [lookup_putEntry_ne here, lookup_putEntry_ne here]
      exact alike key

theorem updateAll_each (distinct : keys.Nodup)
    (ran : updateAll missing change keys map = .ok after) :
    (∀ key ∉ keys, after.lookup key = map.lookup key) ∧
    ∀ key ∈ keys, ∃ value, map.lookup key = some value ∧ change value = .ok (after.lookup key) := by
  induction keys generalizing map with
  | nil =>
    cases ran
    exact ⟨fun _ _ => rfl, fun key member => by cases member⟩
  | cons first rest ih =>
    obtain ⟨apart, others⟩ := List.nodup_cons.mp distinct
    obtain ⟨value, entry, found, changed, ran⟩ := updateAll_cons ran
    obtain ⟨outside, inside⟩ := ih others ran
    refine ⟨fun key absent => ?_, fun key member => ?_⟩
    · rw [List.mem_cons, not_or] at absent
      rw [outside key absent.2, lookup_putEntry_ne absent.1]
    · rcases List.mem_cons.mp member with rfl | inner
      · refine ⟨value, found, ?_⟩
        rw [changed, outside key apart, lookup_putEntry]
      · rw [← lookup_putEntry_ne (ne_of_mem_of_not_mem inner apart) entry]
        exact inside key inner

theorem updateAll_keys_error (change : V → Except String (Option V))
    (known : ∀ key value, map.lookup key = some value →
      change value = .error reason ∨ ∃ replaced, change value = .ok replaced)
    {key : K} {value : V} (found : map.lookup key = some value)
    (failed : change value = .error reason) :
    updateAll missing change map.keys map = .error reason := by
  have member : key ∈ map.keys := mem_keys.mp (lookup_isSome.mp (found ▸ rfl))
  refine updateAll_error change map.keys_nodup ?_ ⟨key, member, value, found, failed⟩
  intro other inside
  obtain ⟨kept, there⟩ := Option.isSome_iff_exists.mp
    (lookup_isSome.mpr (mem_keys.mpr inside))
  exact ⟨kept, there, known other kept there⟩

end MonadChain
