import Mathlib.Data.List.AList

/-!
Batches of updates with distinct keys. An update may insert, replace or remove the entry of its
key, or fail on it; each update meets the entry that was there before the batch.
-/

namespace MonadChain

open List

variable {K V U : Type} [DecidableEq K]

variable {map : AList fun _ : K => V} {entries : List (K × V)}

def storeEntry (map : AList fun _ : K => V) (key : K) : Option V → AList fun _ : K => V
  | some value => map.insert key value
  | none => map.erase key

theorem lookup_storeEntry (map : AList fun _ : K => V) (key : K) (result : Option V) :
    (storeEntry map key result).lookup key = result := by
  cases result with
  | some value => exact AList.lookup_insert map
  | none => exact AList.lookup_erase key map

theorem lookup_storeEntry_ne (map : AList fun _ : K => V) {key other : K} (result : Option V)
    (apart : other ≠ key) : (storeEntry map key result).lookup other = map.lookup other := by
  cases result with
  | some value => exact AList.lookup_insert_ne apart
  | none => exact AList.lookup_erase_ne apart

def applyBatch (key : U → K) (step : Option V → U → Except String (Option V)) :
    List U → AList (fun _ : K => V) → Except String (AList fun _ : K => V)
  | [], map => .ok map
  | update :: rest, map =>
    match step (map.lookup (key update)) update with
    | .error reason => .error reason
    | .ok result => applyBatch key step rest (storeEntry map (key update) result)

variable {key : U → K} {step : Option V → U → Except String (Option V)}

theorem applyBatch_ok {updates : List U} (distinct : (updates.map key).Nodup)
    (succeeds : ∀ update ∈ updates, ∃ result, step (map.lookup (key update)) update = .ok result) :
    ∃ after, applyBatch key step updates map = .ok after ∧
      (∀ update ∈ updates,
        step (map.lookup (key update)) update = .ok (after.lookup (key update))) ∧
      ∀ other, other ∉ updates.map key → after.lookup other = map.lookup other := by
  induction updates generalizing map with
  | nil => exact ⟨map, rfl, fun _ member => absurd member not_mem_nil, fun _ _ => rfl⟩
  | cons first rest ih =>
    rw [map_cons, nodup_cons] at distinct
    obtain ⟨result, ran⟩ := succeeds first mem_cons_self
    have others : ∀ update ∈ rest, (storeEntry map (key first) result).lookup (key update) =
        map.lookup (key update) := by
      intro update member
      apply lookup_storeEntry_ne
      intro same
      exact distinct.1 (same ▸ mem_map_of_mem member)
    have still : ∀ update ∈ rest, ∃ made,
        step ((storeEntry map (key first) result).lookup (key update)) update = .ok made := by
      intro update member
      rw [others update member]
      exact succeeds update (mem_cons_of_mem _ member)
    obtain ⟨after, rest_ran, updated, kept⟩ := ih distinct.2 still
    refine ⟨after, ?_, ?_, ?_⟩
    · simp only [applyBatch, ran]
      exact rest_ran
    · intro update member
      obtain same | later := mem_cons.mp member
      · rw [same, kept _ distinct.1, lookup_storeEntry, ran]
      · rw [← others update later]
        exact updated update later
    · intro other absent
      rw [map_cons, mem_cons, not_or] at absent
      rw [kept other absent.2, lookup_storeEntry_ne _ _ absent.1]

omit [DecidableEq K] in
theorem nodup_filterMap {E : Type} {update : E → Option U} {keyOf : E → K} {entries : List E}
    (keyed : ∀ entry made, update entry = some made → key made = keyOf entry)
    (distinct : (entries.map keyOf).Nodup) : ((entries.filterMap update).map key).Nodup := by
  have kept : ((entries.filterMap update).map key).Sublist (entries.map keyOf) := by
    induction entries with
    | nil => exact List.Sublist.refl _
    | cons entry rest ih =>
      rw [map_cons, nodup_cons] at distinct
      cases made : update entry with
      | none =>
        rw [filterMap_cons_none made]
        exact (ih distinct.2).cons _
      | some result =>
        rw [filterMap_cons_some made, map_cons, map_cons, keyed entry result made]
        exact (ih distinct.2).cons_cons _
  exact distinct.sublist kept

def insertAll (entries : List (K × V)) (map : AList fun _ : K => V) : AList fun _ : K => V :=
  entries.foldl (fun map entry => map.insert entry.1 entry.2) map

theorem lookup_insertAll_of_not_mem {key : K}
    (absent : key ∉ entries.map Prod.fst) :
    (insertAll entries map).lookup key = map.lookup key := by
  induction entries generalizing map with
  | nil => rfl
  | cons first rest ih =>
    rw [map_cons, mem_cons, not_or] at absent
    exact (ih absent.2).trans (AList.lookup_insert_ne absent.1)

theorem lookup_insertAll_of_mem {key : K}
    {value : V} (distinct : (entries.map Prod.fst).Nodup) (member : (key, value) ∈ entries) :
    (insertAll entries map).lookup key = some value := by
  induction entries generalizing map with
  | nil => exact absurd member not_mem_nil
  | cons first rest ih =>
    rw [map_cons, nodup_cons] at distinct
    obtain same | later := mem_cons.mp member
    · subst same
      exact (lookup_insertAll_of_not_mem distinct.1).trans (AList.lookup_insert map)
    · exact ih distinct.2 later

end MonadChain
