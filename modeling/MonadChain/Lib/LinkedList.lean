import Mathlib.Data.List.Nodup

/-!
Doubly linked lists over total link maps. A list starts at a sentinel and ends at an empty
pointer; a pointer is in the list exactly while it has a previous node.
-/

namespace MonadChain.LinkedList

open List

@[ext] structure Links (Ptr : Type) where
  prev : Ptr → Ptr
  next : Ptr → Ptr

variable {Ptr : Type}

namespace Links

def insert [DecidableEq Ptr] (links : Links Ptr) (sentinel empty this : Ptr) : Links Ptr :=
  if links.prev this ≠ empty then links
  else
    { prev :=
        Function.update
          (if links.next sentinel ≠ empty
            then Function.update links.prev (links.next sentinel) this else links.prev)
          this sentinel
      next :=
        Function.update (Function.update links.next this (links.next sentinel)) sentinel this }

def remove [DecidableEq Ptr] (links : Links Ptr) (empty this : Ptr) : Links Ptr :=
  if links.prev this = empty then links
  else
    { prev :=
        Function.update
          (if links.next this ≠ empty
            then Function.update links.prev (links.next this) (links.prev this) else links.prev)
          this empty
      next :=
        Function.update (Function.update links.next (links.prev this) (links.next this))
          this empty }

section Fields

variable [DecidableEq Ptr] {links : Links Ptr} {empty this : Ptr}

theorem insert_next (sentinel : Ptr) (fresh : links.prev this = empty) (ptr : Ptr) :
    (links.insert sentinel empty this).next ptr =
      if ptr = sentinel then this
      else if ptr = this then links.next sentinel else links.next ptr := by
  simp [insert, fresh, Function.update_apply]

theorem insert_prev (sentinel : Ptr) (fresh : links.prev this = empty) (ptr : Ptr) :
    (links.insert sentinel empty this).prev ptr =
      if ptr = this then sentinel
      else if ptr = links.next sentinel ∧ ptr ≠ empty then this else links.prev ptr := by
  simp only [insert, fresh, ne_eq, not_true_eq_false, ↓reduceIte, Function.update_apply]
  by_cases hit : ptr = links.next sentinel
  · by_cases last : links.next sentinel = empty <;> simp [hit, last]
  · by_cases last : links.next sentinel = empty <;> simp [hit, last]

theorem remove_next (linked : links.prev this ≠ empty) (ptr : Ptr) :
    (links.remove empty this).next ptr =
      if ptr = this then empty
      else if ptr = links.prev this then links.next this else links.next ptr := by
  simp [remove, linked, Function.update_apply]

theorem remove_prev (linked : links.prev this ≠ empty) (ptr : Ptr) :
    (links.remove empty this).prev ptr =
      if ptr = this then empty
      else if ptr = links.next this ∧ ptr ≠ empty then links.prev this else links.prev ptr := by
  simp only [remove, linked, ↓reduceIte, Function.update_apply]
  by_cases hit : ptr = links.next this
  · by_cases last : links.next this = empty <;> simp [hit, last]
  · by_cases last : links.next this = empty <;> simp [hit, last]

end Fields

end Links

/-- From `before` through `items` to `after`, linked both ways. -/
def Segment (links : Links Ptr) : Ptr → List Ptr → Ptr → Prop
  | before, [], after => links.next before = after
  | before, item :: rest, after =>
    links.next before = item ∧ links.prev item = before ∧ Segment links item rest after

structure Represents (links : Links Ptr) (sentinel empty : Ptr) (items : List Ptr) : Prop where
  segment : Segment links sentinel items empty
  nodup : items.Nodup
  proper : ∀ item ∈ items, item ≠ empty ∧ item ≠ sentinel
  absent : ∀ ptr, ptr ∉ items → links.prev ptr = empty
  loose : ∀ ptr, ptr ∉ items → ptr ≠ sentinel → links.next ptr = empty

section Segments

variable {links links' : Links Ptr} {before after target : Ptr} {items : List Ptr}

theorem segment_append (before after item : Ptr) (front back : List Ptr) :
    Segment links before (front ++ item :: back) after ↔
      Segment links before front item ∧ links.prev item = front.getLastD before ∧
        Segment links item back after := by
  induction front generalizing before with
  | nil => simp [Segment]
  | cons first rest ih =>
    simp only [cons_append, Segment, ih, getLastD_cons]
    constructor
    · rintro ⟨next, prev, segment, last, tail⟩
      exact ⟨⟨next, prev, segment⟩, last, tail⟩
    · rintro ⟨⟨next, prev, segment⟩, last, tail⟩
      exact ⟨next, prev, segment, last, tail⟩

section

variable (segment : Segment links before items after)

include segment

theorem segment_transfer
    (step : ∀ ptr ∈ before :: items, ∀ item ∈ items, links.next ptr = item →
      links.prev item = ptr → links'.next ptr = item ∧ links'.prev item = ptr)
    (leaves : links'.next (items.getLastD before) = target) :
    Segment links' before items target := by
  induction items generalizing before with
  | nil => exact leaves
  | cons item rest ih =>
    obtain ⟨forward, backward, tail⟩ := segment
    obtain ⟨next, prev⟩ := step before mem_cons_self item mem_cons_self forward backward
    rw [getLastD_cons] at leaves
    exact ⟨next, prev, ih tail (fun ptr inner item member =>
      step ptr (mem_cons_of_mem _ inner) item (mem_cons_of_mem _ member)) leaves⟩

theorem segment_leaves : links.next (items.getLastD before) = after := by
  induction items generalizing before with
  | nil => exact segment
  | cons item rest ih =>
    rw [getLastD_cons]
    exact ih segment.2.2

theorem prev_next {ptr : Ptr} (inner : ptr ∈ before :: items) (more : links.next ptr ≠ after) :
    links.prev (links.next ptr) = ptr := by
  induction items generalizing before with
  | nil =>
    rw [mem_singleton] at inner
    subst inner
    exact absurd segment more
  | cons item rest ih =>
    obtain ⟨forward, backward, tail⟩ := segment
    rcases mem_cons.mp inner with rfl | inner
    · rw [forward, backward]
    · exact ih tail inner

end

end Segments

namespace Represents

variable {links : Links Ptr} {sentinel empty this : Ptr} {items : List Ptr}

section

variable (represents : Represents links sentinel empty items)

include represents

theorem prev_ne_empty
    (start : sentinel ≠ empty) (member : this ∈ items) : links.prev this ≠ empty := by
  obtain ⟨front, back, rfl⟩ := append_of_mem member
  obtain ⟨-, prev, -⟩ := (segment_append ..).mp represents.segment
  rw [prev]
  have last : front.getLastD sentinel ∈ sentinel :: front := getLastD_mem_cons
  rcases mem_cons.mp last with same | inner
  · rw [same]
    exact start
  · exact (represents.proper _ (mem_append_left _ inner)).1

theorem next_sentinel : links.next sentinel = items.headD empty := by
  have segment := represents.segment
  cases items with
  | nil => exact segment
  | cons first rest => exact segment.1

theorem next_sentinel_mem (more : links.next sentinel ≠ empty) : links.next sentinel ∈ items := by
  have head := represents.next_sentinel
  cases items with
  | nil => exact absurd head more
  | cons first rest => exact head ▸ mem_cons_self

theorem next_prev (member : this ∈ items) : links.next (links.prev this) = this := by
  obtain ⟨front, back, rfl⟩ := append_of_mem member
  obtain ⟨earlier, previous, -⟩ := (segment_append ..).mp represents.segment
  rw [previous]
  exact segment_leaves earlier

theorem next_eq_iff {ptr : Ptr} (proper : ptr ≠ empty) (thisProper : this ≠ empty) :
    links.next ptr = this ↔ links.prev this = ptr := by
  constructor
  · rintro rfl
    have inner : ptr ∈ sentinel :: items := by
      by_contra outside
      rw [mem_cons, not_or] at outside
      exact thisProper (represents.loose ptr outside.2 outside.1)
    exact prev_next represents.segment inner thisProper
  · rintro rfl
    apply represents.next_prev
    by_contra outside
    exact proper (represents.absent this outside)

end

variable [DecidableEq Ptr]

section

variable (represents : Represents links sentinel empty items)

include represents

theorem insert_present (start : sentinel ≠ empty) (member : this ∈ items) :
    links.insert sentinel empty this = links := by
  unfold Links.insert
  rw [if_pos (represents.prev_ne_empty start member)]

theorem remove_absent (outside : this ∉ items) : links.remove empty this = links := by
  unfold Links.remove
  rw [if_pos (represents.absent this outside)]

theorem insert (proper : this ≠ empty ∧ this ≠ sentinel) (outside : this ∉ items) :
    Represents (links.insert sentinel empty this) sentinel empty (this :: items) := by
  have next := Links.insert_next sentinel (represents.absent this outside)
  have prev := Links.insert_prev sentinel (represents.absent this outside)
  have head := represents.next_sentinel
  have fromThis : ∀ ptr ∈ items, ptr ≠ this := fun ptr member same => outside (same ▸ member)
  have kept : ∀ ptr ∈ items, (links.insert sentinel empty this).next ptr = links.next ptr := by
    intro ptr member
    rw [next, if_neg (represents.proper ptr member).2, if_neg (fromThis ptr member)]
  constructor
  · refine ⟨by simp [next], by simp [prev], ?_⟩
    have segment := represents.segment
    cases items with
    | nil => simp [Segment, next, proper.2, head]
    | cons first rest =>
      obtain ⟨-, backFirst, tail⟩ := segment
      have firstProper := represents.proper first mem_cons_self
      rw [headD_cons] at head
      refine ⟨by simp [next, proper.2, head], ?_, ?_⟩
      · simp [prev, fromThis first mem_cons_self, head, firstProper.1]
      · refine segment_transfer tail (fun ptr inner item member forward backward =>
          ⟨(kept ptr inner).trans forward, ?_⟩)
          ((kept _ getLastD_mem_cons).trans (segment_leaves tail))
        have notFirst : ¬ (item = links.next sentinel ∧ item ≠ empty) := by
          rintro ⟨hit, -⟩
          rw [hit, head, backFirst] at backward
          exact (represents.proper ptr inner).2 backward.symm
        rw [prev, if_neg (fromThis item (mem_cons_of_mem _ member)), if_neg notFirst, backward]
  · exact nodup_cons.mpr ⟨outside, represents.nodup⟩
  · exact forall_mem_cons.mpr ⟨proper, represents.proper⟩
  · intro ptr missing
    rw [mem_cons, not_or] at missing
    have notHead : ¬ (ptr = links.next sentinel ∧ ptr ≠ empty) := by
      rintro ⟨rfl, used⟩
      exact missing.2 (represents.next_sentinel_mem used)
    rw [prev, if_neg missing.1, if_neg notHead]
    exact represents.absent ptr missing.2
  · intro ptr missing other
    rw [mem_cons, not_or] at missing
    rw [next, if_neg other, if_neg missing.1]
    exact represents.loose ptr missing.2 other

theorem remove (start : sentinel ≠ empty) (member : this ∈ items) :
    Represents (links.remove empty this) sentinel empty (items.erase this) := by
  have linked := represents.prev_ne_empty start member
  have thisProper := represents.proper this member
  -- A pointer keeps a neighbour that is not the removed node.
  have next : ∀ ptr, ptr ≠ this → links.next ptr ≠ this →
      (links.remove empty this).next ptr = links.next ptr := by
    intro ptr other apart
    have notPrevious : ptr ≠ links.prev this :=
      fun same => apart (same ▸ represents.next_prev member)
    rw [Links.remove_next linked, if_neg other, if_neg notPrevious]
  have prev : ∀ ptr, ptr ≠ this → links.prev ptr ≠ this →
      (links.remove empty this).prev ptr = links.prev ptr := by
    intro ptr other apart
    have notNext : ¬ (ptr = links.next this ∧ ptr ≠ empty) := by
      rintro ⟨rfl, used⟩
      exact apart (prev_next represents.segment (mem_cons_of_mem _ member) used)
    rw [Links.remove_prev linked, if_neg other, if_neg notNext]
  have step : ∀ ptr item, ptr ≠ this → item ≠ this → links.next ptr = item →
      links.prev item = ptr → (links.remove empty this).next ptr = item ∧
        (links.remove empty this).prev item = ptr := by
    intro ptr item other apart forward backward
    exact ⟨(next ptr other (by rwa [forward])).trans forward,
      (prev item apart (by rwa [backward])).trans backward⟩
  obtain ⟨front, back, rfl⟩ := append_of_mem member
  obtain ⟨earlier, previous, later⟩ := (segment_append ..).mp represents.segment
  obtain ⟨outside, distinct⟩ := nodup_cons.mp (nodup_middle.mp represents.nodup)
  have fromThis : ∀ ptr ∈ front ++ back, ptr ≠ this := fun ptr inner same => outside (same ▸ inner)
  have startFree : ∀ ptr ∈ sentinel :: front, ptr ≠ this :=
    forall_mem_cons.mpr ⟨thisProper.2.symm, fun ptr inner => fromThis ptr (mem_append_left _ inner)⟩
  have erased : (front ++ this :: back).erase this = front ++ back := by
    rw [erase_append_right _ fun inner => outside (mem_append_left _ inner), erase_cons_head]
  have frontSegment : Segment (links.remove empty this) sentinel front (links.next this) := by
    refine segment_transfer earlier (fun ptr inner item member => step ptr item
      (startFree ptr inner) (startFree item (mem_cons_of_mem _ member))) ?_
    rw [Links.remove_next linked, if_neg (startFree _ getLastD_mem_cons), if_pos previous.symm]
  rw [erased]
  constructor
  · cases back with
    | nil =>
      rw [show links.next this = empty from later] at frontSegment
      rw [append_nil]
      exact frontSegment
    | cons second rest =>
      obtain ⟨forward, -, tail⟩ := later
      have behind : ∀ ptr ∈ second :: rest, ptr ≠ this := fun ptr inner =>
        fromThis ptr (mem_append_right _ inner)
      refine (segment_append ..).mpr ⟨forward ▸ frontSegment, ?_, segment_transfer tail
        (fun ptr inner item member => step ptr item (behind ptr inner)
          (behind item (mem_cons_of_mem _ member))) ?_⟩
      · have secondProper := represents.proper second (by simp)
        rw [Links.remove_prev linked, if_neg (behind second mem_cons_self),
          if_pos ⟨forward.symm, secondProper.1⟩, previous]
      · have last := segment_leaves tail
        rw [next _ (behind _ getLastD_mem_cons) (by rw [last]; exact thisProper.1.symm), last]
  · exact distinct
  · intro item inner
    rw [← erased] at inner
    exact represents.proper item (mem_of_mem_erase inner)
  · intro ptr missing
    by_cases here : ptr = this
    · rw [Links.remove_prev linked, if_pos here]
    · have gone := represents.absent ptr (by simpa [here] using missing)
      rw [prev ptr here (by rw [gone]; exact thisProper.1.symm), gone]
  · intro ptr missing notSentinel
    by_cases here : ptr = this
    · rw [Links.remove_next linked, if_pos here]
    · have gone := represents.loose ptr (by simpa [here] using missing) notSentinel
      rw [next ptr here (by rw [gone]; exact thisProper.1.symm), gone]

theorem inserted (start : sentinel ≠ empty) (proper : this ≠ empty ∧ this ≠ sentinel) :
    ∃ longer, Represents (links.insert sentinel empty this) sentinel empty longer ∧
      ∀ ptr, ptr ∈ longer ↔ ptr = this ∨ ptr ∈ items := by
  by_cases member : this ∈ items
  · rw [represents.insert_present start member]
    refine ⟨items, represents, fun ptr => ⟨Or.inr, ?_⟩⟩
    rintro (rfl | inner)
    · exact member
    · exact inner
  · exact ⟨this :: items, represents.insert proper member, fun _ => mem_cons⟩

theorem removed (start : sentinel ≠ empty) :
    ∃ shorter, Represents (links.remove empty this) sentinel empty shorter ∧
      ∀ ptr, ptr ∈ shorter ↔ ptr ≠ this ∧ ptr ∈ items := by
  by_cases member : this ∈ items
  · exact ⟨items.erase this, represents.remove start member,
      fun _ => represents.nodup.mem_erase_iff⟩
  · rw [represents.remove_absent member]
    refine ⟨items, represents, fun ptr => ⟨fun inner => ⟨?_, inner⟩, And.right⟩⟩
    rintro rfl
    exact member inner

end

end Represents

/-- Follows at most `limit` links: where it stops, and what it passed. -/
def Links.read [DecidableEq Ptr] (links : Links Ptr) (empty : Ptr) : Nat → Ptr → Ptr × List Ptr
  | 0, ptr => (ptr, [])
  | limit + 1, ptr =>
    if ptr = empty then (ptr, [])
    else
      let rest := links.read empty limit (links.next ptr)
      (rest.1, ptr :: rest.2)

theorem read_segment [DecidableEq Ptr] {links : Links Ptr} {ptr empty : Ptr} {items : List Ptr}
    (segment : Segment links ptr items empty) (proper : ∀ item ∈ ptr :: items, item ≠ empty)
    (limit : Nat) :
    links.read empty limit ptr =
      (((ptr :: items).drop limit).headD empty, (ptr :: items).take limit) := by
  induction limit generalizing ptr items with
  | zero => simp [Links.read]
  | succ limit ih =>
    have here := proper ptr mem_cons_self
    simp only [Links.read, if_neg here, drop_succ_cons, take_succ_cons]
    cases items with
    | nil =>
      have last : links.next ptr = empty := segment
      rw [last]
      cases limit <;> simp [Links.read]
    | cons second rest =>
      rw [segment.1, ih segment.2.2 fun item inner => proper item (mem_cons_of_mem _ inner)]

end MonadChain.LinkedList
