import Mathlib.Algebra.Group.Action.Defs
import Mathlib.Algebra.Order.BigOperators.Group.List
import Mathlib.Algebra.Order.Ring.Nat
import Mathlib.Data.List.Perm.Subperm
import MonadChain.Mpt.ChunkFrame

/-!
The three lists of chunks. Writers take the last free chunk, compaction gives chunks back from the
front of a list and a rewind from its end. The links and counts of `chunk_info_t` always spell out
three lists of chunks.
-/

namespace MonadChain.Mpt

open Function Option Metadata UpdateAux List

variable {info info' : Nat → ChunkInfo} {list : ChunkList} {prev count idx : Nat}
  {chunks rest : List Nat}

def linkInfo (list : ChunkList) (prev count next : Nat) : ChunkInfo :=
  { prevChunkId := prev
    inFastList := list = .fast
    inSlowList := list = .slow
    insertionCount := count
    nextChunkId := next }

/-- The chunks are linked in both directions and counted one by one. -/
def Linked (info : Nat → ChunkInfo) (list : ChunkList) : Nat → Nat → List Nat → Prop
  | _, _, [] => True
  | prev, count, idx :: rest =>
    info idx = linkInfo list prev count (rest.head?.getD invalidChunkId) ∧
      Linked info list idx (count + 1) rest

namespace Linked

theorem congr (linked : Linked info list prev count chunks)
    (same : ∀ idx ∈ chunks, info' idx = info idx) : Linked info' list prev count chunks := by
  induction chunks generalizing prev count with
  | nil => trivial
  | cons idx rest ih =>
    rw [forall_mem_cons] at same
    exact ⟨same.1.trans linked.1, ih linked.2 same.2⟩

theorem split {init : List Nat} (linked : Linked info list prev count (init ++ idx :: rest)) :
    info idx = linkInfo list (init.getLast?.getD prev) (count + init.length)
        (rest.head?.getD invalidChunkId) ∧ Linked info list idx (count + init.length + 1) rest := by
  induction init generalizing prev count with
  | nil => exact linked
  | cons first init ih =>
    have later := ih linked.2
    rw [getLast?_cons, getD_some, length_cons, ← Nat.add_assoc, Nat.add_right_comm count]
    exact later

theorem relink {init rest' : List Nat} (linked : Linked info list prev count (init ++ idx :: rest))
    (same : ∀ other ∈ init, info' other = info other)
    (changed : info' idx = { info idx with nextChunkId := rest'.head?.getD invalidChunkId })
    (after : Linked info' list idx (count + init.length + 1) rest') :
    Linked info' list prev count (init ++ idx :: rest') := by
  induction init generalizing prev count with
  | nil =>
    refine ⟨?_, after⟩
    rw [changed, linked.1]
    rfl
  | cons first init ih =>
    rw [forall_mem_cons] at same
    refine ⟨?_, ih linked.2 same.2 ?_⟩
    · rw [same.1, linked.1]
      cases init <;> rfl
    · rw [length_cons, ← Nat.add_assoc] at after
      rwa [Nat.add_right_comm count]

section

variable (linked : Linked info list prev count chunks)

include linked

theorem at_mem (member : idx ∈ chunks) : (info idx).inFastList = decide (list = .fast) ∧
      (info idx).inSlowList = decide (list = .slow) ∧ count ≤ (info idx).insertionCount := by
  obtain ⟨init, rest, rfl⟩ := append_of_mem member
  rw [linked.split.1]
  exact ⟨rfl, rfl, Nat.le_add_right count _⟩

theorem ascending : chunks.Pairwise fun first second =>
      (info first).insertionCount < (info second).insertionCount := by
  induction chunks generalizing prev count with
  | nil => exact List.Pairwise.nil
  | cons idx rest ih =>
    refine pairwise_cons.mpr ⟨fun other member => ?_, ih linked.2⟩
    rw [linked.1]
    exact (linked.2.at_mem member).2.2

theorem nodup : chunks.Nodup := by
  apply linked.ascending.imp
  rintro first second order rfl
  exact Nat.lt_irrefl _ order

end

end Linked

abbrev ChunkLists : Type := ChunkList → List Nat

structure Laid (m : Metadata) (lists : ChunkLists) : Prop where
  linked : ∀ list, ∃ count, Linked m.chunkInfo list invalidChunkId count (lists list)
  ends : ∀ list, m.list list =
    ⟨(lists list).head?.getD nullChunk, (lists list).getLast?.getD nullChunk⟩
  inside : ∀ list, ∀ idx ∈ lists list, idx < m.chunkInfoCount
  small : m.chunkInfoCount ≤ invalidChunkId

namespace Laid

variable {m m' : Metadata} {lists : ChunkLists}

theorem list_eq (laid : Laid m lists) (member : idx ∈ lists list) :
    listOf (m.chunkInfo idx) = list := by
  obtain ⟨count, linked⟩ := laid.linked list
  obtain ⟨fast, slow, _⟩ := linked.at_mem member
  unfold listOf
  rw [fast, slow]
  cases list <;> rfl

theorem apart (laid : Laid m lists) {other : ChunkList} (member : idx ∈ lists list)
    (elsewhere : idx ∈ lists other) : other = list :=
  (laid.list_eq elsewhere).symm.trans (laid.list_eq member)

theorem length_le (laid : Laid m lists) (list : ChunkList) :
    (lists list).length ≤ m.chunkInfoCount := by
  have sub : lists list ⊆ range m.chunkInfoCount := fun idx member =>
    mem_range.mpr (laid.inside list idx member)
  have length := ((laid.linked list).choose_spec.nodup.subperm sub).length_le
  rwa [length_range] at length

theorem relist (laid : Laid m lists) {chunks : List Nat}
    (same : ∀ other ≠ list, ∀ idx ∈ lists other, m'.chunkInfo idx = m.chunkInfo idx)
    (linked : ∃ count, Linked m'.chunkInfo list invalidChunkId count chunks)
    (ends : ∀ other, m'.list other = if other = list then
      ⟨chunks.head?.getD nullChunk, chunks.getLast?.getD nullChunk⟩ else m.list other)
    (counted : m'.chunkInfoCount = m.chunkInfoCount)
    (inside : ∀ idx ∈ chunks, idx < m.chunkInfoCount) :
    Laid m' (update lists list chunks) := by
  refine ⟨(forall_update_iff _ fun other chunks => ∃ count, Linked m'.chunkInfo other _ count
    chunks).mpr ⟨linked, fun other here => ?_⟩, fun other => ?_, ?_, counted ▸ laid.small⟩
  · obtain ⟨count, known⟩ := laid.linked other
    exact ⟨count, known.congr (same other here)⟩
  · grind [laid.ends other]
  · rw [counted]
    exact (forall_update_iff _ fun _ chunks => ∀ idx ∈ chunks, idx < _).mpr
      ⟨inside, fun other _ => laid.inside other⟩

end Laid

theorem Metadata.setList_spec (m : Metadata) (pair : IdPair) (list : ChunkList) :
    (∀ other, (m.setList pair list).list other = if other = list then pair else m.list other) ∧
      (m.setList pair list).chunkInfo = m.chunkInfo ∧
      (m.setList pair list).chunkInfoCount = m.chunkInfoCount ∧
      (m.setList pair list).capacityInFreeList = m.capacityInFreeList := by
  refine ⟨fun other => ?_, ?_, ?_, ?_⟩
  · cases list <;> cases other <;> rfl
  all_goals cases list <;> rfl

namespace Laid

variable {m m' : Metadata} {lists : ChunkLists}

section

variable (laid : Laid m lists)

include laid

theorem valid (member : idx ∈ lists list) : idx ≠ invalidChunkId :=
  Nat.ne_of_lt (Nat.lt_of_lt_of_le (laid.inside list idx member) laid.small)

theorem shorten {neighbour : Nat} {told : ChunkInfo} {pair : IdPair}
    (member : neighbour ∈ lists list) (sub : ∀ idx ∈ chunks, idx ∈ lists list)
    (linked : ∃ count, Linked (update m.chunkInfo neighbour told) list invalidChunkId
      count chunks) (ends : pair = ⟨chunks.head?.getD nullChunk, chunks.getLast?.getD nullChunk⟩) :
    Laid ((m.setChunk neighbour told).setList pair list) (update lists list chunks) := by
  obtain ⟨lists', infos, counts, _⟩ := (m.setChunk neighbour told).setList_spec pair list
  apply laid.relist
  · intro other differs idx elsewhere
    rw [infos]
    refine update_of_ne ?_ _ _
    rintro rfl
    exact differs (laid.apart member elsewhere)
  · rw [infos]
    exact linked
  · intro other
    rw [lists' other, ends]
    cases other <;> rfl
  · exact counts
  · exact fun idx here => laid.inside list idx (sub idx here)

theorem remove {init : List Nat} (listed : lists list = init ++ idx :: rest)
    (atEnd : init = [] ∨ rest = []) (done : m.removeChunk idx = some m') :
    m'.capacityInFreeList = m.capacityInFreeList ∧ m'.chunkInfoCount = m.chunkInfoCount ∧
      Laid m' (update lists list (init ++ rest)) := by
  have member : idx ∈ lists list := by simp [listed]
  have inside := laid.inside list idx member
  obtain ⟨count, linked⟩ := laid.linked list
  have nodup := linked.nodup
  rw [listed] at linked nodup
  have place := linked.split
  unfold removeChunk at done
  dsimp only at done
  rw [laid.list_eq member, laid.ends list, listed, place.1, if_neg (Nat.not_le_of_lt inside)]
    at done
  rcases eq_nil_or_concat init with rfl | ⟨init, before, rfl⟩
  · match rest with
    | [] =>
      simp only [linkInfo, getLast?_nil, head?_nil, getD_none, and_self, if_true,
        nil_append, head?_cons, getLast?_singleton, getD_some,
        some.injEq] at done
      subst done
      obtain ⟨ends, infos, counts, capacity⟩ := m.setList_spec {} list
      refine ⟨capacity, counts, laid.relist (fun _ _ _ _ => ?_) ⟨0, trivial⟩ ends counts ?_⟩
      · rw [infos]
      · exact fun _ none => absurd none not_mem_nil
    | next :: rest =>
      have follows : next ∈ lists list := by simp [listed]
      simp only [linkInfo, getLast?_nil, getD_none, head?_cons, getD_some,
        laid.valid follows, and_false, if_false, if_true, nil_append, true_and,
        laid.inside list next follows, some.injEq] at done
      subst done
      obtain ⟨_, _, counts, capacity⟩ := (m.setChunk next
        { m.chunkInfo next with prevChunkId := invalidChunkId }).setList_spec _ list
      refine ⟨capacity, counts, laid.shorten follows (fun idx here => ?_) ⟨count + 1, ?_, ?_⟩ ?_⟩
      · rw [listed]
        exact mem_cons_of_mem _ here
      · rw [update_self, linked.2.1]
        rfl
      · apply linked.2.2.congr
        rintro other later
        refine update_of_ne ?_ _ _
        rintro rfl
        exact (nodup_cons.mp nodup.of_cons).1 later
      · rfl
  · obtain rfl : rest = [] := by simpa using atEnd
    have precedes : before ∈ lists list := by simp [listed]
    have unlike : ∀ other ∈ init, other ≠ before := by
      intro other earlier
      rw [concat_eq_append, append_assoc] at nodup
      exact (nodup_append.mp nodup).2.2 other earlier before mem_cons_self
    simp only [linkInfo, concat_eq_append, getLast?_concat, getD_some,
      laid.valid precedes, false_and, if_false, if_true, head?_nil, getD_none,
      true_and, laid.inside list before precedes, some.injEq] at done
    subst done
    obtain ⟨_, _, counts, capacity⟩ := (m.setChunk before
      { m.chunkInfo before with nextChunkId := invalidChunkId }).setList_spec _ list
    rw [append_nil, concat_eq_append]
    rw [concat_eq_append, append_assoc] at linked listed
    refine ⟨capacity, counts, laid.shorten precedes (fun idx here => ?_) ⟨count, ?_⟩ ?_⟩
    · rw [listed, ← append_assoc]
      exact mem_append_left _ here
    · refine linked.relink (fun other earlier => ?_) ?_ trivial
      · exact update_of_ne (unlike other earlier) _ _
      · rw [update_self]
        rfl
    · rw [getLast?_concat]
      cases init <;> rfl

theorem append (inside : idx < m.chunkInfoCount) (fresh : ∀ other, idx ∉ lists other)
    (done : m.appendChunk list idx = some m') :
    m'.capacityInFreeList = m.capacityInFreeList ∧ m'.chunkInfoCount = m.chunkInfoCount ∧
      Laid m' (update lists list (lists list ++ [idx])) := by
  have others : ∀ other, ∀ chunk ∈ lists other, chunk ≠ idx := by
    rintro other chunk member rfl
    exact fresh other member
  obtain ⟨count, linked⟩ := laid.linked list
  unfold appendChunk at done
  rw [laid.ends list, if_neg (Nat.not_le_of_lt inside)] at done
  rcases eq_nil_or_concat (lists list) with none | ⟨init, last, listed⟩
  · rw [none] at done ⊢
    simp only [head?_nil, getLast?_nil, getD_none, if_true, some.injEq] at done
    subst done
    obtain ⟨ends, infos, counts, capacity⟩ := m.setList_spec ⟨idx, idx⟩ list
    refine ⟨capacity, counts, laid.relist (fun other _ chunk member => ?_) ⟨0, ?_, trivial⟩
      (fun other => ?_) counts ?_⟩
    · exact (update_of_ne (others other chunk member) _ _).trans (by rw [infos])
    · exact update_self ..
    · exact ends other
    · simp [inside]
  · have known : last ∈ lists list := by simp [listed]
    rw [listed, concat_eq_append] at done linked ⊢
    have tail := linked.split.1
    have given : last ≠ nullChunk := by
      have bound := Nat.lt_of_lt_of_le (laid.inside list last known) laid.small
      exact Nat.ne_of_lt (Nat.lt_trans bound (by decide))
    have unlike : ∀ other ∈ init, other ≠ last := fun other earlier =>
      (nodup_append.mp linked.nodup).2.2 other earlier last mem_cons_self
    simp only [getLast?_concat, getD_some, if_neg given] at done
    split at done
    · obtain rfl := some.inj done
      obtain ⟨ends, infos, counts, capacity⟩ := (m.setChunk last
        { m.chunkInfo last with nextChunkId := idx }).setList_spec
          ⟨(init ++ [last]).head?.getD nullChunk, idx⟩ list
      refine ⟨capacity, counts, laid.relist (fun other differs chunk member => ?_) ⟨count, ?_⟩
        (fun other => ?_) counts (fun chunk member => ?_)⟩
      · refine (update_of_ne (others other chunk member) _ _).trans ?_
        rw [infos]
        refine update_of_ne ?_ _ _
        rintro rfl
        exact differs (laid.apart known member)
      · rw [append_assoc]
        refine linked.relink (fun other earlier => ?_) ?_ ⟨?_, trivial⟩
        · have member : other ∈ lists list := by simp [listed, earlier]
          refine (update_of_ne (others list other member) _ _).trans ?_
          rw [infos]
          exact update_of_ne (unlike other earlier) _ _
        · refine (update_of_ne (others list last known) _ _).trans ?_
          rw [infos]
          exact update_self ..
        · refine (update_self ..).trans ?_
          rw [tail]
          rfl
      · refine (ends other).trans ?_
        rw [getLast?_concat]
        cases init <;> rfl
      · obtain member | rfl := mem_append.mp member |>.imp_right mem_singleton.mp
        · exact laid.inside list chunk (by simpa [listed] using member)
        · exact inside
    · cases done

end

end Laid

def writerList (inFastList : Bool) : ChunkList := if inFastList then .fast else .slow

/-- What is done to chunks: a writer goes on in the last free chunk, compaction frees the
first chunk of a list and a rewind the last one; writes change how much a chunk holds. -/
inductive ChunkMove where
  | take (inFastList : Bool)
  | freeHead (inFastList : Bool)
  | freeTail (inFastList : Bool)
  | write (chunkSize : Nat → Nat)

namespace ChunkMove

def run (aux : UpdateAux) : ChunkMove → Option UpdateAux
  | take inFastList => aux.takeChunk (writerList inFastList, (aux.main.list .free).end)
  | freeHead inFastList => aux.giveBack (aux.main.list (writerList inFastList)).begin
  | freeTail inFastList => aux.giveBack (aux.main.list (writerList inFastList)).end
  | write chunkSize => some { aux with chunkSize }

def transfer (lists : ChunkLists) (source target : ChunkList) (kept : List Nat)
    (moved : Option Nat) : ChunkLists :=
  Function.update (Function.update lists source kept) target (lists target ++ moved.toList)

def apply (lists : ChunkLists) : ChunkMove → ChunkLists
  | take inFastList =>
    transfer lists .free (writerList inFastList) (lists .free).dropLast (lists .free).getLast?
  | freeHead inFastList =>
    let source := writerList inFastList
    transfer lists source .free (lists source).tail (lists source).head?
  | freeTail inFastList =>
    let source := writerList inFastList
    transfer lists source .free (lists source).dropLast (lists source).getLast?
  | write _ => lists

end ChunkMove

def freeCapacity (capacity : Nat → Nat) (lists : ChunkLists) : Nat :=
  ((lists .free).map capacity).sum

structure ChunksHeld (m : Metadata) (capacity : Nat → Nat) (lists : ChunkLists) : Prop where
  laid : Laid m lists
  covers : ∀ idx < m.chunkInfoCount, ∃ list, idx ∈ lists list
  free : m.capacityInFreeList = freeCapacity capacity lists

structure Stocked (size : Nat) (capacity : Nat → Nat) (m : Metadata) (lists : ChunkLists) :
    Prop where
  laid : Laid m lists
  counted : m.chunkInfoCount = size
  free : m.capacityInFreeList = freeCapacity capacity lists

namespace ChunksHeld

variable {m : Metadata} {capacity : Nat → Nat} {lists : ChunkLists} {source target : ChunkList}
  {aux after : UpdateAux}

theorem freeCapacity_lt (laid : Laid m lists) (bounded : ∀ idx, capacity idx < 2 ^ 32) :
    freeCapacity capacity lists < 2 ^ 64 := by
  have fewer := laid.length_le .free
  have sum := sum_le_card_nsmul ((lists .free).map capacity) (2 ^ 32) (by
    intro bytes member
    obtain ⟨idx, _, rfl⟩ := mem_map.mp member
    exact Nat.le_of_lt (bounded idx))
  have small := laid.small
  rw [length_map, smul_eq_mul] at sum
  unfold freeCapacity
  unfold invalidChunkId at small
  omega

theorem front_of {ctx after : DbMetadataContext} {step : Metadata → Option Metadata}
    {counted : Prop} [Decidable counted] {account : Metadata → Metadata} {size : Nat} (done : (do
      let ctx ← ctx.both step
      if counted then if size = 0 then ctx.both fun m => some (account m) else none
      else some ctx) = some after) :
    ∃ m, step ctx.front = some m ∧ after.front = if counted then account m else m := by
  simp only [bind_eq_bind, bind_eq_some_iff] at done
  obtain ⟨stepped, first, second⟩ := done
  refine ⟨stepped.front, DbMetadataContext.both_front first, ?_⟩
  split at second
  · rename_i free
    rw [if_pos free]
    split at second
    · have front := DbMetadataContext.both_front second
      exact (some.inj front).symm
    · cases second
  · rename_i used
    obtain rfl := some.inj second
    rw [if_neg used]

theorem appended {ctx after : DbMetadataContext} {total size : Nat}
    (stocked : Stocked total capacity ctx.front lists) (bounded : ∀ idx, capacity idx < 2 ^ 32)
    (inside : idx < total) (fresh : ∀ other, idx ∉ lists other)
    (done : ctx.append target idx (capacity idx) size = some after) :
    Stocked total capacity after.front (update lists target (lists target ++ [idx])) := by
  obtain ⟨laid, rfl, free⟩ := stocked
  obtain ⟨relisted, appended, afterFront⟩ := front_of done
  obtain ⟨capacityKept, countKept, laid⟩ := laid.append inside fresh appended
  have newSum := freeCapacity_lt laid bounded
  rw [afterFront]
  by_cases freed : target = .free
  · subst freed
    refine ⟨⟨laid.linked, laid.ends, laid.inside, laid.small⟩, countKept, ?_⟩
    rw [freeCapacity, update_self, map_append, sum_append] at newSum ⊢
    rw [if_pos rfl, freeCapacityAdd, capacityKept, free]
    exact Nat.mod_eq_of_lt newSum
  · rw [if_neg freed]
    refine ⟨laid, countKept, ?_⟩
    rw [capacityKept, free, freeCapacity, freeCapacity, update_of_ne (Ne.symm freed)]

theorem covers_transfer {init : List Nat} (differ : target ≠ source)
    (listed : lists source = init ++ idx :: rest) {chunk : Nat}
    (known : ∃ list, chunk ∈ lists list) :
    ∃ list, chunk ∈ ChunkMove.transfer lists source target (init ++ rest) (some idx) list := by
  obtain ⟨list, member⟩ := known
  unfold ChunkMove.transfer
  by_cases same : chunk = idx
  · exact ⟨target, by simp [same]⟩
  · refine ⟨list, ?_⟩
    by_cases atTarget : list = target
    · simp [atTarget, atTarget ▸ member]
    · rw [update_of_ne atTarget]
      by_cases atSource : list = source
      · subst atSource
        rw [listed] at member
        simpa [same] using member
      · rwa [update_of_ne atSource]

theorem moved {ctx mid after : DbMetadataContext} {init : List Nat} {size size' : Nat}
    (held : ChunksHeld ctx.front capacity lists) (bounded : ∀ idx, capacity idx < 2 ^ 32)
    (listed : lists source = init ++ idx :: rest) (atEnd : init = [] ∨ rest = [])
    (freeing : source = .free ∧ target ≠ .free ∨ source ≠ .free ∧ target = .free)
    (removed : ctx.remove idx (capacity idx) size = some mid)
    (appended : mid.append target idx (capacity idx) size' = some after) :
    ChunksHeld after.front capacity
      (ChunkMove.transfer lists source target (init ++ rest) (some idx)) := by
  obtain ⟨laid, covers, free⟩ := held
  have differ : target ≠ source := by
    rintro rfl
    obtain ⟨here, there⟩ | ⟨there, here⟩ := freeing <;> exact there here
  have member : idx ∈ lists source := by simp [listed]
  have fullSum := freeCapacity_lt laid bounded
  obtain ⟨unlisted, firstDone, midFront⟩ := front_of removed
  obtain ⟨capacityKept, countKept, laidMid⟩ := laid.remove listed atEnd firstDone
  obtain ⟨flagFast, flagSlow, _⟩ := (laid.linked source).choose_spec.at_mem member
  rw [flagFast, flagSlow] at midFront
  have stocked : Stocked ctx.front.chunkInfoCount capacity mid.front
      (update lists source (init ++ rest)) := by
    rw [midFront]
    obtain ⟨rfl, used⟩ | ⟨used, rfl⟩ := freeing
    · have sum : freeCapacity capacity lists =
          ((init ++ rest).map capacity).sum + capacity idx := by
        rw [freeCapacity, listed, (perm_middle.map capacity).sum_eq, map_cons,
          sum_cons, Nat.add_comm]
      rw [if_pos (by decide)]
      refine ⟨⟨laidMid.linked, laidMid.ends, laidMid.inside, laidMid.small⟩, countKept, ?_⟩
      rw [freeCapacity, update_self, freeCapacitySub, capacityKept, free, sum]
      dsimp only
      omega
    · have flags : ¬(decide (source = .fast) = false ∧ decide (source = .slow) = false) := by
        cases source <;> simp_all
      rw [if_neg flags]
      refine ⟨laidMid, countKept, ?_⟩
      rw [capacityKept, free, freeCapacity, freeCapacity, update_of_ne (Ne.symm used)]
  have fresh : ∀ other, idx ∉ update lists source (init ++ rest) other := by
    intro other elsewhere
    by_cases same : other = source
    · subst same
      have nodup := (laid.linked other).choose_spec.nodup
      rw [listed, perm_middle.nodup_iff, nodup_cons] at nodup
      rw [update_self] at elsewhere
      exact nodup.1 elsewhere
    · rw [update_of_ne same] at elsewhere
      exact same (laid.apart member elsewhere)
  obtain ⟨laidAfter, count, freeAfter⟩ := ChunksHeld.appended stocked bounded
    (laid.inside source idx member) fresh appended
  rw [update_of_ne differ] at laidAfter freeAfter
  exact ⟨laidAfter, fun chunk inside => covers_transfer differ listed
    (covers chunk (count ▸ inside)), freeAfter⟩

theorem relocated {ctx mid after : DbMetadataContext} {size size' : Nat} {kept : List Nat}
    {taken : Option Nat} (held : ChunksHeld ctx.front capacity lists)
    (bounded : ∀ idx, capacity idx < 2 ^ 32)
    (freeing : source = .free ∧ target ≠ .free ∨ source ≠ .free ∧ target = .free)
    (removed : ctx.remove idx (capacity idx) size = some mid)
    (appended : mid.append target idx (capacity idx) size' = some after)
    (chosen : idx = (ctx.front.list source).begin ∧ kept = (lists source).tail ∧
        taken = (lists source).head? ∨
      idx = (ctx.front.list source).end ∧ kept = (lists source).dropLast ∧
        taken = (lists source).getLast?) :
    ChunksHeld after.front capacity (ChunkMove.transfer lists source target kept taken) := by
  rw [held.laid.ends source] at chosen
  rcases eq_nil_or_concat (lists source) with none | ⟨init, last, listed⟩
  · -- An empty list names no chunk that there is.
    obtain ⟨m, done, _⟩ := front_of removed
    have outside : ctx.front.chunkInfoCount ≤ idx := by
      rw [none] at chosen
      obtain ⟨rfl, _⟩ | ⟨rfl, _⟩ := chosen <;> exact Nat.le_trans held.laid.small (by decide)
    unfold removeChunk at done
    rw [if_pos outside] at done
    cases done
  · rw [concat_eq_append] at listed
    obtain ⟨first, rfl, rfl⟩ | ⟨final, rfl, rfl⟩ := chosen
    · have some_chunk : lists source ≠ [] := by simp [listed]
      obtain ⟨head, tail, shape⟩ := exists_cons_of_ne_nil some_chunk
      rw [shape] at first ⊢
      obtain rfl : idx = head := first
      have front : lists source = [] ++ idx :: tail := shape
      exact held.moved bounded front (.inl rfl) freeing removed appended
    · rw [listed, getLast?_concat] at final ⊢
      obtain rfl : idx = last := final
      have moved := held.moved bounded listed (.inr rfl) freeing removed appended
      rw [append_nil] at moved
      rwa [dropLast_concat]

theorem giveBack_calls (done : aux.giveBack idx = some after) :
    after.chunkCapacity = aux.chunkCapacity ∧ ∃ mid,
      aux.ctx.remove idx (aux.chunkCapacity idx) (aux.chunkSize idx) = some mid ∧
        mid.append .free idx (aux.chunkCapacity idx) (update aux.chunkSize idx 0 idx) =
          some after.ctx := by
  simp only [giveBack, bind_eq_bind, bind_eq_some_iff] at done
  obtain ⟨middle, first, second⟩ := done
  obtain ⟨removed, kept⟩ := onContext_eq first
  obtain ⟨appended, keptAfter⟩ := onContext_eq second
  rw [kept] at appended keptAfter
  exact ⟨by rw [keptAfter], middle.ctx, removed, appended⟩

section

variable (held : ChunksHeld aux.main aux.chunkCapacity lists)
  (bounded : ∀ idx, aux.chunkCapacity idx < 2 ^ 32)

include held bounded

theorem step {move : ChunkMove} (done : move.run aux = some after) :
    after.chunkCapacity = aux.chunkCapacity ∧
      ChunksHeld after.main aux.chunkCapacity (move.apply lists) := by
  have used : ∀ inFastList, writerList inFastList ≠ .free := by decide
  cases move with
  | take inFastList =>
    simp only [ChunkMove.run, takeChunk, bind_eq_bind, bind_eq_some_iff]
      at done
    obtain ⟨middle, first, second⟩ := done
    obtain ⟨removed, kept⟩ := onContext_eq first
    obtain ⟨appended, keptAfter⟩ := onContext_eq second
    rw [kept] at appended keptAfter
    refine ⟨by rw [keptAfter], ?_⟩
    exact held.relocated bounded (.inl ⟨rfl, used _⟩) removed appended (.inr ⟨rfl, rfl, rfl⟩)
  | freeHead inFastList =>
    obtain ⟨kept, mid, removed, appended⟩ := giveBack_calls done
    refine ⟨kept, ?_⟩
    exact held.relocated bounded (.inr ⟨used _, rfl⟩) removed appended (.inl ⟨rfl, rfl, rfl⟩)
  | freeTail inFastList =>
    obtain ⟨kept, mid, removed, appended⟩ := giveBack_calls done
    refine ⟨kept, ?_⟩
    exact held.relocated bounded (.inr ⟨used _, rfl⟩) removed appended (.inr ⟨rfl, rfl, rfl⟩)
  | write chunkSize =>
    obtain rfl := some.inj done
    exact ⟨rfl, held⟩

theorem run {moves : List ChunkMove} (done : moves.foldlM ChunkMove.run aux = some after) :
    ChunksHeld after.main aux.chunkCapacity
      (moves.foldl ChunkMove.apply lists) := by
  induction moves generalizing aux lists with
  | nil =>
    obtain rfl := some.inj done
    exact held
  | cons move rest ih =>
    obtain ⟨middle, first, others⟩ := bind_eq_some_iff.mp done
    obtain ⟨kept, next⟩ := held.step bounded first
    have later := ih (kept ▸ next) (kept ▸ bounded) others
    rwa [kept] at later

end

end ChunksHeld

/-- `num_chunks`, with the assertions that the list is not empty. -/
def UpdateAux.numChunks (aux : UpdateAux) (list : ChunkList) : Option Nat := do
  let first ← if (aux.main.list list).begin = nullChunk then none
    else aux.main.chunkAt (aux.main.list list).begin
  let last ← aux.main.listEnd list
  return (last.insertionCount + 2 ^ 20 - first.insertionCount) % 2 ^ 20 + 1

namespace Laid

variable {m : Metadata} {lists : ChunkLists}

theorem chunkAt_eq (laid : Laid m lists) (member : idx ∈ lists list) :
    idx ≠ nullChunk ∧ m.chunkAt idx = some (m.chunkInfo idx) := by
  have inside := laid.inside list idx member
  have bound := Nat.lt_of_lt_of_le inside laid.small
  exact ⟨Nat.ne_of_lt (Nat.lt_trans bound (by decide)), if_pos inside⟩

theorem numChunks_eq {aux : UpdateAux} (laid : Laid aux.main lists) (some_chunk : lists list ≠ []) :
    aux.numChunks list = some (lists list).length := by
  have few := Nat.le_trans (laid.length_le list) laid.small
  obtain ⟨count, linked⟩ := laid.linked list
  obtain ⟨first, rest, shape⟩ := exists_cons_of_ne_nil some_chunk
  obtain none | ⟨init, last, listed⟩ := eq_nil_or_concat (lists list)
  · exact absurd none some_chunk
  · rw [concat_eq_append] at listed
    have ends := laid.ends list
    have lowest : (aux.main.chunkInfo first).insertionCount = count := by
      rw [shape] at linked
      rw [linked.1]
      rfl
    have highest : (aux.main.chunkInfo last).insertionCount = count + init.length := by
      rw [listed] at linked
      rw [linked.split.1]
      rfl
    have atFirst := laid.chunkAt_eq (show first ∈ lists list by simp [shape])
    have atLast := laid.chunkAt_eq (show last ∈ lists list by simp [listed])
    have final : (aux.main.list list).end = last := by
      rw [ends, listed, getLast?_concat]
      rfl
    have initial : (aux.main.list list).begin = first := by
      rw [ends, shape]
      rfl
    simp only [numChunks, listEnd, final, initial, atFirst.1, atLast.1, if_false,
      atFirst.2, atLast.2, bind_eq_bind, bind_some, lowest, highest]
    rw [listed, length_append, length_singleton] at few ⊢
    unfold invalidChunkId at few
    refine congrArg some ?_
    omega

theorem physicalToVirtual_eq (laid : Laid m lists) {inFastList : Bool}
    (member : idx ∈ lists (writerList inFastList)) (offset : Nat) :
    m.physicalToVirtual (some ⟨idx, offset, 0⟩) =
      some ⟨inFastList, (m.chunkInfo idx).insertionCount, offset⟩ := by
  obtain ⟨fast, slow, _⟩ := (laid.linked _).choose_spec.at_mem member
  simp only [physicalToVirtual, (laid.chunkAt_eq member).2, bind_eq_bind, bind_some, fast, slow]
  cases inFastList <;> rfl

theorem virtual_ascending (laid : Laid m lists) (inFastList : Bool) :
    (lists (writerList inFastList)).Pairwise fun earlier later =>
      ∀ low high, ∃ before after,
        m.physicalToVirtual (some ⟨earlier, low, 0⟩) = some before ∧
          m.physicalToVirtual (some ⟨later, high, 0⟩) = some after ∧ before.lt after = true := by
  obtain ⟨count, linked⟩ := laid.linked (writerList inFastList)
  apply linked.ascending.imp_of_mem
  intro earlier later first second order low high
  refine ⟨_, _, laid.physicalToVirtual_eq first low, laid.physicalToVirtual_eq second high, ?_⟩
  simp [VirtualOffset.lt, order]

end Laid

/-- From any start on, the chunks stay in the lists that the moves make of them: every chunk
is in one list, linked both ways and counted without a gap, the free ones are accounted for,
and in a writer's list the virtual offsets ascend. -/
theorem chunk_moves_held {aux after : UpdateAux} {lists : ChunkLists} {moves : List ChunkMove}
    (held : ChunksHeld aux.main aux.chunkCapacity lists)
    (bounded : ∀ idx, aux.chunkCapacity idx < 2 ^ 32)
    (done : moves.foldlM ChunkMove.run aux = some after) :
    let now := moves.foldl ChunkMove.apply lists
    Laid after.main now ∧ (∀ idx < after.main.chunkInfoCount, ∃! list, idx ∈ now list) ∧
      after.main.capacityInFreeList = ((now .free).map aux.chunkCapacity).sum ∧
      (∀ list, now list ≠ [] → after.numChunks list = some (now list).length) ∧
      ∀ inFastList, (now (writerList inFastList)).Pairwise fun earlier later =>
        ∀ low high, ∃ before behind,
          after.main.physicalToVirtual (some ⟨earlier, low, 0⟩) = some before ∧
            after.main.physicalToVirtual (some ⟨later, high, 0⟩) = some behind ∧
            before.lt behind = true := by
  obtain ⟨laid, covers, free⟩ := held.run bounded done
  refine ⟨laid, fun idx inside => ?_, free, fun list => laid.numChunks_eq, laid.virtual_ascending⟩
  obtain ⟨list, member⟩ := covers idx inside
  exact ⟨list, member, fun other elsewhere => laid.apart member elsewhere⟩

section NewPool

variable {pool : NewPool} {ctx after : DbMetadataContext} {capacity : Nat → Nat} {total : Nat}
  {lists : ChunkLists} {target : ChunkList} {op : MetadataOp} {ops : List MetadataOp}

def MetadataOp.Sets : MetadataOp → Prop
  | .append _ _ _ _ | .remove _ _ _ | .appendRootOffset _ _ | .updateRootOffset _ _ _
  | .fastForwardNextVersion _ _ => False
  | _ => True

def Metadata.chunkState (m : Metadata) : (Nat → ChunkInfo) × (ChunkList → IdPair) × Nat × Nat :=
  (m.chunkInfo, m.list, m.chunkInfoCount, m.capacityInFreeList)

theorem both_chunkState {step : Metadata → Option Metadata} (done : ctx.both step = some after)
    (same : ∀ m next, step m = some next → next.chunkState = m.chunkState) :
    after.front.chunkState = ctx.front.chunkState :=
  same _ _ (DbMetadataContext.both_front done)

theorem MetadataOp.run_chunkState (sets : op.Sets) (done : op.run ctx = some after) :
    after.front.chunkState = ctx.front.chunkState := by
  cases op with
  | append _ _ _ _ | remove _ _ _ | appendRootOffset _ _ | updateRootOffset _ _ _
  | fastForwardNextVersion _ _ => exact sets.elim
  | advanceDbOffsetsTo fastOffset slowOffset =>
    exact both_chunkState (ite_none_right_eq_some.mp done).2 fun m next eq => by
      cases eq
      rfl
  | updateHistoryLengthMetadata historyLen =>
    simp only [run, DbMetadataContext.updateHistoryLengthMetadata] at done
    exact both_chunkState done fun m next eq => by
      cases (ite_none_right_eq_some.mp eq).2
      rfl
  | setAutoExpireVersionMetadata tid version | setStateMachineKind tid kind =>
    simp only [run] at done
    exact both_chunkState done fun m next eq => by
      cases eq
      cases ctx.front.ringIdx tid <;> rfl
  | _ =>
    simp only [run] at done
    exact both_chunkState done fun m next eq => by
      cases eq
      rfl

namespace Stocked

section

variable (stocked : Stocked total capacity ctx.front lists)

include stocked

theorem congr {m : Metadata} (same : m.chunkState = ctx.front.chunkState) :
    Stocked total capacity m lists := by
  obtain ⟨infos, ends, count, sum⟩ := by simpa only [chunkState, Prod.mk.injEq] using same
  obtain ⟨laid, counted, free⟩ := stocked
  exact ⟨⟨infos ▸ laid.linked, ends ▸ laid.ends, count ▸ laid.inside, count ▸ laid.small⟩,
    count.trans counted, sum.trans free⟩

theorem setsAll (sets : ∀ op ∈ ops, op.Sets) (done : MetadataOp.runAll ops ctx = some after) :
    Stocked total capacity after.front lists := by
  induction ops generalizing ctx with
  | nil =>
    cases done
    exact stocked
  | cons op rest ih =>
    rw [forall_mem_cons] at sets
    obtain ⟨next, ran, others⟩ := bind_eq_some_iff.mp done
    exact ih (stocked.congr (MetadataOp.run_chunkState sets.1 ran)) sets.2 others

theorem appendAll (bounded : ∀ idx, capacity idx < 2 ^ 32) (nodup : chunks.Nodup)
    (inside : ∀ idx ∈ chunks, idx < total) (fresh : ∀ idx ∈ chunks, ∀ other, idx ∉ lists other)
    (done : MetadataOp.runAll (chunks.map fun idx => .append .free idx (capacity idx) 0) ctx =
      some after) :
    Stocked total capacity after.front (update lists .free (lists .free ++ chunks)) := by
  induction chunks generalizing ctx lists with
  | nil =>
    cases done
    rw [append_nil, update_eq_self]
    exact stocked
  | cons idx rest ih =>
    rw [forall_mem_cons] at inside fresh
    obtain ⟨absent, distinct⟩ := nodup_cons.mp nodup
    obtain ⟨next, ran, others⟩ := bind_eq_some_iff.mp done
    have final := ih (ChunksHeld.appended stocked bounded inside.1 fresh.1 ran) distinct inside.2
      (fun other member list => by grind [update_apply]) others
    rwa [update_self, update_idem, append_assoc] at final

end

theorem appendFirst (stocked : Stocked total pool.chunkCapacity ctx.front lists)
    (bounded : ∀ idx, pool.chunkCapacity idx < 2 ^ 32) (inside : idx < total)
    (fresh : ∀ other, idx ∉ lists other) (empty : lists target = [])
    (done : pool.appendFirst target idx ctx = some after) :
    Stocked total pool.chunkCapacity after.front (update lists target [idx]) := by
  simp only [NewPool.appendFirst, bind_eq_bind, bind_eq_some_iff] at done
  obtain ⟨listed, first, second⟩ := done
  have next := ChunksHeld.appended stocked bounded inside fresh first
  rw [empty, nil_append] at next
  split at second
  · obtain ⟨start, linked⟩ := next.laid.linked target
    have front := DbMetadataContext.both_front second
    rw [← some.inj front]
    refine ⟨?_, next.counted, next.free⟩
    rw [← update_idem (a := target) [idx] [idx] lists]
    refine next.laid.relist (fun other differs chunk member => update_of_ne ?_ _ _)
      ⟨pool.initialInsertionCount % 2 ^ 20, ?_, trivial⟩ (fun other => ?_) rfl ?_
    · rintro rfl
      rw [update_of_ne differs] at member
      exact fresh other member
    · rw [update_self] at linked
      refine (update_self ..).trans ?_
      rw [linked.1]
      rfl
    · refine (show _ = listed.front.list other by cases other <;> rfl).trans ?_
      split
      · rename_i same
        simpa [same] using next.laid.ends target
      · rfl
    · simpa [next.counted] using inside
  · cases second
    exact next

end Stocked

def NewPool.placed (pool : NewPool) : ChunkLists
  | .fast => [pool.chunkCount - 1]
  | .slow => [pool.chunkCount - 2]
  | .free => (range (pool.chunkCount - 2)).reverse

theorem NewPool.init_held (bounded : ∀ idx, pool.chunkCapacity idx < 2 ^ 32)
    (done : pool.init = some after) : ChunksHeld after.front pool.chunkCapacity pool.placed := by
  obtain ⟨⟨some_chunks, -, few, -⟩, fast, slow, free, first, second, chunks, fastDone, slowDone,
    ran⟩ := init_ok done
  obtain ⟨count, counted⟩ := Nat.exists_eq_add_of_le' (Nat.le_of_succ_le some_chunks)
  rw [counted, range_succ, range_succ] at chunks
  simp only [reverse_append, reverse_cons, reverse_nil, nil_append, cons_append, cons.injEq]
    at chunks
  obtain ⟨rfl, rfl, rfl⟩ := chunks
  -- the lists are filled in this order: the fast chunk, the slow one, the free ones
  have blank : Stocked (count + 2) pool.chunkCapacity pool.blank fun _ => [] := by
    refine ⟨⟨fun _ => ⟨0, trivial⟩, fun list => by cases list <;> rfl, fun _ _ member => ?_,
      Nat.le_of_lt_succ few⟩, counted, rfl⟩
    exact absurd member not_mem_nil
  have one := Stocked.appendFirst blank bounded (by omega) (fun _ => not_mem_nil) rfl fastDone
  have two := one.appendFirst bounded (by omega) (fun other => by grind [update_apply]) rfl slowDone
  rw [rest, append_assoc, MetadataOp.runAll, foldlM_append] at ran
  obtain ⟨third, freed, others⟩ := bind_eq_some_iff.mp ran
  have three := two.appendAll bounded ((reverse_perm _).nodup_iff.mpr nodup_range)
    (fun idx member => by grind) (fun idx member other => by grind [update_apply]) freed
  -- what is left to run only sets versions and offsets
  have final := three.setsAll (fun op member => by
    simp only [mem_append, mem_cons, List.mem_map, not_mem_nil, or_false] at member
    rcases member with (rfl | rfl | rfl | rfl | rfl | rfl | rfl) | ⟨_, -, rfl⟩ <;> trivial) others
  obtain ⟨laid, size, sum⟩ : Stocked (count + 2) pool.chunkCapacity after.front pool.placed :=
    (congrArg (Stocked _ _ _) (funext fun list => by
      cases list <;> simp [placed, counted])).mp final
  refine ⟨laid, fun idx inside => ?_, sum⟩
  rw [size] at inside
  obtain small | rfl | rfl : idx < count ∨ idx = count ∨ idx = count + 1 := by omega
  · exact ⟨.free, by simp [placed, counted, small]⟩
  · exact ⟨.slow, by simp [placed, counted]⟩
  · exact ⟨.fast, by simp [placed, counted]⟩

end NewPool

def fourChunksPool : NewPool where
  chunkCount := 4
  chunkCapacity := fun _ => 2 ^ 28
  ringTotal := 1
  cnvCapacity := 2 ^ 28

def fourChunks (ctx : DbMetadataContext) : UpdateAux where
  ctx := ctx
  chunkCapacity := fourChunksPool.chunkCapacity
  chunkSize _ := 0
  rootValue _ := none
  nodeWriterFast := ⟨3, 0, 0⟩
  nodeWriterSlow := ⟨2, 0, 0⟩

def twoMoves : List ChunkMove := [.take true, .freeHead true]

theorem chunk_moves_held_four : ∃ ctx after, fourChunksPool.init = some ctx ∧
    twoMoves.foldlM ChunkMove.run (fourChunks ctx) = some after ∧
      after.numChunks .free = some 2 := by
  have ran : (fourChunksPool.init.bind fun ctx =>
      twoMoves.foldlM ChunkMove.run (fourChunks ctx)).isSome = true := by
    decide +kernel
  obtain ⟨after, done⟩ := isSome_iff_exists.mp ran
  obtain ⟨ctx, initialised, done⟩ := bind_eq_some_iff.mp done
  have bounded : ∀ idx, fourChunksPool.chunkCapacity idx < 2 ^ 32 := fun _ =>
    (by decide : 2 ^ 28 < 2 ^ 32)
  have held : ChunksHeld (fourChunks ctx).main (fourChunks ctx).chunkCapacity
      fourChunksPool.placed := NewPool.init_held bounded initialised
  have numbered := (chunk_moves_held held bounded done).2.2.2.1 .free (by decide)
  exact ⟨ctx, after, initialised, done, numbered⟩

end MonadChain.Mpt
