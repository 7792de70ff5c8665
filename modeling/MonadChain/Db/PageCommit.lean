import MonadChain.Db.PageBits

/-!
The commitment to a page, monad/db/storage_page.cpp: a Merkle tree over the 64 pairs of
neighbouring slots in which an empty range has no node. Every level merges the siblings that are
both there into the place of the left one.
-/

namespace MonadChain.Db

open Bitmap List BitVec

open Execution (Value)

variable {Digest : Type} {i : Nat} (page : StoragePage) {level prev pos : Nat}

/-- The three uses of BLAKE3: the 64 bytes of two slots, two digests, and the bitmap with
the root of a page that has one. -/
structure PageHashes (Digest : Type) where
  leaf : Value → Value → Digest
  node : Digest → Digest → Digest
  blake3Seal : Bitmap → Option Digest → Digest

/-- `_pext_u64`: the bits of a word that a mask selects, side by side. -/
def pext (word mask : BitVec 64) : BitVec 64 :=
  let selected := (List.range 64).filter fun i => mask.getLsbD i
  (BitVec.ofBoolListLE (selected.map fun i => word.getLsbD i)).setWidth 64

def StoragePage.pairBitmap (page : StoragePage) : BitVec 64 :=
  let evenBits : BitVec 64 := 0x5555555555555555
  let lo := page.bitmap.low
  let hi := page.bitmap.high
  let loPairs := pext (lo ||| lo >>> 1) evenBits
  let hiPairs := pext (hi ||| hi >>> 1) evenBits
  loPairs ||| hiPairs <<< 32

/-- What the loops with `bits &= bits - 1` go through. -/
def setBits : Nat → BitVec 64 → List Nat
  | 0, _ => []
  | fuel + 1, bits =>
    if bits = 0 then [] else countrZero bits :: setBits fuel (bits &&& (bits - 1))

abbrev Scratch (Digest : Type) : Type := Nat → Digest

def writeAll (scratch : Scratch Digest) (results : List (Nat × Digest)) : Scratch Digest :=
  results.foldl (fun scratch result => Function.update scratch result.1 result.2) scratch

namespace StoragePage

def slot (page : StoragePage) (offset : Nat) : Value :=
  if inside : offset < 128 then page.get ⟨offset, inside⟩ else 0

def pair (page : StoragePage) (i : Nat) : Value × Value :=
  (page.slot (2 * i), page.slot (2 * i + 1))

def initLeaves (hashes : PageHashes Digest) (page : StoragePage) (pairBitmap : BitVec 64)
    (scratch : Scratch Digest) : Scratch Digest :=
  let indices := setBits 64 pairBitmap
  let flatOut := indices.map fun i => hashes.leaf (page.pair i).1 (page.pair i).2
  writeAll scratch (indices.zip flatOut)

end StoragePage

def sibling (level prev pos : Nat) : Bool :=
  prev ≠ 0xFF && prev >>> (level + 1) == pos >>> (level + 1) && (prev >>> level) % 2 == 0

/-- The walk of `merge_at_level`: the indices to merge, left and right. -/
def pairUp (level : Nat) : Nat → List Nat → List (Nat × Nat)
  | _, [] => []
  | prev, pos :: rest =>
    if sibling level prev pos then (prev, pos) :: pairUp level 0xFF rest
    else pairUp level pos rest

def mergeAtLevel (hashes : PageHashes Digest) (level : Nat) (bm : BitVec 64)
    (scratch : Scratch Digest) : BitVec 64 × Scratch Digest :=
  let merges := pairUp level 0xFF (setBits 64 bm)
  let flatOut := merges.map fun merge => hashes.node (scratch merge.1) (scratch merge.2)
  if merges.isEmpty then (bm, scratch)
  else
    (merges.foldl (fun bm merge => bm &&& ~~~BitVec.twoPow 64 merge.2) bm,
      writeAll scratch ((merges.map Prod.fst).zip flatOut))

def mergeLevels (hashes : PageHashes Digest) :
    Nat → Nat → BitVec 64 → Scratch Digest → BitVec 64 × Scratch Digest
  | 0, _, bm, scratch => (bm, scratch)
  | left + 1, level, bm, scratch =>
    if popcount bm > 1 then
      let merged := mergeAtLevel hashes level bm scratch
      mergeLevels hashes left (level + 1) merged.1 merged.2
    else (bm, scratch)

namespace StoragePage

variable (hashes : PageHashes Digest) (page : StoragePage)

def computeNonemptySubtreeRoot (pairBitmap : BitVec 64) (scratch : Scratch Digest) : Digest :=
  let leaves := page.initLeaves hashes pairBitmap scratch
  let merged := mergeLevels hashes 6 0 pairBitmap leaves
  merged.2 (countrZero merged.1)

/-- `page_commit`; the array is not initialised, so that it holds anything. -/
def pageCommit (scratch : Scratch Digest) : Digest :=
  if page.isEmpty then hashes.blake3Seal 0 none
  else hashes.blake3Seal page.bitmap
    (some (page.computeNonemptySubtreeRoot hashes page.pairBitmap scratch))

/-- The node of the pairs from `index * 2 ^ height` on, `2 ^ height` of them. -/
def inducedNode (hashes : PageHashes Digest) (page : StoragePage) : Nat → Nat → Option Digest
  | 0, index =>
    if page.pair index = (0, 0) then none
    else some (hashes.leaf (page.pair index).1 (page.pair index).2)
  | height + 1, index =>
    match page.inducedNode hashes height (2 * index),
      page.inducedNode hashes height (2 * index + 1) with
    | none, none => none
    | some node, none => some node
    | none, some node => some node
    | some left, some right => some (hashes.node left right)

end StoragePage

theorem getLsbD_pext_even (word : BitVec 64) (i : Nat) :
    (pext word 0x5555555555555555).getLsbD i = (decide (i < 32) && word.getLsbD (2 * i)) := by
  have selected : ((range 64).filter fun i =>
      (0x5555555555555555 : BitVec 64).getLsbD i) = (range 32).map (2 * ·) := by
    decide +kernel
  unfold pext
  rw [selected, getLsbD_setWidth, getLsbD_ofBoolListLE]
  by_cases inside : i < 32
  · have range : i < 64 := by omega
    simp [inside, range]
  · simp [inside]

theorem getLsbD_pairBitmap (inside : i < 64) :
    page.pairBitmap.getLsbD i =
      (page.bitmap.getLsbD (2 * i) || page.bitmap.getLsbD (2 * i + 1)) := by
  unfold StoragePage.pairBitmap
  simp only [getLsbD_or, getLsbD_shiftLeft, getLsbD_pext_even, getLsbD_ushiftRight]
  by_cases lower : i < 32
  · rw [getLsbD_low _ (by omega), getLsbD_low _ (by omega), Nat.add_comm 1]
    simp [lower]
  · rw [getLsbD_high _ (by omega), getLsbD_high _ (by omega)]
    have first : 64 + 2 * (i - 32) = 2 * i := by omega
    have second : 64 + (1 + 2 * (i - 32)) = 2 * i + 1 := by omega
    have upper : i - 32 < 32 := by omega
    simp [lower, inside, first, second, upper]

theorem setBits_eq {fuel : Nat} {bits : BitVec 64} (enough : popcount bits ≤ fuel) :
    setBits fuel bits = (range 64).filter fun i => bits.getLsbD i := by
  have none_set : ∀ bits : BitVec 64, bits = 0 →
      (range 64).filter (fun i => bits.getLsbD i) = [] := by
    rintro _ rfl
    rw [filter_eq_nil_iff]
    intro i _
    simp
  unfold popcount at enough
  rw [countP_eq_length_filter] at enough
  induction fuel generalizing bits with
  | zero => exact (eq_nil_of_length_eq_zero (Nat.le_zero.mp enough)).symm
  | succ fuel ih =>
    unfold setBits
    by_cases zero : bits = 0
    · rw [if_pos zero, none_set bits zero]
    · obtain ⟨lowest, inside⟩ := countrZero_lowest zero
      have rest := filter_lowest lowest inside
      simp only [← getLsbD_and_pred lowest] at rest
      rw [if_neg zero, rest, ih]
      rw [rest, length_cons] at enough
      exact Nat.le_of_succ_le_succ enough

theorem setBits_word (bits : BitVec 64) :
    setBits 64 bits = (range 64).filter fun i => bits.getLsbD i := by
  apply setBits_eq
  exact Nat.le_trans countP_le_length (Nat.le_of_eq length_range)

theorem mem_setBits {bits : BitVec 64} : i ∈ setBits 64 bits ↔ bits.getLsbD i = true := by
  rw [setBits_word, mem_filter, mem_range]
  exact ⟨And.right, fun bit => ⟨lt_of_getLsbD bit, bit⟩⟩

theorem setBits_ascending (bits : BitVec 64) : (setBits 64 bits).Pairwise (· < ·) := by
  rw [setBits_word]
  exact pairwise_lt_range.filter _

theorem getLsbD_clearAll (bm : BitVec 64) (merges : List (Nat × Nat)) (i : Nat) :
    (merges.foldl (fun bm merge => bm &&& ~~~BitVec.twoPow 64 merge.2) bm).getLsbD i = true ↔
      bm.getLsbD i = true ∧ ∀ merge ∈ merges, merge.2 ≠ i := by
  induction merges generalizing bm with
  | nil => simp
  | cons merge rest ih =>
    rw [foldl_cons, ih, getLsbD_and, getLsbD_not, getLsbD_twoPow]
    simp only [forall_mem_cons, Bool.and_eq_true]
    constructor
    · rintro ⟨⟨bit, apart⟩, others⟩
      refine ⟨bit, ?_, others⟩
      rintro rfl
      have inside := lt_of_getLsbD bit
      simp [inside] at apart
    · rintro ⟨bit, apart, others⟩
      have inside := lt_of_getLsbD bit
      exact ⟨⟨bit, by simp [inside, apart]⟩, others⟩

theorem writeAll_other {scratch : Scratch Digest} {results : List (Nat × Digest)}
    (absent : ∀ result ∈ results, result.1 ≠ i) : writeAll scratch results i = scratch i := by
  induction results generalizing scratch with
  | nil => rfl
  | cons result rest ih =>
    rw [forall_mem_cons] at absent
    exact (ih absent.2).trans (Function.update_of_ne absent.1.symm _ _)

theorem writeAll_written {scratch : Scratch Digest} {results : List (Nat × Digest)}
    {digest : Digest} (member : (i, digest) ∈ results)
    (only : ∀ other, (i, other) ∈ results → other = digest) :
    writeAll scratch results i = digest := by
  induction results generalizing scratch with
  | nil => cases member
  | cons result rest ih =>
    by_cases later : ∃ other, (i, other) ∈ rest
    · obtain ⟨other, found⟩ := later
      have same := only other (mem_cons_of_mem _ found)
      exact ih (same ▸ found) fun other found => only other (mem_cons_of_mem _ found)
    · have absent : ∀ result ∈ rest, result.1 ≠ i := by
        rintro ⟨_, other⟩ found rfl
        exact later ⟨other, found⟩
      have here : (i, digest) = result := by
        obtain same | found := mem_cons.mp member
        · exact same
        · exact absurd ⟨digest, found⟩ later
      rw [writeAll, foldl_cons, ← here]
      exact (writeAll_other absent).trans (Function.update_self ..)

def Spread (level : Nat) (indices : List Nat) : Prop :=
  indices.Pairwise fun first second => first >>> level < second >>> level

def Meet (level : Nat) (indices : List Nat) (merge : Nat × Nat) : Prop :=
  merge.1 ∈ indices ∧ merge.2 ∈ indices ∧ merge.1 >>> level < merge.2 >>> level ∧
    merge.1 >>> level / 2 = merge.2 >>> level / 2

theorem sibling_iff (valid : prev < 64) :
    sibling level prev pos = true ↔
      prev >>> level / 2 = pos >>> level / 2 ∧ prev >>> level % 2 = 0 := by
  have given : prev ≠ 0xFF := by omega
  simp [sibling, given, Nat.shiftRight_succ]

section

variable {rest : List Nat} {merge : Nat × Nat} (spread : Spread level (prev :: pos :: rest))

include spread

theorem meet_of_sibling (parent : prev >>> level / 2 = pos >>> level / 2) :
    Meet level (prev :: pos :: rest) merge ↔ merge = (prev, pos) ∨ Meet level rest merge := by
  simp only [Spread, pairwise_cons, forall_mem_cons] at spread
  obtain ⟨⟨order, afterPrev⟩, afterPos, -⟩ := spread
  obtain ⟨left, right⟩ := merge
  simp only [Meet, mem_cons, Prod.mk.injEq]
  constructor
  · rintro ⟨rfl | rfl | memLeft, rfl | rfl | memRight, below, meeting⟩
    · omega
    · exact .inl ⟨rfl, rfl⟩
    · have beyond := afterPos right memRight
      omega
    · omega
    · omega
    · have beyond := afterPos right memRight
      omega
    · have beyond := afterPrev left memLeft
      omega
    · have beyond := afterPos left memLeft
      omega
    · exact .inr ⟨memLeft, memRight, below, meeting⟩
  · rintro (⟨rfl, rfl⟩ | ⟨memLeft, memRight, meeting⟩)
    · exact ⟨.inl rfl, .inr (.inl rfl), order, parent⟩
    · exact ⟨.inr (.inr memLeft), .inr (.inr memRight), meeting⟩

theorem meet_of_not_sibling
    (apart : ¬(prev >>> level / 2 = pos >>> level / 2 ∧ prev >>> level % 2 = 0)) :
    Meet level (prev :: pos :: rest) merge ↔ Meet level (pos :: rest) merge := by
  simp only [Spread, pairwise_cons, forall_mem_cons] at spread
  obtain ⟨⟨order, afterPrev⟩, afterPos, -⟩ := spread
  obtain ⟨left, right⟩ := merge
  simp only [Meet, mem_cons]
  constructor
  · rintro ⟨rfl | memLeft, rfl | memRight, below, meeting⟩
    · omega
    · -- Nothing lies between the children of one node, so that `pos` would be the other one.
      obtain rfl | member := memRight
      · omega
      · have beyond := afterPos right member
        omega
    · obtain rfl | member := memLeft
      · omega
      · have beyond := afterPrev left member
        omega
    · exact ⟨memLeft, memRight, below, meeting⟩
  · rintro ⟨memLeft, memRight, meeting⟩
    exact ⟨.inr memLeft, .inr memRight, meeting⟩

end

theorem mem_pairUp_both {level : Nat} {indices : List Nat} {merge : Nat × Nat}
    (valid : ∀ i ∈ indices, i < 64) :
    (Spread level indices → (merge ∈ pairUp level 0xFF indices ↔ Meet level indices merge)) ∧
      ∀ prev < 64, Spread level (prev :: indices) →
        (merge ∈ pairUp level prev indices ↔ Meet level (prev :: indices) merge) := by
  induction indices with
  | nil =>
    have alone : ∀ prev, ¬Meet level [prev] merge := by
      rintro prev ⟨left, right, order, _⟩
      rw [mem_singleton.mp left, mem_singleton.mp right] at order
      exact Nat.lt_irrefl _ order
    refine ⟨fun _ => by simp [pairUp, Meet], fun prev _ _ => ?_⟩
    simp [pairUp, alone]
  | cons pos rest ih =>
    obtain ⟨without, before⟩ := ih fun i member => valid i (mem_cons_of_mem pos member)
    have validPos := valid pos mem_cons_self
    refine ⟨before pos validPos, fun prev validPrev spread => ?_⟩
    have spreadPos : Spread level (pos :: rest) := spread.tail
    unfold pairUp
    by_cases together : sibling level prev pos = true
    · rw [if_pos together, mem_cons, without spreadPos.tail]
      rw [sibling_iff validPrev] at together
      exact (meet_of_sibling spread together.1).symm
    · rw [if_neg together, before pos validPos spreadPos]
      rw [sibling_iff validPrev] at together
      exact (meet_of_not_sibling spread together).symm

/-- A node stands in the array under the only index of its range that is set. -/
def Stands (bm : BitVec 64) (scratch : Scratch Digest) (level index : Nat) (node : Digest) : Prop :=
  ∃ place, bm.getLsbD place = true ∧ place >>> level = index ∧ scratch place = node ∧
    ∀ i, bm.getLsbD i = true → i >>> level = index → i = place

def HoldsLevel (hashes : PageHashes Digest) (page : StoragePage) (level : Nat) (bm : BitVec 64)
    (scratch : Scratch Digest) : Prop :=
  ∀ index, match page.inducedNode hashes level index with
    | none => ∀ i, bm.getLsbD i = true → i >>> level ≠ index
    | some node => Stands bm scratch level index node

section

variable {hashes : PageHashes Digest} {page : StoragePage} {level : Nat} {bm : BitVec 64}
  {scratch : Scratch Digest}

section

variable (holds : HoldsLevel hashes page level bm scratch)

include holds

theorem HoldsLevel.unique {i j : Nat} (first : bm.getLsbD i = true) (second : bm.getLsbD j = true)
    (same : i >>> level = j >>> level) : i = j := by
  have known := holds (i >>> level)
  cases node : page.inducedNode hashes level (i >>> level) with
  | none =>
    rw [node] at known
    exact absurd rfl (known i first)
  | some node' =>
    rw [node] at known
    obtain ⟨place, _, _, _, only⟩ := known
    rw [only i first rfl, only j second same.symm]

theorem HoldsLevel.spread : Spread level (setBits 64 bm) := by
  apply (setBits_ascending bm).imp_of_mem
  intro i j first second order
  have mono : i >>> level ≤ j >>> level := by
    rw [Nat.shiftRight_eq_div_pow, Nat.shiftRight_eq_div_pow]
    exact Nat.div_le_div_right (Nat.le_of_lt order)
  have apart : i >>> level ≠ j >>> level := fun same =>
    Nat.ne_of_lt order (holds.unique (mem_setBits.mp first) (mem_setBits.mp second) same)
  exact Nat.lt_of_le_of_ne mono apart

theorem HoldsLevel.merges (left right : Nat) :
    (left, right) ∈ pairUp level 0xFF (setBits 64 bm) ↔
      bm.getLsbD left = true ∧ bm.getLsbD right = true ∧ left >>> level < right >>> level ∧
        left >>> level / 2 = right >>> level / 2 := by
  have valid : ∀ i ∈ setBits 64 bm, i < 64 := fun i member =>
    lt_of_getLsbD (mem_setBits.mp member)
  rw [(mem_pairUp_both valid).1 holds.spread, Meet, mem_setBits, mem_setBits]

end

theorem mergeAtLevel_bits (i : Nat) :
    (mergeAtLevel hashes level bm scratch).1.getLsbD i = true ↔ bm.getLsbD i = true ∧
      ∀ left, (left, i) ∉ pairUp level 0xFF (setBits 64 bm) := by
  unfold mergeAtLevel
  dsimp only
  split
  · rename_i none_merged
    rw [isEmpty_iff.mp none_merged]
    simp
  · rw [getLsbD_clearAll]
    refine and_congr_right fun _ => ⟨fun apart left member => apart _ member rfl, ?_⟩
    rintro absent ⟨left, right⟩ member rfl
    exact absent left member

theorem mergeAtLevel_kept (absent : ∀ right, (i, right) ∉ pairUp level 0xFF (setBits 64 bm)) :
    (mergeAtLevel hashes level bm scratch).2 i = scratch i := by
  unfold mergeAtLevel
  dsimp only
  split
  · rfl
  · rw [zip_map']
    apply writeAll_other
    intro result member same
    obtain ⟨⟨left, right⟩, found, rfl⟩ := mem_map.mp member
    exact absent right (same ▸ found)

theorem mergeAtLevel_merged {left right : Nat}
    (member : (left, right) ∈ pairUp level 0xFF (setBits 64 bm))
    (only : ∀ other, (left, other) ∈ pairUp level 0xFF (setBits 64 bm) → other = right) :
    (mergeAtLevel hashes level bm scratch).2 left = hashes.node (scratch left) (scratch right) := by
  unfold mergeAtLevel
  dsimp only
  split
  · rename_i none_merged
    rw [isEmpty_iff.mp none_merged] at member
    cases member
  · rw [zip_map']
    refine writeAll_written (mem_map.mpr ⟨(left, right), member, rfl⟩) ?_
    intro digest written
    obtain ⟨⟨first, second⟩, found, same⟩ := mem_map.mp written
    obtain ⟨rfl, rfl⟩ := Prod.mk.inj same
    rw [only second found]

section

variable (holds : HoldsLevel hashes page level bm scratch)

include holds

theorem HoldsLevel.carry {place index : Nat}
    (bit : bm.getLsbD place = true) (under : place >>> level / 2 = index)
    (only : ∀ i, bm.getLsbD i = true → i >>> level / 2 = index → i = place) :
    Stands (mergeAtLevel hashes level bm scratch).1 (mergeAtLevel hashes level bm scratch).2
      (level + 1) index (scratch place) := by
  refine ⟨place, ?_, ?_, ?_, ?_⟩
  · rw [mergeAtLevel_bits]
    refine ⟨bit, fun left member => ?_⟩
    obtain ⟨known, _, order, parent⟩ := (holds.merges left place).mp member
    rw [only left known (parent.trans under)] at order
    exact Nat.lt_irrefl _ order
  · rw [Nat.shiftRight_succ, under]
  · apply mergeAtLevel_kept
    intro right member
    obtain ⟨_, known, order, parent⟩ := (holds.merges place right).mp member
    rw [only right known (parent.symm.trans under)] at order
    exact Nat.lt_irrefl _ order
  · intro i known parent
    exact only i ((mergeAtLevel_bits i).mp known).1 parent

theorem HoldsLevel.merge {left right index : Nat}
    (bitLeft : bm.getLsbD left = true) (bitRight : bm.getLsbD right = true)
    (childLeft : left >>> level = 2 * index) (childRight : right >>> level = 2 * index + 1) :
    Stands (mergeAtLevel hashes level bm scratch).1 (mergeAtLevel hashes level bm scratch).2
      (level + 1) index (hashes.node (scratch left) (scratch right)) := by
  have member := (holds.merges left right).mpr ⟨bitLeft, bitRight, by omega, by omega⟩
  refine ⟨left, ?_, ?_, ?_, ?_⟩
  · rw [mergeAtLevel_bits]
    refine ⟨bitLeft, fun other merging => ?_⟩
    obtain ⟨_, _, order, parent⟩ := (holds.merges other left).mp merging
    omega
  · rw [Nat.shiftRight_succ]
    omega
  · apply mergeAtLevel_merged member
    intro other merging
    obtain ⟨_, known, order, parent⟩ := (holds.merges left other).mp merging
    exact holds.unique known bitRight (by omega)
  · intro i known parent
    rw [Nat.shiftRight_succ] at parent
    obtain ⟨bit, kept⟩ := (mergeAtLevel_bits i).mp known
    obtain onLeft | onRight : i >>> level = 2 * index ∨ i >>> level = 2 * index + 1 := by omega
    · exact holds.unique bit bitLeft (onLeft.trans childLeft.symm)
    · rw [holds.unique bit bitRight (onRight.trans childRight.symm)] at kept
      exact absurd member (kept left)

theorem HoldsLevel.step :
    HoldsLevel hashes page (level + 1) (mergeAtLevel hashes level bm scratch).1
      (mergeAtLevel hashes level bm scratch).2 := by
  intro index
  have onLeft := holds (2 * index)
  have onRight := holds (2 * index + 1)
  unfold StoragePage.inducedNode
  cases left : page.inducedNode hashes level (2 * index) <;>
    cases right : page.inducedNode hashes level (2 * index + 1) <;>
    rw [left] at onLeft <;> rw [right] at onRight <;> dsimp only at onLeft onRight ⊢
  case none.none =>
    intro i bit parent
    rw [Nat.shiftRight_succ] at parent
    have known := ((mergeAtLevel_bits i).mp bit).1
    have notLeft := onLeft i known
    have notRight := onRight i known
    omega
  case some.none node =>
    obtain ⟨place, bit, child, rfl, only⟩ := onLeft
    apply holds.carry bit (by omega)
    intro i known parent
    have notRight := onRight i known
    exact only i known (by omega)
  case none.some node =>
    obtain ⟨place, bit, child, rfl, only⟩ := onRight
    apply holds.carry bit (by omega)
    intro i known parent
    have notLeft := onLeft i known
    exact only i known (by omega)
  case some.some first second =>
    obtain ⟨place, bit, child, rfl, _⟩ := onLeft
    obtain ⟨other, otherBit, otherChild, rfl, _⟩ := onRight
    exact holds.merge bit otherBit child otherChild

end

theorem mergeAtLevel_of_single (single : ¬popcount bm > 1) :
    mergeAtLevel hashes level bm scratch = (bm, scratch) := by
  have count : (setBits 64 bm).length = popcount bm := by
    rw [setBits_word, popcount, countP_eq_length_filter]
  have none_merged : pairUp level 0xFF (setBits 64 bm) = [] := by
    match indices : setBits 64 bm with
    | [] => rfl
    | [only] => rfl
    | _ :: _ :: _ =>
      rw [indices] at count
      simp only [length_cons] at count
      omega
  unfold mergeAtLevel
  rw [none_merged]
  rfl

theorem mergeLevels_of_single {left : Nat} (single : ¬popcount bm > 1) :
    mergeLevels hashes left level bm scratch = (bm, scratch) := by
  cases left with
  | zero => rfl
  | succ left => exact if_neg single

theorem HoldsLevel.run (holds : HoldsLevel hashes page level bm scratch) (left : Nat) :
    HoldsLevel hashes page (level + left) (mergeLevels hashes left level bm scratch).1
      (mergeLevels hashes left level bm scratch).2 := by
  induction left generalizing level bm scratch with
  | zero => exact holds
  | succ left ih =>
    have next := ih holds.step
    rw [Nat.add_right_comm] at next
    by_cases several : popcount bm > 1
    · unfold mergeLevels
      rw [if_pos several]
      exact next
    · -- The loop stops early; the levels it leaves out would change nothing.
      rw [mergeAtLevel_of_single several, mergeLevels_of_single several] at next
      rw [mergeLevels_of_single several]
      exact next

end

namespace StoragePage

theorem slot_ne_zero (offset : Nat) : page.slot offset ≠ 0 ↔ page.bitmap.getLsbD offset = true := by
  unfold slot
  split
  · rename_i inside
    exact (page.hasBit_iff ⟨offset, inside⟩).symm
  · rename_i outside
    simp [getLsbD_of_ge page.bitmap offset (Nat.le_of_not_lt outside)]

theorem pair_ne_zero (i : Nat) : page.pair i ≠ (0, 0) ↔ page.pairBitmap.getLsbD i = true := by
  have written : page.pair i ≠ (0, 0) ↔
      page.bitmap.getLsbD (2 * i) = true ∨ page.bitmap.getLsbD (2 * i + 1) = true := by
    rw [← slot_ne_zero, ← slot_ne_zero, pair, ne_eq, Prod.mk.injEq, not_and_or]
  rw [written]
  by_cases inside : i < 64
  · rw [getLsbD_pairBitmap page inside, Bool.or_eq_true]
  · simp [getLsbD_of_ge _ _ (Nat.le_of_not_lt inside), getLsbD_of_ge page.bitmap (2 * i) (by omega),
      getLsbD_of_ge page.bitmap (2 * i + 1) (by omega)]

variable (hashes : PageHashes Digest)

theorem initLeaves_holds (scratch : Scratch Digest) :
    HoldsLevel hashes page 0 page.pairBitmap (page.initLeaves hashes page.pairBitmap scratch) := by
  intro index
  have marked := page.pair_ne_zero index
  unfold inducedNode
  by_cases zero : page.pair index = (0, 0)
  · rw [if_pos zero]
    rintro i bit rfl
    exact marked.mpr bit zero
  · rw [if_neg zero]
    refine ⟨index, marked.mp zero, rfl, ?_, fun i _ same => same⟩
    have listed : index ∈ setBits 64 page.pairBitmap := mem_setBits.mpr (marked.mp zero)
    have zipped := zip_map' (f := id) (l := setBits 64 page.pairBitmap)
      (g := fun i => hashes.leaf (page.pair i).1 (page.pair i).2)
    rw [map_id] at zipped
    unfold initLeaves
    rw [zipped]
    refine writeAll_written (mem_map.mpr ⟨index, listed, rfl⟩) ?_
    intro other written
    obtain ⟨i, _, same⟩ := mem_map.mp written
    obtain ⟨rfl, rfl⟩ := Prod.mk.inj same
    rfl

theorem inducedNode_eq_none (height index : Nat) :
    page.inducedNode hashes height index = none ↔
      ∀ i, i >>> height = index → page.pair i = (0, 0) := by
  induction height generalizing index with
  | zero =>
    unfold inducedNode
    simp
  | succ height ih =>
    have halves : page.inducedNode hashes (height + 1) index = none ↔
        page.inducedNode hashes height (2 * index) = none ∧
          page.inducedNode hashes height (2 * index + 1) = none := by
      rw [inducedNode]
      cases page.inducedNode hashes height (2 * index) <;>
        cases page.inducedNode hashes height (2 * index + 1) <;> simp
    rw [halves, ih, ih]
    simp only [Nat.shiftRight_succ]
    constructor
    · rintro ⟨left, right⟩ i parent
      obtain child | child : i >>> height = 2 * index ∨ i >>> height = 2 * index + 1 := by omega
      · exact left i child
      · exact right i child
    · intro zero
      exact ⟨fun i child => zero i (by omega), fun i child => zero i (by omega)⟩

theorem root_eq_none : page.inducedNode hashes 6 0 = none ↔ page.isEmpty = true := by
  rw [inducedNode_eq_none, isEmpty_iff]
  constructor
  · intro zero offset
    have unset : page.slot offset = 0 := by
      have slots := Prod.mk.inj (zero (offset / 2) (by omega))
      obtain even | odd : (offset : Nat) = 2 * (offset / 2) ∨
          (offset : Nat) = 2 * (offset / 2) + 1 := by omega
      · rw [even]
        exact slots.1
      · rw [odd]
        exact slots.2
    rwa [slot, dif_pos offset.isLt] at unset
  · intro zero i _
    have slots : ∀ offset, page.slot offset = 0 := by
      intro offset
      unfold slot
      split
      · exact zero _
      · rfl
    rw [pair, slots, slots]

theorem root_of_holds {bm : BitVec 64} {scratch : Scratch Digest} {node : Digest}
    (holds : HoldsLevel hashes page 6 bm scratch) (root : page.inducedNode hashes 6 0 = some node) :
    scratch (countrZero bm) = node := by
  have top := holds 0
  rw [root] at top
  obtain ⟨place, bit, -, stored, only⟩ := top
  have some_bit : bm ≠ 0 := by
    rintro rfl
    simp at bit
  obtain ⟨lowest, inside⟩ := countrZero_lowest some_bit
  rw [← stored, ← only _ lowest.1 (by omega)]

theorem pageCommit_sealed (hashes : PageHashes Digest) (page : StoragePage)
    (scratch : Scratch Digest) :
    page.pageCommit hashes scratch =
      hashes.blake3Seal page.bitmap (page.inducedNode hashes 6 0) := by
  have empty := page.root_eq_none hashes
  unfold pageCommit
  cases root : page.inducedNode hashes 6 0 with
  | none =>
    rw [if_pos (empty.1 root), of_decide_eq_true (empty.1 root)]
  | some node =>
    rw [if_neg (by simp [← empty, root]), computeNonemptySubtreeRoot,
      page.root_of_holds hashes ((page.initLeaves_holds hashes scratch).run 6) root]

theorem pageCommit_eq_induced (hashes : PageHashes Digest) (page : StoragePage)
    (scratch : Scratch Digest) :
    page.pageCommit hashes scratch =
        hashes.blake3Seal page.bitmap (page.inducedNode hashes 6 0) ∧
      (page.isEmpty = true → page.pageCommit hashes scratch = hashes.blake3Seal 0 none) :=
  ⟨pageCommit_sealed hashes page scratch, fun empty => if_pos empty⟩

end StoragePage

end MonadChain.Db
