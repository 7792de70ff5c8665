import MonadChain.Lib.CircularWindow

/-!
execution/ethereum/block_hash_buffer.cpp. The hashes of the finalized blocks are in a ring; a
proposal has those of its own and of the ancestors that were not final when it was made, and reads
the others from the ring, which moves on. An operation without a result is a violated assertion.
-/

namespace MonadChain.BlockHashes

open List

abbrev Bytes32 : Type := Nat

/-- `N`; the sum with a number wraps. -/
def ringSize : Nat := 256

structure BlockHashBufferFinalized where
  b : Nat → Bytes32
  n : UInt64

namespace BlockHashBufferFinalized

def get (buf : BlockHashBufferFinalized) (n : UInt64) : Option Bytes32 :=
  if n < buf.n ∧ buf.n ≤ n + .ofNat ringSize then some (buf.b (n.toNat % ringSize)) else none

def set (buf : BlockHashBufferFinalized) (n : UInt64) (h : Bytes32) :
    Option BlockHashBufferFinalized :=
  if buf.n = 0 ∨ n = buf.n then some ⟨Function.update buf.b (n.toNat % ringSize) h, n + 1⟩
  else none

end BlockHashBufferFinalized

/-- Without `buf_`, which is the ring of the chain for every proposal. -/
structure BlockHashBufferProposal where
  n : UInt64
  deltas : List Bytes32

namespace BlockHashBufferProposal

def resize (deltas : List Bytes32) (size : Nat) : List Bytes32 :=
  deltas.take size ++ List.replicate (size - deltas.length) 0

def ofParent (h : Bytes32) (parent : BlockHashBufferProposal)
    (buf : BlockHashBufferFinalized) : Option BlockHashBufferProposal :=
  let n := parent.n + 1
  if 0 < n ∧ buf.n < n then some ⟨n, resize (h :: parent.deltas) (n - buf.n).toNat⟩ else none

def get (proposal : BlockHashBufferProposal) (buf : BlockHashBufferFinalized) (n : UInt64) :
    Option Bytes32 :=
  if n < proposal.n ∧ proposal.n ≤ n + .ofNat ringSize then
    match proposal.deltas[(proposal.n - n - 1).toNat]? with
    | some h => some h
    | none => buf.get n
  else none

end BlockHashBufferProposal

structure Proposal where
  blockNumber : UInt64
  blockId : Bytes32
  parentId : Bytes32
  buf : BlockHashBufferProposal

structure BlockHashChain where
  buf : BlockHashBufferFinalized
  proposals : List Proposal := []

namespace BlockHashChain

section

variable (chain : BlockHashChain) (blockId : Bytes32)

def find : Option Proposal :=
  chain.proposals.find? (·.blockId = blockId)

def propose (hash : Bytes32) (blockNumber : UInt64)
    (blockId parentId : Bytes32) : Option BlockHashChain :=
  let emplace := fun buf =>
    { chain with proposals := chain.proposals ++ [⟨blockNumber, blockId, parentId, buf⟩] }
  match chain.find parentId with
  | some parent => (BlockHashBufferProposal.ofParent hash parent.buf chain.buf).map emplace
  | none => some (emplace ⟨chain.buf.n + 1, [hash]⟩)

def finalize : Option BlockHashChain := do
  let winner ← chain.find blockId
  if winner.buf.n - 1 = chain.buf.n then
    let hash ← winner.buf.get chain.buf chain.buf.n
    let buf ← chain.buf.set chain.buf.n hash
    some ⟨buf, chain.proposals.filter (winner.blockNumber < ·.blockNumber)⟩
  else none

/-- The `get` of the buffer that is found. -/
def findChain : UInt64 → Option Bytes32 :=
  match chain.find blockId with
  | some proposal => proposal.buf.get chain.buf
  | none => chain.buf.get

end

end BlockHashChain

/-- The blocks, by their ids. The height is the number of the block and one more. -/
structure BlockTree where
  parent : Bytes32 → Bytes32
  hash : Bytes32 → Bytes32
  height : Bytes32 → Nat

namespace BlockTree

variable (tree : BlockTree)

def ancestor (block : Bytes32) (number : Nat) : Bytes32 :=
  tree.parent^[tree.height block - 1 - number] block

def Descends (block last : Bytes32) : Prop :=
  tree.parent^[tree.height block - tree.height last] block = last

def number (block : Bytes32) : UInt64 := .ofNat (tree.height block - 1)

section

variable (limit : Nat) (chain : BlockHashChain) (last block : Bytes32)

def Proposed : Prop :=
  (∃ proposal ∈ chain.proposals, proposal.blockId = block) ∧ tree.Descends block last

def MayPropose : Prop :=
  tree.height block ≤ limit ∧ tree.height block = tree.height (tree.parent block) + 1 ∧
    (tree.parent block = last ∨ tree.Proposed chain last (tree.parent block))

def MayFinalize : Prop :=
  (∃ proposal ∈ chain.proposals, proposal.blockId = block) ∧ tree.parent block = last

end

structure Loaded (limit : Nat) (buf : BlockHashBufferFinalized) (last : Bytes32) : Prop where
  small : tree.height last ≤ limit
  n : buf.n.toNat = tree.height last
  ring : ∀ n < tree.height last, tree.height last ≤ n + ringSize →
    buf.b (n % ringSize) = tree.hash (tree.ancestor last n)

/-- The states after any calls for blocks up to a height, with the last finalized block. -/
inductive Reached (limit : Nat) : BlockHashChain → Bytes32 → Prop
  | start {buf last} (loaded : tree.Loaded limit buf last) : Reached limit { buf } last
  | propose {chain chain' last} (block : Bytes32) (reached : Reached limit chain last)
      (may : tree.MayPropose limit chain last block)
      (done : chain.propose (tree.hash block) (tree.number block) block (tree.parent block) =
        some chain') : Reached limit chain' last
  | finalize {chain chain' last} (block : Bytes32) (reached : Reached limit chain last)
      (may : tree.MayFinalize chain last block) (done : chain.finalize block = some chain') :
      Reached limit chain' block

/-- The buffer of a proposal, after finalizations up to a height. -/
structure Right (height : Nat) (block : Bytes32) (buf : BlockHashBufferProposal) : Prop where
  n : buf.n.toNat = tree.height block
  covers : tree.height block ≤ height + buf.deltas.length
  deltas : ∀ i h, buf.deltas[i]? = some h → h = tree.hash (tree.parent^[i] block)

structure Sound (limit : Nat) (chain : BlockHashChain) (last : Bytes32) : Prop where
  loaded : tree.Loaded limit chain.buf last
  numbers : ∀ proposal ∈ chain.proposals,
    proposal.blockNumber.toNat + 1 = tree.height proposal.blockId ∧
    tree.height last < tree.height proposal.blockId ∧ tree.height proposal.blockId ≤ limit ∧
    tree.height proposal.blockId = tree.height (tree.parent proposal.blockId) + 1
  right : ∀ proposal ∈ chain.proposals, tree.Descends proposal.blockId last →
    tree.Right (tree.height last) proposal.blockId proposal.buf

variable {tree} {limit : Nat} {chain : BlockHashChain} {last block : Bytes32}

theorem toNat_add_one {n : UInt64} (fits : n.toNat + 1 < 2 ^ 64) : (n + 1).toNat = n.toNat + 1 :=
  (UInt64.toNat_add n 1).trans (Nat.mod_eq_of_lt fits)

theorem window_iff {n count : UInt64} (fits : n.toNat + ringSize < 2 ^ 64) :
    n < count ∧ count ≤ n + .ofNat ringSize ↔
      n.toNat < count.toNat ∧ count.toNat ≤ n.toNat + ringSize := by
  rw [UInt64.lt_iff_toNat_lt, UInt64.le_iff_toNat_le, UInt64.toNat_add]
  exact and_congr_right fun _ => iff_of_eq (congrArg (_ ≤ ·) (Nat.mod_eq_of_lt fits))

section

variable {buf : BlockHashBufferFinalized} (loaded : tree.Loaded limit buf last) {n : UInt64}

include loaded

theorem Loaded.get (fits : n.toNat + ringSize < 2 ^ 64) (low : n.toNat < tree.height last)
    (high : tree.height last ≤ n.toNat + ringSize) :
    buf.get n = some (tree.hash (tree.ancestor last n.toNat)) := by
  rw [← loaded.n] at low high
  rw [BlockHashBufferFinalized.get, if_pos ((window_iff fits).2 ⟨low, high⟩)]
  rw [loaded.n] at low high
  rw [loaded.ring _ low high]

/-- What a proposal does not have itself is in the ring, which has moved on since. -/
theorem Right.get {own : BlockHashBufferProposal} (right : tree.Right (tree.height last) block own)
    (descends : tree.Descends block last) (above : tree.height last < tree.height block)
    (fits : n.toNat + ringSize < 2 ^ 64) (low : n.toNat < tree.height block)
    (high : tree.height block ≤ n.toNat + ringSize) :
    own.get buf n = some (tree.hash (tree.ancestor block n.toNat)) := by
  have less : n.toNat < own.n.toNat := right.n.symm ▸ low
  have near : own.n.toNat ≤ n.toNat + ringSize := right.n.symm ▸ high
  have index : (own.n - n - 1).toNat = tree.height block - 1 - n.toNat := by
    have first : (own.n - n).toNat = own.n.toNat - n.toNat :=
      UInt64.toNat_sub_of_le _ _ (UInt64.le_iff_toNat_le.2 (Nat.le_of_lt less))
    have one : (1 : UInt64).toNat = 1 := rfl
    rw [UInt64.toNat_sub_of_le _ _ (UInt64.le_iff_toNat_le.2 (by rw [first, one]; omega)), first,
      right.n, one, Nat.sub_right_comm]
  rw [BlockHashBufferProposal.get, if_pos ((window_iff fits).2 ⟨less, near⟩), index]
  cases found : own.deltas[tree.height block - 1 - n.toNat]? with
  | some h => rw [right.deltas _ h found, ancestor]
  | none =>
    have short := getElem?_eq_none_iff.1 found
    have covers := right.covers
    rw [ancestor, show tree.height block - 1 - n.toNat =
      tree.height last - 1 - n.toNat + (tree.height block - tree.height last) by omega,
      Function.iterate_add_apply, descends]
    exact loaded.get fits (by omega) (by omega)

end

theorem find_some {proposal : Proposal} (found : chain.find block = some proposal) :
    proposal ∈ chain.proposals ∧ proposal.blockId = block :=
  ⟨mem_of_find?_eq_some found, by simpa using find?_some found⟩

theorem find_exists (proposed : ∃ proposal ∈ chain.proposals, proposal.blockId = block) :
    ∃ proposal, chain.find block = some proposal :=
  Option.isSome_iff_exists.1 (find?_isSome.2
    (proposed.imp fun _ found => ⟨found.1, decide_eq_true found.2⟩))

section

variable (fits : limit + ringSize ≤ 2 ^ 64) (sound : tree.Sound limit chain last)

include sound

theorem Sound.find_last : chain.find last = none := by
  refine find?_eq_none.2 fun proposal member same => ?_
  have above := (sound.numbers proposal member).2.1
  rw [of_decide_eq_true same] at above
  exact Nat.lt_irrefl _ above

include fits

theorem Sound.emplace {buf : BlockHashBufferProposal}
    {parentId : Bytes32} (above : tree.height last < tree.height block)
    (small : tree.height block ≤ limit)
    (height : tree.height block = tree.height (tree.parent block) + 1)
    (right : tree.Right (tree.height last) block buf) :
    tree.Sound limit { chain with proposals :=
      chain.proposals ++ [⟨tree.number block, block, parentId, buf⟩] } last := by
  refine ⟨sound.loaded, fun proposal member => ?_, fun proposal member descends => ?_⟩
  all_goals rcases mem_append.1 member with old | new
  · exact sound.numbers proposal old
  · obtain rfl := mem_singleton.1 new
    refine ⟨?_, above, small, height⟩
    simp only [number]
    rw [UInt64.toNat_ofNat_of_lt' (by unfold ringSize at fits; change _ < 2 ^ 64; omega)]
    omega
  · exact sound.right proposal old descends
  · obtain rfl := mem_singleton.1 new
    exact right

theorem Sound.propose (may : tree.MayPropose limit chain last block) :
    ∃ chain', chain.propose (tree.hash block) (tree.number block) block (tree.parent block) =
      some chain' ∧ tree.Sound limit chain' last := by
  obtain ⟨small, height, parent⟩ := may
  have count := sound.loaded.n
  unfold ringSize at fits
  unfold BlockHashChain.propose
  rcases parent with final | ⟨proposed, descends⟩
  · rw [final, sound.find_last]
    rw [final] at height
    refine ⟨_, rfl, sound.emplace fits (by omega) small (by rw [final, height]) ⟨?_, ?_, ?_⟩⟩
    · rw [toNat_add_one (by omega)]
      omega
    · simp only [length_singleton]
      omega
    · intro i h found
      cases i with
      | zero => exact (Option.some.inj found).symm
      | succ i => cases found
  · obtain ⟨parent, found⟩ := find_exists proposed
    obtain ⟨member, same⟩ := find_some found
    rw [← same] at descends
    obtain ⟨n, covers, deltas⟩ := sound.right parent member descends
    have above := (sound.numbers parent member).2.1
    rw [same] at n covers deltas above
    have next : (parent.buf.n + 1).toNat = tree.height block := by
      rw [toNat_add_one (by omega)]
      omega
    have later : chain.buf.n < parent.buf.n + 1 := UInt64.lt_iff_toNat_lt.2 (by omega)
    have size : (parent.buf.n + 1 - chain.buf.n).toNat = tree.height block - tree.height last := by
      rw [UInt64.toNat_sub_of_le _ _ (UInt64.le_iff_toNat_le.2 (by omega)), next, count]
    rw [found]
    simp only [BlockHashBufferProposal.ofParent]
    have positive : 0 < parent.buf.n + 1 :=
      UInt64.lt_iff_toNat_lt.2 (Nat.zero_lt_of_lt (UInt64.lt_iff_toNat_lt.1 later))
    rw [if_pos ⟨positive, later⟩]
    refine ⟨_, rfl, sound.emplace fits (by omega) small height ⟨next, ?_, fun i h at_ => ?_⟩⟩
    all_goals simp only [BlockHashBufferProposal.resize, length_cons, size,
      show tree.height block - tree.height last - (parent.buf.deltas.length + 1) = 0 by omega,
      replicate_zero, append_nil] at *
    · rw [length_take, length_cons]
      omega
    · rw [getElem?_take_of_lt (by
        by_contra past
        rw [getElem?_take_eq_none (Nat.le_of_not_lt past)] at at_
        cases at_)] at at_
      cases i with
      | zero => exact (Option.some.inj at_).symm
      | succ i => exact deltas i h at_

theorem Sound.finalize (may : tree.MayFinalize chain last block) :
    ∃ chain', chain.finalize block = some chain' ∧ tree.Sound limit chain' block := by
  obtain ⟨proposed, parent⟩ := may
  obtain ⟨winner, found⟩ := find_exists proposed
  obtain ⟨member, rfl⟩ := find_some found
  obtain ⟨number, above, small, height⟩ := sound.numbers winner member
  rw [parent] at height
  have descends : tree.Descends winner.blockId last := by
    rw [Descends, height, Nat.add_sub_cancel_left]
    exact parent
  have right := sound.right winner member descends
  have count := sound.loaded.n
  have hash := right.get sound.loaded descends above (n := chain.buf.n) (by omega) (by omega)
    (by unfold ringSize; omega)
  rw [ancestor, height, count, Nat.add_sub_cancel, Nat.sub_self] at hash
  unfold ringSize at fits
  have next : (chain.buf.n + 1).toNat = tree.height winner.blockId := by
    rw [toNat_add_one (by omega)]
    omega
  have last_ : winner.buf.n - 1 = chain.buf.n := by
    rw [UInt64.sub_eq_iff_eq_add, ← UInt64.toNat_inj, next, right.n]
  have finalized : chain.finalize winner.blockId = some
      ⟨⟨Function.update chain.buf.b (tree.height last % ringSize) (tree.hash winner.blockId),
        chain.buf.n + 1⟩, chain.proposals.filter (winner.blockNumber < ·.blockNumber)⟩ := by
    simp only [BlockHashChain.finalize, found, Option.bind_eq_bind, Option.bind_some, hash,
      BlockHashBufferFinalized.set, or_true, if_true, if_pos last_, count]
    rfl
  refine ⟨_, finalized, ⟨small, next, fun n low high => ?_⟩, fun proposal kept => ?_,
    fun proposal kept descends' => ?_⟩
  · unfold ancestor
    by_cases newest : n = tree.height last
    · simp only [newest, Function.update_self, height, Nat.add_sub_cancel, Nat.sub_self]
      rfl
    · have apart : n % ringSize ≠ tree.height last % ringSize := fun same =>
        newest (CircularWindow.cell_injective (Nat.le_refl n) (by unfold ringSize; omega) (by omega)
          (by omega) same)
      simp only [Function.update_of_ne apart]
      rw [sound.loaded.ring n (by omega) (by omega), ancestor, height,
        show tree.height last + 1 - 1 - n = tree.height last - 1 - n + 1 by omega,
        Function.iterate_succ_apply, parent]
  · obtain ⟨old, later⟩ := mem_filter.1 kept
    obtain ⟨number', _, rest⟩ := sound.numbers proposal old
    have later := UInt64.lt_iff_toNat_lt.1 (of_decide_eq_true later)
    exact ⟨number', by omega, rest⟩
  · obtain ⟨old, later⟩ := mem_filter.1 kept
    obtain ⟨number', _, _, height'⟩ := sound.numbers proposal old
    have later := UInt64.lt_iff_toNat_lt.1 (of_decide_eq_true later)
    have right' := sound.right proposal old (by
      rw [Descends, show tree.height proposal.blockId - tree.height last =
        tree.height proposal.blockId - tree.height winner.blockId + 1 by omega,
        Function.iterate_succ_apply', descends', parent])
    exact ⟨right'.n, by have := right'.covers; omega, right'.deltas⟩

end

theorem Reached.sound (fits : limit + ringSize ≤ 2 ^ 64) (reached : tree.Reached limit chain last) :
    tree.Sound limit chain last := by
  induction reached with
  | start loaded => exact ⟨loaded, fun _ none => (nomatch none), fun _ none => (nomatch none)⟩
  | propose _ _ may done ih =>
    obtain ⟨chain, done', sound⟩ := ih.propose fits may
    obtain rfl := Option.some.inj (done.symm.trans done')
    exact sound
  | finalize _ _ may done ih =>
    obtain ⟨chain, done', sound⟩ := ih.finalize fits may
    obtain rfl := Option.some.inj (done.symm.trans done')
    exact sound

/-- After any calls for blocks whose numbers leave room for 256 more, the next one that may be
made succeeds, and a block that is finalized last or proposed behind that one has the hashes of
its own ancestors. -/
theorem find_chain_exact (fits : limit + ringSize ≤ 2 ^ 64)
    (reached : tree.Reached limit chain last) :
    (∀ block, tree.MayPropose limit chain last block → ∃ chain',
      chain.propose (tree.hash block) (tree.number block) block (tree.parent block) =
        some chain') ∧
    (∀ block, tree.MayFinalize chain last block → ∃ chain', chain.finalize block = some chain') ∧
    ∀ block, block = last ∨ tree.Proposed chain last block → ∀ n : UInt64,
      n.toNat < tree.height block → tree.height block ≤ n.toNat + ringSize →
        chain.findChain block n = some (tree.hash (tree.ancestor block n.toNat)) := by
  have sound := reached.sound fits
  refine ⟨fun block may => (sound.propose fits may).imp fun _ done => done.1,
    fun block may => (sound.finalize fits may).imp fun _ done => done.1, ?_⟩
  rintro block (rfl | ⟨proposed, descends⟩) n low high
  · have small := sound.loaded.small
    rw [BlockHashChain.findChain, sound.find_last]
    exact sound.loaded.get (by omega) low high
  · obtain ⟨proposal, found⟩ := find_exists proposed
    obtain ⟨member, rfl⟩ := find_some found
    obtain ⟨_, above, small, _⟩ := sound.numbers proposal member
    rw [BlockHashChain.findChain, found]
    exact (sound.right proposal member descends).get sound.loaded descends above (by omega) low high

/-- Blocks 1 and 2 follow block 0, blocks 3 and 4 block 1, block 5 block 3. -/
def forked : BlockTree :=
  ⟨([0, 0, 0, 1, 1, 3].getD · 0), (100 + ·), ([1, 2, 2, 3, 3, 4].getD · 0)⟩

theorem find_chain_exact_forked : ∃ chain, forked.Reached 1000 chain 3 ∧
    chain.proposals.map Proposal.blockId = [5] ∧ chain.findChain 5 0 = some 100 ∧
    chain.findChain 5 1 = some 101 ∧ chain.findChain 5 2 = some 103 := by
  have start : forked.Reached 1000 ⟨⟨fun _ => 100, 1⟩, []⟩ 0 := by
    refine .start ⟨by decide, rfl, fun n low _ => ?_⟩
    obtain rfl : n = 0 := Nat.lt_one_iff.1 low
    rfl
  have one := start.propose 1 ⟨by decide, rfl, .inl rfl⟩ rfl
  have two := one.propose 2 ⟨by decide, rfl, .inl rfl⟩ rfl
  have three := two.propose 3 ⟨by decide, rfl, .inr ⟨by decide, rfl⟩⟩ rfl
  have four := three.propose 4 ⟨by decide, rfl, .inr ⟨by decide, rfl⟩⟩ rfl
  have five := four.propose 5 ⟨by decide, rfl, .inr ⟨by decide, rfl⟩⟩ rfl
  have reached := (five.finalize 1 ⟨by decide, rfl⟩ rfl).finalize 3 ⟨by decide, rfl⟩ rfl
  have hashes := (find_chain_exact (by decide) reached).2.2 5 (.inr ⟨by decide, rfl⟩)
  exact ⟨_, reached, rfl, hashes 0 (by decide) (by decide), hashes 1 (by decide) (by decide),
    hashes 2 (by decide) (by decide)⟩

/-- A proposal with one of the last numbers has no hashes and cannot be finalized. -/
theorem find_chain_wraps :
    let tree : BlockTree := ⟨Nat.pred, fun _ => 7, id⟩
    let last := 2 ^ 64 - 256
    let chain : BlockHashChain :=
      ⟨⟨fun _ => 7, .ofNat last⟩, [⟨.ofNat last, last + 1, last, ⟨.ofNat (last + 1), [7]⟩⟩]⟩
    tree.Reached (2 ^ 64) chain last ∧ tree.MayFinalize chain last (last + 1) ∧
      chain.finalize (last + 1) = none ∧ chain.findChain (last + 1) (.ofNat last) = none := by
  intro tree last chain
  have started : tree.Reached (2 ^ 64) ⟨⟨fun _ => 7, .ofNat last⟩, []⟩ last :=
    .start ⟨by decide, by decide, fun _ _ _ => rfl⟩
  exact ⟨.propose (last + 1) started ⟨by decide, rfl, .inl rfl⟩ rfl,
    ⟨⟨_, mem_singleton_self _, rfl⟩, rfl⟩, Option.isNone_iff_eq_none.1 (by decide), by decide⟩

end BlockTree

end MonadChain.BlockHashes
