import Mathlib.Algebra.GroupWithZero.Nat
import MonadChain.Vm.BasicBlocks

/-!
The checks of the stack size. The interpreter checks every instruction. Compiled code checks a
block at its entry, against the least and the greatest size that the blocks since the last write
of the size reach; where a block is joined to the one before it, only a bound that moved is
checked again. The code has at most 2^20 bytes, so that the sums of `int32_t` are integers here.
-/

namespace MonadChain.Vm

open Option

def checkRequirements (minStack stackIncrease : Nat) (stackSize : Int) : Option Int :=
  if stackSize < minStack then none
  else if stackIncrease > 0 ∧ (1024 - (stackIncrease - minStack) : Int) < 1024 ∧
      stackSize > 1024 - (stackIncrease - minStack) then none
  else some (stackSize - minStack + stackIncrease)

/-- `min_stack` of the opcode that ends a block; none of them pushes anything, and an
instruction that is not known is not checked. -/
def Terminator.minStack : Terminator → Nat
  | jump | selfDestruct => 1
  | jumpI | .return | revert => 2
  | fallThrough | stop | invalidInstruction => 0

def interpretInstrs : List Instruction → Int → Option Int
  | [], stackSize => some stackSize
  | instr :: rest, stackSize => do
    interpretInstrs rest (← checkRequirements instr.stackArgs instr.stackIncrease stackSize)

def interpretBlock (block : Block) (stackSize : Int) : Option Int := do
  checkRequirements block.terminator.minStack 0 (← interpretInstrs block.instrs stackSize)

structure StackDeltas where
  minDelta : Int := 0
  delta : Int := 0
  maxDelta : Int := 0
  deriving DecidableEq, Repr

def StackDeltas.add (deltas : StackDeltas) (instr : Instruction) : StackDeltas :=
  let taken := deltas.delta - instr.stackArgs
  { minDelta := min taken deltas.minDelta
    delta := taken + instr.stackIncrease
    maxDelta := max (taken + instr.stackIncrease) deltas.maxDelta }

def Block.stackDeltas (block : Block) : StackDeltas :=
  let deltas := block.instrs.foldl StackDeltas.add {}
  let delta := deltas.delta - block.terminator.inputs
  { minDelta := min delta deltas.minDelta, delta, maxDelta := deltas.maxDelta }

/-- The deltas of the virtual stack, with `did_min_delta_decrease_` and
`did_max_delta_increase_`. -/
structure VirtualStack extends StackDeltas where
  didMinDeltaDecrease : Bool := false
  didMaxDeltaIncrease : Bool := false
  deriving DecidableEq, Repr

namespace VirtualStack

/-- `begin_new_block`, which forgets the stack there was. -/
def beginNewBlock (block : Block) : VirtualStack :=
  { toStackDeltas := block.stackDeltas
    didMinDeltaDecrease := block.stackDeltas.minDelta < 0
    didMaxDeltaIncrease := block.stackDeltas.maxDelta > 0 }

def continueBlock (stack : VirtualStack) (block : Block) : VirtualStack :=
  let pre := block.stackDeltas
  let newMinDelta := min (stack.delta + pre.minDelta) stack.minDelta
  let newMaxDelta := max (stack.delta + pre.maxDelta) stack.maxDelta
  { minDelta := newMinDelta
    delta := stack.delta + pre.delta
    maxDelta := newMaxDelta
    didMinDeltaDecrease := newMinDelta < stack.minDelta
    didMaxDeltaIncrease := newMaxDelta > stack.maxDelta }

def canEnter (stack : VirtualStack) : Bool := !(stack.minDelta < -1024 || stack.maxDelta > 1024)

/-- The emitted prologue on the size in memory: a jump to the error label, or the
comparisons `jb` and `ja`. -/
def prologuePasses (stack : VirtualStack) (size : Int) : Bool :=
  stack.canEnter && !(stack.didMinDeltaDecrease && size < -stack.minDelta) &&
    !(stack.didMaxDeltaIncrease && size > 1024 - stack.maxDelta)

end VirtualStack

/-- What the emitter goes through: the blocks in order, the offsets with a label, and the
spills that a JUMPI would leave to the block after it. -/
structure Contract where
  blocks : List Block
  jumpDests : Nat → Bool
  missingSpillCount : Nat → Nat
  falls : ∀ i block, blocks[i]? = some block → block.terminator.isFallthrough = true →
    block.fallthroughDest = some (i + 1)

structure Emitter where
  keepStackInNextBlock : Bool := false
  stack : VirtualStack := {}

def Emitter.enter (emitter : Emitter) (block : Block) : VirtualStack :=
  if emitter.keepStackInNextBlock then emitter.stack.continueBlock block
  else VirtualStack.beginNewBlock block

namespace Contract

/-- `jumpi`: the stack is kept unless the next block has a label or would spill again what
this one leaves. -/
def keepsStack (contract : Contract) (i : Nat) (block : Block) : Bool :=
  block.terminator == .jumpI &&
    match block.fallthroughDest.bind (contract.blocks[·]?) with
    | none => false
    | some next => !(contract.jumpDests next.offset || next.terminator == .jumpI &&
        contract.missingSpillCount i > 3 + next.instrs.length)

def emitterAt (contract : Contract) : Nat → Emitter
  | 0 => {}
  | i + 1 =>
    match contract.blocks[i]? with
    | none => contract.emitterAt i
    | some block =>
      let stack := (contract.emitterAt i).enter block
      { keepStackInNextBlock := stack.canEnter && contract.keepsStack i block, stack }

def Follows (contract : Contract) (i next : Nat) : Prop :=
  ∃ block, contract.blocks[i]? = some block ∧
    (block.terminator.isFallthrough = true ∧ block.fallthroughDest = some next ∨
      (block.terminator = .jump ∨ block.terminator = .jumpI) ∧
        ∃ target, contract.blocks[next]? = some target ∧ contract.jumpDests target.offset = true)

def Path (contract : Contract) : List Nat → Prop
  | [] => True
  | i :: rest => i < contract.blocks.length ∧ (∀ next ∈ rest.head?, contract.Follows i next) ∧
      contract.Path rest

/-- Compiled code along a path, on the size in memory, which is written only where a block
is left whose stack is not kept: `adjust_by_stack_delta`. -/
def runCompiled (contract : Contract) : List Nat → Int → Option Int
  | [], size => some size
  | i :: rest, size =>
    match contract.blocks[i]? with
    | none => none
    | some block =>
      let stack := (contract.emitterAt i).enter block
      if stack.prologuePasses size then
        let kept := rest.head? = some (i + 1) ∧ (contract.emitterAt (i + 1)).keepStackInNextBlock
        contract.runCompiled rest (if kept then size else size + stack.delta)
      else none

def runInterpreted (contract : Contract) : List Nat → Int → Option Int
  | [], stackSize => some stackSize
  | i :: rest, stackSize =>
    match contract.blocks[i]? with
    | none => none
    | some block => do contract.runInterpreted rest (← interpretBlock block stackSize)

end Contract

abbrev StackDeltas.Fits (deltas : StackDeltas) (size : Int) : Prop :=
  0 ≤ size + deltas.minDelta ∧ size + deltas.maxDelta ≤ 1024

/-- The bounds are those of sizes that are reached, the first and the last among them. -/
structure StackDeltas.Sane (deltas : StackDeltas) : Prop where
  start : deltas.minDelta ≤ 0 ∧ 0 ≤ deltas.maxDelta
  last : deltas.minDelta ≤ deltas.delta ∧ deltas.delta ≤ deltas.maxDelta

theorem checkRequirements_eq {minStack stackIncrease : Nat} {stackSize : Int}
    (limit : stackSize ≤ 1024) :
    checkRequirements minStack stackIncrease stackSize =
      if 0 ≤ stackSize - minStack ∧ stackSize - minStack + stackIncrease ≤ 1024 then
        some (stackSize - minStack + stackIncrease) else none := by
  unfold checkRequirements
  by_cases under : stackSize < minStack
  · rw [if_pos under, if_neg (by omega)]
  · rw [if_neg under]
    by_cases excess : stackIncrease > 0 ∧ (1024 - (stackIncrease - minStack) : Int) < 1024 ∧
        stackSize > 1024 - (stackIncrease - minStack)
    · rw [if_pos excess, if_neg (by omega)]
    · rw [if_neg excess, if_pos (by omega)]

theorem Terminator.inputs_eq (terminator : Terminator) :
    terminator.inputs = terminator.minStack := by
  cases terminator <;> rfl

namespace StackDeltas

variable {deltas : StackDeltas}

theorem Sane.add (sane : deltas.Sane) (instr : Instruction) : (deltas.add instr).Sane := by
  obtain ⟨start, last⟩ := sane
  unfold StackDeltas.add
  constructor <;> dsimp only <;> omega

theorem Sane.fold (sane : deltas.Sane) (instrs : List Instruction) :
    (instrs.foldl StackDeltas.add deltas).Sane := by
  induction instrs generalizing deltas with
  | nil => exact sane
  | cons instr rest ih => exact ih (sane.add instr)

theorem fits_of_fold {instrs : List Instruction} {size : Int}
    (fits : (instrs.foldl StackDeltas.add deltas).Fits size) : deltas.Fits size := by
  induction instrs generalizing deltas with
  | nil => exact fits
  | cons instr rest ih =>
    have next := ih fits
    unfold StackDeltas.add at next
    dsimp only [Fits] at next ⊢
    omega

theorem interpretInstrs_eq (sane : deltas.Sane) {size : Int} (fits : deltas.Fits size)
    (instrs : List Instruction) :
    interpretInstrs instrs (size + deltas.delta) =
      if (instrs.foldl StackDeltas.add deltas).Fits size then
        some (size + (instrs.foldl StackDeltas.add deltas).delta) else none := by
  induction instrs generalizing deltas with
  | nil => exact (if_pos fits).symm
  | cons instr rest ih =>
    have last := sane.last
    unfold interpretInstrs
    rw [checkRequirements_eq (by omega), List.foldl_cons]
    by_cases passes : (deltas.add instr).Fits size
    · have next := ih (sane.add instr) passes
      unfold StackDeltas.add at passes
      dsimp only [Fits] at passes
      rw [if_pos (by omega), ← next]
      unfold StackDeltas.add
      dsimp only [bind_eq_bind, bind_some]
      congr 1
      omega
    · rw [if_neg (fun later => passes (fits_of_fold later))]
      unfold StackDeltas.add at passes
      dsimp only [Fits] at passes
      rw [if_neg (by omega)]
      rfl

end StackDeltas

variable (block : Block)

theorem Block.stackDeltas_sane : block.stackDeltas.Sane := by
  have empty : StackDeltas.Sane {} := ⟨by decide, by decide⟩
  obtain ⟨start, last⟩ := empty.fold block.instrs
  unfold Block.stackDeltas
  constructor <;> dsimp only <;> omega

theorem interpretBlock_eq {stackSize : Int} (range : 0 ≤ stackSize ∧ stackSize ≤ 1024) :
    interpretBlock block stackSize =
      if block.stackDeltas.Fits stackSize then some (stackSize + block.stackDeltas.delta)
      else none := by
  have sane : StackDeltas.Sane {} := ⟨by decide, by decide⟩
  have within : StackDeltas.Fits {} stackSize := by
    dsimp only [StackDeltas.Fits]
    omega
  have last := (sane.fold block.instrs).last
  have instrs := StackDeltas.interpretInstrs_eq sane within block.instrs
  rw [Int.add_zero] at instrs
  unfold interpretBlock Block.stackDeltas
  rw [instrs, Terminator.inputs_eq]
  dsimp only [StackDeltas.Fits]
  split
  · rename_i fits
    dsimp only [bind_eq_bind, bind_some]
    rw [checkRequirements_eq (by omega)]
    split
    · rw [if_pos (by omega)]
      congr 1
      omega
    · rw [if_neg (by omega)]
  · rw [if_neg (by omega)]
    rfl

/-- The comparisons that are left out are implied by those made before. -/
theorem VirtualStack.prologuePasses_eq {before : VirtualStack} {size : Int}
    (sane : before.Sane) (fits : before.Fits size) (block : Block) :
    (before.continueBlock block).prologuePasses size = true ↔
      block.stackDeltas.Fits (size + before.delta) := by
  obtain ⟨start, last⟩ := sane
  unfold prologuePasses canEnter continueBlock
  simp only [StackDeltas.Fits, Bool.and_eq_true, Bool.not_eq_true', Bool.or_eq_false_iff,
    decide_eq_false_iff_not, Bool.and_eq_false_iff] at fits ⊢
  omega

theorem VirtualStack.beginNewBlock_eq :
    VirtualStack.beginNewBlock block = VirtualStack.continueBlock {} block := by
  obtain ⟨start, _⟩ := block.stackDeltas_sane
  unfold beginNewBlock continueBlock
  simp only [Int.zero_add]
  rw [Int.min_eq_left start.1, Int.max_eq_left start.2]

def Emitter.base (emitter : Emitter) : VirtualStack :=
  if emitter.keepStackInNextBlock then emitter.stack else {}

theorem Emitter.enter_eq (emitter : Emitter) (block : Block) :
    emitter.enter block = emitter.base.continueBlock block := by
  unfold enter base
  split
  · rfl
  · exact VirtualStack.beginNewBlock_eq block

theorem VirtualStack.continueBlock_sane {before : VirtualStack} (sane : before.Sane)
    (block : Block) : (before.continueBlock block).Sane := by
  obtain ⟨start, last⟩ := sane
  obtain ⟨blockStart, blockLast⟩ := block.stackDeltas_sane
  unfold continueBlock
  constructor <;> dsimp only <;> omega

namespace Contract

variable {contract : Contract} {i next : Nat} {block : Block} {size stackSize : Int}

theorem emitterAt_succ (found : contract.blocks[i]? = some block) :
    contract.emitterAt (i + 1) =
      { keepStackInNextBlock :=
          ((contract.emitterAt i).enter block).canEnter && contract.keepsStack i block
        stack := (contract.emitterAt i).enter block } := by
  simp only [emitterAt, found]

theorem base_sane (contract : Contract) (i : Nat) : (contract.emitterAt i).base.Sane := by
  have empty : StackDeltas.Sane {} := ⟨by decide, by decide⟩
  induction i with
  | zero => exact empty
  | succ i ih =>
    cases found : contract.blocks[i]? with
    | none =>
      simp only [emitterAt, found]
      exact ih
    | some block =>
      rw [emitterAt_succ found, Emitter.base]
      split
      · exact Emitter.enter_eq _ block ▸ VirtualStack.continueBlock_sane ih block
      · exact empty

theorem kept_next (found : contract.blocks[i]? = some block)
    (kept : (contract.emitterAt (i + 1)).keepStackInNextBlock = true) :
    ∃ target, contract.blocks[i + 1]? = some target ∧ contract.jumpDests target.offset = false := by
  rw [emitterAt_succ found, Bool.and_eq_true] at kept
  have keeps := kept.2
  unfold keepsStack at keeps
  rw [Bool.and_eq_true] at keeps
  have fallthrough : block.terminator.isFallthrough = true := by
    unfold Terminator.isFallthrough
    rw [keeps.1, Bool.or_true]
  rw [contract.falls i block found fallthrough, bind_some] at keeps
  cases target : contract.blocks[i + 1]? with
  | none =>
    rw [target] at keeps
    exact absurd keeps.2 (by simp)
  | some target' =>
    rw [target] at keeps
    have unlabelled := keeps.2
    simp only [Bool.not_eq_true', Bool.or_eq_false_iff] at unlabelled
    exact ⟨target', rfl, unlabelled.1⟩

theorem next_of_kept (follows : contract.Follows i next)
    (kept : (contract.emitterAt next).keepStackInNextBlock = true) : next = i + 1 := by
  obtain ⟨block, found, ⟨falls, dest⟩ | ⟨_, target, there, label⟩⟩ := follows
  · rw [contract.falls i block found falls] at dest
    exact (some.inj dest).symm
  · cases next with
    | zero => exact absurd kept Bool.false_ne_true
    | succ j =>
      have inside := (List.getElem?_eq_some_iff.mp there).1
      obtain ⟨other, same, unlabelled⟩ :=
        kept_next (List.getElem?_eq_getElem (show j < contract.blocks.length by omega)) kept
      rw [there, some.injEq] at same
      rw [same, unlabelled] at label
      cases label

/-- The size in memory stands for the interpreter's, and the checks so far hold of it. -/
structure Tracks (contract : Contract) (i : Nat) (size stackSize : Int) : Prop where
  shifted : stackSize = size + (contract.emitterAt i).base.delta
  fits : (contract.emitterAt i).base.Fits size

theorem Tracks.passes_iff (tracks : Tracks contract i size stackSize) (block : Block) :
    ((contract.emitterAt i).enter block).prologuePasses size = true ↔
      block.stackDeltas.Fits stackSize := by
  rw [Emitter.enter_eq, tracks.shifted]
  exact VirtualStack.prologuePasses_eq (contract.base_sane i) tracks.fits block

theorem Tracks.follow (tracks : Tracks contract i size stackSize)
    (found : contract.blocks[i]? = some block) (follows : contract.Follows i next)
    (passes : block.stackDeltas.Fits stackSize) :
    Tracks contract next
      (if next = i + 1 ∧ (contract.emitterAt (i + 1)).keepStackInNextBlock then size
        else size + ((contract.emitterAt i).enter block).delta)
      (stackSize + block.stackDeltas.delta) := by
  obtain ⟨shifted, fits⟩ := tracks
  have delta : ((contract.emitterAt i).enter block).delta =
      (contract.emitterAt i).base.delta + block.stackDeltas.delta := by
    rw [Emitter.enter_eq]
    rfl
  by_cases kept : (contract.emitterAt next).keepStackInNextBlock = true
  · obtain rfl := next_of_kept follows kept
    have base : (contract.emitterAt (i + 1)).base =
        (contract.emitterAt i).base.continueBlock block := by
      rw [Emitter.base, if_pos kept, emitterAt_succ found, Emitter.enter_eq]
    rw [if_pos ⟨rfl, kept⟩]
    refine ⟨?_, ?_⟩
    · rw [base, shifted, Int.add_assoc]
      rfl
    · rw [base]
      unfold VirtualStack.continueBlock
      dsimp only [StackDeltas.Fits] at fits passes ⊢
      omega
  · have base : (contract.emitterAt next).base = {} := by
      rw [Emitter.base, if_neg kept]
    have written : ¬(next = i + 1 ∧ (contract.emitterAt (i + 1)).keepStackInNextBlock = true) := by
      rintro ⟨rfl, kept'⟩
      exact kept kept'
    have last := block.stackDeltas_sane.last
    rw [if_neg written]
    refine ⟨?_, ?_⟩
    · rw [base, delta]
      dsimp only
      omega
    · rw [base, delta]
      dsimp only [StackDeltas.Fits] at passes ⊢
      omega

theorem run_fails_iff {path : List Nat} (isPath : contract.Path path)
    (tracks : ∀ i ∈ path.head?, Tracks contract i size stackSize) :
    contract.runCompiled path size = none ↔ contract.runInterpreted path stackSize = none := by
  induction path generalizing size stackSize with
  | nil => simp [runCompiled, runInterpreted]
  | cons i rest ih =>
    obtain ⟨inside, follows, isRest⟩ := isPath
    have here := tracks i rfl
    have found := List.getElem?_eq_getElem inside
    have range : 0 ≤ stackSize ∧ stackSize ≤ 1024 := by
      have last := (contract.base_sane i).last
      have fits := here.fits
      rw [here.shifted]
      omega
    unfold runCompiled runInterpreted
    rw [found]
    dsimp only
    rw [interpretBlock_eq _ range]
    by_cases passes : contract.blocks[i].stackDeltas.Fits stackSize
    · rw [if_pos ((here.passes_iff _).mpr passes), if_pos passes]
      apply ih isRest
      intro next first
      rw [mem_def] at first
      simp only [first, some.injEq]
      exact here.follow found (follows next first) passes
    · rw [if_neg (fun entered => passes ((here.passes_iff _).mp entered)), if_neg passes]
      exact iff_of_true rfl rfl

/-- Along every path from a block that is begun with the stack written, compiled code ends
with a stack error exactly when the interpreter does. -/
theorem stack_checks_agree (contract : Contract) {start : Nat} {path : List Nat} {height : Int}
    (begun : (contract.emitterAt start).keepStackInNextBlock = false)
    (isPath : contract.Path (start :: path)) (range : 0 ≤ height ∧ height ≤ 1024) :
    contract.runCompiled (start :: path) height = none ↔
      contract.runInterpreted (start :: path) height = none := by
  apply run_fails_iff isPath
  rintro i same
  obtain rfl := some.inj same
  have base : (contract.emitterAt start).base = {} := by
    rw [Emitter.base, begun]
    rfl
  refine ⟨?_, ?_⟩
  · rw [base]
    exact (Int.add_zero height).symm
  · rw [base]
    dsimp only [StackDeltas.Fits]
    omega

/-- PUSH0, PUSH0, PUSH0, JUMPI and after it ADD, joined to the first block. -/
def joinedSample : Contract where
  blocks :=
    [{ instrs := [⟨0, 0x5f, 0, 2, 0, 1⟩, ⟨1, 0x5f, 0, 2, 0, 1⟩, ⟨2, 0x5f, 0, 2, 0, 1⟩]
       terminator := .jumpI
       fallthroughDest := some 1 },
      { instrs := [⟨4, 0x01, 0, 3, 2, 1⟩], offset := 4 }]
  jumpDests _ := false
  missingSpillCount _ := 0
  falls i block found falls := by
    match i with
    | 0 =>
      obtain rfl := Option.some.inj found
      rfl
    | 1 =>
      obtain rfl := Option.some.inj found
      cases falls
    | _ + 2 => cases found

theorem stack_checks_agree_sample :
    joinedSample.runCompiled [0, 1] 0 = none ∧ joinedSample.runInterpreted [0, 1] 0 = none := by
  have isPath : joinedSample.Path [0, 1] := by
    refine ⟨by decide, ?_, by decide, by simp, trivial⟩
    rintro next same
    obtain rfl := some.inj same
    exact ⟨_, rfl, .inl ⟨rfl, rfl⟩⟩
  have compiled : joinedSample.runCompiled [0, 1] 0 = none := by decide +kernel
  exact ⟨compiled, (stack_checks_agree joinedSample rfl isPath (by decide)).mp compiled⟩

end Contract

end MonadChain.Vm
