import Mathlib.Logic.Function.Basic
import Mathlib.Algebra.GroupWithZero.Nat

/-!
The memory of call frames, vm/runtime/types.hpp, context.cpp and call.cpp. One buffer serves a
whole transaction: the memory of a call starts where that of its caller ends. A frame that needs
more room moves everything to a larger buffer; until it returns its caller's buffer is kept, for
the input of the call may lie there.
-/

namespace MonadChain.Vm

open Function List

abbrev Handle : Type := Nat

structure Buffer where
  length : Nat
  bytes : Nat → UInt8

abbrev Heap : Type := Handle → Option Buffer

/-- Why there is no next state: no frame makes such a step, the allocator has given a buffer that
is in use, an assertion fails, a number does not fit in its `Bin`, or memory is touched that is
not allocated. -/
inductive Stop where
  | refused | taken | assertion | overflow | fault
  deriving DecidableEq, Repr

/-- A `Bin<bits>`, which asserts that the number fits. -/
def bin (bits n : Nat) : Except Stop Nat :=
  if n < 2 ^ bits then .ok n else .error .overflow

def splice (bytes : Nat → UInt8) (start count : Nat) (source : Nat → UInt8) : Nat → UInt8 :=
  fun i => if start ≤ i ∧ i < start + count then source (i - start) else bytes i

namespace Heap

/-- `memcpy`, `copy_n` and, from a source of zeros, `bzero`. -/
def fill (heap : Heap) (handle start count : Nat) (source : Nat → UInt8) : Except Stop Heap :=
  match heap handle with
  | none => .error .fault
  | some buffer =>
    if start + count ≤ buffer.length then
      .ok (Function.update heap handle
        (some { buffer with bytes := splice buffer.bytes start count source }))
    else .error .fault

def free (heap : Heap) (handle : Handle) : Except Stop Heap :=
  match heap handle with
  | none => .error .fault
  | some _ => .ok (Function.update heap handle none)

def load (heap : Heap) (handle start count : Nat) : Except Stop (List UInt8) :=
  match heap handle with
  | none => .error .fault
  | some buffer =>
    if start + count ≤ buffer.length then
      .ok ((List.range count).map fun i => buffer.bytes (start + i))
    else .error .fault

def read (heap : Heap) (handle place : Nat) : Option UInt8 :=
  match heap handle with
  | none => none
  | some buffer => if place < buffer.length then some (buffer.bytes place) else none

end Heap

/-- `Memory`; `data` is counted from the start of the buffer. -/
structure Memory where
  size : Nat := 0
  capacity : Nat
  data : Nat
  cost : Int := 0
  dataHandle : Handle
  parentCapacity : Nat
  parentHandle : Handle

namespace Memory

def new (han : Handle) (dat cap : Nat) : Memory :=
  { capacity := cap, data := dat, dataHandle := han, parentCapacity := cap, parentHandle := han }

section

variable (memory : Memory) (heap : Heap)

def parentTotalSize : Except Stop Nat :=
  if memory.data ≤ 2 ^ 30 - 1 then .ok memory.data else .error .assertion

def release : Except Stop Heap :=
  if memory.dataHandle ≠ memory.parentHandle then heap.free memory.dataHandle else .ok heap

def clear : Except Stop Heap :=
  if memory.parentHandle = memory.dataHandle then
    heap.fill memory.dataHandle 0 memory.size fun _ => 0
  else do
    let heap ← heap.fill memory.parentHandle 0 memory.parentCapacity fun _ => 0
    heap.free memory.dataHandle

/-- `monad_vm_runtime_increase_capacity`; the allocator gives a handle that is not in use. -/
def increaseCapacity (oldSize newSize : Nat) (newHandle : Handle) :
    Except Stop (Heap × Memory) := do
  let parentTotalSize ← memory.parentTotalSize
  let oldSize ← bin 30 oldSize
  let oldTotalSize ← bin 31 (parentTotalSize + oldSize)
  let newTotalSize ← bin 31 (parentTotalSize + newSize)
  let newTotalCapacity ← bin 32 (2 * newTotalSize)
  match heap newHandle, heap memory.dataHandle with
  | some _, _ => .error .taken
  | none, none => .error .fault
  | none, some old =>
    if oldTotalSize ≤ old.length then
      let bytes := fun i => if i < oldTotalSize then old.bytes i else 0
      let heap ← memory.release (Function.update heap newHandle (some ⟨newTotalCapacity, bytes⟩))
      .ok (heap, { memory with
        capacity := newTotalCapacity - parentTotalSize
        dataHandle := newHandle
        data := parentTotalSize })
    else .error .fault

/-- The end of `expand_memory`. -/
def resize (newSize : Nat) (newCost : Int) (newHandle : Handle) : Except Stop (Heap × Memory) :=
  let resized := { memory with size := newSize, cost := newCost }
  if resized.capacity < newSize then
    resized.increaseCapacity heap memory.size newSize newHandle
  else .ok (heap, resized)

end

end Memory

def memoryCostFromWordCount (mip3 : Bool) (wordCount : Nat) : Int :=
  if mip3 then wordCount / 2 else wordCount * wordCount / 512 + 3 * wordCount

/-- `Memory::Offset`, which `get_memory_offset` gives or exits. -/
abbrev Offset : Type := Fin (2 ^ 28)

/-- What a call asks for. The offsets are those of sizes that are not zero. The access to a cold
account is checked at once; a delegation and a new account are paid with the value. -/
structure CallRequest where
  argsOffset : Offset := 0
  argsSize : Offset := 0
  retOffset : Offset := 0
  retSize : Offset := 0
  gasWord : Nat
  hasValue : Bool := false
  coldCost : Nat := 0
  otherCost : Nat := 0
  remainingBlockBaseGas : Nat := 0

namespace CallRequest

def needed (request : CallRequest) : Nat :=
  max (request.argsOffset + request.argsSize : Nat) (request.retOffset + request.retSize : Nat)

/-- The gas that `call_impl` leaves the caller and the gas of the message; nothing if it exits. -/
def pay (request : CallRequest) (gasRemaining : Int) : Option (Int × Int) :=
  let accessed := gasRemaining - request.coldCost
  if accessed < 0 then none
  else
    let paid := accessed - request.otherCost - if request.hasValue then 9000 else 0
    let gasLeftHere := paid + request.remainingBlockBaseGas
    if gasLeftHere < 0 then none
    else
      let gas := min (request.gasWord : Int) (gasLeftHere - gasLeftHere / 64)
      let stipend := if request.hasValue then 2300 else 0
      some (paid + stipend, gas + stipend)

end CallRequest

inductive Ending where
  | error
  | output (offset size : Offset)
  deriving DecidableEq

/-- `Context`, as far as it concerns the memory. `retOffset`, `retSize` and `gas` belong to the
`call_impl` that waits for the frame; `blockBaseGas` is what was charged for the block of code
that runs. -/
structure Context where
  memory : Memory
  gasRemaining : Int
  inputHandle : Handle
  inputData : Nat := 0
  inputDataSize : Nat := 0
  retOffset : Nat := 0
  retSize : Nat := 0
  gas : Int
  blockBaseGas : Nat := 0
  exited : Bool := false

namespace Context

def exit (ctx : Context) : Context := { ctx with exited := true }

def deductGas (ctx : Context) (gas : Int) : Context :=
  { ctx with
    gasRemaining := ctx.gasRemaining - gas
    exited := decide (ctx.gasRemaining - gas < 0) }

def isMemorySizeInBound (mip3 : Bool) (ctx : Context) (memSize : Nat) : Except Stop Bool :=
  if mip3 then do
    let parentTotalSize ← ctx.memory.parentTotalSize
    let totalSize ← bin 31 (memSize + parentTotalSize)
    .ok (totalSize ≤ 0x800000)
  else .ok true

def expandMemory (mip3 : Bool) (ctx : Context) (heap : Heap) (minSize : Nat) (newHandle : Handle) :
    Except Stop (Heap × Context) :=
  if ctx.memory.size < minSize then do
    let wordCount ← bin 25 ((minSize + 31) / 32)
    let newCost := memoryCostFromWordCount mip3 wordCount
    let newSize ← bin 30 (32 * wordCount)
    let inBound ← ctx.isMemorySizeInBound mip3 newSize
    if inBound = false then .ok (heap, ctx.exit)
    else
      let charged := ctx.deductGas (newCost - ctx.memory.cost)
      if charged.exited then .ok (heap, charged)
      else do
        let grown ← ctx.memory.resize heap newSize newCost newHandle
        .ok (grown.1, { charged with memory := grown.2 })
  else .ok (heap, ctx)

def store (ctx : Context) (heap : Heap) (offset : Nat) (bytes : List UInt8) : Except Stop Heap :=
  heap.fill ctx.memory.dataHandle (ctx.memory.data + offset) bytes.length (bytes.getD · 0)

def callee (ctx : Context) (request : CallRequest) (gas : Int) : Context where
  memory := Memory.new ctx.memory.dataHandle (ctx.memory.data + ctx.memory.size)
    (ctx.memory.capacity - ctx.memory.size)
  gasRemaining := gas
  inputHandle := ctx.memory.dataHandle
  inputData := ctx.memory.data + request.argsOffset
  inputDataSize := request.argsSize
  retOffset := request.retOffset
  retSize := request.retSize
  gas

/-- `call_impl` up to the call of the host; code at depth 1024 makes no message. -/
def callImpl (mip3 : Bool) (ctx : Context) (heap : Heap) (depth : Nat) (request : CallRequest)
    (newHandle : Handle) : Except Stop (Heap × List Context) := do
  let grown ← ctx.expandMemory mip3 heap request.needed newHandle
  if grown.2.exited then .ok (grown.1, [grown.2])
  else
    match request.pay grown.2.gasRemaining with
    | none => .ok (grown.1, [grown.2.exit])
    | some (gasRemaining, gas) =>
      let caller := { grown.2 with gasRemaining }
      if 1024 ≤ depth then .ok (grown.1, [caller])
      else .ok (grown.1, [caller.callee request gas, caller])

/-- `copy_to_evmc_result` with `copy_result_data`: the output and the gas that is left. -/
def copyToEvmcResult (mip3 : Bool) (ctx : Context) (heap : Heap) :
    Ending → Except Stop (List UInt8 × Int)
  | .error => .ok ([], 0)
  | .output offset size =>
    if ctx.gasRemaining < 0 then .ok ([], 0)
    else if (size : Nat) = 0 then .ok ([], ctx.gasRemaining)
    else do
      let memoryEnd ← bin 29 (offset + size)
      if memoryEnd ≤ ctx.memory.size then do
        let output ← heap.load ctx.memory.dataHandle (ctx.memory.data + offset) size
        .ok (output, ctx.gasRemaining)
      else do
        let inBound ← ctx.isMemorySizeInBound mip3 memoryEnd
        if inBound = false then .ok ([], 0)
        else do
          let wordCount ← bin 25 ((memoryEnd + 31) / 32)
          let gas := ctx.gasRemaining - (memoryCostFromWordCount mip3 wordCount - ctx.memory.cost)
          if gas < 0 then .ok ([], 0)
          else if offset < ctx.memory.size then do
            let output ← heap.load ctx.memory.dataHandle (ctx.memory.data + offset)
              (ctx.memory.size - offset)
            .ok (output ++ replicate (memoryEnd - ctx.memory.size) 0, gas)
          else .ok (replicate size 0, gas)

/-- `return_to` a parent, which goes on in the buffer of the frame. -/
def returnTo (ctx parent : Context) (heap : Heap) : Except Stop (Heap × Context) := do
  let heap ← heap.fill ctx.memory.dataHandle ctx.memory.data ctx.memory.size fun _ => 0
  if ctx.memory.dataHandle ≠ ctx.memory.parentHandle then
    let heap ← parent.memory.release heap
    .ok (heap, { parent with memory := { parent.memory with
      data := ctx.memory.data - parent.memory.size
      capacity := ctx.memory.capacity + parent.memory.size
      dataHandle := ctx.memory.dataHandle } })
  else .ok (heap, parent)

end Context

structure Frames where
  heap : Heap
  contexts : List Context

/-- What the running frame does; it writes within its size. The gas of a block of code is charged
when it is entered. Of the gas that a frame leaves the host may take some, as for the code of a
new contract. -/
inductive FrameOp where
  | expandMemory (minSize : Fin (2 ^ 29)) (newHandle : Handle)
  | write (offset : Nat) (bytes : List UInt8)
  | deductGas (gas : Nat)
  | enterBlock (baseGas : Nat)
  | call (request : CallRequest) (newHandle : Handle)
  | returnTo (ending : Ending) (hostGas : Nat)

def FrameOp.failing : FrameOp → Bool
  | .returnTo .error _ => true
  | _ => false

namespace Frames

/-- The end of `execute` in the frame, then that of `call_impl` in its parent. -/
def leave (mip3 : Bool) (heap : Heap) (ctx : Context) (below : List Context) (ending : Ending)
    (hostGas : Nat) : Except Stop Frames := do
  let result ← ctx.copyToEvmcResult mip3 heap ending
  match below with
  | [] => do
    let heap ← ctx.memory.clear heap
    .ok ⟨heap, []⟩
  | parent :: below => do
    let returned ← ctx.returnTo parent heap
    let parent := returned.2.deductGas (ctx.gas - max 0 (result.2 - hostGas))
    if parent.exited then .ok ⟨returned.1, parent :: below⟩
    else do
      let heap ← parent.store returned.1 ctx.retOffset (result.1.take ctx.retSize)
      .ok ⟨heap, parent :: below⟩

def step (mip3 : Bool) (frames : Frames) (op : FrameOp) : Except Stop Frames :=
  match frames.contexts with
  | [] => .error .refused
  | ctx :: below =>
    if ctx.exited = true ∧ op.failing = false then .error .refused
    else match op with
    | .expandMemory minSize newHandle => do
      let grown ← ctx.expandMemory mip3 frames.heap minSize newHandle
      .ok ⟨grown.1, grown.2 :: below⟩
    | .write offset bytes =>
      if offset + bytes.length ≤ ctx.memory.size then do
        let heap ← ctx.store frames.heap offset bytes
        .ok ⟨heap, ctx :: below⟩
      else .error .refused
    | .deductGas gas => .ok { frames with contexts := ctx.deductGas gas :: below }
    | .enterBlock baseGas =>
      .ok { frames with
        contexts := { ctx.deductGas baseGas with blockBaseGas := baseGas } :: below }
    | .call request newHandle =>
      if request.remainingBlockBaseGas ≤ ctx.blockBaseGas then do
        let called ← ctx.callImpl mip3 frames.heap below.length request newHandle
        .ok ⟨called.1, called.2 ++ below⟩
      else .error .refused
    | .returnTo ending hostGas => leave mip3 frames.heap ctx below ending hostGas

def run (mip3 : Bool) (frames : Frames) (ops : List FrameOp) : Except Stop Frames :=
  ops.foldlM (step mip3) frames

def start (origin capacity : Nat) (gas : Int) : Frames where
  heap := Function.update (fun _ => none) origin (some ⟨capacity, fun _ => 0⟩)
  contexts :=
    [{ memory := Memory.new origin 0 capacity, gasRemaining := gas, inputHandle := origin, gas }]

end Frames

end MonadChain.Vm
