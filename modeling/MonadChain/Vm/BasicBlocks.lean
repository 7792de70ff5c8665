import Mathlib.Data.Nat.Notation

/-!
The blocks of vm/compiler/ir/basic_blocks.hpp: straight code that ends with a terminator.
-/

namespace MonadChain.Vm

inductive Terminator where
  | fallThrough | jumpI | jump | return | stop | revert | selfDestruct | invalidInstruction
  deriving DecidableEq, Repr

namespace Terminator

def isFallthrough (terminator : Terminator) : Bool :=
  terminator == fallThrough || terminator == jumpI

def inputs : Terminator → Nat
  | jumpI | .return | revert => 2
  | jump | selfDestruct => 1
  | stop | fallThrough | invalidInstruction => 0

end Terminator

/-- `Instruction`, with the numbers that the opcode table has for it. -/
structure Instruction where
  pc : Nat
  opcode : Nat
  immediateValue : Nat := 0
  staticGasCost : Nat
  stackArgs : Nat
  stackIncrease : Nat
  deriving DecidableEq, Repr

structure Block where
  instrs : List Instruction := []
  terminator : Terminator := .stop
  fallthroughDest : Option Nat := none
  offset : Nat := 0
  deriving DecidableEq, Repr

end MonadChain.Vm
