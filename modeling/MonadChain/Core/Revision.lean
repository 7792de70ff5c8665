import Mathlib.Order.Basic

/-! vm/evm/monad/revision.h. -/

namespace MonadChain

inductive MonadRevision where
  | zero | one | two | three | four | five | six | seven | eight | nine | ten | next
  deriving DecidableEq, Repr

namespace MonadRevision

def number : MonadRevision → Nat
  | zero => 0 | one => 1 | two => 2 | three => 3 | four => 4 | five => 5
  | six => 6 | seven => 7 | eight => 8 | nine => 9 | ten => 10 | next => 11

def atLeast (revision floor : MonadRevision) : Bool := decide (floor.number ≤ revision.number)

end MonadRevision

end MonadChain
