import Mathlib.Algebra.GroupWithZero.Nat
import MonadChain.Core.Revision

/-!
vm/evm/revision.h and vm/evm/traits.hpp: the revisions of Ethereum from Berlin on, and
the traits of a chain, as far as transactions depend on them.
-/

namespace MonadChain

inductive EthRevision where
  | berlin | london | paris | shanghai | cancun | prague | osaka | amsterdam | experimental
  deriving DecidableEq, Repr

namespace EthRevision

def number : EthRevision → Nat
  | berlin => 8 | london => 9 | paris => 10 | shanghai => 11 | cancun => 12 | prague => 13
  | osaka => 14 | amsterdam => 15 | experimental => 16

def atLeast (revision floor : EthRevision) : Bool := decide (floor.number ≤ revision.number)

end EthRevision

inductive Traits where
  | evm (revision : EthRevision)
  | monad (revision : MonadRevision)
  deriving DecidableEq, Repr

namespace Traits

def evmRev : Traits → EthRevision
  | evm revision => revision
  | monad revision =>
    if revision.atLeast .next then .amsterdam
    else if revision.atLeast .nine then .osaka
    else if revision.atLeast .four then .prague
    else .cancun

def monadAtLeast (floor : MonadRevision) : Traits → Bool
  | evm _ => false
  | monad revision => revision.atLeast floor

def eip4844Active : Traits → Bool
  | evm revision => revision.atLeast .cancun
  | monad _ => false

section

variable (traits : Traits)

def eip7823Active : Bool := traits.evmRev.atLeast .osaka

def eip7883Active : Bool := traits.evmRev.atLeast .osaka

def eip7981Active : Bool := traits.evmRev.atLeast .amsterdam

def maxCodeSize : Traits → Nat
  | evm _ => 24 * 1024
  | monad revision => if revision.atLeast .two then 128 * 1024 else 24 * 1024

def mip8Active : Traits → Bool
  | evm _ => false
  | monad revision => revision.atLeast .ten

def canCreateInsideDelegated : Traits → Bool
  | evm _ => true
  | monad _ => false

/-- `max_initcode_size`, which nothing bounds before Shanghai. -/
def maxInitcodeSize : Traits → Nat
  | evm revision => if revision.atLeast .shanghai then 48 * 1024 else 2 ^ 64 - 1
  | monad revision => if revision.atLeast .four then 256 * 1024 else 48 * 1024

def coldAccountCost : Int :=
  if traits.monadAtLeast .seven then 10000 else 2500

def coldStorageCost : Int :=
  if traits.monadAtLeast .seven then 8000 else 2000

end

end Traits

end MonadChain
