import Mathlib.Data.Nat.Bitwise

/-!
mpt/db_metadata_context.hpp: the ring of root offsets. Version `v` has its slot at `v` modulo the
capacity, and two bounds tell which versions the slots are for. `none` as a slot is
`INVALID_OFFSET`; as the result of an operation it is a violated assertion.
-/

namespace MonadChain.Mpt

structure Offset where
  id : Nat
  offset : Nat
  spare : Nat := 0
  deriving DecidableEq, Repr

def invalidBlockNum : Nat := 2 ^ 64 - 1

/-- What `root_offsets_delegator` refers to. -/
structure Ring where
  capacity : Nat
  versionLowerBound : Nat := 0
  nextVersion : Nat := 0
  slots : Nat → Option Offset := fun _ => none

namespace Ring

section

variable (ring : Ring) (i : Nat)

def place : Nat := i &&& (ring.capacity - 1)

def slot : Option Offset := ring.slots (ring.place i)

def maxVersion : Nat :=
  if ring.nextVersion = 0 then invalidBlockNum else ring.nextVersion - 1

def store (o : Option Offset) : Ring :=
  { ring with slots := Function.update ring.slots (ring.place i) o }

/-- The loop over slots without a root, with the distance to the last version. -/
def scan (ring : Ring) : Nat → Nat → Nat
  | 0, idx => idx
  | gap + 1, idx => if ring.slot idx = none then scan ring gap (idx + 1) else idx

def updateVersionLowerBound (lowerBound : Nat) : Ring :=
  let idx := if lowerBound < ring.versionLowerBound then lowerBound else ring.versionLowerBound
  if ring.maxVersion = invalidBlockNum then ring
  else { ring with versionLowerBound := ring.scan (ring.maxVersion - idx) idx }

def push (o : Option Offset) : Option Ring :=
  if ring.capacity = 0 ∨ 2 ^ 64 ≤ ring.nextVersion + 1 then none
  else
    let pushed := { ring.store ring.nextVersion o with nextVersion := ring.nextVersion + 1 }
    some (if o ≠ none then pushed.updateVersionLowerBound invalidBlockNum else pushed)

def assign (o : Option Offset) : Option Ring :=
  if ring.capacity = 0 then none
  else some ((ring.store i o).updateVersionLowerBound (if o ≠ none then i else invalidBlockNum))

def resetAll (version : Nat) : Option Ring :=
  if ring.capacity = 0 then none
  else some
    { ring with
      slots := fun place => if place < ring.capacity then none else ring.slots place
      versionLowerBound := version
      nextVersion := version }

/-- `while (curr_version + 1 < new_version)` of `fast_forward_next_version`. -/
def pushInvalid (ring : Ring) : Nat → Option Ring
  | 0 => some ring
  | count + 1 => do
    let ring ← ring.push none
    ring.pushInvalid count

def fastForward (newVersion : Nat) : Option Ring :=
  let currVersion := ring.maxVersion
  if currVersion = invalidBlockNum ∨ currVersion < newVersion then
    if currVersion = invalidBlockNum ∨ ring.capacity ≤ newVersion - currVersion then
      ring.resetAll newVersion
    else ring.pushInvalid (newVersion - currVersion - 1)
  else none

end

/-- The loop of `rewind_to_version` over the versions that are dropped. -/
def clearFrom (ring : Ring) : Nat → Nat → Option Ring
  | 0, _ => some ring
  | count + 1, i => do
    let ring ← ring.assign i none
    ring.clearFrom count (i + 1)

def rewindToVersion (ring : Ring) (version : Nat) : Option Ring := do
  if version < ring.maxVersion ∧ ring.maxVersion - version ≤ ring.capacity then
    let ring ← ring.clearFrom (ring.maxVersion - version) (version + 1)
    let lowered :=
      if version < ring.versionLowerBound then { ring with versionLowerBound := version } else ring
    some ({ lowered with nextVersion := version + 1 }.updateVersionLowerBound invalidBlockNum)
  else none

variable {ring after : Ring} {i version lowerBound : Nat} {o : Option Offset}

@[simp] theorem capacity_updateVersionLowerBound :
    (ring.updateVersionLowerBound lowerBound).capacity = ring.capacity := by
  unfold updateVersionLowerBound
  dsimp only
  split <;> rfl

@[simp] theorem nextVersion_updateVersionLowerBound :
    (ring.updateVersionLowerBound lowerBound).nextVersion = ring.nextVersion := by
  unfold updateVersionLowerBound
  dsimp only
  split <;> rfl

theorem assign_eq (done : ring.assign i o = some after) : ring.capacity ≠ 0 ∧
    after = (ring.store i o).updateVersionLowerBound (if o ≠ none then i else invalidBlockNum) := by
  unfold assign at done
  split at done
  · cases done
  · rename_i sized
    cases done
    exact ⟨sized, rfl⟩

theorem resetAll_eq (done : ring.resetAll version = some after) : ring.capacity ≠ 0 ∧
    after =
      { ring with
        slots := fun place => if place < ring.capacity then none else ring.slots place
        versionLowerBound := version
        nextVersion := version } := by
  unfold resetAll at done
  split at done
  · cases done
  · rename_i sized
    cases done
    exact ⟨sized, rfl⟩

theorem push_eq (done : ring.push o = some after) :
    (ring.capacity ≠ 0 ∧ ring.nextVersion + 1 < 2 ^ 64) ∧
    after =
      if o ≠ none then { ring.store ring.nextVersion o with
        nextVersion := ring.nextVersion + 1 }.updateVersionLowerBound invalidBlockNum
      else { ring.store ring.nextVersion o with nextVersion := ring.nextVersion + 1 } := by
  unfold push at done
  split at done
  · cases done
  · rename_i fine
    cases done
    refine ⟨?_, rfl⟩
    omega

end Ring

end MonadChain.Mpt
