import MonadChain.Staking.State

/-!
The intrusive lists at the end of monad/staking/staking_contract.cpp. One node per (validator,
delegator) carries the links of two lists. `LinkedListTrait` selects one pair of links. Each list
starts at a sentinel stored under the same mapping, and only the sentinel has no previous node.
-/

namespace MonadChain.Staking

open Maps

abbrev Nodes := ValId → Address → ListNode

structure LinkedListTrait (Key Ptr : Type) where
  sentinel : Ptr
  empty : Ptr
  prev : ListNode → Ptr
  next : ListNode → Ptr
  setPrev : ListNode → Ptr → ListNode
  setNext : ListNode → Ptr → ListNode
  loadNode : Nodes → Key → Ptr → ListNode
  storeNode : Nodes → Key → Ptr → ListNode → Nodes

/-- All validators given a delegator. -/
def validatorList : LinkedListTrait Address ValId where
  sentinel := 0xFFFFFFFFFFFFFFFF
  empty := 0
  prev := ListNode.iprev
  next := ListNode.inext
  setPrev node ptr := { node with iprev := ptr }
  setNext node ptr := { node with inext := ptr }
  loadNode nodes key ptr := nodes ptr key
  storeNode nodes key ptr node := update2 nodes ptr key node

/-- All delegators given a validator. -/
def delegatorList : LinkedListTrait ValId Address where
  sentinel := BitVec.allOnes 160
  empty := 0
  prev := ListNode.aprev
  next := ListNode.anext
  setPrev node ptr := { node with aprev := ptr }
  setNext node ptr := { node with anext := ptr }
  loadNode nodes key ptr := nodes key ptr
  storeNode nodes key ptr node := update2 nodes key ptr node

namespace LinkedListTrait

variable {Key Ptr : Type} [DecidableEq Ptr] (T : LinkedListTrait Key Ptr)

section

variable (nodes : Nodes) (key : Key)

def insert (thisPtr : Ptr) : Nodes :=
  let thisNode := T.loadNode nodes key thisPtr
  if T.prev thisNode ≠ T.empty then
    -- all nodes but sentinel have a prev pointer: already in the list
    nodes
  else
    let sentinelNode := T.loadNode nodes key T.sentinel
    let nextPtr := T.next sentinelNode
    let nodes :=
      if nextPtr ≠ T.empty then
        T.storeNode nodes key nextPtr (T.setPrev (T.loadNode nodes key nextPtr) thisPtr)
      else nodes
    let thisNode := T.setNext (T.setPrev thisNode T.sentinel) nextPtr
    let sentinelNode := T.setNext sentinelNode thisPtr
    let nodes := T.storeNode nodes key thisPtr thisNode
    T.storeNode nodes key T.sentinel sentinelNode

def remove (thisPtr : Ptr) : Nodes :=
  let thisNode := T.loadNode nodes key thisPtr
  if T.prev thisNode = T.empty then
    -- not in the list
    nodes
  else
    let prevPtr := T.prev thisNode
    let nextPtr := T.next thisNode
    let nodes :=
      T.storeNode nodes key prevPtr (T.setNext (T.loadNode nodes key prevPtr) nextPtr)
    let nodes :=
      if nextPtr ≠ T.empty then
        T.storeNode nodes key nextPtr (T.setPrev (T.loadNode nodes key nextPtr) prevPtr)
      else nodes
    T.storeNode nodes key thisPtr (T.setNext (T.setPrev thisNode T.empty) T.empty)

def traverseFrom (nodes : Nodes) (key : Key) : Nat → Ptr → Ptr × List Ptr
  | 0, ptr => (ptr, [])
  | limit + 1, ptr =>
    if ptr = T.empty then (ptr, [])
    else
      let rest := traverseFrom nodes key limit (T.next (T.loadNode nodes key ptr))
      (rest.1, ptr :: rest.2)

/-- `linked_list_traverse`: done, the pointer to continue from, the page. -/
def traverse (startPtr : Ptr) (limit : Nat) : Bool × Ptr × List Ptr :=
  let ptr :=
    if startPtr = T.empty then T.next (T.loadNode nodes key T.sentinel) else startPtr
  if T.prev (T.loadNode nodes key ptr) = T.empty then
    -- bogus pointer, not in list
    (true, ptr, [])
  else
    let page := T.traverseFrom nodes key limit ptr
    (decide (page.1 = T.empty), page.1, page.2)

end

end LinkedListTrait

def linkedListInsert {Key Ptr : Type} [DecidableEq Ptr] (T : LinkedListTrait Key Ptr)
    (key : Key) (thisPtr : Ptr) : Contract Unit := do
  failIf (thisPtr = T.empty ∨ thisPtr = T.sentinel) .invalidInput
  modify fun s => { s with listNode := T.insert s.listNode key thisPtr }

def linkedListRemove {Key Ptr : Type} [DecidableEq Ptr] (T : LinkedListTrait Key Ptr)
    (key : Key) (thisPtr : Ptr) : Contract Unit := do
  -- These pointers are blocked during delegator registration.
  assertThrow (thisPtr ≠ T.empty ∧ thisPtr ≠ T.sentinel) "invalid list entry"
  modify fun s => { s with listNode := T.remove s.listNode key thisPtr }

end MonadChain.Staking
