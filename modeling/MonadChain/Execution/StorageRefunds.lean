import Mathlib.Algebra.BigOperators.Group.Finset.Piecewise
import Mathlib.Algebra.Order.BigOperators.Group.Finset
import MonadChain.Execution.Runtime

/-!
The refunds of storage writes where pages are not priced: `AccountState::set_storage` says what a
write does to its slot, `sstore` adds the refund of the table, and a frame hands its refund to its
caller if it succeeds, with that of a self-destruction before London.
-/

namespace MonadChain.Execution

inductive StorageFrame where
  | returns (success : Bool)
  | selfdestruct (first : Bool)
  | setStorage (slot : Address × Key) (value : Value) (rest : StorageFrame)
  | call (callee rest : StorageFrame)
  deriving Repr

abbrev Slot : Type := Address × Key

abbrev States : Type := Address → AccountState

def freshStates (accounts : Address → Option Account) : States :=
  fun address => { account := accounts address }

structure FrameResult where
  success : Bool
  gasRefund : Int
  states : States

section Slots

variable (machine : Machine) (original : Slot → Value)

def clearRefund : Int := if machine.traits.evmRev = .berlin then 15000 else 4800

def destructRefund : Int := if machine.traits.evmRev = .berlin then 24000 else 0

def sstoreSlot (states : States) (slot : Slot) (value : Value) : Int × States :=
  let written := (states slot.1).setStorage slot.2 value (original slot)
  ((machine.storeCost written.1).2, Function.update states slot.1 written.2)

namespace StorageFrame

/-- A frame runs from states of the accounts; its caller takes them back if it fails. -/
def run : StorageFrame → States → Int → FrameResult
  | .returns success, states, refund => ⟨success, if success then refund else 0, states⟩
  | .selfdestruct first, states, refund =>
    ⟨true, refund + if first then destructRefund machine else 0, states⟩
  | .setStorage slot value rest, states, refund =>
    let written := sstoreSlot machine original states slot value
    rest.run written.2 (refund + written.1)
  | .call callee rest, states, refund =>
    let result := callee.run states 0
    rest.run (if result.success then result.states else states) (refund + result.gasRefund)

def success : StorageFrame → Bool
  | .returns success => success
  | .selfdestruct _ => true
  | .setStorage _ _ rest => rest.success
  | .call _ rest => rest.success

def writes : StorageFrame → List (Slot × Value)
  | .returns _ | .selfdestruct _ => []
  | .setStorage slot value rest => (slot, value) :: rest.writes
  | .call callee rest => (if callee.success then callee.writes else []) ++ rest.writes

def destructs : StorageFrame → Nat
  | .returns _ => 0
  | .selfdestruct first => first.toNat
  | .setStorage _ _ rest => rest.destructs
  | .call callee rest => (if callee.success then callee.destructs else 0) + rest.destructs

def surviving (frame : StorageFrame) : List (Slot × Value) :=
  if frame.success then frame.writes else []

end StorageFrame

def history (writes : List (Slot × Value)) (slot : Slot) : List Value :=
  (writes.filter (·.1 = slot)).map (·.2)

def currentValue (states : States) (slot : Slot) : Value :=
  ((states slot.1).storage.lookup slot.2).getD (original slot)

def writeStatus (value original current : Value) : StorageStatus :=
  if value = 0 then AccountState.zeroOutStatus original current
  else AccountState.setCurrentStatus value original current

/-- The refunds of the writes to one slot, the first of which finds the value `current`. -/
def slotRefund (original : Value) : List Value → Value → Int
  | [], _ => 0
  | value :: rest, current =>
    (machine.storeCost (writeStatus value original current)).2 + slotRefund original rest value

/-- What a slot must have earned: the refund for clearing it, while it is cleared. -/
def outstanding (original current : Value) : Int :=
  if original ≠ 0 ∧ current = 0 then clearRefund machine else 0

theorem outstanding_nonneg (original current : Value) :
    0 ≤ outstanding machine original current := by
  unfold outstanding clearRefund
  split_ifs <;> decide

theorem outstanding_write (value original current : Value) :
    outstanding machine original value ≤ outstanding machine original current +
      (machine.storeCost (writeStatus value original current)).2 := by
  unfold outstanding clearRefund writeStatus AccountState.zeroOutStatus
    AccountState.setCurrentStatus
  by_cases berlin : machine.traits.evmRev = .berlin <;> by_cases cleared : value = 0 <;>
    by_cases zero : current = 0 <;> by_cases absent : original = 0 <;>
    simp only [berlin, cleared, zero, absent] <;> split_ifs <;> simp_all [Machine.storeCost]

theorem outstanding_slotRefund (original : Value) (values : List Value) (current : Value) :
    outstanding machine original (values.getLastD current) ≤
      outstanding machine original current + slotRefund machine original values current := by
  induction values generalizing current with
  | nil => exact le_of_eq (Int.add_zero _).symm
  | cons value rest ih =>
    have first := outstanding_write machine value original current
    have later := ih value
    rw [List.getLastD_cons]
    simp only [slotRefund]
    omega

def replay : List (Slot × Value) → States → Int × States
  | [], states => (0, states)
  | (slot, value) :: rest, states =>
    let written := sstoreSlot machine original states slot value
    let later := replay rest written.2
    (written.1 + later.1, later.2)

theorem replay_append (first second : List (Slot × Value)) (states : States) :
    replay machine original (first ++ second) states =
      let done := replay machine original first states
      (done.1 + (replay machine original second done.2).1,
        (replay machine original second done.2).2) := by
  induction first generalizing states with
  | nil => simp [replay]
  | cons write first ih =>
    simp only [List.cons_append, replay]
    rw [ih]
    exact Prod.ext (Int.add_assoc _ _ _).symm rfl

theorem StorageFrame.run_eq_replay (frame : StorageFrame) (states : States) (refund : Int) :
    let result := frame.run machine original states refund
    let replayed := replay machine original frame.writes states
    result.success = frame.success ∧
      (frame.success = true →
        result.gasRefund = refund + replayed.1 + frame.destructs * destructRefund machine ∧
        result.states = replayed.2) ∧
      (frame.success = false → result.gasRefund = 0) := by
  induction frame generalizing states refund with
  | returns success =>
    refine ⟨rfl, ?_, ?_⟩
    · rintro rfl
      simp [StorageFrame.run, StorageFrame.writes, StorageFrame.destructs, replay]
    · rintro rfl
      rfl
  | selfdestruct first =>
    refine ⟨rfl, fun _ => ⟨?_, rfl⟩, nofun⟩
    cases first <;> simp [StorageFrame.run, StorageFrame.writes, StorageFrame.destructs, replay]
  | setStorage slot value rest ih =>
    let written := sstoreSlot machine original states slot value
    obtain ⟨status, succeeds, fails⟩ := ih written.2 (refund + written.1)
    refine ⟨status, fun success => ?_, fails⟩
    obtain ⟨earned, left⟩ := succeeds success
    refine ⟨earned.trans ?_, left⟩
    rw [Int.add_assoc refund]
    rfl
  | call callee rest calleeIh ih =>
    obtain ⟨status, succeeds, fails⟩ := calleeIh states 0
    simp only [StorageFrame.run, StorageFrame.success, StorageFrame.writes,
      StorageFrame.destructs, status]
    cases answer : callee.success with
    | false =>
      simp only [fails answer, Int.add_zero, Bool.false_eq_true, if_false, Nat.zero_add]
      exact ih states refund
    | true =>
      obtain ⟨earned, left⟩ := succeeds answer
      simp only [if_true, earned, left, Int.zero_add, replay_append]
      obtain ⟨status, succeeds, fails⟩ := ih (replay machine original callee.writes states).2
        (refund + ((replay machine original callee.writes states).1 +
          callee.destructs * destructRefund machine))
      refine ⟨status, fun success => ?_, fails⟩
      obtain ⟨total, final⟩ := succeeds success
      refine ⟨total.trans ?_, final⟩
      rw [Int.natCast_add, Int.add_mul]
      omega

theorem currentValue_sstoreSlot (states : States) (slot other : Slot) (value : Value) :
    currentValue original (sstoreSlot machine original states slot value).2 other =
      if slot = other then value else currentValue original states other := by
  unfold currentValue sstoreSlot
  by_cases same : other.1 = slot.1
  · simp only [same, Function.update_self, AccountState.setStorage]
    by_cases hit : other.2 = slot.2
    · rw [if_pos (Prod.ext same hit).symm, hit, AList.lookup_insert, Option.getD_some]
    · rw [if_neg fun all => hit (congrArg Prod.snd all).symm, AList.lookup_insert_ne hit]
  · rw [if_neg fun all => same (congrArg Prod.fst all).symm]
    simp only [Function.update_of_ne same]

theorem history_cons (write : Slot × Value) (rest : List (Slot × Value)) (slot : Slot) :
    history (write :: rest) slot =
      if write.1 = slot then write.2 :: history rest slot else history rest slot := by
  unfold history
  by_cases hit : write.1 = slot <;> simp [hit]

theorem currentValue_replay (writes : List (Slot × Value)) (states : States) (slot : Slot) :
    currentValue original (replay machine original writes states).2 slot =
      (history writes slot).getLastD (currentValue original states slot) := by
  induction writes generalizing states with
  | nil => rfl
  | cons write rest ih =>
    simp only [replay]
    rw [ih, currentValue_sstoreSlot, history_cons]
    split
    · exact (List.getLastD_cons ..).symm
    · rfl

theorem replay_refund (writes : List (Slot × Value)) (states : States) (slots : Finset Slot)
    (covers : ∀ write ∈ writes, write.1 ∈ slots) :
    (replay machine original writes states).1 =
      ∑ slot ∈ slots, slotRefund machine (original slot) (history writes slot)
        (currentValue original states slot) := by
  induction writes generalizing states with
  | nil => exact (Finset.sum_eq_zero fun _ _ => rfl).symm
  | cons write rest ih =>
    obtain ⟨written, value⟩ := write
    -- Only the amount of the written slot changes, by the refund of the write.
    have amounts : ∀ slot ∈ slots, slotRefund machine (original slot)
        (history ((written, value) :: rest) slot) (currentValue original states slot) =
        (if written = slot then (sstoreSlot machine original states written value).1 else 0) +
        slotRefund machine (original slot) (history rest slot)
          (currentValue original (sstoreSlot machine original states written value).2 slot) := by
      intro slot _
      rw [history_cons, currentValue_sstoreSlot]
      split
      · rename_i hit
        subst hit
        rfl
      · exact (Int.zero_add _).symm
    rw [Finset.sum_congr rfl amounts, Finset.sum_add_distrib, Finset.sum_ite_eq,
      if_pos (covers _ List.mem_cons_self)]
    simp only [replay]
    rw [ih _ fun write member => covers write (List.mem_cons_of_mem _ member)]

/-- The refund of a transaction is a sum over its slots of amounts that the surviving writes
of each slot determine. A slot that is cleared keeps the refund for clearing it, no slot owes
anything, and so the transaction does not, whatever self-destructions and authorizations add. -/
theorem storage_refunds_nonneg (accounts : Address → Option Account) (frame : StorageFrame)
    (authRefund : Nat) :
    let result := frame.run machine original (freshStates accounts) 0
    let final := if result.success then result.states else freshStates accounts
    let amount := fun slot : Slot =>
      slotRefund machine (original slot) (history frame.surviving slot) (original slot)
    result.gasRefund = ∑ slot ∈ (frame.surviving.map (·.1)).toFinset, amount slot +
        (if frame.success then frame.destructs else 0 : Nat) * destructRefund machine ∧
      (∀ slot, currentValue original final slot =
        (history frame.surviving slot).getLastD (original slot)) ∧
      (∀ slot, original slot ≠ 0 → currentValue original final slot = 0 →
        clearRefund machine ≤ amount slot) ∧
      (∀ slot, 0 ≤ amount slot) ∧ 0 ≤ result.gasRefund + authRefund := by
  intro result final amount
  have replayed :
      result.gasRefund = (replay machine original frame.surviving (freshStates accounts)).1 +
        (if frame.success then frame.destructs else 0 : Nat) * destructRefund machine ∧
      final = (replay machine original frame.surviving (freshStates accounts)).2 := by
    obtain ⟨status, succeeds, fails⟩ :=
      frame.run_eq_replay machine original (freshStates accounts) 0
    simp only [result, final, status]
    unfold StorageFrame.surviving
    cases answer : frame.success with
    | false => exact ⟨(fails answer).trans (by simp [replay]), rfl⟩
    | true => exact ⟨(succeeds answer).1.trans (by simp), (succeeds answer).2⟩
  have total := replayed.1
  rw [replay_refund machine original frame.surviving
    (freshStates accounts) (frame.surviving.map (·.1)).toFinset
    fun write member => List.mem_toFinset.mpr (List.mem_map_of_mem member)] at total
  have last : ∀ slot, currentValue original final slot =
      (history frame.surviving slot).getLastD (original slot) := fun slot => by
    rw [replayed.2, currentValue_replay]
    rfl
  have earned : ∀ slot, outstanding machine (original slot) (currentValue original final slot) ≤
      amount slot := fun slot => by
    have bound := outstanding_slotRefund machine (original slot) (history frame.surviving slot)
      (original slot)
    have nothing : outstanding machine (original slot) (original slot) = 0 :=
      if_neg fun cleared => cleared.1 cleared.2
    rw [nothing, Int.zero_add] at bound
    rw [last]
    exact bound
  have nonneg : ∀ slot, 0 ≤ amount slot := fun slot =>
    (outstanding_nonneg ..).trans (earned slot)
  refine ⟨total, last, fun slot nonzero cleared => ?_, nonneg, ?_⟩
  · have bound := earned slot
    rwa [outstanding, if_pos ⟨nonzero, cleared⟩] at bound
  · rw [total]
    have destructed : 0 ≤ destructRefund machine := by
      unfold destructRefund
      split <;> decide
    exact Int.add_nonneg (Int.add_nonneg (Finset.sum_nonneg fun slot _ => nonneg slot)
      (Int.mul_nonneg (Int.natCast_nonneg _) destructed)) (Int.natCast_nonneg _)

/-- A frame that writes to a slot which its caller has cleared takes the refund back. -/
example (accounts : Address → Option Account) :
    let cleared := sstoreSlot machine (fun _ => 1) (freshStates accounts) (5, 7) 0
    ((StorageFrame.setStorage (5, 7) 2 (.returns true)).run machine (fun _ => 1)
      cleared.2 0).gasRefund = -clearRefund machine := by
  change 0 + (machine.storeCost .deletedAdded).2 = _
  simp only [Machine.storeCost, clearRefund]
  split <;> rfl

end Slots

end MonadChain.Execution
