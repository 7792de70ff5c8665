import MonadChain.Execution.Account

/-!
The accounts of a state, and the methods of `State` that a transaction is settled with. What a
transaction journals and reads is not told apart here; a ledger holds the accounts as they are
now.
-/

namespace MonadChain.Execution

open List

structure Ledger where
  accounts : Map Address Account := ∅

namespace Ledger

section

variable (ledger : Ledger) (address : Address)

def account : Option Account :=
  ledger.accounts.lookup address

def getBalance : Nat :=
  ((ledger.account address).map (·.balance)).getD 0

def getNonce : Nat :=
  ((ledger.account address).map (·.nonce)).getD 0

def put (account : Account) : Ledger :=
  ⟨ledger.accounts.insert address account⟩

end

section

variable (incarnation : Incarnation) (address : Address)

def accountOrNew (ledger : Ledger) (address : Address) : Account :=
  (ledger.account address).getD { incarnation := incarnation }

def setNonce (nonce : Nat) (ledger : Ledger) : Ledger :=
  ledger.put address { ledger.accountOrNew incarnation address with nonce := nonce }

def addToBalance (delta : Nat) (ledger : Ledger) : Except String Ledger :=
  let account := ledger.accountOrNew incarnation address
  if 2 ^ 256 - 1 - delta < account.balance then .error "balance overflow"
  else .ok (ledger.put address { account with balance := account.balance + delta })

def subtractFromBalance (delta : Nat) (ledger : Ledger) : Except String Ledger :=
  let account := ledger.accountOrNew incarnation address
  if account.balance < delta then .error "balance underflow"
  else .ok (ledger.put address { account with balance := account.balance - delta })

end

/-- `destruct_suicides`, over the accounts that are marked as destructed. From Cancun on only
those are removed that the transaction has created. -/
def destructSuicides (cancun : Bool) (incarnation : Incarnation) :
    List Address → Ledger → Ledger
  | [], ledger => ledger
  | address :: rest, ledger =>
    match ledger.account address with
    | some account =>
      if cancun && account.incarnation ≠ incarnation then
        destructSuicides cancun incarnation rest ledger
      else destructSuicides cancun incarnation rest ⟨ledger.accounts.erase address⟩
    | none => destructSuicides cancun incarnation rest ledger

def destructTouchedDead : List Address → Ledger → Ledger
  | [], ledger => ledger
  | address :: rest, ledger =>
    if isDead (ledger.account address) then
      destructTouchedDead rest ⟨ledger.accounts.erase address⟩
    else destructTouchedDead rest ledger

def total (ledger : Ledger) : Nat :=
  (ledger.accounts.entries.map fun entry => entry.2.balance).sum

def destructBurns (cancun : Bool) (incarnation : Incarnation) : List Address → Ledger → Nat
  | [], _ => 0
  | address :: rest, ledger =>
    match ledger.account address with
    | some account =>
      if cancun && account.incarnation ≠ incarnation then
        destructBurns cancun incarnation rest ledger
      else account.balance +
        destructBurns cancun incarnation rest ⟨ledger.accounts.erase address⟩
    | none => destructBurns cancun incarnation rest ledger

theorem sum_kerase (entries : List (Sigma fun _ : Address => Account)) (address : Address) :
    ((entries.kerase address).map fun entry => entry.2.balance).sum +
        ((entries.dlookup address).map (·.balance)).getD 0 =
      (entries.map fun entry => entry.2.balance).sum := by
  induction entries with
  | nil => rfl
  | cons entry rest ih =>
    by_cases here : address = entry.1
    · subst here
      rw [kerase_cons_eq rfl, dlookup_cons_eq, map_cons, sum_cons,
        Option.map_some, Option.getD_some, Nat.add_comm]
    · rw [kerase_cons_ne here, dlookup_cons_ne _ _ here, map_cons, map_cons,
        sum_cons, sum_cons, ← ih, Nat.add_assoc]

variable (ledger : Ledger)

theorem total_erase (address : Address) :
    total ⟨ledger.accounts.erase address⟩ + ledger.getBalance address = ledger.total :=
  sum_kerase ledger.accounts.entries address

theorem total_put (address : Address) (account : Account) :
    (ledger.put address account).total + ledger.getBalance address =
      ledger.total + account.balance := by
  have kept := ledger.total_erase address
  have written : (ledger.put address account).total =
      account.balance + total ⟨ledger.accounts.erase address⟩ := rfl
  omega

theorem getBalance_put (address other : Address) (account : Account) :
    (ledger.put address account).getBalance other =
      if other = address then account.balance else ledger.getBalance other := by
  grind [getBalance, put, Ledger.account, lookup_insert_ite]

theorem getBalance_le_total (address : Address) : ledger.getBalance address ≤ ledger.total := by
  have := ledger.total_erase address
  omega

theorem accountOrNew_balance (incarnation : Incarnation) (ledger : Ledger) (address : Address) :
    (ledger.accountOrNew incarnation address).balance = ledger.getBalance address := by
  unfold accountOrNew getBalance
  cases ledger.account address <;> rfl

section Changes

variable {incarnation : Incarnation} {address : Address} {ledger : Ledger} {delta : Nat}

theorem addToBalance_ok (incarnation : Incarnation)
    (fits : ledger.getBalance address + delta < 2 ^ 256) :
    ∃ after, ledger.addToBalance incarnation address delta = .ok after ∧
      after.total = ledger.total + delta ∧
      ∀ other, after.getBalance other =
        ledger.getBalance other + if other = address then delta else 0 := by
  have balance := ledger.accountOrNew_balance incarnation address
  unfold addToBalance
  rw [if_neg (by omega)]
  refine ⟨_, rfl, ?_, ?_⟩
  · have := ledger.total_put address { ledger.accountOrNew incarnation address with
      balance := (ledger.accountOrNew incarnation address).balance + delta }
    dsimp only at this
    omega
  · intro other
    rw [getBalance_put, balance]
    split
    · rename_i here
      rw [here]
    · rfl

theorem subtractFromBalance_ok (incarnation : Incarnation)
    (covered : delta ≤ ledger.getBalance address) :
    ∃ after, ledger.subtractFromBalance incarnation address delta = .ok after ∧
      after.total + delta = ledger.total ∧
      ∀ other, after.getBalance other =
        ledger.getBalance other - if other = address then delta else 0 := by
  have balance := ledger.accountOrNew_balance incarnation address
  unfold subtractFromBalance
  rw [if_neg (by omega)]
  refine ⟨_, rfl, ?_, ?_⟩
  · have := ledger.total_put address { ledger.accountOrNew incarnation address with
      balance := (ledger.accountOrNew incarnation address).balance - delta }
    dsimp only at this
    omega
  · intro other
    rw [getBalance_put, balance]
    split
    · rename_i here
      rw [here]
    · rfl

theorem setNonce_balance (nonce : Nat) (other : Address) :
    (ledger.setNonce incarnation address nonce).getBalance other = ledger.getBalance other := by
  rw [setNonce, getBalance_put]
  rw [accountOrNew_balance]
  split
  · rename_i here
    rw [here]
  · rfl

theorem setNonce_total (nonce : Nat) :
    (ledger.setNonce incarnation address nonce).total = ledger.total := by
  have balance := ledger.accountOrNew_balance incarnation address
  have written : (ledger.setNonce incarnation address nonce).total + ledger.getBalance address =
      ledger.total + (ledger.accountOrNew incarnation address).balance := ledger.total_put address _
  omega

end Changes

theorem destructSuicides_total (cancun : Bool) (incarnation : Incarnation)
    (destructed : List Address) (ledger : Ledger) :
    (destructSuicides cancun incarnation destructed ledger).total +
      destructBurns cancun incarnation destructed ledger = ledger.total := by
  induction destructed generalizing ledger with
  | nil => rfl
  | cons address rest ih =>
    rw [destructSuicides, destructBurns]
    cases found : ledger.account address with
    | none => exact ih ledger
    | some account =>
      dsimp only
      split
      · exact ih ledger
      · have burnt : ledger.getBalance address = account.balance := by
          rw [getBalance, found]
          rfl
        have erased := ledger.total_erase address
        have others := ih ⟨ledger.accounts.erase address⟩
        omega

theorem destructTouchedDead_total (touched : List Address) (ledger : Ledger) :
    (destructTouchedDead touched ledger).total = ledger.total := by
  induction touched generalizing ledger with
  | nil => rfl
  | cons address rest ih =>
    rw [destructTouchedDead]
    split
    · rename_i dead
      have empty : ledger.getBalance address = 0 := by
        unfold getBalance
        cases found : ledger.account address with
        | none => rfl
        | some account =>
          rw [found] at dead
          exact (of_decide_eq_true dead).2.2
      have erased := ledger.total_erase address
      rw [ih]
      omega
    · exact ih ledger

end Ledger

end MonadChain.Execution
