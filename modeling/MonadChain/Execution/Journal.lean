import MonadChain.Execution.Operations
import MonadChain.Lib.VersionStack
import MonadChain.Lib.UpdateAll

/-!
The journal of `State` against whole copies. `VersionJournal` is the journal of the code: a stack
of versions for every account, the accounts that each open frame has written, and a stack of
versions for the logs. In a `CopyJournal` a frame is opened by a copy of everything.
-/

namespace MonadChain.Execution

/-! state.cpp, `push`, `pop_accept` and `pop_reject` -/

structure VersionJournal where
  current : Map Address (VersionStack AccountState) := ∅
  version : Nat := 0
  dirty : List (List Address) := []
  logs : VersionStack (List Log) := VersionStack.start [] 0

def mark (address : Address) : List (List Address) → List (List Address)
  | [] => []
  | frame :: rest => frame.insert address :: rest

def markAll (accounts : List Address) (dirty : List (List Address)) : List (List Address) :=
  accounts.foldl (fun dirty address => mark address dirty) dirty

def orAbort {α : Type} (reason : String) : Option α → Except String α
  | none => .error reason
  | some value => .ok value

namespace VersionJournal

def enter (address : Address) (fallback : AccountState) (journal : VersionJournal) :
    VersionStack AccountState :=
  ((journal.current.lookup address).getD (VersionStack.start fallback journal.version)).current
    journal.version

def put (address : Address) (stack : VersionStack AccountState) (journal : VersionJournal) :
    VersionJournal :=
  { journal with current := journal.current.insert address stack,
                 dirty := mark address journal.dirty }

def push (journal : VersionJournal) : Except String (Unit × VersionJournal) :=
  if journal.dirty.length ≠ journal.version then .error "dirty_.size() == version_"
  else .ok ((), { journal with version := journal.version + 1, dirty := [] :: journal.dirty })

def popAccept (journal : VersionJournal) : Except String (Unit × VersionJournal) :=
  if journal.version = 0 then .error "version_"
  else if journal.dirty.length ≠ journal.version then .error "dirty_.size() == version_"
  else
    let accounts := journal.dirty.headD []
    match updateAll "it != current_.end()"
        (fun stack => .ok (some (stack.popAccept journal.version))) accounts journal.current with
    | .error reason => .error reason
    | .ok current =>
      .ok ((),
        { current := current
          version := journal.version - 1
          dirty := markAll accounts journal.dirty.tail
          logs := journal.logs.popAccept journal.version })

def popReject (journal : VersionJournal) : Except String (Unit × VersionJournal) :=
  if journal.version = 0 then .error "version_"
  else if journal.dirty.length ≠ journal.version then .error "dirty_.size() == version_"
  else
    match updateAll "it != current_.end()"
        (fun stack => .ok (stack.popReject journal.version)) (journal.dirty.headD [])
        journal.current with
    | .error reason => .error reason
    | .ok current =>
      match journal.logs.popReject journal.version with
      | none => .error "stack_.size()"
      | some logs =>
        .ok ((),
          { current := current
            version := journal.version - 1
            dirty := journal.dirty.tail
            logs := logs })

section

variable (reason : String) (change : AccountState → Option AccountState)

def sweepStack (stack : VersionStack AccountState) :
    Except String (Option (VersionStack AccountState)) :=
  if stack.size ≠ 1 then .error "stack.size() == 1"
  else if stack.version ≠ 0 then .error "stack.version() == 0"
  else
    (orAbort reason (change stack.recent)).map fun state => some (stack.assign state)

def sweep (journal : VersionJournal) : Except String (Unit × VersionJournal) :=
  if journal.version ≠ 0 then .error "!version_"
  else
    match updateAll "it" (sweepStack reason change) journal.current.keys journal.current with
    | .error failed => .error failed
    | .ok current => .ok ((), { journal with current := current })

end

def handler : Program.Handler journalActions VersionJournal
  | .recent address, journal => .ok ((journal.current.lookup address).map (·.recent), journal)
  | .current address fallback, journal =>
    let stack := journal.enter address fallback
    .ok (stack.recent, journal.put address stack)
  | .modify address change, journal =>
    match journal.current.lookup address with
    | none => .error "it != current_.end()"
    | some stack =>
      let stack := stack.current journal.version
      .ok ((), journal.put address (stack.assign (change stack.recent)))
  | .sweep reason change, journal => journal.sweep reason change
  | .push, journal => journal.push
  | .popAccept, journal => journal.popAccept
  | .popReject, journal => journal.popReject
  | .logs, journal => .ok (journal.logs.recent, journal)
  | .storeLog log, journal =>
    let logs := journal.logs.current journal.version
    .ok ((), { journal with logs := logs.assign (logs.recent ++ [log]) })

end VersionJournal

structure Copy where
  accounts : Map Address AccountState := ∅
  logs : List Log := []

structure CopyJournal where
  now : Copy := {}
  saved : List Copy := []

namespace CopyJournal

def write (address : Address) (state : AccountState) (journal : CopyJournal) : CopyJournal :=
  { journal with now := { journal.now with accounts := journal.now.accounts.insert address state } }

def sweep (reason : String) (change : AccountState → Option AccountState)
    (journal : CopyJournal) : Except String (Unit × CopyJournal) :=
  if journal.saved ≠ [] then .error "!version_"
  else
    match updateAll "it"
        (fun state => (orAbort reason (change state)).map some)
        journal.now.accounts.keys journal.now.accounts with
    | .error failed => .error failed
    | .ok accounts => .ok ((), { journal with now := { journal.now with accounts := accounts } })

def handler : Program.Handler journalActions CopyJournal
  | .recent address, journal => .ok (journal.now.accounts.lookup address, journal)
  | .current address fallback, journal =>
    let state := (journal.now.accounts.lookup address).getD fallback
    .ok (state, journal.write address state)
  | .modify address change, journal =>
    match journal.now.accounts.lookup address with
    | none => .error "it != current_.end()"
    | some state => .ok ((), journal.write address (change state))
  | .sweep reason change, journal => journal.sweep reason change
  | .push, journal => .ok ((), { journal with saved := journal.now :: journal.saved })
  | .popAccept, journal =>
    match journal.saved with
    | [] => .error "version_"
    | _ :: rest => .ok ((), { journal with saved := rest })
  | .popReject, journal =>
    match journal.saved with
    | [] => .error "version_"
    | copy :: rest => .ok ((), ⟨copy, rest⟩)
  | .logs, journal => .ok (journal.now.logs, journal)
  | .storeLog log, journal =>
    .ok ((), { journal with now := { journal.now with logs := journal.now.logs ++ [log] } })

end CopyJournal

end MonadChain.Execution
