import MonadChain.Execution.MessageFrames

/-!
What a message may change of the accounts when it fails. An account is portrayed by everything
that is journaled of it but its storage. The operations outside the frame of a message change one
portrait each, and no value in storage.
-/

namespace MonadChain.Execution

open CopyJournal

/-- What is journaled of an account, apart from its storage. -/
structure Portrait where
  account : Option Account
  destructed : Bool
  touched : Bool
  accessed : Bool
  accessedStorage : List Key
  transientStorage : Map Key Value
  pageTracker : PageTracker

def AccountState.portrait (state : AccountState) : Portrait where
  account := state.account
  destructed := state.destructed
  touched := state.touched
  accessed := state.accessed
  accessedStorage := state.accessedStorage
  transientStorage := state.transientStorage
  pageTracker := state.pageTracker

def Portrait.withNonce (config : Config) (nonce : Nat) (portrait : Portrait) : Portrait :=
  { portrait with
    account := some { portrait.account.getD { incarnation := config.incarnation } with
      nonce := nonce } }

def Portrait.touch (portrait : Portrait) : Portrait := { portrait with touched := true }

def Portrait.access (portrait : Portrait) : Portrait := { portrait with accessed := true }

section Changes

variable {W : Type} {config : Config} {world : World W} {good : W → Prop} {contents : Contents}
  {settled : Address → Prop} {start : Originals} {before after : Reference W} {address : Address}

def portraitIn (contents : Contents) (state : Reference W) (address : Address) : Portrait :=
  (seenIn contents state.original state.journal.now address).portrait

def valueIn (contents : Contents) (state : Reference W) (address : Address) (key : Key) :
    Option Value :=
  slotIn contents state.original address
    (seenIn contents state.original state.journal.now address) key

/-- From one state to the other the portraits change as given, and the values in storage of
the settled accounts stay. -/
structure Changes (contents : Contents) (settled : Address → Prop)
    (change : Address → Portrait → Portrait) (before after : Reference W) : Prop where
  portrait : ∀ address,
    portraitIn contents after address = change address (portraitIn contents before address)
  value : ∀ address, settled address → ∀ key value,
    valueIn contents before address key = some value →
    valueIn contents after address key = some value
  logs : after.journal.now.logs = before.journal.now.logs

theorem Changes.trans {first second : Address → Portrait → Portrait} {one two three : Reference W}
    (begin : Changes contents settled first one two)
    (finish : Changes contents settled second two three) :
    Changes contents settled (fun address => second address ∘ first address) one three where
  portrait address := by
    rw [finish.portrait, begin.portrait]
    rfl
  value address known key value found :=
    finish.value address known key value (begin.value address known key value found)
  logs := finish.logs.trans begin.logs

def atAddress (address : Address) (portray : Portrait → Portrait) (other : Address)
    (portrait : Portrait) : Portrait :=
  if other = address then portray portrait else portrait

section

variable (shows : world.Shows good contents)
  (remembering : Remembering good contents settled start before)

include shows remembering

end

end Changes

end MonadChain.Execution
