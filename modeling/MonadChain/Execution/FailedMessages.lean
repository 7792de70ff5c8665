import MonadChain.Execution.Ownership
import MonadChain.Execution.Portraits
import MonadChain.Execution.StaticCalls

/-!
Messages that fail. A message that does not succeed restores the copy that its frame was opened
with. So it leaves what `execute_create_message` has changed before the frame, and the touched
account of ripemd.
-/

namespace MonadChain.Execution

open StateOver CopyJournal Machine

namespace Machine

variable (machine : Machine)

/-- The changes of a creation before its frame: with the balance and a nonce that can be
raised, the nonce of the sender and the access to the new address; without the balance the
nonce, at depth zero and from a revision on. -/
def leaves (msg : Message) (sender : Option Account) (address : Address) : Portrait → Portrait :=
  let nonce := (sender.map (·.nonce)).getD 0
  let counted := atAddress msg.sender (Portrait.withNonce machine.config (nonce + 1)) address
  if msg.kind = .create ∨ msg.kind = .create2 then
    if msg.value ≤ (sender.map (·.balance)).getD 0 then
      if nonce = maxNonce then id
      else atAddress (machine.newAddress msg nonce) Portrait.access address ∘ counted
    else if machine.traits.monadAtLeast .five && decide (msg.depth = 0) then counted
    else id
  else id

end Machine

section Copies

variable {W : Type} {machine : Machine} {world : World W} {goodWorld : W → Prop}
  {contents : Contents} {start : Reference W} {saved : List Copy}

def Untraced (contents : Contents) (settled : Address → Prop)
    (change : Address → Portrait → Portrait) (before after : Reference W) : Prop :=
  Changes contents settled change before after ∨
    Changes contents settled
      (fun address => atAddress ripemdAddress Portrait.touch address ∘ change address) before after

theorem Changes.untraced {settled : Address → Prop} {change more : Address → Portrait → Portrait}
    {one two three : Reference W} (begin : Changes contents settled change one two)
    (finish : Untraced contents settled more two three) :
    Untraced contents settled (fun address => more address ∘ change address) one three :=
  finish.imp begin.trans begin.trans

section Creations

variable (shows : world.Shows goodWorld contents) {saved : List Copy} {before : Reference W}
  {message : Message → Run Result} {msg : Message} {change : Address → Portrait → Portrait}
  {address : Address}

include shows

end Creations

end Copies

theorem Untraced.portrait {W : Type} {contents : Contents} {settled : Address → Prop}
    {change : Address → Portrait → Portrait} {before after : Reference W}
    (untraced : Untraced contents settled change before after) (address : Address) :
    portraitIn contents after address = change address (portraitIn contents before address) ∨
      address = ripemdAddress ∧ portraitIn contents after address =
        (change address (portraitIn contents before address)).touch := by
  rcases untraced with plain | touched
  · exact .inl (plain.portrait address)
  · have portrait := touched.portrait address
    unfold atAddress at portrait
    by_cases here : address = ripemdAddress
    · simp only [here, if_true] at portrait ⊢
      exact .inr ⟨trivial, portrait⟩
    · simp only [here, if_false] at portrait
      exact .inl portrait

section

variable (db : Db) (address : Address)

variable {db address}

end

end MonadChain.Execution
