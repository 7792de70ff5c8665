import MonadChain.Lib.LinkedList
import MonadChain.Staking.Stakes

/-!
The two lists of a delegation. The node of a validator and a delegator carries the links of both
lists; writing the links of one list leaves those of the other, so each list is a doubly linked
list of its own.
-/

namespace MonadChain.Staking

open Maps LinkedList LinkedListTrait Delegator List Function

namespace LinkedListTrait

variable {Key Ptr : Type} [DecidableEq Key] [DecidableEq Ptr]

structure Lawful (T : LinkedListTrait Key Ptr) : Prop where
  distinct : T.sentinel ≠ T.empty
  prev_setPrev : ∀ node ptr, T.prev (T.setPrev node ptr) = ptr
  next_setPrev : ∀ node ptr, T.next (T.setPrev node ptr) = T.next node
  prev_setNext : ∀ node ptr, T.prev (T.setNext node ptr) = T.prev node
  next_setNext : ∀ node ptr, T.next (T.setNext node ptr) = ptr
  load_store : ∀ nodes key ptr node otherKey otherPtr,
    T.loadNode (T.storeNode nodes key ptr node) otherKey otherPtr =
      if otherKey = key ∧ otherPtr = ptr then node else T.loadNode nodes otherKey otherPtr

def links (T : LinkedListTrait Key Ptr) (nodes : Nodes) (key : Key) : Links Ptr :=
  ⟨fun ptr => T.prev (T.loadNode nodes key ptr), fun ptr => T.next (T.loadNode nodes key ptr)⟩

variable {T : LinkedListTrait Key Ptr}

omit [DecidableEq Key] [DecidableEq Ptr] in
theorem prev_load (nodes : Nodes) (key : Key) (ptr : Ptr) :
    T.prev (T.loadNode nodes key ptr) = (T.links nodes key).prev ptr := rfl

omit [DecidableEq Key] [DecidableEq Ptr] in
theorem next_load (nodes : Nodes) (key : Key) (ptr : Ptr) :
    T.next (T.loadNode nodes key ptr) = (T.links nodes key).next ptr := rfl

theorem Lawful.links_store (lawful : T.Lawful) (nodes : Nodes) (key : Key) (ptr : Ptr)
    (node : ListNode) : T.links (T.storeNode nodes key ptr node) key =
      ⟨update (T.links nodes key).prev ptr (T.prev node),
        update (T.links nodes key).next ptr (T.next node)⟩ := by
  ext other
  · simp [links, lawful.load_store, update_apply, apply_ite T.prev]
  · simp [links, lawful.load_store, update_apply, apply_ite T.next]

theorem Lawful.links_insert (lawful : T.Lawful) {nodes : Nodes} {key : Key} {items : List Ptr}
    (represents : Represents (T.links nodes key) T.sentinel T.empty items) {this : Ptr}
    (proper : this ≠ T.empty ∧ this ≠ T.sentinel) :
    T.links (T.insert nodes key this) key =
      (T.links nodes key).insert T.sentinel T.empty this := by
  -- the sentinel, whose previous pointer is stored back as it was, is neither other node
  have headSentinel : T.sentinel ≠ (T.links nodes key).next T.sentinel := by
    intro same
    have member := represents.next_sentinel_mem (by rw [← same]; exact lawful.distinct)
    exact (represents.proper _ member).2 same.symm
  by_cases fresh : (T.links nodes key).prev this = T.empty <;>
    by_cases last : (T.links nodes key).next T.sentinel = T.empty <;>
    simp [insert, Links.insert, fresh, last, prev_load, next_load, lawful.links_store,
      lawful.prev_setNext, lawful.next_setNext, lawful.prev_setPrev, lawful.next_setPrev,
      headSentinel, proper.2.symm]

theorem Lawful.links_remove (lawful : T.Lawful) (nodes : Nodes) (key : Key) (this : Ptr) :
    T.links (T.remove nodes key this) key = (T.links nodes key).remove T.empty this := by
  by_cases linked : (T.links nodes key).prev this = T.empty <;>
    by_cases last : (T.links nodes key).next this = T.empty <;>
    simp [remove, Links.remove, linked, last, prev_load, next_load, lawful.links_store,
      lawful.prev_setNext, lawful.next_setNext, lawful.prev_setPrev, lawful.next_setPrev]

section

variable (lawful : T.Lawful) (nodes : Nodes) {key otherKey : Key} (this ptr : Ptr)
  (other : otherKey ≠ key)

include lawful nodes this ptr other

theorem Lawful.load_insert_other :
    T.loadNode (T.insert nodes key this) otherKey ptr = T.loadNode nodes otherKey ptr := by
  simp only [insert]
  split_ifs <;> simp [lawful.load_store, other]

theorem Lawful.load_remove_other :
    T.loadNode (T.remove nodes key this) otherKey ptr = T.loadNode nodes otherKey ptr := by
  simp only [remove]
  split_ifs <;> simp [lawful.load_store, other]

end

structure Blind {Seen : Type} (T : LinkedListTrait Key Ptr) (see : ListNode → Seen) : Prop where
  setPrev : ∀ node ptr, see (T.setPrev node ptr) = see node
  setNext : ∀ node ptr, see (T.setNext node ptr) = see node

section Blind

variable {Seen : Type} {see : ListNode → Seen}

def Alike (T : LinkedListTrait Key Ptr) (see : ListNode → Seen) (before after : Nodes) : Prop :=
  ∀ key ptr, see (T.loadNode after key ptr) = see (T.loadNode before key ptr)

theorem Alike.store (lawful : T.Lawful) {before after : Nodes} (alike : T.Alike see before after)
    (key : Key) (ptr : Ptr) {node : ListNode} (same : see node = see (T.loadNode before key ptr)) :
    T.Alike see before (T.storeNode after key ptr node) := by
  intro otherKey otherPtr
  rw [lawful.load_store]
  split
  · rename_i here
    rw [here.1, here.2, same]
  · exact alike otherKey otherPtr

theorem Blind.insert (blind : T.Blind see) (lawful : T.Lawful) (nodes : Nodes) (key : Key)
    (this : Ptr) : T.Alike see nodes (T.insert nodes key this) := by
  have start : T.Alike see nodes nodes := fun _ _ => rfl
  unfold LinkedListTrait.insert
  dsimp only
  split_ifs
  · exact start
  · have second := start.store lawful key (T.next (T.loadNode nodes key T.sentinel))
      (blind.setPrev _ this)
    have third := second.store lawful key this
      ((blind.setNext _ (T.next (T.loadNode nodes key T.sentinel))).trans
        (blind.setPrev _ T.sentinel))
    exact third.store lawful key T.sentinel (blind.setNext _ this)
  · have third := start.store lawful key this
      ((blind.setNext _ (T.next (T.loadNode nodes key T.sentinel))).trans
        (blind.setPrev _ T.sentinel))
    exact third.store lawful key T.sentinel (blind.setNext _ this)

theorem Blind.remove (blind : T.Blind see) (lawful : T.Lawful) (nodes : Nodes) (key : Key)
    (this : Ptr) : T.Alike see nodes (T.remove nodes key this) := by
  have start : T.Alike see nodes nodes := fun _ _ => rfl
  have first := start.store lawful key (T.prev (T.loadNode nodes key this))
    (blind.setNext _ (T.next (T.loadNode nodes key this)))
  have last : see (T.setNext (T.setPrev (T.loadNode nodes key this) T.empty) T.empty) =
      see (T.loadNode nodes key this) := by
    rw [blind.setNext, blind.setPrev]
  unfold LinkedListTrait.remove
  dsimp only
  split_ifs
  · exact start
  · refine Alike.store lawful (first.store lawful key _ ?_) key this last
    rw [blind.setPrev]
    exact first key _
  · exact first.store lawful key this last

end Blind

def Lists (T : LinkedListTrait Key Ptr) (nodes : Nodes) (staked : Key → Ptr → Prop) : Prop :=
  ∀ key, ∃ items, Represents (T.links nodes key) T.sentinel T.empty items ∧
    ∀ ptr, ptr ∈ items ↔ staked key ptr

namespace Lists

variable {nodes : Nodes} {staked later : Key → Ptr → Prop}

section

variable {after : Nodes} (lists : T.Lists nodes staked)

include lists

omit [DecidableEq Key] [DecidableEq Ptr]

theorem unchanged {key : Key} (links : T.links after key = T.links nodes key)
    (same : ∀ ptr, later key ptr ↔ staked key ptr) :
    ∃ items, Represents (T.links after key) T.sentinel T.empty items ∧
      ∀ ptr, ptr ∈ items ↔ later key ptr := by
  obtain ⟨items, represents, member⟩ := lists key
  refine ⟨items, ?_, ?_⟩
  · rw [links]
    exact represents
  · intro ptr
    rw [member, same]

theorem congr (links : ∀ key, T.links after key = T.links nodes key)
    (same : ∀ key ptr, later key ptr ↔ staked key ptr) : T.Lists after later :=
  fun key => lists.unchanged (links key) (same key)

end

theorem insert (lists : T.Lists nodes staked) (lawful : T.Lawful) (key : Key) (this : Ptr)
    (proper : this ≠ T.empty ∧ this ≠ T.sentinel)
    (now : ∀ otherKey ptr, later otherKey ptr ↔ (otherKey = key ∧ ptr = this) ∨
      staked otherKey ptr) : T.Lists (T.insert nodes key this) later := by
  intro otherKey
  obtain ⟨items, represents, member⟩ := lists otherKey
  by_cases here : otherKey = key
  · subst here
    obtain ⟨longer, grown, grownMember⟩ := represents.inserted lawful.distinct proper
    refine ⟨longer, ?_, ?_⟩
    · rw [lawful.links_insert represents proper]
      exact grown
    · intro ptr
      rw [grownMember, now, member]
      simp
  · apply lists.unchanged
    · simp only [links, lawful.load_insert_other nodes this _ here]
    · simp [now, here]

theorem remove (lists : T.Lists nodes staked) (lawful : T.Lawful) (key : Key) (this : Ptr)
    (now : ∀ otherKey ptr, later otherKey ptr ↔ ¬ (otherKey = key ∧ ptr = this) ∧
      staked otherKey ptr) : T.Lists (T.remove nodes key this) later := by
  intro otherKey
  obtain ⟨items, represents, member⟩ := lists otherKey
  by_cases here : otherKey = key
  · subst here
    obtain ⟨shorter, cut, cutMember⟩ := represents.removed lawful.distinct
    refine ⟨shorter, ?_, ?_⟩
    · rw [lawful.links_remove nodes otherKey this]
      exact cut
    · intro ptr
      rw [cutMember, now, member]
      simp
  · apply lists.unchanged
    · simp only [links, lawful.load_remove_other nodes this _ here]
    · simp [now, here]

end Lists

/-- Calls `traverse` from the empty pointer and then from each returned pointer
until it is done; none if it is not done after so many calls. -/
def readPages (T : LinkedListTrait Key Ptr) (nodes : Nodes) (key : Key) (limit : Nat) :
    Nat → Ptr → Option (List Ptr)
  | 0, _ => none
  | calls + 1, startPtr =>
    let page := T.traverse nodes key startPtr limit
    if page.1 then some page.2.2
    else (T.readPages nodes key limit calls page.2.1).map (page.2.2 ++ ·)

section Paging

variable {nodes : Nodes} {key : Key} {items : List Ptr} {limit : Nat}

omit [DecidableEq Key]

theorem traverseFrom_eq (nodes : Nodes) (key : Key) (limit : Nat) (ptr : Ptr) :
    T.traverseFrom nodes key limit ptr = (T.links nodes key).read T.empty limit ptr := by
  induction limit generalizing ptr with
  | zero => rfl
  | succ limit ih =>
    simp only [traverseFrom, Links.read, ih]
    rfl

section

variable (represents : Represents (T.links nodes key) T.sentinel T.empty items)
  (start : T.sentinel ≠ T.empty)

include represents start

theorem traverse_member {front rest : List Ptr} {ptr : Ptr}
    (split : items = front ++ ptr :: rest) (limit : Nat) :
    T.traverse nodes key ptr limit =
      (decide (((ptr :: rest).drop limit).headD T.empty = T.empty),
        ((ptr :: rest).drop limit).headD T.empty, (ptr :: rest).take limit) := by
  subst split
  have proper : ∀ item ∈ ptr :: rest, item ≠ T.empty := fun item inner =>
    (represents.proper item (mem_append_right _ inner)).1
  have here := proper ptr mem_cons_self
  have linked : T.prev (T.loadNode nodes key ptr) ≠ T.empty :=
    represents.prev_ne_empty start (mem_append_right _ mem_cons_self)
  obtain ⟨-, -, later⟩ := (segment_append ..).mp represents.segment
  simp only [traverse, if_neg here, if_neg linked, traverseFrom_eq, read_segment later proper]

theorem readPages_member (positive : 1 ≤ limit) (calls : Nat) {front rest : List Ptr}
    {ptr : Ptr} (split : items = front ++ ptr :: rest) (enough : rest.length < calls) :
    T.readPages nodes key limit calls ptr = some (ptr :: rest) := by
  induction calls generalizing front ptr rest with
  | zero => omega
  | succ calls ih =>
    have whole := take_append_drop limit (ptr :: rest)
    simp only [readPages, traverse_member represents start split]
    cases tail : (ptr :: rest).drop limit with
    | nil =>
      rw [tail, append_nil] at whole
      simp [whole]
    | cons second more =>
      have shorter : more.length < calls := by
        have length := congrArg length tail
        simp only [length_drop, length_cons] at length
        omega
      rw [tail] at whole
      have resplit : items = (front ++ (ptr :: rest).take limit) ++ second :: more := by
        rw [split, append_assoc, whole]
      have proper : second ≠ T.empty := by
        have member : second ∈ items := by
          rw [resplit]
          exact mem_append_right _ mem_cons_self
        exact (represents.proper second member).1
      simp [proper, ih resplit shorter, whole]

theorem readPages_eq (positive : 1 ≤ limit) :
    T.readPages nodes key limit (items.length + 1) T.empty = some items := by
  have head : T.next (T.loadNode nodes key T.sentinel) = items.headD T.empty :=
    represents.next_sentinel
  cases items with
  | nil =>
    have unlinked : T.prev (T.loadNode nodes key T.empty) = T.empty :=
      represents.absent T.empty not_mem_nil
    simp [readPages, traverse, head, unlinked]
  | cons first rest =>
    have same : T.traverse nodes key T.empty limit = T.traverse nodes key first limit := by
      simp [traverse, head]
    have pages := readPages_member represents start positive (rest.length + 1 + 1)
      (nil_append (first :: rest)).symm (by omega)
    rw [readPages] at pages ⊢
    rw [length_cons, same]
    exact pages

end

end Paging

end LinkedListTrait

theorem validatorList_lawful : validatorList.Lawful := by
  constructor
  · decide
  · exact fun _ _ => rfl
  · exact fun _ _ => rfl
  · exact fun _ _ => rfl
  · exact fun _ _ => rfl
  · intro nodes key ptr node otherKey otherPtr
    simp only [validatorList, update2_apply, and_comm]

theorem delegatorList_lawful : delegatorList.Lawful := by
  constructor
  · decide
  · exact fun _ _ => rfl
  · exact fun _ _ => rfl
  · exact fun _ _ => rfl
  · exact fun _ _ => rfl
  · intro nodes key ptr node otherKey otherPtr
    simp only [delegatorList, update2_apply]

theorem delegatorList_blind : delegatorList.Blind (fun node => (node.iprev, node.inext)) :=
  ⟨fun _ _ => rfl, fun _ _ => rfl⟩

theorem validatorList_blind : validatorList.Blind (fun node => (node.aprev, node.anext)) :=
  ⟨fun _ _ => rfl, fun _ _ => rfl⟩

theorem validatorList_links {before after : Nodes}
    (alike : delegatorList.Alike (fun node => (node.iprev, node.inext)) before after)
    (address : Address) :
    validatorList.links after address = validatorList.links before address := by
  apply Links.ext
  · exact funext fun valId => congrArg Prod.fst (alike valId address)
  · exact funext fun valId => congrArg Prod.snd (alike valId address)

theorem delegatorList_links {before after : Nodes}
    (alike : validatorList.Alike (fun node => (node.aprev, node.anext)) before after)
    (valId : ValId) : delegatorList.links after valId = delegatorList.links before valId := by
  apply Links.ext
  · exact funext fun address => congrArg Prod.fst (alike address valId)
  · exact funext fun address => congrArg Prod.snd (alike address valId)

/-- Both kinds of lists hold the same pairs. -/
structure Delegations (s : State) (listed : ValId → Address → Prop) : Prop where
  validators : validatorList.Lists s.listNode fun address valId => listed valId address
  delegators : delegatorList.Lists s.listNode listed

def State.Lists (s : State) (listed : ValId → Address → Prop) : Prop :=
  ∀ valId address, listed valId address ↔ (s.delegator valId address).total ≠ 0

variable {revision : MonadRevision} {regime : Regime} {s t : State} {valId : ValId}
  {address : Address} {stake amount : Nat} {withdrawalId : WithdrawalId}
  {listed : ValId → Address → Prop}

section Staked

variable (staked : s.Lists listed)

include staked

theorem State.Lists.congr (totals : ∀ valId address, (t.delegator valId address).total =
    (s.delegator valId address).total) : t.Lists listed := by
  intro valId address
  rw [totals]
  exact staked valId address

theorem State.Lists.record {del : Delegator}
    (delegators : t.delegator = update2 s.delegator valId address del)
    (total : del.total = (s.delegator valId address).total) : t.Lists listed :=
  staked.congr (total_update2 delegators total)

theorem State.Lists.joined (joinable : s.Joinable valId stake address) :
    (s.joined revision valId stake address).Lists
      fun v a => (v = valId ∧ a = address) ∨ listed v a := by
  intro v a
  have positive := dustThreshold_pos
  have large := joinable.large
  have delegators : (s.joined revision valId stake address).delegator v a =
      update2 s.delegator valId address ((s.delegator valId address).withPending
        s.inEpochDelayPeriod stake s.getActivationEpoch) v a := rfl
  rw [delegators, update2_apply]
  split
  · rename_i here
    simp only [here, and_self, true_or, true_iff, Delegator.withPending]
    split <;> simp only [total] <;> omega
  · rename_i other
    simp [other, staked v a]

theorem State.Lists.left (leavable : s.Leavable valId amount withdrawalId address)
    (fits : (s.delegator valId address).total < 2 ^ 256) :
    (s.left revision valId amount withdrawalId address).Lists fun v a =>
      ¬((s.reduced valId amount address).getNextEpochStake = 0 ∧ v = valId ∧ a = address) ∧
        listed v a := by
  intro v a
  have next : (s.reduced valId amount address).getNextEpochStake =
      (s.delegator valId address).total - amount := Stakes.reduced_nextStake leavable fits
  dsimp only
  rw [left_delegator, update2_apply, next, staked v a]
  split
  · rename_i here
    rw [here.1, here.2, Stakes.reduced_total leavable]
    simp only [and_self, and_true]
    omega
  · rename_i other
    simp [other]

end Staked

namespace Delegations

section

variable (delegations : Delegations s listed)

include delegations

theorem congr (nodes : t.listNode = s.listNode) : Delegations t listed := by
  constructor
  · rw [nodes]
    exact delegations.validators
  · rw [nodes]
    exact delegations.delegators

theorem joined (joinable : s.Joinable valId stake address) :
    Delegations (s.joined revision valId stake address)
      fun v a => (v = valId ∧ a = address) ∨ listed v a := by
  constructor
  · have before : validatorList.Lists (delegatorList.insert s.listNode valId address)
        fun a v => listed v a :=
      delegations.validators.congr
        (validatorList_links (delegatorList_blind.insert delegatorList_lawful _ _ _))
        (fun _ _ => Iff.rfl)
    exact before.insert validatorList_lawful address valId joinable.validator fun a v => by
      rw [and_comm]
  · have before := delegations.delegators.insert delegatorList_lawful valId address
      joinable.address fun _ _ => Iff.rfl
    exact before.congr (delegatorList_links (validatorList_blind.insert validatorList_lawful _ _ _))
      (fun _ _ => Iff.rfl)

theorem left : Delegations (s.left revision valId amount withdrawalId address) fun v a =>
    ¬((s.reduced valId amount address).getNextEpochStake = 0 ∧ v = valId ∧ a = address) ∧
      listed v a := by
  have nodes : (s.left revision valId amount withdrawalId address).listNode =
      if (s.reduced valId amount address).getNextEpochStake = 0 then
        validatorList.remove (delegatorList.remove s.listNode valId address) address valId
      else s.listNode := by
    simp only [State.left, State.freed, State.booked, update2_self]
    rfl
  by_cases emptied : (s.reduced valId amount address).getNextEpochStake = 0
  · rw [if_pos emptied] at nodes
    simp only [emptied, true_and]
    constructor
    · rw [nodes]
      have before : validatorList.Lists (delegatorList.remove s.listNode valId address)
          fun a v => listed v a :=
        delegations.validators.congr
          (validatorList_links (delegatorList_blind.remove delegatorList_lawful _ _ _))
          (fun _ _ => Iff.rfl)
      exact before.remove validatorList_lawful address valId fun a v => by
        rw [and_comm (a := a = address)]
    · rw [nodes]
      have before := delegations.delegators.remove delegatorList_lawful valId address
        fun _ _ => Iff.rfl
      exact before.congr
        (delegatorList_links (validatorList_blind.remove validatorList_lawful _ _ _))
        (fun _ _ => Iff.rfl)
  · rw [if_neg emptied] at nodes
    simp only [emptied, false_and, not_false_eq_true, true_and]
    exact delegations.congr nodes

theorem stay (nodes : t.listNode = s.listNode)
    (totals : s.Numbered → s.Lists listed → t.Lists listed)
    (staked : s.Numbered → s.Lists listed) :
    ∃ later, Delegations t later ∧ (s.Numbered → t.Lists later) :=
  ⟨listed, delegations.congr nodes, fun numbered => totals numbered (staked numbered)⟩

section

variable (staked : s.Numbered → s.Lists listed) (schedule : Schedule s) (references : References s)
  (stakes : s.Numbered → Stakes s)

include staked schedule references stakes

theorem kept {freed : Int} (action : Action revision freed s t) :
    ∃ later, Delegations t later ∧ (s.Numbered → t.Lists later) := by
  cases action with
  | promote _ valId address ready =>
    refine delegations.stay rfl (fun numbered same => same.record rfl ?_) staked
    have empty := schedule.delta_unused numbered ready.1
    simp only [total, promoteDelta]
    omega
  | compound _ valId address _ _ _ =>
    refine delegations.stay rfl
      (fun _ same => same.record (compounded_record s valId address) ?_) staked
    simp only [State.compoundedRecord, total, promoteDelta]
    omega
  | settle _ valId address _ _ _ _ | takeRewards _ valId address | commission _ valId _ _ =>
    exact delegations.stay rfl (fun _ same => same.record rfl rfl) staked
  | join _ valId stake address joinable =>
    exact ⟨_, delegations.joined joinable, fun numbered => (staked numbered).joined joinable⟩
  | enroll _ secp bls keys auth commission stake _ _ _ _ joinable =>
    have registered : Delegations (s.registered secp bls keys auth commission) listed :=
      delegations.congr rfl
    refine ⟨_, registered.joined joinable, fun numbered => ?_⟩
    have same : (s.registered secp bls keys auth commission).Lists listed := staked numbered
    exact same.joined joinable
  | leave _ valId amount withdrawalId address leavable =>
    exact ⟨_, delegations.left, fun numbered => (staked numbered).left leavable
      ((stakes numbered).total_lt references valId address)⟩
  | snapshot _ _ =>
    rw [snapshotTaken_eq]
    exact delegations.stay rfl (fun _ same => same) staked
  | withdraw _ valId address withdrawalId _ _ _ _ | balances _ balance
  | reward _ valId _ reward _ _ | propose _ valId _ | changeCommission _ valId commission _ _
  | log _ event =>
    exact delegations.stay rfl (fun _ same => same) staked

theorem changed (change : Change regime s t) :
    ∃ later, Delegations t later ∧ (s.Numbered → t.Lists later) := by
  cases change with
  | action _ action => exact delegations.kept staked schedule references stakes action
  | epochChange _ nextEpoch _ _ _ =>
    rw [enterEpoch_eq]
    exact delegations.stay rfl (fun _ same => same) staked
  | infoLog _ lines => exact delegations.stay rfl (fun _ same => same) staked

end

end

theorem evolved (evolves : Evolves regime s t) (delegations : Delegations s listed)
    (staked : s.Lists listed) (schedule : Schedule s) (references : References s)
    (stakes : Stakes s) : ∃ later, Delegations t later ∧ (t.Numbered → t.Lists later) := by
  induction evolves with
  | refl => exact ⟨listed, delegations, fun _ => staked⟩
  | tail earlier change ih =>
    obtain ⟨middle, known, matched⟩ := ih
    obtain ⟨later, next, same⟩ := known.changed matched (schedule.evolved earlier)
      (references.evolved schedule earlier) (stakes.evolved schedule earlier) change
    exact ⟨later, next, fun numbered => same (change.numbered numbered)⟩

theorem empty (balance : Address → Nat) : Delegations (emptyContract balance) fun _ _ => False := by
  constructor
  · exact fun address => ⟨[], ⟨rfl, nodup_nil, by simp, fun _ _ => rfl, fun _ _ _ => rfl⟩, by simp⟩
  · exact fun valId => ⟨[], ⟨rfl, nodup_nil, by simp, fun _ _ => rfl, fun _ _ _ => rfl⟩, by simp⟩

end Delegations

variable {crypto : Crypto} {balance : Address → Nat}

/-- The delegators of every validator and the validators of every delegator, as they are linked
and as they are read page by page; they are those with stake while it can be numbered. -/
theorem delegation_lists (reachable : Reachable crypto (emptyContract balance) s) :
    ∃ (delegators : ValId → List Address) (validators : Address → List ValId),
      (∀ valId, Represents (delegatorList.links s.listNode valId) delegatorList.sentinel 0
          (delegators valId) ∧
        (∀ ptr this : Address, ptr ≠ 0 → this ≠ 0 →
          ((s.listNode valId ptr).anext = this ↔ (s.listNode valId this).aprev = ptr)) ∧
        ∀ limit, 1 ≤ limit → ∃ calls,
          delegatorList.readPages s.listNode valId limit calls 0 = some (delegators valId)) ∧
      (∀ address, Represents (validatorList.links s.listNode address) validatorList.sentinel 0
          (validators address) ∧
        (∀ ptr this : ValId, ptr ≠ 0 → this ≠ 0 →
          ((s.listNode ptr address).inext = this ↔ (s.listNode this address).iprev = ptr)) ∧
        ∀ limit, 1 ≤ limit → ∃ calls,
          validatorList.readPages s.listNode address limit calls 0 = some (validators address)) ∧
      (∀ valId address, address ∈ delegators valId ↔ valId ∈ validators address) ∧
      (s.Numbered → ∀ valId address,
        address ∈ delegators valId ↔ (s.delegator valId address).total ≠ 0) := by
  have evolves := reachable.evolves (Registry.empty balance)
  obtain ⟨listed, delegations, staked⟩ := (Delegations.empty balance).evolved evolves
    (by simp [State.Lists, emptyContract, total]) (Schedule.empty balance)
    (References.empty balance) (Stakes.empty balance)
  choose delegators linked member using delegations.delegators
  choose validators also memberAlso using delegations.validators
  refine ⟨delegators, validators, fun valId => ⟨linked valId, ?_, ?_⟩,
    fun address => ⟨also address, ?_, ?_⟩, ?_, ?_⟩
  · intro ptr this proper thisProper
    exact (linked valId).next_eq_iff proper thisProper
  · intro limit positive
    exact ⟨_, readPages_eq (linked valId) delegatorList_lawful.distinct positive⟩
  · intro ptr this proper thisProper
    exact (also address).next_eq_iff proper thisProper
  · intro limit positive
    exact ⟨_, readPages_eq (also address) validatorList_lawful.distinct positive⟩
  · intro valId address
    rw [member, memberAlso]
  · intro numbered valId address
    rw [member, staked numbered valId address]

theorem delegation_lists_sample :
    (sampleRun samplePositions).Numbered ∧
      ∃ items calls, 0xaa ∈ items ∧ 0xcc ∈ items ∧ 0xbb ∉ items ∧
        delegatorList.readPages (sampleRun samplePositions).listNode 1 1 calls 0 = some items := by
  have numbered : (sampleRun samplePositions).Numbered := by decide +kernel
  obtain ⟨delegators, -, lists, -, -, member⟩ :=
    delegation_lists (sampleRun_reachable samplePositions)
  obtain ⟨-, -, pages⟩ := lists 1
  obtain ⟨calls, read⟩ := pages 1 le_rfl
  refine ⟨numbered, delegators 1, calls, ?_, ?_, ?_, read⟩ <;>
    rw [member numbered] <;> decide +kernel

/-- At the last epoch a claim drops the pending stake, and the list keeps its owner. -/
theorem delegation_lists_stale : ∃ s, Reachable sampleCrypto (emptyContract sampleBalance) s ∧
    delegatorList.readPages s.listNode 1 1 3 0 = some [0xcc, 0xaa] ∧
    (s.delegator 1 0xcc).total = 0 :=
  ⟨sampleRun (changeEpoch (2 ^ 64 - 1) :: samplePositions ++ [claimSample 0xcc (by decide)]),
    sampleRun_reachable _, by decide +kernel⟩

end MonadChain.Staking
