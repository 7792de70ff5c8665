import MonadChain.Execution.Merge
import MonadChain.Execution.Reads
import MonadChain.Lib.Fallible

/-!
The block state while transactions run side by side. Between two critical sections of one
transaction the others read, and those before it merge, account by account. An incarnation that an
account has lost does not come back, and as long as an account keeps its incarnation, its slots
stay in the block state.
-/

namespace MonadChain.Execution

open BlockState AList Option List

variable {delta : StateDelta} {other : Address} {answer : Option Account} {reads past : List Read}

def BlockState.seen (db : Db) (block : BlockState) (address : Address) : Option Account :=
  (block.findAccount address).getD (db.readAccount address)

def BlockState.HasSlot (block : BlockState) (address : Address) (key : Key) : Prop :=
  ∃ delta, block.state.lookup address = some delta ∧ (delta.storage.lookup key).isSome

/-- An account that is not there has no slots, as after a merge that has deleted it. -/
def BlockState.Cleared (block : BlockState) (address : Address) : Prop :=
  ∀ delta, block.state.lookup address = some delta → delta.account.2 = none → delta.storage = ∅

/-- The block state, the incarnations that its accounts have had, and what is left to write
of the merge that is going on. -/
structure Race where
  block : BlockState
  used : Address → Incarnation → Prop
  pending : List (Address × AccountState) := []

def Race.Has (db : Db) (race : Race) (address : Address) (incarnation : Incarnation) : Prop :=
  (race.block.seen db address).map (·.incarnation) = some incarnation

structure Finished (config : Config) (state : TxState Script) : Prop where
  ran : ∃ (α : Type) (program : Program operations α) (reads : List Read) (value : α),
    program.Uses Op.Transactional ∧
    program.run (StateOver.interface config VersionJournal.handler Script.world)
      (.fresh {} { ahead := reads }) = .ok (value, state)
  complete : state.world.ahead = []

/-- A critical section of another transaction. -/
inductive Interferes (db : Db) : Race → Race → Prop where
  | account (race : Race) (address : Address) :
      Interferes db race
        { race with block := (race.block.emplaceAccount address (db.readAccount address)).2 }
  | storage {race : Race} {address : Address} {incarnation : Incarnation} {key : Key}
      {fromDb : Bool} {value : Value} {block : BlockState}
      (stored : race.block.emplaceStorage address incarnation key
        (BlockState.databaseStorage db address incarnation key fromDb) = .ok (value, block)) :
      Interferes db race { race with block := block }
  | beginMerge {race : Race} {config : Config} {state fixed : TxState Script} {relaxed : Bool}
      {written : List (Address × AccountState)}
      (idle : race.pending = [])
      (fresh : ∀ address, ¬race.used address config.incarnation)
      (finished : Finished config state)
      (mergeable : race.block.canMerge relaxed state = .ok (true, fixed))
      (accounts : BlockState.settled fixed.journal.current = .ok written) :
      Interferes db race { race with pending := written }
  | mergeAccount {race : Race} {address : Address} {written : AccountState}
      {rest : List (Address × AccountState)} {block : BlockState}
      (next : race.pending = (address, written) :: rest)
      (merged : race.block.mergeAccount address written = .ok block) :
      Interferes db race
        { block := block
          used := fun other incarnation => race.used other incarnation ∨
            (other = address ∧ written.account.map (·.incarnation) = some incarnation)
          pending := rest }

/-- The reads of a transaction between the critical sections of the others. -/
inductive History (db : Db) : Race → List Read → Race → Prop where
  | done (race : Race) : History db race [] race
  | interfere {race next final : Race} {reads : List Read} (step : Interferes db race next)
      (rest : History db next reads final) : History db race reads final
  | accountFound {race final : Race} {address : Address} {answer : Option Account}
      {reads : List Read} (found : race.block.findAccount address = some answer)
      (rest : History db race reads final) :
      History db race (.account address answer :: reads) final
  | accountMissed {race later final : Race} {address : Address} {answer : Option Account}
      {block : BlockState} {reads : List Read} (missed : race.block.findAccount address = none)
      (between : Relation.ReflTransGen (Interferes db) race later)
      (stored : later.block.emplaceAccount address (db.readAccount address) = (answer, block))
      (rest : History db { later with block := block } reads final) :
      History db race (.account address answer :: reads) final
  | slotFound {race final : Race} {address : Address} {incarnation : Incarnation} {key : Key}
      {answer : Value} {reads : List Read}
      (found : race.block.lookupStorage address incarnation key = .ok (.answer answer))
      (rest : History db race reads final) :
      History db race (.storage address incarnation key answer :: reads) final
  | slotMissed {race later final : Race} {address : Address} {incarnation : Incarnation}
      {key : Key} {fromDb : Bool} {answer : Value} {block : BlockState} {reads : List Read}
      (missed : race.block.lookupStorage address incarnation key = .ok (.database fromDb))
      (between : Relation.ReflTransGen (Interferes db) race later)
      (stored : later.block.emplaceStorage address incarnation key
        (BlockState.databaseStorage db address incarnation key fromDb) = .ok (answer, block))
      (rest : History db { later with block := block } reads final) :
      History db race (.storage address incarnation key answer :: reads) final

def Race.start (db : Db) (block : BlockState) : Race where
  block := block
  used address incarnation := (block.seen db address).map (·.incarnation) = some incarnation

namespace BlockState

variable {db : Db} {block after : BlockState} {address : Address} {key : Key}

theorem seen_of_lookup (found : block.state.lookup address = some delta) :
    block.seen db address = delta.account.2 := by
  simp [seen, findAccount, found]

theorem seen_insert : seen db ⟨block.state.insert address delta⟩ address = delta.account.2 := by
  simp [seen, findAccount]

theorem seen_insert_ne (apart : other ≠ address) :
    seen db ⟨block.state.insert address delta⟩ other = block.seen db other := by
  simp [seen, findAccount, lookup_insert_ne apart]

theorem hasSlot_insert_ne (apart : other ≠ address) :
    HasSlot ⟨block.state.insert address delta⟩ other key ↔ block.HasSlot other key := by
  simp [HasSlot, lookup_insert_ne apart]

theorem emplaceAccount_seen (other : Address) :
    (block.emplaceAccount address (db.readAccount address)).2.seen db other =
      block.seen db other := by
  unfold emplaceAccount
  split
  · rfl
  · rename_i absent
    by_cases here : other = address
    · subst here
      simp [seen, findAccount, absent]
    · exact seen_insert_ne here

theorem emplaceAccount_slots {result : Option Account} (slot : block.HasSlot other key) :
    (block.emplaceAccount address result).2.HasSlot other key := by
  unfold emplaceAccount
  split
  · exact slot
  · rename_i absent
    by_cases here : other = address
    · subst here
      obtain ⟨delta, found, _⟩ := slot
      rw [absent] at found
      cases found
    · exact (hasSlot_insert_ne here).mpr slot

theorem emplaceAccount_cleared {result : Option Account} (cleared : block.Cleared other) :
    (block.emplaceAccount address result).2.Cleared other := by
  grind [emplaceAccount, Cleared, lookup_insert_ite]

theorem emplaceAccount_answer
    (stored : block.emplaceAccount address (db.readAccount address) = (answer, after)) :
    answer = after.seen db address := by
  unfold emplaceAccount at stored
  split at stored
  · rename_i delta found
    cases stored
    exact (seen_of_lookup found).symm
  · cases stored
    rw [seen_insert]

section Storage

variable {incarnation : Incarnation} {key : Key} {result value : Value}

section

variable (stored : block.emplaceStorage address incarnation key result = .ok (value, after))

include stored

theorem emplaceStorage_shape :
    ∃ delta, block.state.lookup address = some delta ∧
      ((after = block ∧ (hasIncarnation incarnation delta.account.2 = true →
          (delta.storage.lookup key).isSome)) ∨
        after = ⟨block.state.insert address
          { delta with storage := delta.storage.insert key (result, result) }⟩) := by
  unfold emplaceStorage at stored
  split at stored
  · cases stored
  · rename_i delta found
    refine ⟨delta, found, ?_⟩
    split at stored
    · split at stored
      · rename_i known there
        cases stored
        exact Or.inl ⟨rfl, fun _ => there ▸ rfl⟩
      · cases stored
        exact Or.inr rfl
    · rename_i other
      cases stored
      exact Or.inl ⟨rfl, fun has => absurd has other⟩

theorem emplaceStorage_seen (other : Address) : after.seen db other = block.seen db other := by
  obtain ⟨delta, found, ⟨rfl, _⟩ | rfl⟩ := emplaceStorage_shape stored
  · rfl
  · by_cases here : other = address
    · subst here
      rw [seen_insert, seen_of_lookup found]
    · exact seen_insert_ne here

theorem emplaceStorage_slots
    {slot : Key} (has : block.HasSlot other slot) : after.HasSlot other slot := by
  obtain ⟨delta, found, ⟨rfl, _⟩ | rfl⟩ := emplaceStorage_shape stored
  · exact has
  · grind [HasSlot, lookup_insert_ite]

theorem emplaceStorage_cleared (cleared : block.Cleared other) : after.Cleared other := by
  grind [emplaceStorage, hasIncarnation, Cleared, lookup_insert_ite]

theorem emplaceStorage_hasSlot
    (has : (block.seen db address).map (·.incarnation) = some incarnation) :
    after.HasSlot address key := by
  obtain ⟨delta, found, ⟨rfl, there⟩ | rfl⟩ := emplaceStorage_shape stored
  · rw [seen_of_lookup found] at has
    exact ⟨delta, found, there (decide_eq_true has)⟩
  · refine ⟨_, lookup_insert _, ?_⟩
    rw [lookup_insert]
    rfl

end

theorem lookupStorage_answer
    (found : block.lookupStorage address incarnation key = .ok (.answer value)) :
    ((block.seen db address).map (·.incarnation) = some incarnation → block.HasSlot address key) ∧
    ((block.seen db address).map (·.incarnation) ≠ some incarnation → value = 0) := by
  unfold lookupStorage at found
  split at found
  · cases found
  · rename_i delta looked
    rw [seen_of_lookup looked]
    split at found
    · rename_i has
      have same : delta.account.2.map (·.incarnation) = some incarnation := of_decide_eq_true has
      split at found
      · rename_i known there
        exact ⟨fun _ => ⟨delta, looked, there ▸ rfl⟩, fun differs => absurd same differs⟩
      · cases found
    · rename_i other
      cases found
      exact ⟨fun same => absurd (decide_eq_true same) other, fun _ => rfl⟩

theorem lookupStorage_database {fromDb : Bool}
    (missed : block.lookupStorage address incarnation key = .ok (.database fromDb)) :
    (block.seen db address).map (·.incarnation) = some incarnation := by
  unfold lookupStorage at missed
  split at missed
  · cases missed
  · rename_i delta looked
    rw [seen_of_lookup looked]
    split at missed
    · rename_i has
      exact of_decide_eq_true has
    · cases missed

end Storage

theorem mergeStorage_slots {storage : Map Key Value} {deltas : Map Key (Value × Value)}
    (there : (deltas.lookup key).isSome) : ((mergeStorage storage deltas).lookup key).isSome := by
  unfold mergeStorage
  generalize storage.entries = slots
  induction slots generalizing deltas with
  | nil => exact there
  | cons slot rest ih =>
    refine ih ?_
    grind [lookup_insert_ite]

variable {written : AccountState}

section

variable (merged : block.mergeAccount address written = .ok after)

include merged

theorem mergeAccount_shape :
    ∃ delta, block.state.lookup address = some delta ∧
      after = ⟨block.state.insert address ⟨(delta.account.1, written.account),
        if written.account.isSome then mergeStorage written.storage delta.storage else ∅⟩⟩ := by
  unfold mergeAccount at merged
  split at merged
  · cases merged
  · rename_i delta found
    cases merged
    exact ⟨delta, found, rfl⟩

theorem mergeAccount_seen (other : Address) :
    after.seen db other = if other = address then written.account else block.seen db other := by
  obtain ⟨delta, found, rfl⟩ := mergeAccount_shape merged
  by_cases here : other = address
  · subst here
    rw [if_pos rfl, seen_insert]
  · rw [if_neg here]
    exact seen_insert_ne here

theorem mergeAccount_cleared (cleared : block.Cleared other) : after.Cleared other := by
  obtain ⟨delta, found, rfl⟩ := mergeAccount_shape merged
  grind [Cleared, lookup_insert_ite]

theorem mergeAccount_slots (has : block.HasSlot other key)
    (alive : other = address → written.account.isSome) : after.HasSlot other key := by
  obtain ⟨delta, found, rfl⟩ := mergeAccount_shape merged
  by_cases here : other = address
  · subst here
    obtain ⟨known, looked, there⟩ := has
    rw [found] at looked
    cases looked
    refine ⟨_, lookup_insert _, ?_⟩
    rw [if_pos (alive rfl)]
    exact mergeStorage_slots there
  · exact (hasSlot_insert_ne here).mpr has

end

end BlockState

section Later

variable {db : Db} {block : BlockState} {race : Race} {address : Address}

/-- Nothing comes back: an incarnation that was used is there now only if it was there all the
time, and then the slots of the account are still there. A deleted account has no slots. -/
structure Later (db : Db) (race later : Race) : Prop where
  used : ∀ address incarnation, race.used address incarnation → later.used address incarnation
  back : ∀ address incarnation, later.Has db address incarnation →
    race.used address incarnation → race.Has db address incarnation
  slots : ∀ address incarnation key, later.Has db address incarnation →
    race.used address incarnation → race.block.HasSlot address key →
    later.block.HasSlot address key
  cleared : ∀ address, race.block.Cleared address → later.block.Cleared address

theorem Later.refl (race : Race) : Later db race race :=
  ⟨fun _ _ used => used, fun _ _ has _ => has, fun _ _ _ _ _ slot => slot, fun _ still => still⟩

theorem Later.trans {race middle later : Race} (first : Later db race middle)
    (second : Later db middle later) : Later db race later where
  used address incarnation used := second.used address incarnation
    (first.used address incarnation used)
  back address incarnation has known :=
    first.back address incarnation
      (second.back address incarnation has (first.used address incarnation known)) known
  slots address incarnation key has known slot := by
    have still := first.used address incarnation known
    refine second.slots address incarnation key has still ?_
    exact first.slots address incarnation key (second.back address incarnation has still) known slot
  cleared address gone := second.cleared address (first.cleared address gone)

theorem Later.of_seen (seen : ∀ address, block.seen db address = race.block.seen db address)
    (slots : ∀ address key, race.block.HasSlot address key → block.HasSlot address key)
    (cleared : ∀ address, race.block.Cleared address → block.Cleared address) :
    Later db race { race with block := block } where
  used _ _ used := used
  back address incarnation has _ := by
    unfold Race.Has at has ⊢
    rw [← seen address]
    exact has
  slots address _ key _ _ slot := slots address key slot
  cleared := cleared

structure Race.Sound (db : Db) (race : Race) : Prop where
  used : ∀ address incarnation, race.Has db address incarnation →
    race.used address incarnation
  pending : ∀ address written account, (address, written) ∈ race.pending →
    written.account = some account →
    race.Has db address account.incarnation ∨ ¬race.used address account.incarnation
  distinct : (race.pending.map Prod.fst).Nodup

theorem Race.Sound.of_seen (sound : race.Sound db)
    (seen : ∀ address, block.seen db address = race.block.seen db address) :
    Race.Sound db { race with block := block } where
  used address incarnation has := by
    refine sound.used address incarnation ?_
    unfold Race.Has at has ⊢
    rw [← seen address]
    exact has
  pending address written account member there := by
    refine (sound.pending address written account member there).imp_left fun has => ?_
    unfold Race.Has at has ⊢
    rw [seen address]
    exact has
  distinct := sound.distinct

theorem settled_mem {current : Map Address (VersionStack AccountState)}
    {written : List (Address × AccountState)} (ran : settled current = .ok written) :
    written.map Prod.fst = current.keys ∧
    ∀ address state, (address, state) ∈ written →
      ∃ stack, current.lookup address = some stack ∧ stack.recent = state := by
  have all : written = current.entries.map fun entry => (entry.1, entry.2.recent) := by
    refine mapM_eq (fun entry result one => ?_) ran
    split at one
    · cases one
    · split at one <;> cases one
      rfl
  subst all
  refine ⟨?_, ?_⟩
  · rw [List.map_map]
    rfl
  · intro address state member
    obtain ⟨entry, inside, same⟩ := List.mem_map.mp member
    cases same
    exact ⟨entry.2, mem_lookup_iff.mpr inside, rfl⟩

theorem begin_pending {config : Config} {state fixed : TxState Script} {relaxed : Bool}
    {written : List (Address × AccountState)}
    (fresh : ∀ address, ¬race.used address config.incarnation) (finished : Finished config state)
    (mergeable : race.block.canMerge relaxed state = .ok (true, fixed))
    (accounts : settled fixed.journal.current = .ok written) {entry : AccountState}
    {account : Account} (member : (address, entry) ∈ written)
    (there : entry.account = some account) :
    race.Has db address account.incarnation ∨ ¬race.used address account.incarnation := by
  obtain ⟨α, program, reads, value, transactional, ran⟩ := finished.ran
  obtain ⟨remembers, tracked⟩ := transaction_remembers transactional ran
  have states : fixed.journal.AllStates (Kept config.incarnation (firstIncarnation · reads)) := by
    refine canMergeAll_allStates ?_ mergeable tracked
    intro place kept old balance was holds now shown
    cases shown
    exact holds old was
  obtain ⟨stack, found, rfl⟩ := (settled_mem accounts).2 address entry member
  have kept : account.incarnation = config.incarnation ∨
      firstIncarnation address reads = some account.incarnation :=
    states address stack found _ VersionJournal.recent_mem account there
  rcases kept with same | known
  · exact Or.inr (same ▸ fresh address)
  · refine Or.inl ?_
    -- The incarnation is that of the original, and the original is that of the block.
    cases first : firstAccount address reads with
    | none =>
      rw [firstIncarnation, first] at known
      cases known
    | some answer =>
      obtain ⟨kept, looked, same⟩ := remembers.found finished.complete first
      obtain ⟨delta, matched⟩ := canMerge_matched mergeable looked
      unfold Race.Has
      rw [seen_of_lookup matched.there, matched.incarnation, same, ← known, firstIncarnation, first]
      rfl

theorem interferes_keeps {race next : Race} (sound : race.Sound db)
    (step : Interferes db race next) : next.Sound db ∧ Later db race next := by
  cases step with
  | account address =>
    have seen : ∀ other, (race.block.emplaceAccount address (db.readAccount address)).2.seen db
        other = race.block.seen db other := emplaceAccount_seen
    exact ⟨sound.of_seen seen,
      Later.of_seen seen (fun _ _ slot => emplaceAccount_slots slot)
        fun _ still => emplaceAccount_cleared still⟩
  | storage stored =>
    exact ⟨sound.of_seen (emplaceStorage_seen stored),
      Later.of_seen (emplaceStorage_seen stored) (fun _ _ slot => emplaceStorage_slots stored slot)
        fun _ still => emplaceStorage_cleared stored still⟩
  | beginMerge idle fresh finished mergeable accounts =>
    refine ⟨⟨sound.used, ?_, ?_⟩,
      ⟨fun _ _ used => used, fun _ _ has _ => has, fun _ _ _ _ _ slot => slot,
       fun _ still => still⟩⟩
    · intro address written account member there
      exact begin_pending fresh finished mergeable accounts member there
    · rw [(settled_mem accounts).1]
      exact keys_nodup _
  | mergeAccount waiting merged =>
    rename_i address written rest block
    have seen : ∀ other, block.seen db other =
        if other = address then written.account else race.block.seen db other :=
      mergeAccount_seen merged
    have members := sound.pending
    have distinct := sound.distinct
    rw [waiting] at members distinct
    obtain ⟨apart, others⟩ := nodup_cons.mp distinct
    refine ⟨⟨?_, ?_, others⟩, ⟨fun _ _ used => Or.inl used, ?_, ?_,
      fun _ still => mergeAccount_cleared merged still⟩⟩
    · intro place incarnation has
      unfold Race.Has at has
      rw [seen place] at has
      by_cases here : place = address
      · rw [if_pos here] at has
        exact Or.inr ⟨here, has⟩
      · rw [if_neg here] at has
        exact Or.inl (sound.used place incarnation has)
    · intro place entry account member there
      have here : place ≠ address := fun same =>
        apart (mem_map.mpr ⟨(place, entry), member, same⟩)
      have before := members place entry account (mem_cons_of_mem _ member) there
      refine before.imp (fun has => ?_) fun new => ?_
      · unfold Race.Has at has ⊢
        rw [seen place, if_neg here]
        exact has
      · exact fun used => used.elim new fun same => here same.1
    · intro place incarnation has known
      unfold Race.Has at has
      rw [seen place] at has
      by_cases here : place = address
      · rw [if_pos here] at has
        obtain ⟨account, there, rfl⟩ := map_eq_some_iff.mp has
        subst here
        rcases members place written account mem_cons_self there with now | new
        · exact now
        · exact (new known).elim
      · rw [if_neg here] at has
        exact has
    · intro place incarnation key has known slot
      refine mergeAccount_slots merged slot ?_
      intro here
      unfold Race.Has at has
      rw [seen place, if_pos here] at has
      obtain ⟨account, there, _⟩ := map_eq_some_iff.mp has
      rw [there]
      rfl

theorem between_keeps {race later : Race} (sound : race.Sound db)
    (steps : Relation.ReflTransGen (Interferes db) race later) :
    later.Sound db ∧ Later db race later := by
  induction steps with
  | refl => exact ⟨sound, Later.refl race⟩
  | tail first step ih =>
    obtain ⟨still, before⟩ := ih
    obtain ⟨kept, after⟩ := interferes_keeps still step
    exact ⟨kept, before.trans after⟩

/-- What is known of an account that was read: its incarnation has been used. -/
def Knows (race : Race) (address : Address) (answer : Option Account) : Prop :=
  ∀ account, answer = some account → race.used address account.incarnation

theorem Knows.later {race later : Race} (knows : Knows race address answer)
    (after : Later db race later) : Knows later address answer :=
  fun account there => after.used address account.incarnation (knows account there)

theorem knows_seen (sound : race.Sound db) (answered : answer = race.block.seen db address) :
    Knows race address answer := by
  refine fun account there => sound.used address account.incarnation ?_
  unfold Race.Has
  rw [← answered, there]
  rfl

theorem emplaced_account (sound : race.Sound db)
    (stored : race.block.emplaceAccount address (db.readAccount address) = (answer, block)) :
    Race.Sound db { race with block := block } ∧
      Later db race { race with block := block } := by
  have step := interferes_keeps sound (Interferes.account race address)
  rw [stored] at step
  exact step

theorem history_keeps {race final : Race} (sound : race.Sound db)
    (history : History db race reads final) : Later db race final := by
  induction history with
  | done race => exact Later.refl race
  | interfere step rest ih =>
    obtain ⟨still, after⟩ := interferes_keeps sound step
    exact after.trans (ih still)
  | accountFound found rest ih | slotFound found rest ih => exact ih sound
  | accountMissed missed between stored rest ih =>
    obtain ⟨still, first⟩ := between_keeps sound between
    obtain ⟨kept, second⟩ := emplaced_account still stored
    exact (first.trans second).trans (ih kept)
  | slotMissed missed between stored rest ih =>
    obtain ⟨still, first⟩ := between_keeps sound between
    obtain ⟨kept, second⟩ := interferes_keeps still (Interferes.storage stored)
    exact (first.trans second).trans (ih kept)

/-- What the slots that were read are at the end: there, if their account has kept its
incarnation, and zero otherwise, or gone with their account. -/
def SlotKept (db : Db) (final : Race) : Read → Prop
  | .account _ _ => True
  | .storage address incarnation key answer =>
    (final.Has db address incarnation → final.block.HasSlot address key) ∧
    (¬final.Has db address incarnation →
      answer = 0 ∨ final.block.seen db address = none ∧ final.block.Cleared address)

structure Underway (db : Db) (race final : Race) (past reads : List Read) :
    Prop where
  knows : ∀ address answer, firstAccount address past = some answer →
    Knows race address answer
  ordered : Ordered (past ++ reads)
  ends : ∀ address answer, firstAccount address (past ++ reads) = some answer →
    (final.block.seen db address).map (·.incarnation) = answer.map (·.incarnation)

namespace Underway

variable {race final : Race} {address : Address} {incarnation : Incarnation} {key : Key}

theorem later {next : Race} (underway : Underway db race final past reads)
    (after : Later db race next) : Underway db next final past reads :=
  { underway with knows := fun place first known => (underway.knows place first known).later after }

theorem advance {read : Read} (underway : Underway db race final past (read :: reads))
    (knows : ∀ place first, firstAccount place (past ++ [read]) = some first →
      Knows race place first) : Underway db race final (past ++ [read]) reads := by
  obtain ⟨_, ordered, ends⟩ := underway
  rw [append_cons] at ordered ends
  exact ⟨knows, ordered, ends⟩

theorem account (underway : Underway db race final past (.account address answer :: reads))
    (read : Knows race address answer) :
    Underway db race final (past ++ [.account address answer]) reads := by
  refine underway.advance fun place first found => ?_
  rw [firstAccount_append] at found
  cases known : firstAccount place past with
  | some before =>
    rw [known, some_or] at found
    exact underway.knows place first (known.trans found)
  | none =>
    rw [known] at found
    by_cases here : place = address
    · subst here
      simp [firstAccount, Read.accountOf] at found
      exact found ▸ read
    · simp [firstAccount, Read.accountOf, here] at found

section Slot

variable {answer : Value}
  (underway : Underway db race final past (.storage address incarnation key answer :: reads))

include underway

theorem slot : Underway db race final (past ++ [.storage address incarnation key answer])
    reads := by
  refine underway.advance fun place first found => ?_
  rw [firstAccount_append,
    show firstAccount place [.storage address incarnation key answer] = none from rfl,
    or_none] at found
  exact underway.knows place first found

theorem slot_kept (after : Later db race final)
    (there : race.Has db address incarnation → race.used address incarnation →
      final.Has db address incarnation → final.block.HasSlot address key)
    (zero : ¬race.Has db address incarnation → answer = 0) :
    SlotKept db final (.storage address incarnation key answer) := by
  obtain ⟨first, known⟩ := isSome_iff_exists.mp
    (underway.ordered past (.storage address incarnation key answer) reads rfl)
  have knows := underway.knows address first known
  have ends := underway.ends address first ( firstAccount_prefix known)
  refine ⟨fun has => ?_, fun lost => ?_⟩
  · -- The account has the incarnation now, so it had it when it was first read.
    have was : first.map (·.incarnation) = some incarnation := ends ▸ has
    obtain ⟨account, rfl, rfl⟩ := map_eq_some_iff.mp was
    have used := knows account rfl
    exact there (after.back address _ has used) used has
  · by_cases has : race.Has db address incarnation
    · cases first with
      | none =>
        refine Or.inr ⟨map_eq_none_iff.mp ends, after.cleared address fun delta found gone => ?_⟩
        unfold Race.Has at has
        rw [seen_of_lookup found, gone] at has
        cases has
      | some account =>
        -- The account has had the incarnation that was read first all the time.
        have was := after.back address _ ends (knows account rfl)
        exact absurd (ends.trans (was.symm.trans has)) lost
    · exact Or.inl (zero has)

end Slot

end Underway

theorem history_slots {race final : Race} (history : History db race reads final)
    (sound : race.Sound db) (underway : Underway db race final past reads) :
    ∀ read ∈ reads, SlotKept db final read := by
  induction history generalizing past with
  | done race =>
    intro read member
    cases member
  | interfere step rest ih =>
    obtain ⟨still, after⟩ := interferes_keeps sound step
    exact ih still (underway.later after)
  | accountFound found rest ih =>
    have next := underway.account (knows_seen sound (by simp [seen, found]))
    exact forall_mem_cons.mpr ⟨trivial, ih sound next⟩
  | accountMissed missed between stored rest ih =>
    obtain ⟨still, first⟩ := between_keeps sound between
    obtain ⟨kept, second⟩ := emplaced_account still stored
    have next := (underway.later (first.trans second)).account
      (knows_seen kept (emplaceAccount_answer stored))
    exact forall_mem_cons.mpr ⟨trivial, ih kept next⟩
  | slotFound found rest ih =>
    have after := history_keeps sound rest
    obtain ⟨there, zero⟩ := lookupStorage_answer found
    exact forall_mem_cons.mpr ⟨underway.slot_kept after
      (fun has used now => after.slots _ _ _ now used (there has)) zero, ih sound underway.slot⟩
  | slotMissed missed between stored rest ih =>
    obtain ⟨still, one⟩ := between_keeps sound between
    obtain ⟨kept, two⟩ := interferes_keeps still (Interferes.storage stored)
    have after := history_keeps kept rest
    refine forall_mem_cons.mpr ⟨underway.slot_kept (one.trans (two.trans after))
      (fun _ used now => ?_) fun lost => absurd (lookupStorage_database missed) lost,
      ih kept (underway.later (one.trans two)).slot⟩
    have used' := one.used _ _ used
    have emplaced := emplaceStorage_hasSlot stored ((two.trans after).back _ _ now used')
    exact after.slots _ _ _ now (two.used _ _ used') emplaced

end Later

end MonadChain.Execution
