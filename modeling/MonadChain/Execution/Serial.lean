import MonadChain.Execution.History

/-!
Optimistic execution with a strict merge. A transaction has run on answers from whatever block
states there were. If `can_merge` accepts its state, a run of the same program on the block state
as it is now gets the same answers, and leaves the same to merge.
-/

namespace MonadChain.Execution

open BlockState StateOver Script

variable {address : Address} {script : Script} {incarnation : Incarnation} {key : Key}
  {answer : Value} {after : TxState Script} {image : TxState BlockState}

def Answered (db : Db) (block : BlockState) : Read → Prop
  | .account address answer => block.readAccount db address = (answer, block)
  | .storage address incarnation key answer =>
    block.readStorage db address incarnation key = .ok (answer, block)

/-- The same state on a script whose reads are answered, and on the block state itself. -/
structure SameOn (db : Db) (block : BlockState) (state : TxState Script)
    (image : TxState BlockState) : Prop where
  original : image.original = state.original
  code : image.code = state.code
  journal : image.journal = state.journal
  world : image.world = block
  answered : ∀ read ∈ state.world.ahead, Answered db block read

section Replay

variable {db : Db} {block : BlockState} {state : TxState Script}

section

variable {after : Script} (answered : ∀ read ∈ script.ahead, Answered db block read)

include answered

theorem readAccount_replays {answer : Option Account}
    (asked : world.readAccount address script = .ok (answer, after)) :
    (world db).readAccount address block = .ok (answer, block) ∧
      ∀ read ∈ after.ahead, Answered db block read := by
  obtain ⟨rest, ahead, rfl⟩ := readAccount_ok asked
  rw [ahead] at answered
  exact ⟨congrArg Except.ok (answered _ List.mem_cons_self),
    fun read member => answered read (List.mem_cons_of_mem _ member)⟩

theorem readStorage_replays
    (asked : world.readStorage address incarnation key script = .ok (answer, after)) :
    (world db).readStorage address incarnation key block = .ok (answer, block) ∧
      ∀ read ∈ after.ahead, Answered db block read := by
  obtain ⟨rest, ahead, rfl⟩ := readStorage_ok asked
  rw [ahead] at answered
  exact ⟨answered _ List.mem_cons_self,
    fun read member => answered read (List.mem_cons_of_mem _ member)⟩

end

section

variable (same : SameOn db block state image)

include same

theorem readOriginal_replays {original : OriginalAccountState}
    (ran : state.readOriginal world address = .ok (original, after)) :
    ∃ replayed, image.readOriginal (world db) address = .ok (original, replayed) ∧
      SameOn db block after replayed := by
  unfold readOriginal
  rw [same.original, same.world]
  rcases readOriginal_ok ran with ⟨found, rfl⟩ | ⟨absent, answer, script, asked, rfl, rfl⟩
  · rw [found]
    exact ⟨image, rfl, same⟩
  · obtain ⟨replayed, rest⟩ := readAccount_replays same.answered asked
    rw [absent]
    rw [replayed]
    exact ⟨_, rfl, rfl, same.code, same.journal, rfl, rest⟩

theorem readOriginalStorage_replays
    (ran : state.readOriginalStorage world address incarnation key = .ok (answer, after)) :
    ∃ replayed, image.readOriginalStorage (world db) address incarnation key =
        .ok (answer, replayed) ∧ SameOn db block after replayed := by
  unfold readOriginalStorage
  rw [same.original, same.world]
  obtain ⟨original, found, ⟨cached, rfl⟩ | ⟨unread, script, asked, rfl⟩⟩ :=
    readOriginalStorage_ok ran
  · simp only [found, cached]
    exact ⟨image, rfl, same⟩
  · obtain ⟨replayed, rest⟩ := readStorage_replays same.answered asked
    simp only [found, unread, replayed]
    exact ⟨_, rfl, rfl, same.code, same.journal, rfl, rest⟩

theorem updateOriginal_replays {change : OriginalAccountState → Except String OriginalAccountState}
    {answer : Unit} (ran : state.updateOriginal address change = .ok (answer, after)) :
    ∃ replayed, image.updateOriginal address change = .ok (answer, replayed) ∧
      SameOn db block after replayed := by
  obtain ⟨original, changed, found, applied, rfl⟩ := updateOriginal_ok ran
  simp only [updateOriginal, same.original, found, applied]
  exact ⟨_, rfl, rfl, same.code, same.journal, same.world, same.answered⟩

end

theorem accesses_replay : Program.Replays (SameOn db block) (handler VersionJournal.handler world)
    (handler VersionJournal.handler (world db)) := by
  intro action state image answer after same ran
  cases action with
  | original address => exact readOriginal_replays same ran
  | findOriginal address =>
    cases ran
    exact ⟨image, by simp only [handler, same.original], same⟩
  | originalStorage address incarnation key => exact readOriginalStorage_replays same ran
  | setValidateExactBalance address | setOriginalNonce address nonce =>
    simp only [handler] at ran ⊢
    exact updateOriginal_replays same ran
  | setMinBalance address value => exact updateOriginal_replays same ran
  | journal action =>
    obtain ⟨journal, changed, rfl⟩ := handler_journal_ok ran
    simp only [handler, same.journal, changed]
    exact ⟨_, rfl, same.original, same.code, rfl, same.world, same.answered⟩
  | findCode hash =>
    cases ran
    exact ⟨image, by simp only [handler, same.code], same⟩
  | putCode hash code =>
    cases ran
    refine ⟨_, rfl, same.original, ?_, same.journal, same.world, same.answered⟩
    simp only [same.code]

end Replay

theorem start_sound (db : Db) (block : BlockState) : (Race.start db block).Sound db :=
  ⟨fun _ _ has => has, fun _ _ _ member => absurd member List.not_mem_nil, List.nodup_nil⟩

section Accepted

variable {db : Db} {block : BlockState} {final : Race} {reads : List Read}
  {keeps : Option Account → Option Account → Prop} {state fixed : TxState Script} {relaxed : Bool}
  (remembers : Remembers keeps reads state) (complete : state.world.ahead = [])

include remembers complete

theorem accepted_incarnations
    (mergeable : final.block.canMerge relaxed state = .ok (true, fixed)) :
    ∀ address answer, firstAccount address reads = some answer →
      ∃ original delta, state.original.lookup address = some original ∧
        keeps answer original.account ∧ BlockState.Matched final.block address original delta := by
  intro address answer first
  obtain ⟨original, found, same⟩ := remembers.found complete first
  obtain ⟨delta, matched⟩ := canMerge_matched mergeable found
  exact ⟨original, delta, found, same, matched⟩

section

variable (history : History db (Race.start db block) reads final)
  (mergeable : final.block.canMerge relaxed state = .ok (true, fixed))
  (incarnations : ∀ address answer original delta, firstAccount address reads = some answer →
    keeps answer original.account → BlockState.Matched final.block address original delta →
    original.account.map (·.incarnation) = answer.map (·.incarnation))

include history mergeable incarnations

theorem accepted_slots : ∀ read ∈ reads, SlotKept db final read := by
  have nothing : ∀ address answer, firstAccount address [] = some answer →
      Knows (Race.start db block) address answer := by
    intro address answer first
    cases first
  refine history_slots history (start_sound db block) ⟨nothing, ?_, ?_⟩
  · exact remembers.past complete ▸ remembers.ordered
  · intro address answer first
    obtain ⟨original, delta, found, same, matched⟩ :=
      accepted_incarnations remembers complete mergeable address answer first
    rw [seen_of_lookup matched.there, matched.incarnation]
    exact incarnations address answer original delta first same matched

theorem accepted_storage (member : .storage address incarnation key answer ∈ reads) :
    Answered db final.block (.storage address incarnation key answer) := by
  have whole := remembers.past complete
  obtain ⟨there, zero⟩ :=
    accepted_slots remembers complete history mergeable incarnations _ member
  obtain ⟨original, found, slot⟩ :=
    remembers.slots address incarnation key answer (whole ▸ member)
  obtain ⟨delta, matched⟩ := canMerge_matched mergeable found
  have value := storageMatches_lookup matched.slots slot
  have has_iff : final.Has db address incarnation ↔
      hasIncarnation incarnation delta.account.2 = true := by
    unfold Race.Has hasIncarnation
    rw [seen_of_lookup matched.there, decide_eq_true_iff]
  simp only [Answered, readStorage, lookupStorage, matched.there]
  by_cases has : final.Has db address incarnation
  · obtain ⟨known, looked, stored⟩ := there has
    rw [matched.there] at looked
    cases looked
    obtain ⟨pair, shown⟩ := Option.isSome_iff_exists.mp stored
    rw [shown] at value
    simp only [has_iff.mp has, if_true, shown]
    rw [value]
    rfl
  · have lost := (Bool.not_eq_true _).mp fun now => has (has_iff.mpr now)
    simp only [lost, Bool.false_eq_true, if_false]
    rcases zero has with rfl | ⟨gone, cleared⟩
    · rfl
    · rw [seen_of_lookup matched.there] at gone
      rw [cleared delta matched.there gone] at value
      rw [value]
      rfl

end

end Accepted

theorem accepted_answered {db : Db} {block : BlockState} {final : Race} {reads : List Read}
    {state fixed : TxState Script}
    (remembers : Remembers (fun answer kept => kept = answer) reads state)
    (complete : state.world.ahead = []) (history : History db (Race.start db block) reads final)
    (mergeable : final.block.canMerge false state = .ok (true, fixed)) :
    ∀ read ∈ reads, Answered db final.block read := by
  intro read member
  cases read with
  | storage address incarnation key answer =>
    exact accepted_storage remembers complete history mergeable
      (fun _ _ _ _ _ same _ => congrArg _ same) member
  | account address answer =>
    obtain ⟨original, delta, found, same, matched⟩ := accepted_incarnations remembers complete
      mergeable address answer (remembers.first complete member)
    have equal := (canMerge_strict mergeable).2 address original delta found
      matched.there
    simp [Answered, readAccount, findAccount, matched.there, ← equal, same]

/-- Optimistic execution is serialisable. A transaction has run on answers of the block states
of any history; if its state can be merged into the block state at the end, then a run from
scratch on that block state gets the same answers from every operation and returns the same,
and merging either state gives the same block state. -/
theorem speculation_serializes {α : Type} (config : Config) (db : Db) (block : BlockState)
    (program : Program operations α) (transactional : program.Uses Op.Transactional)
    (reads : List Read) (final : Race) (history : History db (Race.start db block) reads final)
    (answers : List (Sigma Op.Answer)) (value : α) (state fixed : TxState Script)
    (ran : program.recorded.run (StateOver.interface config VersionJournal.handler Script.world)
      (.fresh {} { ahead := reads }) = .ok ((answers, value), state))
    (complete : state.world.ahead = [])
    (mergeable : final.block.canMerge false state = .ok (true, fixed)) :
    ∃ again : TxState BlockState,
      program.recorded.run
        (interface config VersionJournal.handler (world db))
        (.fresh {} final.block) = .ok ((answers, value), again) ∧
      final.block.merge fixed = again.world.merge again := by
  have remembers := (transaction_remembers transactional.recorded ran).1
  have answered := accepted_answered remembers complete history mergeable
  have replays : Program.Replays (SameOn db final.block)
      (interface config VersionJournal.handler world)
      (interface config VersionJournal.handler (world db)) :=
    accesses_replay.expand (E := operations) (Op.method config)
  have start : SameOn db final.block (.fresh {} { ahead := reads }) (.fresh {} final.block) :=
    ⟨rfl, rfl, rfl, rfl, answered⟩
  obtain ⟨again, rerun, same⟩ := replays.run start ran
  refine ⟨again, rerun, ?_⟩
  rw [(canMerge_strict mergeable).1, same.world]
  simp only [merge, same.journal]

def sampleDb : Db where
  readAccount address :=
    if address = 7 then some { balance := 5, nonce := 1, codeHash := 11 }
    else if address = 9 then some { balance := 3 } else none
  readStorage _ _ key := if key = 2 then 4 else 0

def sampleConfig (tx : Nat) : Config where
  incarnation := ⟨1, tx⟩
  cancun := true
  mip8 := false
  keccak code := code.length
  codeOf _ := none

def sampleProgram : Program operations Value :=
  .step (.getNonce 7) fun _ => .step (.getStorage 7 2) fun slot =>
    .step (.setStorage 7 2 (slot + 1)) fun _ => .done slot

def sampleReads : List Read :=
  [.account 7 (sampleDb.readAccount 7), .storage 7 ⟨0, 0⟩ 2 4]

def sampleTransfer : Program operations Unit := .step (.addToBalance 9 10) fun _ => .done ()

def sampleRun {α : Type} (tx : Nat) (program : Program operations α) (reads : List Read) :
    TxState Script :=
  match program.run (StateOver.interface (sampleConfig tx) VersionJournal.handler Script.world)
      (.fresh {} { ahead := reads }) with
  | .ok (_, state) => state
  | .error _ => .fresh {} { ahead := reads }

def sampleWritten : List (Address × AccountState) :=
  [(9, { account := some { balance := 13 }, touched := true })]

def sampleOther : TxState Script := sampleRun 1 sampleTransfer [.account 9 (sampleDb.readAccount 9)]

theorem sample_merges (race : Race) (idle : race.pending = [])
    (fresh : ∀ address, ¬race.used address (sampleConfig 1).incarnation)
    (mergeable : race.block.canMerge true sampleOther = .ok (true, sampleOther)) :
    Interferes sampleDb race { race with pending := sampleWritten } := by
  have finished : Finished (sampleConfig 1) sampleOther :=
    ⟨⟨Unit, sampleTransfer, [.account 9 (sampleDb.readAccount 9)], (), ⟨trivial, fun _ => trivial⟩,
      rfl⟩, rfl⟩
  have accounts : settled sampleOther.journal.current = .ok sampleWritten := rfl
  exact .beginMerge idle fresh finished mergeable accounts

theorem sample_unused (address : Address) :
    ¬(Race.start sampleDb {}).used address (sampleConfig 1).incarnation := by
  intro used
  have seen : (sampleDb.readAccount address).map (·.incarnation) = some ⟨1, 1⟩ := used
  unfold sampleDb at seen
  dsimp only at seen
  split at seen
  · cases seen
  · split at seen <;> cases seen

theorem sample_history : ∃ final : Race,
    History sampleDb (Race.start sampleDb {}) sampleReads final ∧
      final.block.canMerge false (sampleRun 2 sampleProgram.recorded sampleReads) =
        .ok (true, sampleRun 2 sampleProgram.recorded sampleReads) := by
  exact ⟨_, .accountMissed rfl .refl rfl (.interfere (.account _ 9)
    (.interfere (sample_merges _ rfl sample_unused rfl)
      (.interfere (.mergeAccount rfl rfl) (.slotMissed rfl .refl rfl (.done _))))), rfl⟩

theorem speculation_serializes_sample : ∃ (final : Race) (again : TxState BlockState),
    History sampleDb (Race.start sampleDb {}) sampleReads final ∧
    sampleProgram.recorded.run
      (StateOver.interface (sampleConfig 2) VersionJournal.handler (BlockState.world sampleDb))
      (.fresh {} final.block) =
        .ok (([⟨.getNonce 7, (1 : Nat)⟩, ⟨.getStorage 7 2, (4 : Nat)⟩,
          ⟨.setStorage 7 2 5, StorageStatus.modified⟩], 4), again) ∧
    final.block.merge (sampleRun 2 sampleProgram.recorded sampleReads) =
      again.world.merge again := by
  obtain ⟨final, history, mergeable⟩ := sample_history
  obtain ⟨again, rerun, merged⟩ := speculation_serializes (sampleConfig 2) sampleDb {}
    sampleProgram ⟨trivial, fun _ => ⟨trivial, fun _ => ⟨trivial, fun _ => trivial⟩⟩⟩ sampleReads
    final history _ _ _ _ rfl rfl mergeable
  exact ⟨final, again, history, rerun, merged⟩

end MonadChain.Execution
