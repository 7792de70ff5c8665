import MonadChain.Execution.MessageFrames

/-!
Messages with `EVMC_STATIC`. Of the operations that they reach, through any tree of messages, none
does more than mark accounts as touched and accounts and slots as accessed.
-/

namespace MonadChain.Execution

open CopyJournal

variable {address : Address} {saved : List Copy} {result : Result}

namespace TxState

structure Unchanged (db : Db) (before after : TxState BlockState) : Prop where
  account : ∀ address, (after.seen db address).account = (before.seen db address).account
  destructed : ∀ address, (after.seen db address).destructed = (before.seen db address).destructed
  storage : ∀ address key, after.slot db address key = before.slot db address key
  transient : ∀ address key, (after.seen db address).getTransientStorage key =
    (before.seen db address).getTransientStorage key
  logs : after.journal.logs.recent = before.journal.logs.recent
  code : after.code = before.code

end TxState

structure MarkedAlike (contents : Contents) (originals : Originals) (address : Address)
    (one other : AccountState) : Prop where
  account : one.account = other.account
  destructed : one.destructed = other.destructed
  transient : one.transientStorage = other.transientStorage
  slots : ∀ key, slotIn contents originals address one key =
    slotIn contents originals address other key

def marking (alike : Address → AccountState → Prop) (unknown : Address → Prop) :
    Program.Contract accesses where
  allowed
    | .original _ => True
    | .journal (.recent _) => True
    | .journal (.current address fallback) => alike address fallback
    | .journal (.modify address change) => ∀ state, alike address state →
        alike address (change state)
    | _ => False
  possible
    | .original address => fun original => unknown address → alike address original.toAccountState
    | .journal (.recent address) => fun answer =>
      (∀ state, answer = some state → alike address state) ∧ (answer = none → unknown address)
    | .journal (.current address _) => fun state => alike address state
    | _ => fun _ => True

def Op.Mark : Op → Prop
  | .touch _ | .accessAccount _ | .accessStorage _ _ => True
  | _ => False

section Marks

variable {config : Config} {alike : Address → AccountState → Prop} {unknown : Address → Prop}

theorem marks_currentAccountState (address : Address) :
    (State.currentAccountState address).Follows (marking alike unknown) (alike address) := by
  refine .perform trivial fun answer possible => ?_
  cases answer with
  | some state => exact ⟨possible.1 state rfl, fun entered kept => kept⟩
  | none =>
    refine .perform trivial fun original read => ?_
    exact ⟨read (possible.2 rfl), fun entered kept => kept⟩

theorem marks_method (stable : ∀ address state other, alike address state →
      other.account = state.account → other.destructed = state.destructed →
      other.transientStorage = state.transientStorage → other.storage = state.storage →
      alike address other) (op : Op) (mark : op.Mark) :
    (op.method config).Follows (marking alike unknown) fun _ => True := by
  cases op with
  | touch address | accessAccount address =>
    refine (marks_currentAccountState address).bind fun _ _ => ⟨?_, fun _ _ => trivial⟩
    exact fun state kept => stable address state _ kept rfl rfl rfl rfl
  | accessStorage address key =>
    have slot : ∀ state, alike address state → alike address (state.accessStorage key).2 := by
      intro state kept
      unfold AccountState.accessStorage
      split
      · exact kept
      · exact stable address state _ kept rfl rfl rfl rfl
    refine (marks_currentAccountState address).bind fun _ _ => ⟨slot, fun _ _ => ?_⟩
    split
    · exact ⟨fun state kept => stable address state _ kept rfl rfl rfl rfl, fun _ _ => trivial⟩
    · trivial
  | _ => exact mark.elim

end Marks

section Copies

variable {W : Type} {config : Config} {world : World W} {goodWorld : W → Prop}
  {contents : Contents} {start : Reference W}

def AsSeen (contents : Contents) (start : Reference W) (address : Address)
    (state : AccountState) : Prop :=
  MarkedAlike contents start.original address state
    (seenIn contents start.original start.journal.now address)

structure Quiet (contents : Contents) (start : Reference W) (copy : Copy) : Prop where
  logs : copy.logs = start.journal.now.logs
  known : ∀ address state, copy.accounts.lookup address = some state →
    AsSeen contents start address state
  unknown : ∀ address, copy.accounts.lookup address = none →
    start.journal.now.accounts.lookup address = none

theorem asSeen_stable (address : Address) (state other : AccountState)
    (kept : AsSeen contents start address state) (account : other.account = state.account)
    (destructed : other.destructed = state.destructed)
    (transient : other.transientStorage = state.transientStorage)
    (storage : other.storage = state.storage) : AsSeen contents start address other where
  account := account.trans kept.account
  destructed := destructed.trans kept.destructed
  transient := transient.trans kept.transient
  slots := by
    intro key
    rw [← kept.slots key]
    unfold slotIn
    rw [account, storage]

theorem Grown.asSeen {settled : Address → Prop} {now : Originals}
    (grown : Grown contents settled start.original now) (known : settled address)
    (unknown : start.journal.now.accounts.lookup address = none) :
    AsSeen contents start address (origin contents now address) := by
  have base : seenIn contents start.original start.journal.now address =
      origin contents start.original address := by rw [seenIn, unknown, Option.getD_none]
  unfold AsSeen
  rw [base]
  refine ⟨grown.account address, ?_, ?_, fun key => ?_⟩
  · obtain ⟨cache, same, _⟩ := grown address
    rw [same]
  · obtain ⟨cache, same, _⟩ := grown address
    rw [same]
  · exact (grown.slotIn_eq known _ key).symm.trans (grown.slotIn_origin_eq known key)

theorem Quiet.write {journal : CopyJournal} (quiet : Quiet contents start journal.now)
    {state : AccountState} (kept : AsSeen contents start address state) :
    Quiet contents start (journal.write address state).now where
  logs := quiet.logs
  known := by
    intro other found there
    grind [CopyJournal.write, lookup_insert_ite, quiet.known other found]
  unknown := by
    intro other missing
    grind [CopyJournal.write, lookup_insert_ite, quiet.unknown other]

abbrev Calm (goodWorld : W → Prop) (contents : Contents) (start : Reference W) :
    List Copy → Reference W → Prop :=
  Within (Quiet contents start) (fun code => code = start.code) goodWorld contents (fun _ => True)
    start.original

section

variable (shows : world.Shows goodWorld contents)

include shows

theorem honours_marking (saved : List Copy) : Program.Honours
      (marking (AsSeen contents start)
        fun address => start.journal.now.accounts.lookup address = none)
      (Calm goodWorld contents start saved) (StateOver.handler handler world) := by
  intro action state answer after allowed calm ran
  obtain ⟨frames, quiet, code, remembering⟩ := calm
  cases action with
  | original address =>
    obtain ⟨kept, same, read⟩ := remembering.readOriginal shows ran
    refine ⟨fun unknown => ?_, same.1 ▸ frames, same.1 ▸ quiet, same.2.trans code, kept⟩
    rw [read]
    exact kept.grown.asSeen trivial unknown
  | journal action =>
    cases action with
    | recent address =>
      cases ran
      exact ⟨⟨quiet.known address, quiet.unknown address⟩, frames, quiet, code, remembering⟩
    | current address fallback =>
      cases ran
      have entered : AsSeen contents start address
          ((state.journal.now.accounts.lookup address).getD fallback) := by
        cases found : state.journal.now.accounts.lookup address with
        | none => exact allowed
        | some known => exact quiet.known address known found
      exact ⟨entered,
        frames, quiet.write entered, code, remembering.grown, remembering.good⟩
    | modify address change =>
      simp only [StateOver.handler, handler] at ran
      cases found : state.journal.now.accounts.lookup address with
      | none =>
        rw [found] at ran
        cases ran
      | some known =>
        rw [found] at ran
        cases ran
        have changed := allowed known (quiet.known address known found)
        exact ⟨trivial,
          frames, quiet.write changed, code, remembering.grown, remembering.good⟩
    | _ => exact allowed.elim
  | _ => exact allowed.elim

theorem calm_keeps (saved : List Copy) (op : Op) (calm : op.Calm) :
    KeepsOp (StateOver.interface config handler world)
      (Calm goodWorld contents start saved) op := by
  intro state answer after holds ran
  have marked : op.Mark → Calm goodWorld contents start saved after := fun mark =>
    ((marks_method asSeen_stable op mark).run (honours_marking shows saved) holds ran).2
  have queried : op.Query → Calm goodWorld contents start saved after := by
    intro query
    obtain ⟨kept, journal, code⟩ := query_remembers shows query holds.remembering ran
    exact ⟨journal ▸ holds.saved, journal ▸ holds.good, code.trans holds.codes, kept⟩
  cases op <;> first | exact marked trivial | exact queried calm

theorem calm_framed : Framed (StateOver.interface config handler world)
      (Calm goodWorld contents start) (fun _ => False) False where
  calm := calm_keeps shows
  change := False.elim
  create := False.elim
  deploy := False.elim
  still := within_still shows
  push := within_push
  accept := within_accept
  reject := within_reject

end

theorem quiet_start : Quiet contents start start.journal.now where
  logs := rfl
  known := by
    intro address state found
    unfold AsSeen seenIn
    rw [found, Option.getD_some]
    exact ⟨rfl, rfl, rfl, fun _ => rfl⟩
  unknown _ missing := missing

theorem calm_start (frames : start.journal.saved = saved)
    (good : goodWorld start.world) : Calm goodWorld contents start saved start :=
  ⟨frames, quiet_start, rfl, .refl _, good⟩

theorem Within.asSeen {state : Reference W}
    (calm : Calm goodWorld contents start saved state) (address : Address) :
    AsSeen contents start address (seenIn contents state.original state.journal.now address) := by
  unfold seenIn
  cases found : state.journal.now.accounts.lookup address with
  | some known => exact calm.good.known address known found
  | none => exact calm.remembering.grown.asSeen trivial (calm.good.unknown address found)

end Copies

section Messages

variable {machine : Machine} {msg : Message}

theorem static_call_calm {W : Type} {world : World W} {goodWorld : W → Prop}
    {contents : Contents} (shows : world.Shows goodWorld contents)
    (static : msg.flags.static = true) (call : msg.kind ≠ .create ∧ msg.kind ≠ .create2)
    {start after : Reference W} (good : goodWorld start.world)
    (ran : Program.run (StateOver.interface machine.config handler world)
      (machine.executeCallMessage (machine.host (1024 - msg.depth)) msg) start =
        .ok (.ok result, after)) :
    Calm goodWorld contents start start.journal.saved after :=
  (Machine.executeCallMessage_holds (calm_framed shows) (calm_start rfl good)
    (fun _ => ⟨static, call⟩) (Machine.host_answers (calm_framed shows) msg.depth)
    start _ after rfl ran).1

theorem executeCallMessage_kind {σ : Type} {handler : Program.Handler operations σ}
    {message : Message → Run Result} {state after : σ}
    (ran : Program.run handler (machine.executeCallMessage message msg) state =
      .ok (.ok result, after)) : msg.kind ≠ .create ∧ msg.kind ≠ .create2 := by
  by_contra creates
  have kind : msg.kind = .create ∨ msg.kind = .create2 := by
    by_contra other
    exact creates (not_or.mp other)
  have refused : machine.executeCallMessage message msg =
      .done (.error (.assertion "msg.kind")) := by
    rcases kind with kind | kind <;> simp [Machine.executeCallMessage, kind] <;> rfl
  rw [refused] at ran
  cases ran

end Messages

/-- A static call changes nothing but marks, whatever its code and the code that it calls do,
and however it ends. -/
theorem static_call_changes_nothing (machine : Machine) (db : Db) (msg : Message)
    (static : msg.flags.static = true) (before after : TxState BlockState)
    (sound : ∃ copies, Refines before.journal copies) (result : Result) (ran : Program.run
      (StateOver.interface machine.config VersionJournal.handler (BlockState.world db))
      (machine.executeCallMessage (machine.host (1024 - msg.depth)) msg) before =
        .ok (.ok result, after)) :
    before.Unchanged db after := by
  obtain ⟨copies, refines⟩ := sound
  obtain ⟨image, copied, related⟩ := run_on_copies refines ran
  have start : StateOver.OverJournals Refines before
      ({ before with journal := copies } : Reference BlockState) := ⟨rfl, rfl, rfl, refines⟩
  have calm := static_call_calm (BlockState.world_shows db before.world) static
    (executeCallMessage_kind ran) rfl copied
  have contents : BlockState.contents db after.world = BlockState.contents db before.world := by
    rw [related.2.2.1]
    exact calm.remembering.good
  have seen : ∀ address, MarkedAlike (BlockState.contents db before.world) before.original address
      (after.seen db address) (before.seen db address) := by
    intro address
    rw [TxState.seen_eq related, TxState.seen_eq start, contents]
    exact calm.asSeen address
  refine ⟨fun address => (seen address).account, fun address => (seen address).destructed,
    fun address key => ?_, fun address key => ?_, ?_, ?_⟩
  · unfold TxState.slot
    rw [contents, related.1, calm.remembering.grown.slotIn_eq trivial]
    exact (seen address).slots key
  · unfold AccountState.getTransientStorage
    rw [(seen address).transient]
  · rw [related.2.2.2.logs, refines.logs]
    exact calm.good.logs
  · exact related.2.1.trans calm.codes

def idleContract : Method.Precompiled where
  run _ _ _ := .done (.ok (.ok []))
  uses _ _ _ := trivial

section

variable (program : Message → Program instructions Exit)

def sampleMachine : Machine where
  traits := .evm .cancun
  config :=
    { incarnation := ⟨1, 1⟩, cancun := true, mip8 := false, keccak := List.length
      codeOf := fun hash => if hash = 77 then some [1] else none }
  code msg _ := program msg
  ethPrecompile _ := none
  staking _ := (idleContract, 0)
  reserveBalance _ := (idleContract, 0)
  createContractAddress sender nonce := 1000 * sender + nonce
  create2ContractAddress sender salt hash := 1000000 * sender + 1000 * salt + hash
  revertTransaction _ := ⟨.done false, trivial⟩
  blockHash _ := ⟨.done 0, trivial⟩
  transferEvent sender to_ value := ⟨[], [sender, to_, value], 0⟩
  logNativeTransfers := false

def callDb : Db where
  readAccount address :=
    if address < 10 then some { balance := 9, codeHash := 77, nonce := 1 } else none
  readStorage _ _ key := key + 1

/-- The account 5 calls the account 6, which reads a slot and writes it. -/
def writesBelow (msg : Message) : Program instructions Exit :=
  if msg.recipient = 5 then
    .step (.call 0 ⟨50000, 6, [], some 0, 0⟩) fun answer =>
      .done ⟨if answer.1 then .success else .revert, .ok answer.2⟩
  else
    .step (.sload 1) fun value => .step (.sstore 1 (value + 1) 0) fun _ =>
      .done ⟨.success, .ok []⟩

def sampleCall (flags : Flags) : Message where
  kind := .call
  flags := flags
  depth := 0
  gas := 100000
  recipient := 5
  sender := 1
  input := []
  value := 0
  create2Salt := 0
  codeAddress := 5

def callRun (msg : Message) : Except String (Except Failure Result × TxState BlockState) :=
  Program.run (StateOver.interface (sampleMachine program).config VersionJournal.handler
    (BlockState.world callDb))
    ((sampleMachine program).executeCallMessage ((sampleMachine program).host (1024 - msg.depth))
      msg) (.fresh {} {})

def callStatus (msg : Message) : Option StatusCode :=
  match callRun program msg with
  | .ok (.ok result, _) => some result.status
  | _ => none

end

theorem callStatus_ran {program : Message → Program instructions Exit} {msg : Message}
    {status : StatusCode} (found : callStatus program msg = some status) :
    ∃ result after, callRun program msg = .ok (.ok result, after) ∧ result.status = status := by
  unfold callStatus at found
  split at found
  · next result after ran => exact ⟨result, after, ran, Option.some.inj found⟩
  · cases found

example : callStatus writesBelow (sampleCall {}) = some .success := by decide +kernel

theorem static_call_writes_below : ∃ (result : Result) (after : TxState BlockState),
    callRun writesBelow (sampleCall { static := true }) = .ok (.ok result, after) ∧
    result.status = .revert ∧ TxState.Unchanged callDb (.fresh {} {}) after := by
  have found : callStatus writesBelow (sampleCall { static := true }) = some .revert := by
    decide +kernel
  obtain ⟨result, after, ran, status⟩ := callStatus_ran found
  exact ⟨result, after, ran, status,
    static_call_changes_nothing (sampleMachine writesBelow) callDb
      (sampleCall { static := true }) rfl (.fresh {} {}) after ⟨{}, refines_start⟩ result ran⟩

end MonadChain.Execution
