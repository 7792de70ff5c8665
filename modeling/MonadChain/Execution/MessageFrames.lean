import MonadChain.Execution.Observation

/-!
The frames of messages. Whatever a message does, it closes the frame that it has opened, and a
message that fails restores the copy. This is proved for every invariant that the operations keep:
all operations of messages, or only those of static ones.
-/

namespace MonadChain.Execution

def Op.Calm : Op → Prop
  | .touch _ | .accessAccount _ | .accessStorage _ _ => True
  | op => op.Query

def Op.Change : Op → Prop
  | .addToBalance _ _ | .subtractFromBalance _ _ => True
  | .setNonce _ nonce => nonce ≠ 0
  | op => op.Write

variable {op : Op}

theorem Op.Query.calm (query : op.Query) : op.Calm := by
  cases op <;> first | exact query | exact query.elim

theorem Op.Access.calm (access : op.Access) : op.Calm := by
  cases op <;> first | exact access.elim | trivial

theorem Op.Write.change (write : op.Write) : op.Change := by
  cases op <;> first | exact write | exact write.elim

theorem Op.Precompile.calm_or_change (precompile : op.Precompile) : op.Calm ∨ op.Change := by
  cases op <;> first | exact .inr trivial | exact .inl precompile | exact precompile.elim

/-- An invariant of the states below which the saved copies lie. All operations of messages
keep it; without `dynamic` only those of static messages do. A contract is made at a fresh
address only. -/
structure Framed {W : Type} (handler : Program.Handler operations (Reference W))
    (inv : List Copy → Reference W → Prop) (fresh : Address → Prop) (dynamic : Prop) : Prop where
  calm : ∀ saved op, op.Calm → KeepsOp handler (inv saved) op
  change : dynamic → ∀ saved op, op.Change → KeepsOp handler (inv saved) op
  create : dynamic → ∀ saved address, (Run.op (.createContract address)).Holds handler (inv saved)
    fun _ state => fresh address ∧ inv saved state
  deploy : dynamic → ∀ saved address code, fresh address →
    KeepsOp handler (inv saved) (.setCode address code)
  still : ∀ saved op, op.Query → ∀ state answer after, inv saved state →
    handler op state = .ok (answer, after) → after.journal = state.journal
  push : ∀ saved before, inv saved before →
    (Run.op .push).Holds handler (fun state => state = before)
      fun _ => inv (before.journal.now :: saved)
  accept : ∀ saved copy, (Run.op .popAccept).Holds handler (inv (copy :: saved))
    fun _ => inv saved
  reject : ∀ saved before, inv saved before →
    (Run.op .popReject).Holds handler (inv (before.journal.now :: saved))
      fun _ state => state.journal.now = before.journal.now ∧ inv saved state

/-- The copy is restored, and at most the account of ripemd is touched after that. -/
def Rejected {W : Type} (handler : Program.Handler operations (Reference W))
    (inv : List Copy → Reference W → Prop) (saved : List Copy) (copy : Copy)
    (state : Reference W) : Prop :=
  ∃ restored, inv saved restored ∧ restored.journal.now = copy ∧
    (state = restored ∨ handler (.touch ripemdAddress) restored = .ok ((), state))

namespace Machine

variable {machine : Machine} {W : Type} {handler : Program.Handler operations (Reference W)}
  {inv : List Copy → Reference W → Prop} {fresh : Address → Prop} {dynamic : Prop}
  {saved : List Copy} {message : Message → Run Result} {msg : Message}

def Fits (dynamic : Prop) (msg : Message) : Prop :=
  ¬ dynamic → msg.flags.static = true ∧ msg.kind ≠ .create ∧ msg.kind ≠ .create2

/-- The messages that the code of a message may send keep the invariant, whatever frames are
open. -/
def Answers (handler : Program.Handler operations (Reference W))
    (inv : List Copy → Reference W → Prop) (dynamic : Prop) (depth : Nat)
    (message : Message → Run Result) : Prop :=
  ∀ saved msg, Fits dynamic msg → msg.depth = depth + 1 → depth < 1024 →
    (message msg).Holds handler (inv saved) fun _ => inv saved

section Steps

variable (framed : Framed handler inv fresh dynamic) {result : Result} {before : Reference W}

include framed

theorem rejected_keeps {copy : Copy} {state : Reference W}
    (rejected : Rejected handler inv saved copy state) : inv saved state := by
  obtain ⟨restored, kept, _, rfl | touched⟩ := rejected
  · exact kept
  · exact framed.calm saved (.touch ripemdAddress) trivial restored () state kept touched

theorem query_holds (op : Op) (query : op.Query) :
    (Run.op op).Holds handler (inv saved) fun _ => inv saved :=
  .keeps (framed.calm saved op query.calm)

theorem emitNativeTransferEvent_holds (changes : dynamic) (sender to_ : Address) (value : Nat) :
    (machine.emitNativeTransferEvent sender to_ value).Holds handler (inv saved)
      fun _ => inv saved :=
  .keeps_when fun _ => .keeps (framed.change changes saved (.storeLog _) trivial)

theorem transferBalances_holds (changes : dynamic) (to_ : Address) :
    (machine.transferBalances msg to_).Holds handler (inv saved) fun _ => inv saved := by
  refine Run.Holds.bind (.keeps (framed.change changes saved (.subtractFromBalance _ _) trivial))
    fun taken => Run.Holds.bind (.orThrow taken) fun _ => ?_
  refine Run.Holds.bind (.keeps (framed.change changes saved (.addToBalance _ _) trivial))
    fun given => Run.Holds.bind (.orThrow given) fun _ => ?_
  exact emitNativeTransferEvent_holds framed changes _ _ _

section

variable (fits : Fits dynamic msg) (answers : Answers handler inv dynamic msg.depth message)

include fits answers

theorem environment_keeps : Environment.Keeps handler (inv saved) message
      { flags := msg.flags, depth := msg.depth, recipient := msg.recipient, sender := msg.sender,
        value := msg.value, create2Salt := msg.create2Salt } where
  query op query := framed.calm saved op query.calm
  access op access := framed.calm saved op access.calm
  write := by
    intro plain op write
    by_cases changes : dynamic
    · exact framed.change changes saved op write.change
    · exact absurd ((fits changes).1.symm.trans plain) (by decide)
  send inner sends :=
    answers saved inner (fun static => sends.static (fits static).1) sends.deeper sends.bounded

theorem vmExecute_holds (code : Code) :
    (machine.vmExecute message msg code).Holds handler (inv saved) fun result state =>
      Proper result ∧ inv saved state :=
  interpret_holds (environment_keeps framed fits answers) _ _

end

omit framed in
theorem proper_checkCallEthPrecompile (found : machine.checkCallEthPrecompile msg = some result) :
    Proper result := by
  obtain ⟨⟨cost, execute⟩, _, rfl⟩ := Option.map_eq_some_iff.mp found
  dsimp only
  split
  · exact ⟨fun failed => absurd rfl failed, fun failed => absurd rfl failed⟩
  split
  · exact ⟨fun _ => rfl, fun _ _ => rfl⟩
  split
  · exact ⟨fun _ => rfl, fun _ _ => rfl⟩
  split
  · exact ⟨fun _ => rfl, fun _ _ => rfl⟩
  · exact ⟨fun failed => absurd rfl failed, fun failed => absurd rfl failed⟩

theorem runPrecompiled_holds (changes : dynamic) (method : Method.Precompiled) (cost : Nat) :
    (runPrecompiled method cost msg).Holds handler (inv saved) fun result state =>
      Proper result ∧ inv saved state := by
  have keeps : ∀ op : Op, op.Precompile → KeepsOp handler (inv saved) op := by
    intro op precompile
    rcases precompile.calm_or_change with calm | change
    · exact framed.calm saved op calm
    · exact framed.change changes saved op change
  refine Run.Holds.bind (.lift keeps _ (method.uses _ _ _)) fun ran => ?_
  refine Run.Holds.bind (.orThrow ran) fun outcome => ?_
  cases outcome with
  | ok output =>
    exact .pure fun _ kept =>
      ⟨⟨fun failed => absurd rfl failed, fun failed => absurd rfl failed⟩, kept⟩
  | error text => exact .pure fun _ kept => ⟨⟨fun _ => rfl, fun _ _ => rfl⟩, kept⟩

omit framed in
theorem proper_of_failed {status : StatusCode} {output : List UInt8} :
    Proper { status := status, gasLeft := 0, gasRefund := 0, output := output } :=
  ⟨fun _ => rfl, fun _ _ => rfl⟩

section

variable (fits : Fits dynamic msg)

include fits

theorem checkCallMonadPrecompile_holds
    (dispatch : List UInt8 → Method.Precompiled × Nat) (contract : Address) :
    (checkCallMonadPrecompile dispatch contract msg).Holds handler (inv saved)
      fun answer state => (∀ result, answer = some result → Proper result) ∧ inv saved state := by
  refine .ite (fun _ => .pure fun _ kept => ⟨nofun, kept⟩) fun _ => ?_
  refine .ite (fun _ => .pure fun _ kept => ⟨?_, kept⟩) fun plain => ?_
  · rintro result ⟨⟩
    exact proper_of_failed
  refine .ite (fun _ => .pure fun _ kept => ⟨?_, kept⟩) fun _ => ?_
  · rintro result ⟨⟩
    exact proper_of_failed
  have changes : dynamic := by
    by_contra static
    have flagged := (fits static).1
    rw [not_not.mp (not_or.mp plain).2] at flagged
    cases flagged
  refine (runPrecompiled_holds framed changes _ _).bind fun result => .pure fun _ kept =>
    ⟨?_, kept.2⟩
  rintro found ⟨⟩
  exact kept.1

theorem checkCallFrom_holds (revision : MonadRevision)
    (dispatch : List UInt8 → Method.Precompiled × Nat) (contract : Address) :
    (machine.checkCallFrom revision dispatch contract msg).Holds handler (inv saved)
      fun answer state => (∀ result, answer = some result → Proper result) ∧ inv saved state :=
  .ite (fun _ => checkCallMonadPrecompile_holds framed fits dispatch contract)
    fun _ => .pure fun _ kept => ⟨nofun, kept⟩

theorem checkCallMonadPrecompiles_holds :
    (machine.checkCallMonadPrecompiles msg).Holds handler (inv saved)
      fun answer state => (∀ result, answer = some result → Proper result) ∧ inv saved state := by
  refine (checkCallFrom_holds framed fits _ _ _).bind fun staked => .assume fun proper => ?_
  cases staked with
  | some result => exact .pure fun _ kept => ⟨proper, kept⟩
  | none => exact checkCallFrom_holds framed fits _ _ _

theorem checkCallPrecompile_holds :
    (machine.checkCallPrecompile msg).Holds handler (inv saved)
      fun answer state => (∀ result, answer = some result → Proper result) ∧ inv saved state := by
  unfold checkCallPrecompile
  cases found : machine.checkCallEthPrecompile msg with
  | some result =>
    refine .pure fun _ kept => ⟨?_, kept⟩
    rintro other ⟨⟩
    exact proper_checkCallEthPrecompile found
  | none => exact checkCallMonadPrecompiles_holds framed fits

theorem runCallee_holds (answers : Answers handler inv dynamic msg.depth message) :
    (machine.runCallee message msg).Holds handler (inv saved) fun result state =>
      Proper result ∧ inv saved state := by
  refine (checkCallPrecompile_holds framed fits).bind fun answer => .assume fun proper => ?_
  cases answer with
  | some result => exact .pure fun _ kept => ⟨proper result rfl, kept⟩
  | none =>
    refine (query_holds framed (.getCodeHash msg.codeAddress) trivial).bind fun hash => ?_
    refine (query_holds framed (.readCode hash) trivial).bind fun code => ?_
    exact vmExecute_holds framed fits answers code

end

theorem reserveViolated_holds :
    (machine.reserveViolated msg).Holds handler (inv saved) fun _ => inv saved :=
  .ite (fun _ => .lift (fun op query => framed.calm saved op query.calm) _
    (machine.revertTransaction msg.sender).uses) fun _ => .pure fun _ kept => kept

def Settles (result : Result) : Prop :=
  (result.status = .success ∨ result.gasRefund = 0) ∧
  (result.status = .success ∨ result.status = .revert ∨
    result.status = .monadReserveBalanceViolation ∨ result.gasLeft = 0)

omit framed in
theorem Proper.settles (proper : Proper result) : Settles result := by
  refine ⟨or_iff_not_imp_left.mpr proper.refund, ?_⟩
  by_cases success : result.status = .success
  · exact .inl success
  · by_cases revert : result.status = .revert
    · exact .inr (.inl revert)
    · exact .inr (.inr (.inr (proper.gas success revert)))

theorem callBody_holds (fits : Fits dynamic msg)
    (answers : Answers handler inv dynamic msg.depth message) :
    (machine.callBody message msg).Holds handler (inv saved) fun result state =>
      Settles result ∧ inv saved state := by
  refine (runCallee_holds framed fits answers).bind fun result => .assume fun proper => ?_
  refine (reserveViolated_holds framed).bind fun violated => ?_
  exact .ite (fun _ => .pure fun _ kept => ⟨⟨.inr rfl, .inr (.inr (.inl rfl))⟩, kept⟩)
    fun _ => .pure fun _ kept => ⟨proper.settles, kept⟩

section

variable (opened : inv saved before)

include opened

theorem rejectFrame_holds : rejectFrame.Holds handler (inv (before.journal.now :: saved))
      fun _ => Rejected handler inv saved before.journal.now := by
  refine (query_holds framed (.isTouched ripemdAddress) trivial).bind fun touched => ?_
  refine (framed.reject saved before opened).bind fun _ => .when (fun _ => .op ?_) fun _ => ?_
  · intro state answer after restored ran
    exact ⟨state, restored.2, restored.1, .inr ran⟩
  · intro state restored
    exact ⟨state, restored.2, restored.1, .inl rfl⟩

theorem postCall_holds (settles : Settles result) :
    (postCall result).Holds handler (inv (before.journal.now :: saved)) fun _ state =>
      inv saved state ∧ (result.status ≠ .success →
        Rejected handler inv saved before.journal.now state) := by
  refine .check_bind (.inl (by simpa using settles.1)) fun _ => ?_
  refine .check_bind (.inl (by simpa using settles.2)) fun _ => ?_
  refine .ite (fun success => ?_) fun failed => ?_
  · exact (framed.accept saved _).weaken fun _ _ kept => ⟨kept, fun failed => absurd success failed⟩
  · exact (rejectFrame_holds framed opened).weaken fun _ _ rejected =>
      ⟨rejected_keeps framed rejected, fun _ => rejected⟩

theorem moveValue_holds (fits : Fits dynamic msg) :
    (machine.moveValue msg).Holds handler (inv (before.journal.now :: saved))
      fun answer state =>
        (answer = none ∧ inv (before.journal.now :: saved) state) ∨
        ∃ result, answer = some result ∧ result.gasRefund = 0 ∧ inv saved state ∧
          state.journal.now = before.journal.now := by
  refine .ite (fun _ => .pure fun _ kept => .inl ⟨rfl, kept⟩) fun _ => ?_
  refine (query_holds framed (.recordBalanceConstraintForDebit _ _) trivial).bind fun enough => ?_
  refine .ite (fun _ => Run.Holds.bind (.keeps_when fun plain => ?_)
    fun _ => .pure fun _ kept => .inl ⟨rfl, kept⟩) fun _ => ?_
  · refine transferBalances_holds framed ?_ msg.recipient
    by_contra static
    rw [(fits static).1] at plain
    cases plain
  · exact (framed.reject saved before opened).bind fun _ => .pure fun _ restored =>
      .inr ⟨_, rfl, rfl, restored.2, restored.1⟩

theorem preCall_holds (fits : Fits dynamic msg) :
    (machine.preCall msg).Holds handler (fun state => state = before) fun answer state =>
      (answer = none ∧ inv (before.journal.now :: saved) state) ∨
      ∃ result, answer = some result ∧ result.gasRefund = 0 ∧ inv saved state ∧
        state.journal.now = before.journal.now := by
  refine (framed.push saved before opened).bind fun _ => ?_
  refine (moveValue_holds framed opened fits).bind fun answer => ?_
  cases answer with
  | some result => exact .pure fun _ ended => ended
  | none =>
    refine Run.Holds.strengthen
      (?_ : Run.Holds handler (inv (before.journal.now :: saved)) _ _) ?_
    · refine .check_bind (.inr trivial) fun _ => Run.Holds.bind (.keeps_when fun _ => ?_)
        fun _ => .pure fun _ kept => .inl ⟨rfl, kept⟩
      exact .keeps (framed.calm _ (.touch msg.recipient) trivial)
    · rintro state (⟨_, kept⟩ | ⟨result, ended, _⟩)
      · exact kept
      · cases ended

theorem executeCallMessage_holds (fits : Fits dynamic msg)
    (answers : Answers handler inv dynamic msg.depth message) :
    (machine.executeCallMessage message msg).Holds handler (fun state => state = before)
      fun result state => inv saved state ∧ (result.status ≠ .success →
        result.gasRefund = 0 ∧ Rejected handler inv saved before.journal.now state) := by
  refine .check_bind (.inr trivial) fun _ => ?_
  refine (preCall_holds framed opened fits).bind fun answer => ?_
  cases answer with
  | some result =>
    refine .pure fun state ended => ?_
    rcases ended with ⟨ended, _⟩ | ⟨found, ⟨⟩, refund, kept, now⟩
    · cases ended
    · exact ⟨kept, fun _ => ⟨refund, state, kept, now, .inl rfl⟩⟩
  | none =>
    refine Run.Holds.strengthen
      (?_ : Run.Holds handler (inv (before.journal.now :: saved)) _ _) ?_
    · refine (callBody_holds framed fits answers).bind fun result => .assume fun settles => ?_
      refine (postCall_holds framed opened settles).bind fun _ => .pure fun _ closed => ?_
      exact ⟨closed.1, fun failed => ⟨settles.1.resolve_left failed, closed.2 failed⟩⟩
    · rintro state (⟨_, kept⟩ | ⟨result, ended, _⟩)
      · exact kept
      · cases ended

end

theorem deployContractCode_holds (changes : dynamic) {address : Address} (new : fresh address)
    (success : result.status = .success) :
    (machine.deployContractCode address result).Holds handler (inv saved) fun _ => inv saved := by
  refine .check_bind (.inl (by simpa using success)) fun _ => ?_
  refine .ite (fun _ => .pure fun _ kept => kept) fun _ => ?_
  refine .ite (fun _ => .pure fun _ kept => kept) fun _ => ?_
  refine .ite (fun _ => .pure fun _ kept => kept) fun _ => ?_
  exact Run.Holds.bind (.keeps (framed.deploy changes saved address _ new))
    fun _ => .pure fun _ kept => kept

theorem runInitcode_holds (changes : dynamic) {address : Address} (new : fresh address)
    (answers : Answers handler inv dynamic msg.depth message) :
    (machine.runInitcode message msg address).Holds handler (inv saved) fun _ => inv saved := by
  have inner : Answers handler inv dynamic (initcodeMessage msg address).depth message := answers
  have ran : (machine.vmExecute message (initcodeMessage msg address) msg.input).Holds handler
      (inv saved) fun result state => Proper result ∧ inv saved state :=
    vmExecute_holds framed (fun static => absurd changes static) inner msg.input
  refine ran.bind fun result => .assume fun _ => ?_
  refine .ite (fun success => ?_) fun _ => .pure fun _ kept => kept
  exact deployContractCode_holds framed changes new success

theorem createBody_holds (changes : dynamic) (address : Address)
    (answers : Answers handler inv dynamic msg.depth message) :
    (machine.createBody message msg address).Holds handler (inv saved) fun _ => inv saved := by
  refine (framed.create changes saved address).bind fun _ => .assume fun new => ?_
  refine Run.Holds.bind (.keeps (framed.change changes saved (.setNonce address 1)
    Nat.one_ne_zero)) fun _ => ?_
  refine (transferBalances_holds framed changes address).bind fun _ => ?_
  refine (runInitcode_holds framed changes new answers).bind fun result => ?_
  refine (reserveViolated_holds framed).bind fun violated => ?_
  exact .ite (fun _ => .pure fun _ kept => kept) fun _ => .pure fun _ kept => kept

theorem finishCreate_holds (opened : inv saved before) (result : Result) :
    (finishCreate result).Holds handler (inv (before.journal.now :: saved))
      fun returned state => inv saved state ∧ (returned.status ≠ .success →
        returned.gasRefund = 0 ∧ Rejected handler inv saved before.journal.now state) := by
  refine .ite (fun success => ?_) fun failed => ?_
  · exact (framed.accept saved _).bind fun _ => .pure fun _ kept =>
      ⟨kept, fun failed => absurd success failed⟩
  · exact (rejectFrame_holds framed opened).bind fun _ => .pure fun _ rejected =>
      ⟨rejected_keeps framed rejected, fun _ => ⟨rfl, rejected⟩⟩

theorem createIn_holds (opened : inv saved before) (changes : dynamic) (address : Address)
    (answers : Answers handler inv dynamic msg.depth message) :
    (machine.createIn message msg address).Holds handler (fun state => state = before)
      fun result state => inv saved state ∧ (result.status ≠ .success →
        result.gasRefund = 0 ∧ Rejected handler inv saved before.journal.now state) := by
  have asked : (Run.op (.accountHasCodeOrNonce address)).Holds handler
      (fun state => state = before)
      fun _ state => inv saved state ∧ state.journal.now = before.journal.now := by
    refine .op fun state answer after same ran => ?_
    subst same
    exact ⟨framed.calm saved (.accountHasCodeOrNonce address) trivial state answer after opened
        ran,
      congrArg _ (framed.still saved (.accountHasCodeOrNonce address) trivial _ _ _ opened ran)⟩
  refine asked.bind fun taken => .ite (fun _ => ?_) fun _ => ?_
  · exact .pure fun state kept => ⟨kept.1, fun _ => ⟨rfl, state, kept.1, kept.2, .inl rfl⟩⟩
  · refine .of_state fun middle kept => ?_
    rw [← kept.2]
    refine (framed.push saved middle kept.1).bind fun _ => ?_
    refine (createBody_holds framed changes address answers).bind fun result => ?_
    exact finishCreate_holds framed kept.1 result

theorem createAt_holds (changes : dynamic) (nonce : Nat)
    (answers : Answers handler inv dynamic msg.depth message) :
    (machine.createAt message msg nonce).Holds handler (inv saved) fun _ => inv saved := by
  refine Run.Holds.bind (.keeps (framed.change changes saved (.setNonce _ _)
    (Nat.succ_ne_zero nonce))) fun _ => ?_
  refine Run.Holds.bind (.keeps (framed.calm saved (.accessAccount _) trivial)) fun _ => ?_
  refine .of_state fun before opened => ?_
  exact (createIn_holds framed opened changes _ answers).weaken fun _ _ closed => closed.1

theorem refuseCreate_holds (changes : dynamic) :
    (machine.refuseCreate msg).Holds handler (inv saved) fun _ => inv saved := by
  refine Run.Holds.bind (.keeps_when fun _ => ?_) fun _ => .pure fun _ kept => kept
  refine (query_holds framed (.getNonce msg.sender) trivial).bind fun nonce => ?_
  refine .check_bind (.inr trivial) fun _ => ?_
  exact .keeps (framed.change changes saved (.setNonce _ _) (Nat.succ_ne_zero nonce))

theorem executeCreateMessage_holds (changes : dynamic)
    (answers : Answers handler inv dynamic msg.depth message) :
    (machine.executeCreateMessage message msg).Holds handler (inv saved) fun _ => inv saved := by
  refine .check_bind (.inr trivial) fun _ => ?_
  refine (query_holds framed (.recordBalanceConstraintForDebit _ _) trivial).bind fun enough => ?_
  refine .ite (fun _ => ?_) fun _ => refuseCreate_holds framed changes
  refine (query_holds framed (.getNonce msg.sender) trivial).bind fun nonce => ?_
  exact .ite (fun _ => .pure fun _ kept => kept)
    fun _ => createAt_holds framed changes nonce answers

/-- A message keeps the invariant, with all the messages that its code sends. The levels that
are left suffice for them. -/
theorem host_holds (levels : Nat) (saved : List Copy) (msg : Message) (fits : Fits dynamic msg)
    (bounded : msg.depth ≤ 1024) (enough : 1024 < levels + msg.depth) :
    (machine.host levels msg).Holds handler (inv saved) fun _ => inv saved := by
  induction levels generalizing saved msg with
  | zero => omega
  | succ levels ih =>
    have answers : Answers handler inv dynamic msg.depth (machine.host levels) := by
      intro saved inner fits deeper shallow
      exact ih saved inner fits (by omega) (by omega)
    refine .ite (fun creates => ?_) fun _ => .of_state fun before opened => ?_
    · have changes : dynamic := by
        by_contra static
        exact creates.elim (fits static).2.1 (fits static).2.2
      exact (executeCreateMessage_holds framed changes answers).bind fun _ =>
        .pure fun _ kept => kept
    · exact (executeCallMessage_holds framed opened fits answers).weaken
        fun _ _ closed => closed.1

theorem host_answers (depth : Nat) :
    Answers handler inv dynamic depth (machine.host (1024 - depth)) :=
  fun saved msg fits deeper shallow =>
    host_holds framed _ saved msg fits (by omega) (by omega)

end Steps

end Machine

section Within

variable {W : Type} {config : Config} {world : World W} {good : Copy → Prop}
  {codes : Map Hash Code → Prop} {goodWorld : W → Prop} {contents : Contents}
  {settled : Address → Prop} {start : Originals} (saved : List Copy)

/-- The frames below are the saved ones, the copy on top and the codes are good, and what is
remembered of the block state is what it shows. -/
structure Within (good : Copy → Prop) (codes : Map Hash Code → Prop) (goodWorld : W → Prop)
    (contents : Contents) (settled : Address → Prop) (start : Originals) (saved : List Copy)
    (state : Reference W) : Prop where
  saved : state.journal.saved = saved
  good : good state.journal.now
  codes : codes state.code
  remembering : Remembering goodWorld contents settled start state

theorem within_push (before : Reference W)
    (within : Within good codes goodWorld contents settled start saved before) :
    (Run.op .push).Holds (StateOver.interface config CopyJournal.handler world)
      (fun state => state = before)
      fun _ => Within good codes goodWorld contents settled start
        (before.journal.now :: saved) := by
  refine .op fun state answer after same ran => ?_
  subst same
  cases ran
  exact ⟨congrArg _ within.saved, within.good, within.codes, within.remembering.grown,
    within.remembering.good⟩

theorem within_accept (copy : Copy) :
    (Run.op .popAccept).Holds (StateOver.interface config CopyJournal.handler world)
      (Within good codes goodWorld contents settled start (copy :: saved))
      fun _ => Within good codes goodWorld contents settled start saved := by
  refine .op fun state answer after within ran => ?_
  obtain ⟨original, code, ⟨now, frames⟩, block⟩ := state
  obtain ⟨rfl, top, codes, remembering⟩ := within
  cases ran
  exact ⟨rfl, top, codes, remembering.grown, remembering.good⟩

theorem within_reject (before : Reference W)
    (within : Within good codes goodWorld contents settled start saved before) :
    (Run.op .popReject).Holds (StateOver.interface config CopyJournal.handler world)
      (Within good codes goodWorld contents settled start (before.journal.now :: saved))
      fun _ state => state.journal.now = before.journal.now ∧
        Within good codes goodWorld contents settled start saved state := by
  refine .op fun state answer after opened ran => ?_
  obtain ⟨original, code, ⟨now, frames⟩, block⟩ := state
  obtain ⟨rfl, top, codes, remembering⟩ := opened
  cases ran
  exact ⟨rfl, rfl, within.good, codes, remembering.grown, remembering.good⟩

theorem within_still (shows : world.Shows goodWorld contents) (saved : List Copy) (op : Op)
    (query : op.Query) (state : Reference W) (answer : op.Answer) (after : Reference W)
    (within : Within good codes goodWorld contents settled start saved state)
    (ran : StateOver.interface config CopyJournal.handler world op state = .ok (answer, after)) :
    after.journal = state.journal :=
  (query_remembers shows query within.remembering ran).2.1

end Within

end MonadChain.Execution
