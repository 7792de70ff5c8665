import MonadChain.Execution.Messages

/-!
Reasoning about what messages run. A triple says what holds of the state before and after a
computation that returns, and which failures a computation does not end with. An invariant that
the operations of the code keep is kept by everything the code runs.
-/

namespace MonadChain.Execution

/-- An assertion of other functions than `post_call` and `deploy_contract_code`, or an
exception. -/
def Failure.Foreign : Failure → Prop
  | .postCall | .deployContractCode | .depth => False
  | .assertion _ | .thrown _ => True

def Outcome {α : Type} (post : α → Prop) : Except Failure α → Prop
  | .ok value => post value
  | .error failure => failure.Foreign

section Triples

variable {σ α β : Type} {handler : Program.Handler operations σ} {pre inv : σ → Prop}

/-- From a state with the precondition, a run that ends returns with the postcondition or
ends with a foreign failure. -/
def Run.Holds (handler : Program.Handler operations σ) (pre : σ → Prop) (run : Run α)
    (post : α → σ → Prop) : Prop :=
  ∀ state outcome after, pre state → Program.run handler run state = .ok (outcome, after) →
    Outcome (fun value => post value after) outcome

def KeepsOp (handler : Program.Handler operations σ) (inv : σ → Prop) (op : Op) : Prop :=
  ∀ state answer after, inv state → handler op state = .ok (answer, after) → inv after

namespace Run

variable {post : α → σ → Prop} {mid : β → σ → Prop} {run : Run α} {condition : Bool}

theorem Holds.pure {value : α} (good : ∀ state, pre state → post value state) :
    Holds handler pre (Pure.pure value : Run α) post := by
  intro state outcome after start ran
  cases ran
  exact good state start

theorem Holds.fail {failure : Failure} (foreign : failure.Foreign) :
    Holds handler pre (Run.fail failure : Run α) post := by
  intro state outcome after start ran
  cases ran
  exact foreign

theorem Holds.bind {first : Run β} {next : β → Run α} (one : Holds handler pre first mid)
    (rest : ∀ value, Holds handler (mid value) (next value) post) :
    Holds handler pre (first >>= next) post := by
  intro state outcome after start ran
  obtain ⟨value, middle, done, last⟩ := Program.run_bind_ok first ran
  have kept := one state value middle start done
  cases value with
  | ok value => exact rest value middle outcome after kept last
  | error failure =>
    cases last
    exact kept

theorem Holds.weaken {other : α → σ → Prop} (holds : Holds handler pre run other)
    (weaker : ∀ value state, other value state → post value state) :
    Holds handler pre run post := by
  intro state outcome after start ran
  have good := holds state outcome after start ran
  cases outcome with
  | ok value => exact weaker value after good
  | error failure => exact good

theorem Holds.strengthen {other : σ → Prop} (holds : Holds handler other run post)
    (stronger : ∀ state, pre state → other state) : Holds handler pre run post :=
  fun state outcome after start => holds state outcome after (stronger state start)

theorem Holds.of_state
    (holds : ∀ before, pre before → Holds handler (fun state => state = before) run post) :
    Holds handler pre run post :=
  fun state outcome after start => holds state start state outcome after rfl

theorem Holds.assume {fact : Prop} (holds : fact → Holds handler pre run post) :
    Holds handler (fun state => fact ∧ pre state) run post :=
  fun state outcome after start => holds start.1 state outcome after start.2

theorem Holds.op {op : Op} {post : op.Answer → σ → Prop}
    (effect : ∀ state answer after, pre state → handler op state = .ok (answer, after) →
      post answer after) : Holds handler pre (Run.op op) post := by
  intro state outcome after start ran
  obtain ⟨answer, middle, done, rest⟩ := Program.run_step_ok ran
  cases rest
  exact effect state answer after start done

theorem Holds.keeps {op : Op} (keeps : KeepsOp handler inv op) :
    Holds handler inv (Run.op op) fun _ => inv := .op keeps

theorem Holds.ite {condition : Prop} [Decidable condition] {yes no : Run α}
    (taken : condition → Holds handler pre yes post)
    (other : ¬ condition → Holds handler pre no post) :
    Holds handler pre (if condition then yes else no) post := by
  split
  · next holds => exact taken holds
  · next fails => exact other fails

theorem Holds.check_bind {failure : Failure} {next : Unit → Run α}
    (good : condition = true ∨ failure.Foreign)
    (rest : condition = true → Holds handler pre (next ()) post) :
    Holds handler pre (Run.check failure condition >>= next) post := by
  cases condition with
  | true => exact rest rfl
  | false => exact .fail (good.resolve_left Bool.false_ne_true)

theorem Holds.orThrow (result : Except String α) :
    Holds handler inv (Run.orThrow result) fun _ => inv := by
  cases result with
  | ok value => exact .pure fun _ kept => kept
  | error reason => exact .fail trivial

theorem Holds.when {action : Run Unit} {post : Unit → σ → Prop}
    (taken : condition = true → Holds handler pre action post)
    (other : condition = false → ∀ state, pre state → post () state) :
    Holds handler pre (Run.when condition action) post := by
  cases condition with
  | true => exact taken rfl
  | false => exact .pure (other rfl)

theorem Holds.keeps_when {action : Run Unit}
    (taken : condition = true → Holds handler inv action fun _ => inv) :
    Holds handler inv (Run.when condition action) fun _ => inv :=
  .when taken fun _ _ kept => kept

theorem Holds.lift {allowed : Op → Prop} (keeps : ∀ op, allowed op → KeepsOp handler inv op)
    (program : Program operations α) (uses : program.Uses allowed) :
    Holds handler inv (Run.lift program) fun _ => inv := by
  induction program with
  | done value => exact .pure fun _ kept => kept
  | abort reason =>
    intro state outcome after start ran
    cases ran
  | step op next ih =>
    intro state outcome after start ran
    obtain ⟨answer, middle, done, rest⟩ := Program.run_step_ok ran
    exact ih answer (uses.2 answer) middle outcome after
      (keeps op uses.1 state answer middle start done) rest

end Run

def Runtime.Keeps (handler : Program.Handler operations σ) (inv : σ → Prop)
    (function : Runtime α) : Prop :=
  ∀ gas, (function gas).Holds handler inv fun _ => inv

namespace Runtime

theorem Keeps.pure (value : α) : Keeps handler inv (Pure.pure value : Runtime α) :=
  fun _ => .pure fun _ kept => kept

theorem Keeps.exit (code : ExitCode) : Keeps handler inv (Runtime.exit code : Runtime α) :=
  fun _ => .pure fun _ kept => kept

theorem Keeps.bind {first : Runtime β} {next : β → Runtime α} (one : Keeps handler inv first)
    (rest : ∀ value, Keeps handler inv (next value)) : Keeps handler inv (first >>= next) := by
  intro gas
  refine Run.Holds.bind (one gas) fun result => ?_
  obtain ⟨answer, left⟩ := result
  cases answer with
  | ok value => exact rest value left
  | error code => exact .pure fun _ kept => kept

theorem Keeps.run {program : Run α} (holds : program.Holds handler inv fun _ => inv) :
    Keeps handler inv (Runtime.run program) :=
  fun _ => Run.Holds.bind holds fun _ => .pure fun _ kept => kept

theorem Keeps.op {op : Op} (keeps : KeepsOp handler inv op) :
    Keeps handler inv (Runtime.op op) := .run (.keeps keeps)

theorem Keeps.ite {condition : Prop} [Decidable condition] {yes no : Runtime α}
    (taken : condition → Keeps handler inv yes) (other : ¬ condition → Keeps handler inv no) :
    Keeps handler inv (if condition then yes else no) := by
  split
  · next holds => exact taken holds
  · next fails => exact other fails

theorem Keeps.when {condition : Bool} {action : Runtime Unit}
    (keeps : condition = true → Keeps handler inv action) :
    Keeps handler inv (Runtime.when condition action) :=
  .ite keeps fun _ => .pure ()

theorem Keeps.exitIf_bind {condition : Bool} {code : ExitCode} {next : Unit → Runtime α}
    (rest : condition = false → Keeps handler inv (next ())) :
    Keeps handler inv (Runtime.exitIf condition code >>= next) := by
  cases condition with
  | true => exact fun _ => .pure fun _ kept => kept
  | false => exact rest rfl

theorem Keeps.exitIf (condition : Bool) (code : ExitCode) :
    Keeps handler inv (Runtime.exitIf condition code) :=
  .ite (fun _ => .exit code) fun _ => .pure ()

theorem Keeps.gasRemaining : Keeps handler inv Runtime.gasRemaining :=
  fun _ => .pure fun _ kept => kept

variable (amount : Int)

theorem Keeps.spend : Keeps handler inv (Runtime.spend amount) :=
  fun _ => .pure fun _ kept => kept

theorem Keeps.addRefund : Keeps handler inv (Runtime.addRefund amount) :=
  fun _ => .pure fun _ kept => kept

theorem Keeps.deductGas : Keeps handler inv (Runtime.deductGas amount) :=
  (Keeps.spend amount).bind fun _ => Keeps.gasRemaining.bind fun _ => .exitIf _ _

theorem Keeps.expandMemory (cost : Option Int) : Keeps handler inv (Runtime.expandMemory cost) := by
  cases cost with
  | none => exact .exit _
  | some cost => exact .deductGas cost

end Runtime

end Triples

def Op.Access : Op → Prop
  | .accessAccount _ | .accessStorage _ _ => True
  | _ => False

def Op.Write : Op → Prop
  | .setStorage _ _ _ | .updatePage _ _ _ | .setTransientStorage _ _ _ | .storeLog _
  | .selfdestruct _ _ => True
  | _ => False

structure Environment.Sends (env : Environment) (msg : Message) : Prop where
  deeper : msg.depth = env.depth + 1
  bounded : env.depth < 1024
  static : env.flags.static = true →
    msg.flags.static = true ∧ msg.kind ≠ .create ∧ msg.kind ≠ .create2

structure Environment.Keeps {σ : Type} (handler : Program.Handler operations σ) (inv : σ → Prop)
    (message : Message → Run Result) (env : Environment) : Prop where
  query : ∀ op : Op, op.Query → KeepsOp handler inv op
  access : ∀ op : Op, op.Access → KeepsOp handler inv op
  write : env.flags.static = false → ∀ op : Op, op.Write → KeepsOp handler inv op
  send : ∀ msg, env.Sends msg → (message msg).Holds handler inv fun _ => inv

namespace Machine

variable {machine : Machine} {σ : Type} {handler : Program.Handler operations σ}
  {inv : σ → Prop} {message : Message → Run Result} {env : Environment}

section Instructions

open MonadChain.Execution.Runtime (Keeps)

variable (keeps : env.Keeps handler inv message) (address : Address)

include keeps

theorem keeps_query (op : Op) (query : op.Query) : Keeps handler inv (Runtime.op op) :=
  .op (keeps.query op query)

theorem keeps_write (dynamic : env.flags.static = false) (op : Op) (write : op.Write) :
    Keeps handler inv (Runtime.op op) :=
  .op (keeps.write dynamic op write)

theorem keeps_accessAccount : Keeps handler inv (machine.accessAccount address) :=
  .ite (fun _ => .pure _) fun _ => .op (keeps.access (.accessAccount address) trivial)

theorem keeps_accessCost (extra : Int) : Keeps handler inv (machine.accessCost address extra) :=
  (keeps_accessAccount keeps address).bind fun _ => .when fun _ => .deductGas _

theorem keeps_accessStorageCost (key : Key) (extra : Int) :
    Keeps handler inv (machine.accessStorageCost env key extra) :=
  (Keeps.op (keeps.access (.accessStorage env.recipient key) trivial)).bind fun _ =>
    .when fun _ => .deductGas _

theorem keeps_sstore (key : Key) (value : Value) (remaining : Int) :
    Keeps handler inv (machine.sstore env key value remaining) := by
  refine .exitIf_bind fun dynamic => Keeps.gasRemaining.bind fun left => ?_
  have store := keeps_write keeps dynamic (.setStorage env.recipient key value) trivial
  refine .exitIf_bind fun _ => .ite (fun _ => ?_) fun _ => ?_
  · refine (keeps_accessStorageCost keeps key _).bind fun _ => store.bind fun status => ?_
    exact (keeps_write keeps dynamic (.updatePage env.recipient key status) trivial).bind
      fun page => .deductGas _
  · refine (keeps_accessStorageCost keeps key _).bind fun _ => store.bind fun status => ?_
    exact (Keeps.addRefund _).bind fun _ => .deductGas _

theorem keeps_logImpl (data : List UInt8) (topics : List Hash) (memoryCost : Option Int) :
    Keeps handler inv (logImpl env data topics memoryCost) := by
  refine .exitIf_bind fun dynamic => Keeps.bind (.when fun _ => ?_) fun _ => ?_
  · exact (Keeps.expandMemory _).bind fun _ => .deductGas _
  · exact keeps_write keeps dynamic (.storeLog ⟨data, topics, env.recipient⟩) trivial

theorem keeps_hostSelfdestruct (dynamic : env.flags.static = false)
    (address beneficiary : Address) :
    (machine.hostSelfdestruct address beneficiary).Holds handler inv fun _ => inv := by
  refine Run.Holds.bind (.keeps (keeps.write dynamic (.selfdestruct _ _) trivial)) fun moved => ?_
  refine Run.Holds.bind (.orThrow moved) fun result => ?_
  refine Run.Holds.bind (.keeps_when fun _ => ?_) fun _ => .pure fun _ kept => kept
  exact .keeps (keeps.write dynamic (.storeLog _) trivial)

theorem keeps_selfdestruct {α : Type} :
    Keeps handler inv (machine.selfdestruct env address : Runtime α) := by
  refine .exitIf_bind fun dynamic => (keeps_accessCost keeps address _).bind fun _ => ?_
  refine Keeps.bind ?_ fun _ => Keeps.bind (.run ?_) fun first =>
      Keeps.bind (.when fun _ => .addRefund _) fun _ => .exit _
  · refine (keeps_query keeps (.getBalance _) trivial).bind fun _ => .when fun _ => ?_
    exact (keeps_query keeps (.accountIsDead address) trivial).bind fun _ =>
      .when fun _ => .deductGas _
  · exact keeps_hostSelfdestruct keeps dynamic env.recipient address

theorem keeps_resolveDelegation : Keeps handler inv (resolveDelegation address) :=
  (keeps_query keeps (.copyCode address 0 24) trivial).bind fun _ => .pure _

theorem keeps_codeAddress : Keeps handler inv (machine.codeAddress address) := by
  refine .ite (fun _ => (keeps_resolveDelegation keeps address).bind fun delegate => ?_)
    fun _ => .pure _
  cases delegate with
  | none => exact .pure _
  | some delegate =>
    exact (keeps_accessAccount keeps delegate).bind fun _ =>
      (Keeps.spend _).bind fun _ => .pure _

theorem keeps_callWithValue (args : CallArguments) :
    Keeps handler inv (callWithValue env args) := by
  refine Keeps.gasRemaining.bind fun _ => .exitIf_bind fun _ => ?_
  exact (keeps_query keeps (.accountIsDead args.address) trivial).bind fun _ =>
    .when fun _ => .spend _

theorem keeps_callImpl (args : CallArguments) (hasValue : Bool) (value : Nat) (kind : CallKind)
    (staticCall : Bool) (calls : kind ≠ .create ∧ kind ≠ .create2) :
    Keeps handler inv (machine.callImpl message env args hasValue value kind staticCall) := by
  refine (Keeps.expandMemory _).bind fun _ => (keeps_accessCost keeps _ _).bind fun _ => ?_
  refine (keeps_codeAddress keeps _).bind fun codeAddress => ?_
  refine Keeps.bind (.when fun _ => .spend _) fun _ => ?_
  refine Keeps.bind (.when fun _ => keeps_callWithValue keeps args) fun _ => ?_
  refine Keeps.gasRemaining.bind fun _ => .exitIf_bind fun _ => ?_
  refine Keeps.bind (.when fun _ => .spend _) fun _ => .ite (fun _ => .pure _) fun shallow => ?_
  refine Keeps.bind (.run (keeps.send _ ⟨rfl, Nat.lt_of_not_le shallow, fun static => ?_⟩))
    fun result => (Keeps.deductGas _).bind fun _ => (Keeps.addRefund _).bind fun _ => .pure _
  exact ⟨by simp [messageFlags, static], calls⟩

theorem keeps_createImpl (args : CreateArguments) (salt : Nat) (kind : CallKind) :
    Keeps handler inv (machine.createImpl message env args salt kind) := by
  refine .exitIf_bind fun dynamic => Keeps.bind (.when fun _ => ?_) fun _ => ?_
  · exact (keeps_resolveDelegation keeps env.recipient).bind fun _ => .exitIf _ _
  refine Keeps.bind (.when fun _ => .expandMemory _) fun _ => .exitIf_bind fun _ => ?_
  refine (Keeps.deductGas _).bind fun _ => Keeps.gasRemaining.bind fun _ =>
    .ite (fun _ => .pure _) fun shallow => ?_
  refine Keeps.bind (.run (keeps.send _ ⟨rfl, Nat.lt_of_not_le shallow, fun static => ?_⟩))
    fun result => (Keeps.deductGas _).bind fun _ => (Keeps.addRefund _).bind fun _ => .pure _
  exact absurd (dynamic.symm.trans static) Bool.false_ne_true

theorem keeps_execute (instruction : Instruction) :
    Keeps handler inv (machine.execute message env instruction) := by
  cases instruction with
  | deductGas amount => exact .deductGas amount
  | gas => exact .gasRemaining
  | sload key =>
    exact (keeps_accessStorageCost keeps key _).bind fun _ =>
      keeps_query keeps (.getStorage env.recipient key) trivial
  | sstore key value remaining => exact keeps_sstore keeps key value remaining
  | tload key => exact keeps_query keeps (.getTransientStorage env.recipient key) trivial
  | tstore key value =>
    exact .exitIf_bind fun dynamic =>
      keeps_write keeps dynamic (.setTransientStorage env.recipient key value) trivial
  | selfbalance => exact keeps_query keeps (.getBalance env.recipient) trivial
  | balance address =>
    exact (keeps_accessCost keeps address _).bind fun _ =>
      keeps_query keeps (.getBalance address) trivial
  | extcodesize address =>
    exact (keeps_accessCost keeps address _).bind fun _ =>
      keeps_query keeps (.getCodeSize address) trivial
  | extcodehash address =>
    refine (keeps_accessCost keeps address _).bind fun _ => ?_
    exact (keeps_query keeps (.accountIsDead address) trivial).bind fun dead =>
      .ite (fun _ => .pure _) fun _ => keeps_query keeps (.getCodeHash address) trivial
  | extcodecopy address offset size =>
    exact (keeps_accessCost keeps address _).bind fun _ =>
      keeps_query keeps (.copyCode address offset size) trivial
  | blockhash number => exact .run (.lift keeps.query _ (machine.blockHash number).uses)
  | log data topics memoryCost => exact keeps_logImpl keeps data topics memoryCost
  | selfdestruct address => exact keeps_selfdestruct keeps address
  | call value args | callcode value args | delegatecall args | staticcall args =>
    exact keeps_callImpl keeps args _ _ _ _ (by decide)
  | create args | create2 salt args => exact keeps_createImpl keeps args _ _

end Instructions

/-- What the virtual machine returns: no refund unless the code has succeeded, and no gas
unless it has succeeded or reverted. -/
structure Proper (result : Result) : Prop where
  refund : result.status ≠ .success → result.gasRefund = 0
  gas : result.status ≠ .success → result.status ≠ .revert → result.gasLeft = 0

theorem proper_toResult (gas : Gas) (exit : Exit) : Proper (toResult gas exit) := by
  unfold toResult
  split
  · exact ⟨fun _ => rfl, fun _ _ => rfl⟩
  · exact ⟨fun _ => rfl, fun _ _ => rfl⟩
  · split
    · exact ⟨fun _ => rfl, fun _ _ => rfl⟩
    · exact ⟨fun failed => absurd rfl failed, fun failed => absurd rfl failed⟩
  · split
    · exact ⟨fun _ => rfl, fun _ _ => rfl⟩
    · exact ⟨fun _ => rfl, fun _ reverted => absurd rfl reverted⟩

theorem interpret_holds (keeps : env.Keeps handler inv message)
    (code : Program instructions Exit) (gas : Gas) :
    (machine.interpret message env code gas).Holds handler inv fun result state =>
      Proper result ∧ inv state := by
  induction code generalizing gas with
  | done exit => exact .pure fun _ kept => ⟨proper_toResult gas exit, kept⟩
  | abort reason => exact .fail trivial
  | step instruction next ih =>
    rw [interpret]
    refine Run.Holds.bind (keeps_execute keeps instruction gas) fun result => ?_
    obtain ⟨answer, left⟩ := result
    cases answer with
    | ok answer => exact ih answer left
    | error code => exact .pure fun _ kept => ⟨proper_toResult left _, kept⟩

end Machine

end MonadChain.Execution
