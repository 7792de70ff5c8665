import Mathlib.Data.List.Forall2
import MonadChain.Vm.CallMemory

/-!
The frames of vm/runtime/call.cpp with a memory each: a frame has its bytes, the bytes it was
called with, the gas it was given and the gas it has spent. The frames over one buffer do as these
do.
-/

namespace MonadChain.Vm

open Function List

structure OwnFrame where
  size : Nat := 0
  bytes : Nat → UInt8 := fun _ => 0
  input : List UInt8 := []
  retOffset : Nat := 0
  retSize : Nat := 0
  given : Int
  spent : Int := 0
  blockBaseGas : Nat := 0
  exited : Bool := false

namespace OwnFrame

/-- What is left of the gas when the memory is paid for. -/
def gasRemaining (mip3 : Bool) (own : OwnFrame) : Int :=
  own.given - own.spent - memoryCostFromWordCount mip3 (own.size / 32)

def deduct (mip3 : Bool) (gas : Int) (own : OwnFrame) : OwnFrame :=
  { own with
    spent := own.spent + gas
    exited := decide (own.gasRemaining mip3 - gas < 0) }

def sized (minSize : Nat) (own : OwnFrame) : OwnFrame :=
  { own with size := 32 * ((minSize + 31) / 32) }

def expand (mip3 : Bool) (others minSize : Nat) (own : OwnFrame) : OwnFrame :=
  if own.size < minSize then
    let grown := own.sized minSize
    if (mip3 = true → grown.size + others ≤ 0x800000) ∧ 0 ≤ grown.gasRemaining mip3 then grown
    else { own with exited := true }
  else own

theorem expand_of_lt {own : OwnFrame} {mip3 inBound : Bool} {others minSize : Nat}
    (more : own.size < minSize) (fits : inBound = true ↔
      (mip3 = true → (own.sized minSize).size + others ≤ 0x800000)) :
    own.expand mip3 others minSize =
      if inBound = true ∧ 0 ≤ (own.sized minSize).gasRemaining mip3 then own.sized minSize
      else { own with exited := true } := by
  simp only [fits]
  exact if_pos more

def store (offset : Nat) (bytes : List UInt8) (own : OwnFrame) : OwnFrame :=
  { own with bytes := splice own.bytes offset bytes.length (bytes.getD · 0) }

def load (own : OwnFrame) (offset count : Nat) : List UInt8 :=
  (List.range count).map fun i => own.bytes (offset + i)

theorem load_beyond {own : OwnFrame} (blank : ∀ i, own.size ≤ i → own.bytes i = 0)
    (offset kept beyond : Nat) (whole : own.size ≤ offset + kept) :
    own.load offset (kept + beyond) = own.load offset kept ++ replicate beyond 0 := by
  simp only [load, range_add, map_append, map_map, append_cancel_left_eq]
  refine eq_replicate_iff.mpr ⟨by simp, fun byte member => ?_⟩
  obtain ⟨i, _, rfl⟩ := mem_map.mp member
  exact blank _ (by dsimp only; omega)

/-- The running frame and, above it, the one that it calls. -/
def call (mip3 : Bool) (others depth : Nat) (request : CallRequest) (own : OwnFrame) :
    List OwnFrame :=
  let grown := own.expand mip3 others request.needed
  if grown.exited then [grown]
  else
    match request.pay (grown.gasRemaining mip3) with
    | none => [{ grown with exited := true }]
    | some (gasRemaining, gas) =>
      let caller := { grown with spent := grown.spent + (grown.gasRemaining mip3 - gasRemaining) }
      if 1024 ≤ depth then [caller]
      else
        [{ input := caller.load request.argsOffset request.argsSize, retOffset := request.retOffset
           retSize := request.retSize, given := gas }, caller]

/-- The output and the gas that is left; what is returned has to be paid like other memory. -/
def result (mip3 : Bool) (others : Nat) (own : OwnFrame) : Ending → List UInt8 × Int
  | .error => ([], 0)
  | .output offset size =>
    if own.gasRemaining mip3 < 0 then ([], 0)
    else if (size : Nat) = 0 then ([], own.gasRemaining mip3)
    else
      let grown := own.expand mip3 others (offset + size)
      if grown.exited then ([], 0) else (grown.load offset size, grown.gasRemaining mip3)

end OwnFrame

namespace OwnFrames

def sizes : List OwnFrame → Nat
  | [] => 0
  | own :: below => own.size + sizes below

/-- The caller takes the gas back that is left and copies the output. -/
def leave (mip3 : Bool) (own : OwnFrame) (below : List OwnFrame) (ending : Ending)
    (hostGas : Nat) : List OwnFrame :=
  match below with
  | [] => []
  | parent :: below =>
    let result := own.result mip3 (sizes (parent :: below)) ending
    let paid := parent.deduct mip3 (own.given - max 0 (result.2 - hostGas))
    if paid.exited then paid :: below
    else paid.store own.retOffset (result.1.take own.retSize) :: below

def step (mip3 : Bool) (frames : List OwnFrame) (op : FrameOp) : Option (List OwnFrame) :=
  match frames with
  | [] => none
  | own :: below =>
    if own.exited = true ∧ op.failing = false then none
    else match op with
    | .expandMemory minSize _ => some (own.expand mip3 (sizes below) minSize :: below)
    | .write offset bytes =>
      if offset + bytes.length ≤ own.size then some (own.store offset bytes :: below) else none
    | .deductGas gas => some (own.deduct mip3 gas :: below)
    | .enterBlock baseGas =>
      some ({ own.deduct mip3 baseGas with blockBaseGas := baseGas } :: below)
    | .call request _ =>
      if request.remainingBlockBaseGas ≤ own.blockBaseGas then
        some (own.call mip3 (sizes below) below.length request ++ below)
      else none
    | .returnTo ending hostGas => some (leave mip3 own below ending hostGas)

def run (mip3 : Bool) (frames : List OwnFrame) (ops : List FrameOp) : Option (List OwnFrame) :=
  ops.foldlM (step mip3) frames

/-- The bytes of the frames, one frame after the other. -/
def image : List OwnFrame → Nat → UInt8
  | [], _ => 0
  | own :: below, i => if i < sizes below then image below i else own.bytes (i - sizes below)

end OwnFrames

open OwnFrames

/-- An operation that ends as stated, or for a handle that is in use, or because there is no
room. -/
def Safe {α : Type} (room : Prop) (post : α → Prop) : Except Stop α → Prop
  | .ok value => post value
  | .error .taken => True
  | .error .assertion => ¬ room
  | .error _ => False

namespace Safe

variable {α β : Type} {room : Prop} {first : Except Stop α} {next : α → Except Stop β}
  {post : α → Prop} {after : β → Prop}

theorem bind (safe : Safe room post first)
    (rest : ∀ value, post value → Safe room after (next value)) :
    Safe room after (first >>= next) := by
  match first, safe with
  | .ok value, holds => exact rest value holds
  | .error .taken, _ => trivial
  | .error .assertion, full => exact full

theorem bin_bind {bits n : Nat} {next : Nat → Except Stop β} (fits : n < 2 ^ bits)
    (rest : Safe room after (next n)) : Safe room after (bin bits n >>= next) := by
  rw [bin, if_pos fits]
  exact rest

theorem parentTotalSize_bind {memory : Memory} {next : Nat → Except Stop β}
    (rest : memory.data < 2 ^ 30 → Safe (memory.data < 2 ^ 30) after (next memory.data)) :
    Safe (memory.data < 2 ^ 30) after (memory.parentTotalSize >>= next) := by
  unfold Memory.parentTotalSize
  split
  · exact rest (by omega)
  · intro (small : memory.data < 2 ^ 30)
    omega

end Safe

def Keeps (heap heap' : Heap) (bound : Nat) (handle : Handle) : Prop :=
  ∀ buffer, heap handle = some buffer → ∃ buffer', heap' handle = some buffer' ∧
    buffer'.length = buffer.length ∧ ∀ i < bound, buffer'.bytes i = buffer.bytes i

section

variable {handle : Handle}

theorem Keeps.trans {first second third : Heap} {bound : Nat}
    (keeps : Keeps first second bound handle) (keeps' : Keeps second third bound handle) :
    Keeps first third bound handle := by
  intro buffer found
  obtain ⟨middle, there, length, bytes⟩ := keeps buffer found
  obtain ⟨last, there', length', bytes'⟩ := keeps' middle there
  exact ⟨last, there', length'.trans length, fun i low => (bytes' i low).trans (bytes i low)⟩

theorem Keeps.of_eq {heap heap' : Heap} (same : heap' handle = heap handle) (bound : Nat) :
    Keeps heap heap' bound handle :=
  fun buffer found => ⟨buffer, same.trans found, rfl, fun _ _ => rfl⟩

end

namespace Heap

variable {heap : Heap} {handle start count : Nat} {buffer : Buffer} {source : Nat → UInt8}

theorem fill_eq (live : heap handle = some buffer) (inside : start + count ≤ buffer.length) :
    heap.fill handle start count source = .ok (update heap handle
      (some { buffer with bytes := splice buffer.bytes start count source })) := by
  simp only [fill, live, if_pos inside]

theorem load_eq (live : heap handle = some buffer) (inside : start + count ≤ buffer.length) :
    heap.load handle start count =
      .ok ((List.range count).map fun i => buffer.bytes (start + i)) := by
  simp only [load, live, if_pos inside]

theorem keeps_fill (live : heap handle = some buffer) (other : Handle) :
    Keeps heap (update heap handle
      (some { buffer with bytes := splice buffer.bytes start count source })) start other := by
  by_cases same : other = handle
  · subst same
    intro buffer' found
    obtain rfl := Option.some.inj (live.symm.trans found)
    refine ⟨_, update_self .., rfl, fun i low => ?_⟩
    exact if_neg fun within => Nat.not_le_of_lt low within.1
  · exact Keeps.of_eq (update_of_ne same _ _) start

end Heap

/-- A frame over the shared buffer and what it stands for. -/
structure Twin where
  ctx : Context
  own : OwnFrame

def handleBelow (origin : Handle) : List Twin → Handle
  | [] => origin
  | twin :: _ => twin.ctx.memory.dataHandle

def handles (origin : Handle) (twins : List Twin) : List Handle :=
  origin :: twins.map fun twin => twin.ctx.memory.dataHandle

def owns (twins : List Twin) : List OwnFrame := twins.map Twin.own

structure Arena where
  mip3 : Bool
  origin : Handle
  capacity : Nat

structure Shape (arena : Arena) (ctx : Context) (own : OwnFrame) (below : List Twin) : Prop where
  data : ctx.memory.data = sizes (owns below)
  size : ctx.memory.size = own.size
  aligned : own.size % 32 = 0
  small : own.size ≤ 2 ^ 29
  fits : own.size ≤ ctx.memory.capacity
  cost : ctx.memory.cost = memoryCostFromWordCount arena.mip3 (own.size / 32)
  blank : ∀ i, own.size ≤ i → own.bytes i = 0
  parent : ctx.memory.parentHandle = handleBelow arena.origin below
  outermost : below = [] → ctx.memory.parentCapacity = arena.capacity
  apart : ctx.memory.dataHandle = ctx.memory.parentHandle ∨
    ctx.memory.dataHandle ∉ handles arena.origin below
  inputHandle : ctx.inputHandle = ctx.memory.parentHandle
  inputInside : ctx.inputData + ctx.inputDataSize ≤ sizes (owns below)
  input : own.input =
    (List.range ctx.inputDataSize).map fun i => image (owns below) (ctx.inputData + i)
  retOffset : ctx.retOffset = own.retOffset
  retSize : ctx.retSize = own.retSize
  result : ∀ parent ∈ below.head?, own.retOffset + own.retSize ≤ parent.own.size

structure Accounts (mip3 : Bool) (ctx : Context) (own : OwnFrame) : Prop where
  given : ctx.gas = own.given
  block : ctx.blockBaseGas = own.blockBaseGas
  exited : ctx.exited = own.exited
  gas : own.exited = false → ctx.gasRemaining = own.gasRemaining mip3

/-- The buffer of a frame has the bytes of all frames up to it. -/
def Held (heap : Heap) (ctx : Context) (frames : List OwnFrame) (bound : Nat) : Prop :=
  ∃ buffer, heap ctx.memory.dataHandle = some buffer ∧
    buffer.length = ctx.memory.data + ctx.memory.capacity ∧
    ∀ i < bound, buffer.bytes i = image frames i

def AllSound (arena : Arena) (heap : Heap) : List Twin → Prop
  | [] => ∃ buffer, heap arena.origin = some buffer ∧ buffer.length = arena.capacity
  | ⟨ctx, own⟩ :: below => Shape arena ctx own below ∧ Accounts arena.mip3 ctx own ∧
      own.exited = false ∧ Held heap ctx (own :: owns below) (sizes (own :: owns below)) ∧
      AllSound arena heap below

/-- The running frame has all of its buffer, zeros above its size. -/
structure Running (arena : Arena) (heap : Heap) (ctx : Context) (own : OwnFrame)
    (below : List Twin) : Prop where
  shape : Shape arena ctx own below
  held : Held heap ctx (own :: owns below) (ctx.memory.data + ctx.memory.capacity)
  rest : AllSound arena heap below

def Inv (arena : Arena) (heap : Heap) : List Twin → Prop
  | [] => ∀ i < arena.capacity, heap.read arena.origin i = some 0
  | ⟨ctx, own⟩ :: below => Running arena heap ctx own below ∧ Accounts arena.mip3 ctx own

def Related (arena : Arena) (frames : Frames) (own : List OwnFrame) : Prop :=
  ∃ twins, frames.contexts = twins.map Twin.ctx ∧ own = owns twins ∧ Inv arena frames.heap twins

section

variable {arena : Arena} {heap heap' : Heap} {ctx : Context} {own : OwnFrame}
  {below twins : List Twin} {handle : Handle}

theorem Shape.image_above (shape : Shape arena ctx own below) {i : Nat}
    (above : sizes (owns below) + own.size ≤ i) : image (own :: owns below) i = 0 := by
  rw [image, if_neg (by omega)]
  exact shape.blank _ (by omega)

theorem AllSound.congr (sound : AllSound arena heap twins) {bound : Nat}
    (high : sizes (owns twins) ≤ bound)
    (keeps : ∀ handle ∈ handles arena.origin twins, Keeps heap heap' bound handle) :
    AllSound arena heap' twins := by
  induction twins with
  | nil =>
    obtain ⟨buffer, live, length⟩ := sound
    obtain ⟨buffer', live', length', _⟩ := keeps arena.origin mem_cons_self buffer live
    exact ⟨buffer', live', length'.trans length⟩
  | cons twin below ih =>
    obtain ⟨shape, accounts, alive, ⟨buffer, live, length, bytes⟩, rest⟩ := sound
    have low : twin.own.size + sizes (owns below) ≤ bound := high
    simp only [handles, map_cons, forall_mem_cons] at keeps
    obtain ⟨buffer', live', length', bytes'⟩ := keeps.2.1 buffer live
    refine ⟨shape, accounts, alive,
      ⟨buffer', live', length'.trans length, fun i inside => ?_⟩, ih rest ?_ ?_⟩
    · exact (bytes' i (Nat.lt_of_lt_of_le inside low)).trans (bytes i inside)
    · omega
    · exact forall_mem_cons.mpr ⟨keeps.1, keeps.2.2⟩

theorem AllSound.live (sound : AllSound arena heap twins)
    (member : handle ∈ handles arena.origin twins) : ∃ buffer, heap handle = some buffer := by
  induction twins with
  | nil =>
    obtain rfl := mem_singleton.mp member
    exact sound.imp fun _ found => found.1
  | cons twin below ih =>
    obtain ⟨_, _, _, held, rest⟩ := sound
    simp only [handles, map_cons, mem_cons] at member ih
    obtain rfl | rfl | later := member
    · exact ih rest (.inl rfl)
    · exact held.imp fun _ found => found.1
    · exact ih rest (.inr later)

theorem AllSound.aligned (sound : AllSound arena heap twins) : sizes (owns twins) % 32 = 0 := by
  induction twins with
  | nil => rfl
  | cons twin below ih =>
    have words := sound.1.aligned
    have others := ih sound.2.2.2.2
    simp only [owns, map_cons, sizes] at others ⊢
    omega

namespace Accounts

variable {mip3 : Bool}

theorem deduct (accounts : Accounts mip3 ctx own) (alive : own.exited = false) (gas : Int) :
    Accounts mip3 (ctx.deductGas gas) (own.deduct mip3 gas) := by
  have same := accounts.gas alive
  refine ⟨accounts.given, accounts.block, ?_, fun _ => ?_⟩
  · simp only [Context.deductGas, OwnFrame.deduct, same]
  · simp only [Context.deductGas, OwnFrame.deduct, OwnFrame.gasRemaining, same]
    omega

theorem exit (accounts : Accounts mip3 ctx own) :
    Accounts mip3 ctx.exit { own with exited := true } :=
  ⟨accounts.given, accounts.block, rfl, fun alive => nomatch alive⟩

end Accounts

namespace Running

theorem inBound (arena : Arena) (data : ctx.memory.data = sizes (owns below)) {memSize : Nat}
    (small : memSize ≤ 2 ^ 29) :
    Safe (ctx.memory.data < 2 ^ 30) (fun inBound => inBound = true ↔
        (arena.mip3 = true → memSize + sizes (owns below) ≤ 0x800000))
      (ctx.isMemorySizeInBound arena.mip3 memSize) := by
  unfold Context.isMemorySizeInBound
  split
  · rename_i active
    refine Safe.parentTotalSize_bind fun room => Safe.bin_bind (by omega) ?_
    simp only [Safe, decide_eq_true_eq, data, active, true_imp_iff]
  · rename_i inactive
    exact iff_of_true rfl fun active => absurd active inactive

theorem store (running : Running arena heap ctx own below) {offset : Nat} {bytes : List UInt8}
    (inside : offset + bytes.length ≤ own.size) :
    ∃ heap', ctx.store heap offset bytes = .ok heap' ∧
      Running arena heap' ctx (own.store offset bytes) below := by
  obtain ⟨shape, ⟨buffer, live, length, content⟩, rest⟩ := running
  have fits := shape.fits
  have data := shape.data
  refine ⟨_, Heap.fill_eq live (by omega),
    { shape with blank := fun i above => ?_ }, ⟨_, update_self .., length, ?_⟩, ?_⟩
  · refine (if_neg ?_).trans (shape.blank i above)
    dsimp only [OwnFrame.store] at above
    omega
  · intro i low
    have old := content i low
    simp only [image, splice, OwnFrame.store, ← data] at old ⊢
    by_cases lower : i < ctx.memory.data
    · rw [if_pos lower] at old ⊢
      rw [if_neg (by omega), old]
    · rw [if_neg lower] at old ⊢
      by_cases changed : ctx.memory.data + offset ≤ i ∧ i < ctx.memory.data + offset + bytes.length
      · rw [if_pos changed, if_pos (by omega), Nat.sub_add_eq]
      · rw [if_neg changed, if_neg (by omega), old]
  · refine rest.congr ?_ fun handle _ => Heap.keeps_fill live _
    rw [← data]
    exact Nat.le_add_right ..

theorem load (running : Running arena heap ctx own below) {offset count : Nat}
    (inside : offset + count ≤ own.size) :
    heap.load ctx.memory.dataHandle (ctx.memory.data + offset) count =
      .ok (own.load offset count) := by
  obtain ⟨shape, ⟨buffer, live, length, content⟩, _⟩ := running
  have fits := shape.fits
  rw [Heap.load_eq live (by omega)]
  refine congrArg Except.ok (map_congr_left fun i member => ?_)
  have low := mem_range.mp member
  rw [content _ (by omega), image, ← shape.data, if_neg (by omega)]
  congr 1
  omega

theorem release {memory : Memory} {known : List Handle} {buffer : Buffer}
    (live : heap memory.dataHandle = some buffer)
    (apart : memory.dataHandle = memory.parentHandle ∨ memory.dataHandle ∉ known) :
    ∃ heap', memory.release heap = .ok heap' ∧
      ∀ handle, handle ≠ memory.dataHandle ∨ handle ∈ known → heap' handle = heap handle := by
  unfold Memory.release
  by_cases same : memory.dataHandle = memory.parentHandle
  · exact ⟨heap, if_neg (not_not.mpr same), fun _ _ => rfl⟩
  · have absent := apart.resolve_left same
    refine ⟨update heap memory.dataHandle none, ?_, fun handle other => ?_⟩
    · simp only [if_pos same, Heap.free, live]
    · refine update_of_ne ?_ _ _
      rintro rfl
      exact other.elim (fun differ => differ rfl) absent

section

variable (running : Running arena heap ctx own below)

include running

theorem grow {newSize : Nat} (newHandle : Handle) (larger : own.size ≤ newSize)
    (aligned : newSize % 32 = 0) (small : newSize ≤ 2 ^ 29) :
    let newCost := memoryCostFromWordCount arena.mip3 (newSize / 32)
    Safe (ctx.memory.data < 2 ^ 30)
      (fun grown => Running arena grown.1 { ctx with memory := grown.2 }
        { own with size := newSize } below) (ctx.memory.resize heap newSize newCost newHandle) := by
  obtain ⟨shape, ⟨buffer, live, length, content⟩, rest⟩ := running
  have fits := shape.fits
  have size := shape.size
  have data := shape.data
  have before := shape.small
  have blank : ∀ i, newSize ≤ i → own.bytes i = 0 := fun i above =>
    shape.blank i (Nat.le_trans larger above)
  intro newCost
  unfold Memory.resize
  by_cases enough : ctx.memory.capacity < newSize
  · rw [if_pos enough]
    refine Safe.parentTotalSize_bind fun room => Safe.bin_bind ?_ <| Safe.bin_bind ?_ <|
      Safe.bin_bind ?_ <| Safe.bin_bind ?_ ?_
    iterate 4 omega
    -- The allocator's handle is none of those in use.
    cases unused : heap newHandle with
    | some other => trivial
    | none =>
      have fresh : newHandle ∉ handles arena.origin below := by
        intro member
        obtain ⟨other, found⟩ := rest.live member
        cases unused.symm.trans found
      have differs : newHandle ≠ ctx.memory.dataHandle := by
        rintro rfl
        cases unused.symm.trans live
      have here := (update_of_ne differs.symm (some (Buffer.mk (2 *
        (ctx.memory.data + newSize)) fun i => if i < ctx.memory.data + ctx.memory.size
          then buffer.bytes i else 0)) heap).trans live
      obtain ⟨released, done, kept⟩ := release here shape.apart
      have moved := (kept newHandle (.inl differs)).trans (update_self ..)
      have resized : Memory.release { ctx.memory with size := newSize, cost := newCost } _ =
        .ok released := done
      simp only [live]
      rw [if_pos (by omega), resized]
      refine ⟨{ shape with
        aligned, blank, small, size := rfl, cost := rfl, apart := .inr fresh, fits := ?_ },
        ⟨_, moved, ?_, fun i low => ?_⟩, rest.congr (Nat.le_refl _) fun handle member => ?_⟩
      · dsimp only
        omega
      · dsimp only
        omega
      · dsimp only at low ⊢
        split
        · exact content i (by omega)
        · exact (shape.image_above (by omega)).symm
      · apply Keeps.of_eq
        refine (kept handle (.inr member)).trans (update_of_ne ?_ _ _)
        rintro rfl
        exact fresh member
  · rw [if_neg enough]
    exact ⟨{ shape with
      aligned, blank, small, size := rfl, cost := rfl, fits := Nat.le_of_not_lt enough },
      ⟨buffer, live, length, content⟩, rest⟩

theorem expandMemory (accounts : Accounts arena.mip3 ctx own) (alive : own.exited = false)
    {minSize : Nat} (small : minSize < 2 ^ 29) (newHandle : Handle) :
    let expanded := own.expand arena.mip3 (sizes (owns below)) minSize
    Safe (ctx.memory.data < 2 ^ 30) (fun grown => Running arena grown.1 grown.2 expanded below ∧
        Accounts arena.mip3 grown.2 expanded)
      (ctx.expandMemory arena.mip3 heap minSize newHandle) := by
  intro expanded
  have size := running.shape.size
  have cost := running.shape.cost
  have gas := accounts.gas alive
  unfold Context.expandMemory
  by_cases more : own.size < minSize
  · rw [if_pos (by omega)]
    refine Safe.bin_bind (by omega) <| Safe.bin_bind (by omega) ?_
    have words : 32 * ((minSize + 31) / 32) / 32 = (minSize + 31) / 32 := by omega
    have growth := running.grow newHandle (by omega) (Nat.mul_mod_right 32 ((minSize + 31) / 32))
      (by omega)
    rw [words] at growth
    refine (inBound arena running.shape.data (by omega)).bind fun bounded fits => ?_
    have left : ctx.gasRemaining - (memoryCostFromWordCount arena.mip3 ((minSize + 31) / 32) -
        ctx.memory.cost) = (own.sized minSize).gasRemaining arena.mip3 := by
      simp only [gas, cost, OwnFrame.gasRemaining, OwnFrame.sized, words]
      omega
    have meaning : expanded = _ := OwnFrame.expand_of_lt more fits
    rw [meaning]
    cases bounded with
    | false => exact ⟨⟨{ running.shape with }, running.held, running.rest⟩, accounts.exit⟩
    | true =>
      simp only [Bool.true_eq_false, if_false, true_and, Context.deductGas, left]
      by_cases short : (own.sized minSize).gasRemaining arena.mip3 < 0
      · rw [if_neg (by omega), if_pos (decide_eq_true short)]
        exact ⟨⟨{ running.shape with }, running.held, running.rest⟩, accounts.given,
          accounts.block, decide_eq_true short, fun none => nomatch none⟩
      · rw [if_pos (by omega), if_neg (by simpa only [decide_eq_true_eq])]
        exact growth.bind fun grown next => ⟨⟨{ next.shape with }, next.held, next.rest⟩,
          accounts.given, accounts.block, (decide_eq_false short).trans alive.symm, fun _ => rfl⟩
  · rw [if_neg (by omega)]
    have same : expanded = own := if_neg more
    rw [same]
    exact ⟨running, accounts⟩

theorem called (accounts : Accounts arena.mip3 ctx own) (alive : own.exited = false)
    {request : CallRequest} (args : request.argsOffset + request.argsSize ≤ own.size)
    (ret : request.retOffset + request.retSize ≤ own.size) (gas : Int) :
    Running arena heap (ctx.callee request gas)
      { input := own.load request.argsOffset request.argsSize, retOffset := request.retOffset
        retSize := request.retSize, given := gas } (⟨ctx, own⟩ :: below) := by
  obtain ⟨shape, ⟨buffer, live, length, content⟩, rest⟩ := running
  have fits := shape.fits
  have size := shape.size
  have data := shape.data
  have cost : memoryCostFromWordCount arena.mip3 (0 / 32) = 0 := by
    cases arena.mip3 <;> rfl
  have total : sizes (own :: owns below) = ctx.memory.data + ctx.memory.size := by
    rw [sizes, data, size, Nat.add_comm]
  have shared : Held heap ctx (own :: owns below) (sizes (own :: owns below)) :=
    ⟨buffer, live, length, fun i low => content i (by omega)⟩
  refine ⟨⟨total.symm, rfl, rfl, Nat.zero_le _, Nat.zero_le _, cost.symm, fun _ _ => rfl, rfl, ?_,
    .inl rfl, rfl, ?_, ?_, rfl, rfl, ?_⟩, ⟨buffer, live, ?_, fun i low => ?_⟩, shape, accounts,
    alive, shared, rest⟩
  · intro none
    cases none
  · dsimp only [Context.callee, owns, map_cons]
    change _ ≤ sizes (own :: owns below)
    omega
  · refine map_congr_left fun i member => ?_
    dsimp only [Context.callee]
    change _ = image (own :: owns below) _
    rw [image, if_neg (by omega)]
    congr 1
    omega
  · rintro parent same
    obtain rfl := Option.some.inj same
    exact ret
  · dsimp only [Context.callee, Memory.new]
    omega
  · dsimp only [Context.callee, Memory.new] at low
    rw [content i (by omega)]
    change _ = if i < sizes (own :: owns below) then image (own :: owns below) i else 0
    split
    · rfl
    · exact shape.image_above (by omega)

theorem callImpl (accounts : Accounts arena.mip3 ctx own) (alive : own.exited = false)
    (request : CallRequest) (newHandle : Handle) (depth : Nat) :
    Safe (ctx.memory.data < 2 ^ 30) (fun called => ∃ twins, called.2 = twins.map Twin.ctx ∧
        own.call arena.mip3 (sizes (owns below)) depth request = owns twins ∧
        Inv arena called.1 (twins ++ below))
      (ctx.callImpl arena.mip3 heap depth request newHandle) := by
  have needed : request.needed < 2 ^ 29 := by
    unfold CallRequest.needed
    omega
  refine (running.expandMemory accounts alive needed newHandle).bind
    fun ⟨heap, ctx⟩ ⟨running, accounts⟩ => ?_
  have large : (own.expand arena.mip3 (sizes (owns below)) request.needed).exited = false →
      request.needed ≤ (own.expand arena.mip3 (sizes (owns below)) request.needed).size := by
    unfold OwnFrame.expand OwnFrame.sized
    dsimp only
    split
    · split
      · intro _
        dsimp only
        omega
      · intro none
        cases none
    · intro _
      omega
  unfold OwnFrame.call
  generalize own.expand arena.mip3 (sizes (owns below)) request.needed = grown at *
  dsimp only at running accounts ⊢
  by_cases out : grown.exited = true
  · rw [if_pos (accounts.exited.trans out), if_pos out]
    exact ⟨[⟨ctx, grown⟩], rfl, rfl, running, accounts⟩
  · have going := Bool.eq_false_iff.mpr out
    rw [if_neg fun other => out (accounts.exited.symm.trans other), if_neg out, accounts.gas going]
    cases paid : request.pay (grown.gasRemaining arena.mip3) with
    | none =>
      exact ⟨[⟨ctx.exit, { grown with exited := true }⟩], rfl, rfl,
        ⟨{ running.shape with }, running.held, running.rest⟩, accounts.exit⟩
    | some pair =>
      obtain ⟨gasRemaining, gas⟩ := pair
      have enough := large going
      unfold CallRequest.needed at enough
      have waiting : Running arena heap { ctx with gasRemaining } { grown with
          spent := grown.spent + (grown.gasRemaining arena.mip3 - gasRemaining) } below :=
        ⟨{ running.shape with }, running.held, running.rest⟩
      have settled : Accounts arena.mip3 { ctx with gasRemaining } { grown with
          spent := grown.spent + (grown.gasRemaining arena.mip3 - gasRemaining) } := by
        refine ⟨accounts.given, accounts.block, accounts.exited, fun _ => ?_⟩
        simp only [OwnFrame.gasRemaining]
        omega
      dsimp only
      split
      · exact ⟨[⟨_, _⟩], rfl, rfl, waiting, settled⟩
      · refine ⟨[⟨_, _⟩, ⟨_, _⟩], rfl, rfl,
          waiting.called settled going (by dsimp only; omega) (by dsimp only; omega) gas,
          rfl, rfl, rfl, fun _ => ?_⟩
        cases arena.mip3 <;> simp [OwnFrame.gasRemaining, memoryCostFromWordCount]

theorem result (accounts : Accounts arena.mip3 ctx own) {ending : Ending}
    (alive : own.exited = false ∨ ending = .error) :
    Safe (ctx.memory.data < 2 ^ 30)
      (fun result => result = own.result arena.mip3 (sizes (owns below)) ending)
      (ctx.copyToEvmcResult arena.mip3 heap ending) := by
  cases ending with
  | error => rfl
  | output offset size =>
    have alive := alive.resolve_right nofun
    have gas := accounts.gas alive
    have shape := running.shape
    have length := shape.size
    have aligned := shape.aligned
    have others := running.rest.aligned
    unfold Context.copyToEvmcResult OwnFrame.result
    dsimp only
    rw [gas]
    by_cases broke : own.gasRemaining arena.mip3 < 0
    · rw [if_pos broke, if_pos broke]
      rfl
    rw [if_neg broke, if_neg broke]
    by_cases nothing : (size : Nat) = 0
    · rw [if_pos nothing, if_pos nothing]
      rfl
    rw [if_neg nothing, if_neg nothing]
    refine Safe.bin_bind (by omega) ?_
    rw [length]
    by_cases inside : (offset + size : Nat) ≤ own.size
    · have same : own.expand arena.mip3 (sizes (owns below)) (offset + size) = own :=
        if_neg (by omega)
      rw [if_pos inside, running.load inside, same, alive]
      rfl
    rw [if_neg inside]
    have words : 32 * ((offset + size + 31 : Nat) / 32) / 32 = (offset + size + 31) / 32 := by
      omega
    have left : own.gasRemaining arena.mip3 - (memoryCostFromWordCount arena.mip3
        ((offset + size + 31) / 32) - ctx.memory.cost) =
          (own.sized (offset + size)).gasRemaining arena.mip3 := by
      simp only [shape.cost, OwnFrame.gasRemaining, OwnFrame.sized, words]
      omega
    refine (inBound arena shape.data (by omega)).bind fun bounded fits => ?_
    -- The bound on the size in bytes is one on the size in words.
    have rounded : bounded = true ↔
        (arena.mip3 = true → (own.sized (offset + size)).size + sizes (owns below) ≤
          0x800000) := by
      rw [fits]
      simp only [OwnFrame.sized]
      refine imp_congr_right fun _ => ?_
      omega
    rw [OwnFrame.expand_of_lt (by omega) rounded]
    cases bounded with
    | false => rfl
    | true =>
      simp only [Bool.true_eq_false, if_false, true_and]
      refine Safe.bin_bind (by omega) ?_
      rw [left]
      by_cases short : (own.sized (offset + size)).gasRemaining arena.mip3 < 0
      · simp only [if_pos short, if_neg (Int.not_le.mpr short)]
        rfl
      · simp only [if_neg short, if_pos (Int.not_lt.mp short)]
        rw [if_neg (Bool.eq_false_iff.mp alive : ¬ (own.sized (offset + size)).exited = true)]
        by_cases partly : (offset : Nat) < own.size
        · have loaded := OwnFrame.load_beyond shape.blank offset (own.size - offset)
            (offset + size - own.size) (by omega)
          have parts : own.size - offset + (offset + size - own.size) = (size : Nat) := by omega
          rw [parts] at loaded
          rw [if_pos partly, running.load (by omega)]
          exact congrArg (·, _) loaded.symm
        · have loaded := OwnFrame.load_beyond shape.blank offset 0 size (by omega)
          rw [Nat.zero_add] at loaded
          rw [if_neg partly]
          exact congrArg (·, _) loaded.symm

end

/-- A frame leaves its caller the zeros it found. -/
theorem returned {parent : Context} {parentOwn : OwnFrame}
    (running : Running arena heap ctx own (⟨parent, parentOwn⟩ :: below)) :
    ∃ heap' memory, ctx.returnTo parent heap = .ok (heap', { parent with memory }) ∧
      Running arena heap' { parent with memory } parentOwn below := by
  obtain ⟨shape, ⟨buffer, live, length, content⟩, parentShape, _, _, parentHeld, rest⟩ := running
  have fits := shape.fits
  have size := shape.size
  have parentSize := parentShape.size
  have parentData := parentShape.data
  have start : ctx.memory.data = parentOwn.size + sizes (owns below) := shape.data
  have zeros : ∀ i < ctx.memory.data + ctx.memory.capacity,
      splice buffer.bytes ctx.memory.data ctx.memory.size (fun _ => 0) i =
        image (parentOwn :: owns below) i := by
    intro i inside
    unfold splice
    by_cases lower : i < ctx.memory.data
    · rw [if_neg (by omega), content i inside]
      exact if_pos (shape.data ▸ lower)
    · rw [parentShape.image_above (by omega)]
      split
      · rfl
      · rw [content i inside]
        exact shape.image_above (by rw [← shape.data]; omega)
  have keeps : ∀ handle, Keeps heap _ (sizes (owns below)) handle := fun handle found here => by
    obtain ⟨kept, there, size, bytes⟩ := @Heap.keeps_fill heap _ ctx.memory.data ctx.memory.size
      buffer (fun _ => 0) live handle found here
    exact ⟨kept, there, size, fun i low => bytes i (by omega)⟩
  unfold Context.returnTo
  rw [Heap.fill_eq live (by omega)]
  by_cases same : ctx.memory.dataHandle = ctx.memory.parentHandle
  · have handle : ctx.memory.dataHandle = parent.memory.dataHandle := same.trans shape.parent
    obtain ⟨buffer', live', length', _⟩ := parentHeld
    obtain rfl := Option.some.inj ((handle ▸ live).symm.trans live')
    simp only [bind, Except.bind, if_neg (not_not.mpr same)]
    refine ⟨_, parent.memory, rfl, parentShape, ⟨⟨buffer.length, splice buffer.bytes
      ctx.memory.data ctx.memory.size fun _ => 0⟩, ?_, length', fun i inside => ?_⟩,
      rest.congr (Nat.le_refl _) fun handle _ => keeps handle⟩
    · rw [← handle]
      exact update_self ..
    · have below : i < parent.memory.data + parent.memory.capacity := inside
      exact zeros i (by omega)
  · have apart := shape.apart.resolve_left same
    simp only [handles, map_cons, mem_cons, not_or] at apart
    obtain ⟨buffer', live', length', _⟩ := parentHeld
    obtain ⟨released, done, kept⟩ := release
      ((update_of_ne (Ne.symm apart.2.1) _ heap).trans live') parentShape.apart
    simp only [bind, Except.bind, if_pos same]
    rw [done]
    have place : ctx.memory.data - parent.memory.size = parent.memory.data := by omega
    have there := (kept _ (.inl apart.2.1)).trans (update_self ..)
    refine ⟨released, _, rfl, { parentShape with data := ?_, fits := ?_, apart := .inr ?_ },
      ⟨_, there, ?_, fun i inside => ?_⟩, rest.congr (Nat.le_refl _) fun handle member => ?_⟩
    · exact place.trans parentData
    · dsimp only
      omega
    · exact not_mem_cons_of_ne_of_not_mem apart.1 apart.2.2
    · dsimp only
      omega
    · dsimp only at inside
      exact zeros i (by omega)
    · exact (keeps handle).trans (Keeps.of_eq (kept handle (.inr member)) _)

theorem cleared (running : Running arena heap ctx own []) :
    ∃ heap', ctx.memory.clear heap = .ok heap' ∧
      ∀ i < arena.capacity, heap'.read arena.origin i = some 0 := by
  obtain ⟨shape, ⟨buffer, live, length, content⟩, ⟨first, there, whole⟩⟩ := running
  have fits := shape.fits
  have size := shape.size
  have start : ctx.memory.data = 0 := shape.data
  have parent : ctx.memory.parentHandle = arena.origin := shape.parent
  unfold Memory.clear
  by_cases same : ctx.memory.parentHandle = ctx.memory.dataHandle
  · rw [if_pos same, Heap.fill_eq live (by omega)]
    rw [← same, parent] at live ⊢
    obtain rfl := Option.some.inj (live.symm.trans there)
    refine ⟨_, rfl, fun i inside => ?_⟩
    simp only [Heap.read, update_self, whole, if_pos inside, splice]
    split
    · rfl
    · rw [content i (by omega), shape.image_above (by simp only [owns, map_nil, sizes]; omega)]
  · have apart := shape.apart.resolve_left (Ne.symm same)
    rw [if_neg same, shape.outermost rfl, parent, Heap.fill_eq there (by omega)]
    simp only [bind, Except.bind, Heap.free,
      update_of_ne (parent ▸ Ne.symm same : ctx.memory.dataHandle ≠ arena.origin), live]
    refine ⟨_, rfl, fun i inside => ?_⟩
    simp only [Heap.read, update_of_ne (parent ▸ same : arena.origin ≠ _),
      update_self, whole, if_pos inside, splice]
    rw [if_pos (by omega)]

end Running

end

/-- A step or a run of the frames and one of those with a memory each. -/
def Agrees {α β : Type} (room : Prop) (rel : α → β → Prop) : Except Stop α → Option β → Prop
  | .ok value, some value' => rel value value'
  | .error .refused, none => True
  | .error .taken, _ => True
  | .error .assertion, _ => ¬ room
  | _, _ => False

section

variable {α β : Type} {room room' : Prop} {rel rel' : α → β → Prop} {post : α → Prop}

theorem Safe.agrees {first : Except Stop α} {value' : β} (safe : Safe room post first)
    (related : ∀ value, post value → rel value value') : Agrees room rel first (some value') := by
  match first, safe with
  | .ok value, holds => exact related value holds
  | .error .taken, _ => trivial
  | .error .assertion, full => exact full

theorem Agrees.bind {first : Except Stop α} {next : α → Except Stop α} {first' : Option β}
    {next' : β → Option β} (agrees : Agrees room rel first first')
    (rest : ∀ value value', rel value value' → Agrees room rel' (next value) (next' value')) :
    Agrees room rel' (first >>= next) (first' >>= next') := by
  match first, first', agrees with
  | .ok value, some value', holds => exact rest value value' holds
  | .error .refused, none, _ => trivial
  | .error .taken, _, _ => trivial
  | .error .assertion, _, full => exact full

theorem Agrees.imp {first : Except Stop α} {first' : Option β}
    (agrees : Agrees room rel first first') (small : room' → room)
    (related : ∀ value value', first' = some value' → rel value value' → rel' value value') :
    Agrees room' rel' first first' := by
  match first, first', agrees with
  | .ok value, some value', holds => exact related value value' rfl holds
  | .error .refused, none, _ => trivial
  | .error .taken, _, _ => trivial
  | .error .assertion, _, full => exact fun here => full (small here)

end

section

variable {arena : Arena} {heap : Heap} {ctx : Context} {own : OwnFrame} {below twins : List Twin}

theorem Running.leave (running : Running arena heap ctx own below)
    (accounts : Accounts arena.mip3 ctx own) {ending : Ending} (hostGas : Nat)
    (alive : own.exited = false ∨ ending = .error) :
    Safe (ctx.memory.data < 2 ^ 30)
      (Related arena · (OwnFrames.leave arena.mip3 own (owns below) ending hostGas))
      (Frames.leave arena.mip3 heap ctx (below.map Twin.ctx) ending hostGas) := by
  refine (running.result accounts alive).bind fun result found => ?_
  match below with
  | [] =>
    obtain ⟨cleared, done, zero⟩ := running.cleared
    rw [map_nil, done]
    exact ⟨[], rfl, rfl, zero⟩
  | ⟨parent, parentOwn⟩ :: below =>
    obtain ⟨_, parentAccounts, parentAlive, _⟩ := running.rest
    obtain ⟨heap', memory, done, next⟩ := running.returned
    have place : own.retOffset + own.retSize ≤ parentOwn.size := running.shape.result _ rfl
    have waiting : Accounts arena.mip3 { parent with memory } parentOwn := { parentAccounts with }
    have charged := waiting.deduct parentAlive (own.given - max 0 (result.2 - hostGas))
    have next : Running arena heap' _ _ below := ⟨{ next.shape with
      : Shape arena (Context.deductGas { parent with memory } (own.given -
        max 0 (result.2 - hostGas))) (parentOwn.deduct arena.mip3 (own.given -
        max 0 (result.2 - hostGas))) below }, next.held, next.rest⟩
    rw [map_cons]
    dsimp only
    rw [done, accounts.given, running.shape.retOffset, running.shape.retSize]
    unfold OwnFrames.leave
    rw [owns, map_cons] at found ⊢
    dsimp only [bind, Except.bind]
    rw [← found]
    by_cases out : (parentOwn.deduct arena.mip3 (own.given -
        max 0 (result.2 - hostGas))).exited = true
    · rw [if_pos (charged.exited.trans out), if_pos out]
      exact ⟨⟨_, _⟩ :: below, rfl, rfl, next, charged⟩
    · rw [if_neg fun other => out (charged.exited.symm.trans other), if_neg out]
      have inside : own.retOffset + (result.1.take own.retSize).length ≤ parentOwn.size := by
        rw [length_take]
        omega
      obtain ⟨stored, wrote, last⟩ := next.store inside
      rw [wrote]
      exact ⟨⟨_, _⟩ :: below, rfl, rfl, last, { charged with }⟩

theorem Inv.step (inv : Inv arena heap twins) (op : FrameOp) :
    Agrees (sizes (owns twins).tail < 2 ^ 30) (Related arena)
      (Frames.step arena.mip3 ⟨heap, twins.map Twin.ctx⟩ op)
      (OwnFrames.step arena.mip3 (owns twins) op) := by
  match twins, inv with
  | [], _ => trivial
  | ⟨ctx, own⟩ :: below, ⟨running, accounts⟩ =>
    have room : sizes (owns (⟨ctx, own⟩ :: below)).tail = ctx.memory.data := running.shape.data.symm
    rw [room]
    change Agrees _ _ (Frames.step arena.mip3 ⟨heap, ctx :: below.map Twin.ctx⟩ op)
      (OwnFrames.step arena.mip3 (own :: owns below) op)
    unfold Frames.step OwnFrames.step
    dsimp only
    by_cases going : own.exited = true ∧ op.failing = false
    · rw [if_pos ⟨accounts.exited.trans going.1, going.2⟩, if_pos going]
      trivial
    · rw [if_neg fun other => going ⟨accounts.exited.symm.trans other.1, other.2⟩, if_neg going]
      have stays : op.failing = false → own.exited = false := fun fails =>
        Bool.eq_false_iff.mpr fun out => going ⟨out, fails⟩
      cases op with
      | expandMemory minSize newHandle =>
        have alive := stays rfl
        refine ((running.expandMemory accounts alive minSize.isLt newHandle).bind
          fun grown next => ?_).agrees fun _ related => related
        exact ⟨⟨grown.2, _⟩ :: below, rfl, rfl, next⟩
      | write offset bytes =>
        dsimp only
        rw [running.shape.size]
        by_cases inside : offset + bytes.length ≤ own.size
        · obtain ⟨stored, wrote, next⟩ := running.store inside
          rw [if_pos inside, if_pos inside, wrote]
          exact ⟨⟨ctx, _⟩ :: below, rfl, rfl, next, { accounts with }⟩
        · rw [if_neg inside, if_neg inside]
          trivial
      | deductGas gas =>
        exact ⟨⟨_, _⟩ :: below, rfl, rfl, ⟨{ running.shape with }, running.held, running.rest⟩,
          accounts.deduct (stays rfl) gas⟩
      | enterBlock baseGas =>
        exact ⟨⟨_, _⟩ :: below, rfl, rfl, ⟨{ running.shape with }, running.held, running.rest⟩,
          { accounts.deduct (stays rfl) baseGas with block := rfl }⟩
      | call request newHandle =>
        dsimp only
        rw [accounts.block, length_map, owns, length_map]
        split
        · refine ((running.callImpl accounts (stays rfl) request newHandle _).bind
            fun called next => ?_).agrees fun _ related => related
          obtain ⟨twins, contexts, frames, next⟩ := next
          exact ⟨twins ++ below, by simp [contexts],
            (congrArg (· ++ owns below) frames).trans map_append.symm, next⟩
        · trivial
      | returnTo ending hostGas =>
        refine (running.leave accounts hostGas ?_).agrees fun _ related => related
        cases ending with
        | error => exact .inr rfl
        | output offset size => exact .inl (stays rfl)

/-- What holds of the frames with a memory each, where every step keeps it, holds of the frames. -/
theorem Related.run {good : List OwnFrame → Prop} (room : Prop)
    (enough : ∀ own, good own → room → sizes own.tail < 2 ^ 30)
    (keeps : ∀ own op own', good own → OwnFrames.step arena.mip3 own op = some own' → good own')
    {frames : Frames} {own : List OwnFrame} (related : Related arena frames own) (holds : good own)
    (ops : List FrameOp) :
    Agrees room (fun frames own => Related arena frames own ∧ good own)
      (frames.run arena.mip3 ops) (OwnFrames.run arena.mip3 own ops) := by
  induction ops generalizing frames own with
  | nil => exact ⟨related, holds⟩
  | cons op rest ih =>
    obtain ⟨heap, contexts⟩ := frames
    obtain ⟨twins, same, rfl, inv⟩ := related
    obtain rfl : contexts = _ := same
    have next := (inv.step op).imp (enough _ holds) fun _ own' step related =>
      And.intro related (keeps _ op own' holds step)
    exact next.bind fun _ _ both => ih both.1 both.2

theorem start_related (arena : Arena) (gas : Int) :
    Related arena (Frames.start arena.origin arena.capacity gas) [{ given := gas }] := by
  have cost : memoryCostFromWordCount arena.mip3 (0 / 32) = 0 := by
    cases arena.mip3 <;> rfl
  have live := update_self arena.origin (some (Buffer.mk arena.capacity fun _ => 0))
    (fun _ => none)
  refine ⟨[⟨_, { given := gas }⟩], rfl, rfl, ⟨⟨rfl, rfl, rfl, Nat.zero_le _, Nat.zero_le _,
    cost.symm, fun _ _ => rfl, rfl, fun _ => rfl, .inl rfl, rfl, Nat.le_refl 0, rfl, rfl, rfl, ?_⟩,
    ⟨_, live, (Nat.zero_add _).symm, fun i _ => ?_⟩, ⟨_, live, rfl⟩⟩, rfl, rfl, rfl, fun _ => ?_⟩
  · rintro parent none
    cases none
  · simp only [image, owns, map_nil, sizes, Nat.not_lt_zero, if_false]
  · simp only [OwnFrame.gasRemaining, cost]
    omega

end

structure Shows (arena : Arena) (heap : Heap) (ctx : Context) (own : OwnFrame) : Prop where
  size : ctx.memory.size = own.size
  memory : ∀ i < own.size,
    heap.read ctx.memory.dataHandle (ctx.memory.data + i) = some (own.bytes i)
  inputSize : ctx.inputDataSize = own.input.length
  input : ∀ i < own.input.length,
    heap.read ctx.inputHandle (ctx.inputData + i) = own.input[i]?
  exited : ctx.exited = own.exited
  gas : own.exited = false → ctx.gasRemaining = own.gasRemaining arena.mip3
  aligned : own.size % 32 = 0
  fits : own.size ≤ ctx.memory.capacity

section

variable {arena : Arena} {heap : Heap} {ctx : Context} {own : OwnFrame} {below twins : List Twin}

theorem Shape.shows (shape : Shape arena ctx own below) (accounts : Accounts arena.mip3 ctx own)
    (held : Held heap ctx (own :: owns below) (sizes (own :: owns below)))
    (rest : AllSound arena heap below) : Shows arena heap ctx own := by
  obtain ⟨buffer, live, length, content⟩ := held
  have fits := shape.fits
  have data := shape.data
  have total : sizes (own :: owns below) = own.size + sizes (owns below) := rfl
  have inputSize : ctx.inputDataSize = own.input.length := by
    rw [shape.input, length_map, length_range]
  refine ⟨shape.size, fun i inside => ?_, inputSize, fun i inside => ?_, accounts.exited,
    accounts.gas, shape.aligned, fits⟩
  · have place : ctx.memory.data + i < buffer.length := by omega
    simp only [Heap.read, live, if_pos place]
    rw [content _ (by omega), image, if_neg (by omega), data, Nat.add_sub_cancel_left]
  · have low := shape.inputInside
    rw [shape.inputHandle, shape.parent, shape.input, getElem?_map, getElem?_range (by omega)]
    match below, rest with
    | [], _ =>
      have low : ctx.inputData + ctx.inputDataSize ≤ 0 := low
      omega
    | ⟨parent, parentOwn⟩ :: below, ⟨parentShape, _, _, ⟨buffer', live', length', content'⟩, _⟩ =>
      have fits' := parentShape.fits
      have data' := parentShape.data
      have low : ctx.inputData + ctx.inputDataSize ≤ parentOwn.size + sizes (owns below) := low
      have place : ctx.inputData + i < buffer'.length := by omega
      simp only [Heap.read, handleBelow, live', if_pos place, Option.map_some]
      rw [content' _ (by rw [sizes]; omega)]
      rfl

namespace Running

variable (running : Running arena heap ctx own below)

include running

theorem shows (accounts : Accounts arena.mip3 ctx own) : Shows arena heap ctx own := by
  obtain ⟨shape, ⟨buffer, live, length, content⟩, rest⟩ := running
  have fits := shape.fits
  have data := shape.data
  refine shape.shows accounts ⟨buffer, live, length, fun i low => content i ?_⟩ rest
  rw [sizes] at low
  omega

theorem zeros {i : Nat} (above : ctx.memory.size ≤ i) (inside : i < ctx.memory.capacity) :
    heap.read ctx.memory.dataHandle (ctx.memory.data + i) = some 0 := by
  obtain ⟨shape, ⟨buffer, live, length, content⟩, _⟩ := running
  have size := shape.size
  have data := shape.data
  have place : ctx.memory.data + i < buffer.length := by omega
  simp only [Heap.read, live, if_pos place]
  rw [content _ (by omega), shape.image_above (by omega)]

end Running

theorem AllSound.shows (sound : AllSound arena heap twins) :
    Forall₂ (Shows arena heap) (twins.map Twin.ctx) (owns twins) := by
  induction twins with
  | nil => exact .nil
  | cons twin below ih =>
    obtain ⟨shape, accounts, _, held, rest⟩ := sound
    exact .cons (shape.shows accounts held rest) (ih rest)

end

/-- The frames of a transaction over one buffer do what frames with a memory each do: they make
the same steps, and at any time each has the same bytes, input and gas. No memory is touched that
is not allocated, the running frame finds zeros above its size, and in the end the first buffer
is zero again. -/
theorem frames_have_own_memory (arena : Arena) (gas : Int) (ops : List FrameOp) :
    let shared := (Frames.start arena.origin arena.capacity gas).run arena.mip3 ops
    let apart := OwnFrames.run arena.mip3 [{ given := gas }] ops
    (∀ frames, shared = .ok frames → ∃ own, apart = some own ∧
      Forall₂ (Shows arena frames.heap) frames.contexts own ∧
      (∀ ctx ∈ frames.contexts.head?, ∀ i, ctx.memory.size ≤ i → i < ctx.memory.capacity →
        frames.heap.read ctx.memory.dataHandle (ctx.memory.data + i) = some 0) ∧
      (frames.contexts = [] → ∀ i < arena.capacity, frames.heap.read arena.origin i = some 0)) ∧
    (shared = .error .refused → apart = none) ∧
    shared ≠ .error .fault ∧ shared ≠ .error .overflow := by
  intro shared apart
  have agrees : Agrees False (fun frames own => Related arena frames own ∧ True) shared apart :=
    (start_related arena gas).run False (fun _ _ none => none.elim) (fun _ _ _ _ _ => trivial)
      trivial ops
  match shared, apart, agrees with
  | .error .refused, none, _ => simp
  | .error .taken, _, _ => simp
  | .error .assertion, _, _ => simp
  | .ok ⟨heap, contexts⟩, some frames, ⟨⟨twins, same, found, inv⟩, _⟩ =>
    obtain rfl : contexts = _ := same
    subst found
    refine ⟨?_, nofun, nofun, nofun⟩
    intro frames done
    obtain rfl := Except.ok.inj done
    refine ⟨_, rfl, ?_⟩
    match twins, inv with
    | [], zero =>
      refine ⟨.nil, ?_, fun _ => zero⟩
      rintro ctx none
      cases none
    | ⟨ctx, own⟩ :: below, ⟨running, accounts⟩ =>
      refine ⟨.cons (running.shows accounts) running.rest.shows, ?_, fun none => nomatch none⟩
      intro top same i above inside
      obtain rfl : ctx = top := Option.some.inj same
      exact running.zeros above inside

def returningCall : List FrameOp :=
  [.enterBlock 50, .expandMemory 32 1, .write 0 [1, 2],
    .call { argsSize := 2, retOffset := 32, retSize := 3, gasWord := 50000, hasValue := true } 1,
    .expandMemory 96 2, .write 64 [7, 8, 9], .deductGas 21, .returnTo (.output 64 3) 0]

theorem frames_have_own_memory_call :
    ∃ frames own, (Frames.start 0 64 100000).run false returningCall = .ok frames ∧
      OwnFrames.run false [{ given := 100000 }] returningCall = some own ∧
      Forall₂ (Shows ⟨false, 0, 64⟩ frames.heap) frames.contexts own ∧
      frames.contexts.map (fun ctx => (ctx.memory.dataHandle, ctx.memory.capacity)) = [(2, 320)] ∧
      own.map (fun own => (own.load 0 64, own.gasRemaining false)) =
        [([1, 2] ++ replicate 30 0 ++ [7, 8, 9] ++ replicate 29 0, 93214)] := by
  obtain ⟨frames, done⟩ : ∃ frames,
      (Frames.start 0 64 100000).run false returningCall = .ok frames := ⟨_, rfl⟩
  obtain ⟨own, same, shows, _⟩ :=
    (frames_have_own_memory ⟨false, 0, 64⟩ 100000 returningCall).1 frames done
  have moved : ((Frames.start 0 64 100000).run false returningCall).toOption.map
      (·.contexts.map fun ctx => (ctx.memory.dataHandle, ctx.memory.capacity)) =
        some [(2, 320)] := by decide
  have values : (OwnFrames.run false [{ given := 100000 }] returningCall).map
      (·.map fun own => (own.load 0 64, own.gasRemaining false)) =
        some [([1, 2] ++ replicate 30 0 ++ [7, 8, 9] ++ replicate 29 0, 93214)] := by decide
  rw [done] at moved
  rw [same] at values
  exact ⟨frames, own, done, same, shows, Option.some.inj moved, Option.some.inj values⟩

end MonadChain.Vm
