import Mathlib.Data.List.Basic

/-!
Functions that write to the start of a buffer and return what is left of it. A
writer may scribble on the part it returns, as long as the next one covers it.
-/

namespace MonadChain

/-- The bytes written, and the rest of the buffer; `none` is a write past its end. -/
def BufferWriter (Symbol : Type) : Type := List Symbol → Option (List Symbol × List Symbol)

namespace BufferWriter

variable {Symbol α : Type}

def skip : BufferWriter Symbol := fun d => some ([], d)

def andThen (first second : BufferWriter Symbol) : BufferWriter Symbol := fun d => do
  let (written, d) ← first d
  let (more, d) ← second d
  return (written ++ more, d)

def forEach (write : α → BufferWriter Symbol) : List α → BufferWriter Symbol
  | [] => skip
  | value :: values => (write value).andThen (forEach write values)

def fill (write : BufferWriter Symbol) (buffer : List Symbol) : Option (List Symbol) :=
  match write buffer with
  | some (written, []) => some written
  | _ => none

/-- The writer puts `item` into every buffer with room for it and for `more` bytes. -/
def Puts (write : BufferWriter Symbol) (item : List Symbol) (more : Nat) : Prop :=
  ∀ d : List Symbol, item.length + more ≤ d.length →
    ∃ tail, write d = some (item, tail) ∧ item.length + tail.length = d.length

abbrev Writes (write : BufferWriter Symbol) (item : List Symbol) : Prop := write.Puts item 0

variable {first second write : BufferWriter Symbol} {item next : List Symbol} {more : Nat}

theorem writes_skip : Writes (skip : BufferWriter Symbol) [] := by
  intro d _
  exact ⟨d, rfl, Nat.zero_add _⟩

theorem Puts.andThen (puts : first.Puts item more) (writes : second.Writes next)
    (enough : more ≤ next.length) : (first.andThen second).Writes (item ++ next) := by
  intro d room
  rw [List.length_append] at room
  obtain ⟨middle, written, left⟩ := puts d (by omega)
  obtain ⟨tail, also, rest⟩ := writes middle (by omega)
  refine ⟨tail, ?_, ?_⟩
  · simp [BufferWriter.andThen, written, also]
  · rw [List.length_append]
    omega

theorem Puts.then_writes (puts : first.Writes item) (writes : second.Writes next) :
    (first.andThen second).Writes (item ++ next) :=
  puts.andThen writes (Nat.zero_le _)

theorem writes_forEach {write : α → BufferWriter Symbol} {item : α → List Symbol}
    {values : List α} (each : ∀ value ∈ values, (write value).Writes (item value)) :
    (forEach write values).Writes (values.flatMap item) := by
  induction values with
  | nil => exact writes_skip
  | cons value values ih =>
    obtain ⟨head, tail⟩ := List.forall_mem_cons.mp each
    exact head.then_writes (ih tail)

theorem Puts.fill (writes : write.Writes item) {buffer : List Symbol}
    (sized : buffer.length = item.length) : write.fill buffer = some item := by
  obtain ⟨tail, written, left⟩ := writes buffer (by omega)
  have empty : tail = [] := List.eq_nil_of_length_eq_zero (by omega)
  rw [empty] at written
  simp [BufferWriter.fill, written]

end BufferWriter

end MonadChain
