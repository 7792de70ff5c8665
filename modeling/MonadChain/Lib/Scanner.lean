import Mathlib.Data.List.Basic

/-!
Parsers of a list of symbols that stop with a fault. `Exact` says what a parser accepts: precisely
the valid values in their one encoding, whatever follows.
-/

namespace MonadChain

open List

abbrev Scanner (Fault Symbol : Type) (α : Type) : Type := StateT (List Symbol) (Except Fault) α

namespace Scanner

variable {Fault Symbol α β : Type}

def fail (fault : Fault) : Scanner Fault Symbol α := fun _ => .error fault

def Accepts (read : Scanner Fault Symbol α) (input : List Symbol) (value : α)
    (rest : List Symbol) : Prop :=
  read input = .ok (value, rest)

/-- Runs a parser on a payload of its own, which it must use up. -/
def whole (fault : Fault) (read : Scanner Fault Symbol α) (payload : List Symbol) :
    Scanner Fault Symbol α := fun input =>
  match read payload with
  | .ok (value, []) => .ok (value, input)
  | .ok (_, _ :: _) => .error fault
  | .error stop => .error stop

/-- Reads items until the input is used up. `stuck` marks a loop that has run
more often than it was allowed to. -/
def readAll (stuck : Fault) (read : Scanner Fault Symbol α) :
    Nat → Scanner Fault Symbol (List α)
  | _, [] => .ok ([], [])
  | 0, _ :: _ => .error stuck
  | fuel + 1, symbol :: more => do
    let (value, rest) ← read (symbol :: more)
    let (values, rest) ← readAll stuck read fuel rest
    return (value :: values, rest)

section Accepts

variable {input rest : List Symbol} {read : Scanner Fault Symbol α} {value : α}

@[simp] theorem accepts_pure {a : α} :
    Accepts (pure a : Scanner Fault Symbol α) input value rest ↔ a = value ∧ input = rest := by
  change Except.ok (a, input) = Except.ok (value, rest) ↔ _
  simp

@[simp] theorem accepts_bind {next : α → Scanner Fault Symbol β} {result : β} :
    Accepts (read >>= next) input result rest ↔
      ∃ value middle, Accepts read input value middle ∧
        Accepts (next value) middle result rest := by
  change (read input >>= fun pair => next pair.1 pair.2) = .ok (result, rest) ↔ _
  unfold Accepts
  cases read input with
  | error stop => simp [bind, Except.bind]
  | ok pair => simp [bind, Except.bind, Prod.ext_iff]

@[simp] theorem accepts_map {f : α → β} {result : β} :
    Accepts (f <$> read) input result rest ↔
      ∃ value, Accepts read input value rest ∧ f value = result := by
  rw [← bind_pure_comp, accepts_bind]
  simp

@[simp] theorem not_accepts_fail {fault : Fault} :
    ¬ Accepts (fail fault : Scanner Fault Symbol α) input value rest := by
  intro impossible
  cases impossible

@[simp] theorem accepts_ite {holds : Prop} [Decidable holds] {other : Scanner Fault Symbol α} :
    Accepts (if holds then read else other) input value rest ↔
      if holds then Accepts read input value rest else Accepts other input value rest := by
  split <;> rfl

theorem accepts_whole {fault : Fault} {payload : List Symbol} :
    Accepts (whole fault read payload) input value rest ↔
      Accepts read payload value [] ∧ input = rest := by
  unfold Accepts whole
  split <;> simp [*]

end Accepts

/-- The parser accepts the encodings of valid values and nothing else. -/
def Exact (read : Scanner Fault Symbol α) (encode : α → List Symbol) (valid : α → Prop) : Prop :=
  ∀ input value rest,
    Accepts read input value rest ↔ valid value ∧ input = encode value ++ rest

section Loops

variable {read : Scanner Fault Symbol α} {encode : α → List Symbol} {valid : α → Prop}
  {stuck : Fault} {fuel : Nat} {values : List α} {rest : List Symbol}

theorem readAll_congr {other : Scanner Fault Symbol α}
    (same : ∀ input, input ≠ [] → read input = other input) (input : List Symbol) :
    readAll stuck read fuel input = readAll stuck other fuel input := by
  induction fuel generalizing input with
  | zero =>
    cases input with
    | nil => rfl
    | cons symbol more => rfl
  | succ fuel ih =>
    cases input with
    | nil => rfl
    | cons symbol more =>
      rw [readAll, readAll, same _ (cons_ne_nil _ _)]
      simp only [ih]

theorem accepts_readAll_nil :
    Accepts (readAll stuck read fuel) [] values rest ↔ values = [] ∧ rest = [] := by
  have read_nil : readAll stuck read fuel [] = .ok ([], []) := by
    cases fuel <;> rfl
  rw [Accepts, read_nil]
  simp

theorem readAll_cons {symbol : Symbol} {more : List Symbol} :
    readAll stuck read (fuel + 1) (symbol :: more) =
      (do let value ← read
          let values ← readAll stuck read fuel
          return value :: values : Scanner Fault Symbol (List α)) (symbol :: more) := rfl

theorem accepts_readAll_cons {symbol : Symbol} {more : List Symbol} :
    Accepts (readAll stuck read (fuel + 1)) (symbol :: more) values rest ↔
      ∃ value middle others, Accepts read (symbol :: more) value middle ∧
        Accepts (readAll stuck read fuel) middle others rest ∧ values = value :: others := by
  rw [Accepts, readAll_cons]
  refine accepts_bind.trans ?_
  simp [eq_comm]

theorem flatMap_empty (nonempty : ∀ value, encode value ≠ []) :
    values = [] ∧ rest = [] ↔
      rest = [] ∧ (∀ value ∈ values, valid value) ∧ [] = values.flatMap encode := by
  constructor
  · rintro ⟨rfl, done⟩
    exact ⟨done, by simp, rfl⟩
  · rintro ⟨done, -, none⟩
    cases values with
    | nil => exact ⟨rfl, done⟩
    | cons value others =>
      exact absurd (append_eq_nil_iff.mp none.symm).1 (nonempty value)

end Loops

section Exact

variable {read : Scanner Fault Symbol α} {encode : α → List Symbol} {valid : α → Prop}

theorem Exact.bind (reads : Exact read encode valid) {next : α → Scanner Fault Symbol β}
    {input rest : List Symbol} {result : β} :
    Accepts (read >>= next) input result rest ↔
      ∃ value middle, valid value ∧ input = encode value ++ middle ∧
        Accepts (next value) middle result rest := by
  rw [accepts_bind]
  constructor
  · rintro ⟨value, middle, first, later⟩
    obtain ⟨good, split⟩ := (reads _ _ _).mp first
    exact ⟨value, middle, good, split, later⟩
  · rintro ⟨value, middle, good, split, later⟩
    exact ⟨value, middle, (reads _ _ _).mpr ⟨good, split⟩, later⟩

theorem exact_pure (value : α) (empty : encode value = []) :
    Exact (pure value : Scanner Fault Symbol α) encode (fun other => other = value) := by
  intro input other rest
  rw [accepts_pure]
  constructor
  · rintro ⟨rfl, rfl⟩
    exact ⟨rfl, by rw [empty, nil_append]⟩
  · rintro ⟨rfl, split⟩
    exact ⟨rfl, by rw [split, empty, nil_append]⟩

section Records

variable {next : α → Scanner Fault Symbol β} {part : β → α} {text after : β → List Symbol}
  {base known : β → Prop} {rest : List Symbol}

/-- The parser of a record, or of what is left of it, before one rest of the input: the records
have `base`, and their fields that were read before are `known`. -/
def Completes (rest : List Symbol) (read : Scanner Fault Symbol β) (encode : β → List Symbol)
    (base known : β → Prop) : Prop :=
  ∀ input record, Accepts read input record rest ↔
    (base record ∧ known record) ∧ input = encode record ++ rest

theorem Exact.of_fields (completes : ∀ rest, Completes rest read encode valid fun _ => True) :
    Exact read encode valid := by
  intro input value rest
  rw [completes rest input value, and_true]

theorem Exact.piece (reads : Exact read encode valid) (part : β → α)
    (fits : ∀ record, base record → known record →
      valid (part record) ∧ text record = encode (part record))
    (later : ∀ value, valid value → Completes rest (next value) after base
      fun record => part record = value ∧ known record) :
    Completes rest (read >>= next) (fun record => text record ++ after record) base known := by
  intro input record
  rw [reads.bind]
  dsimp only
  constructor
  · rintro ⟨value, middle, good, rfl, accepted⟩
    obtain ⟨⟨holds, rfl, others⟩, rfl⟩ := (later value good _ _).mp accepted
    refine ⟨⟨holds, others⟩, ?_⟩
    rw [(fits record holds others).2, append_assoc]
  · rintro ⟨⟨holds, others⟩, rfl⟩
    obtain ⟨good, same⟩ := fits record holds others
    rw [same, append_assoc]
    exact ⟨_, _, good, rfl, (later _ good _ _).mpr ⟨⟨holds, rfl, others⟩, rfl⟩⟩

theorem Exact.field (reads : Exact read encode valid)
    (fits : ∀ record, base record → known record → valid (part record))
    (later : ∀ value, valid value → Completes rest (next value) after base
      fun record => part record = value ∧ known record) :
    Completes rest (read >>= next) (fun record => encode (part record) ++ after record)
      base known :=
  reads.piece part (fun record holds others => ⟨fits record holds others, rfl⟩) later

theorem Exact.plain (reads : Exact read encode fun _ => True)
    (later : ∀ value, Completes rest (next value) after base
      fun record => part record = value ∧ known record) :
    Completes rest (read >>= next) (fun record => encode (part record) ++ after record)
      base known :=
  reads.field (fun _ _ _ => trivial) fun value _ => later value

theorem Exact.last {make : α → β} (reads : Exact read encode valid)
    (fits : ∀ record, base record → known record → valid (part record))
    (made : ∀ value, valid value → ∀ record,
      record = make value ↔ base record ∧ part record = value ∧ known record) :
    Completes rest (read >>= fun value => pure (make value))
      (fun record => encode (part record)) base known := by
  have whole : Completes rest (read >>= fun value => pure (make value))
      (fun record => encode (part record) ++ []) base known := by
    refine reads.field fits fun value good input record => ?_
    rw [accepts_pure, ← made value good record, nil_append, eq_comm]
  simpa using whole

end Records

section

variable (reads : Exact read encode valid)

include reads

theorem Exact.mono {other : α → Prop} (same : ∀ value, valid value ↔ other value) :
    Exact read encode other := by
  intro input value rest
  rw [reads, same]

theorem Exact.encode_inj {first second : α} (good : valid first) (also : valid second)
    (same : encode first = encode second) :
    first = second := by
  have one : Accepts read (encode first ++ []) first [] := (reads _ _ _).mpr ⟨good, rfl⟩
  have two : Accepts read (encode first ++ []) second [] :=
    (reads _ _ _).mpr ⟨also, by rw [same]⟩
  unfold Accepts at one two
  rw [one] at two
  cases two
  rfl

/-- A loop of exact reads is exact if it may run once per symbol. -/
theorem Exact.readAll (nonempty : ∀ value, encode value ≠ []) (stuck : Fault) (fuel : Nat)
    (input : List Symbol) (enough : input.length ≤ fuel) (values : List α) (rest : List Symbol) :
    Accepts (readAll stuck read fuel) input values rest ↔
      rest = [] ∧ (∀ value ∈ values, valid value) ∧ input = values.flatMap encode := by
  induction fuel generalizing input values with
  | zero =>
    rw [eq_nil_of_length_eq_zero (Nat.le_zero.mp enough), accepts_readAll_nil]
    exact flatMap_empty nonempty
  | succ fuel ih =>
    cases input with
    | nil =>
      rw [accepts_readAll_nil]
      exact flatMap_empty nonempty
    | cons symbol more =>
      rw [accepts_readAll_cons]
      constructor
      · rintro ⟨value, middle, others, first, later, rfl⟩
        obtain ⟨good, split⟩ := (reads _ _ _).mp first
        have shorter : middle.length ≤ fuel := by
          have positive := length_pos_of_ne_nil (nonempty value)
          have total := congrArg length split
          simp only [length_cons, length_append] at total enough
          omega
        obtain ⟨done, allGood, tail⟩ := (ih middle shorter others).mp later
        refine ⟨done, ?_, ?_⟩
        · intro other member
          rcases mem_cons.mp member with rfl | inner
          · exact good
          · exact allGood other inner
        · rw [split, tail, flatMap_cons]
      · rintro ⟨done, allGood, whole⟩
        cases values with
        | nil => simp at whole
        | cons value others =>
          rw [flatMap_cons] at whole
          have good := allGood value mem_cons_self
          have shorter : (others.flatMap encode).length ≤ fuel := by
            have positive := length_pos_of_ne_nil (nonempty value)
            have total := congrArg length whole
            simp only [length_cons, length_append] at total enough
            omega
          refine ⟨value, others.flatMap encode, others, ?_, ?_, rfl⟩
          · exact (reads _ _ _).mpr ⟨good, whole⟩
          · exact (ih _ shorter others).mpr
              ⟨done, fun other inner => allGood other (mem_cons_of_mem _ inner), rfl⟩

end

end Exact

def Stops (bad : Fault → Prop) (read : Scanner Fault Symbol α) (input : List Symbol) : Prop :=
  ∃ fault, bad fault ∧ read input = .error fault

def Safe (bad : Fault → Prop) (read : Scanner Fault Symbol α) : Prop :=
  ∀ input, ¬ Stops bad read input

def Consumes (read : Scanner Fault Symbol α) : Prop :=
  ∀ input value rest, input ≠ [] → Accepts read input value rest → rest.length < input.length

inductive Reaches (read : Scanner Fault Symbol α) : List Symbol → List Symbol → Prop where
  | here (input : List Symbol) : Reaches read input input
  | step {input middle tail : List Symbol} {value : α} (nonempty : input ≠ [])
      (first : Accepts read input value middle) (later : Reaches read middle tail) :
      Reaches read input tail

section Faults

variable {bad : Fault → Prop} {read : Scanner Fault Symbol α} {input : List Symbol} {stuck : Fault}
  {fuel : Nat}

@[simp] theorem not_stops_pure {value : α} :
    ¬ Stops bad (pure value : Scanner Fault Symbol α) input := by
  rintro ⟨fault, -, impossible⟩
  cases impossible

theorem stops_fail {fault : Fault} :
    Stops bad (fail fault : Scanner Fault Symbol α) input ↔ bad fault := by
  simp [Stops, fail]

@[simp] theorem stops_bind {next : α → Scanner Fault Symbol β} :
    Stops bad (read >>= next) input ↔ Stops bad read input ∨
      ∃ value rest, Accepts read input value rest ∧ Stops bad (next value) rest := by
  unfold Stops Accepts
  change (∃ fault, bad fault ∧ (read input >>= fun pair => next pair.1 pair.2) = .error fault) ↔ _
  cases read input with
  | error fault => simp [bind, Except.bind]
  | ok pair => simp [bind, Except.bind, Prod.ext_iff]

@[simp] theorem stops_map {f : α → β} : Stops bad (f <$> read) input ↔ Stops bad read input := by
  rw [← bind_pure_comp, stops_bind]
  simp

@[simp] theorem Safe.not_stops (safe : Safe bad read) : ¬ Stops bad read input := safe input

theorem Safe.bind {next : α → Scanner Fault Symbol β} (safe : Safe bad read)
    (later : ∀ value, Safe bad (next value)) : Safe bad (read >>= next) := by
  intro input stops
  rcases stops_bind.mp stops with first | ⟨value, rest, -, second⟩
  · exact safe input first
  · exact later value rest second

theorem stops_whole {fault : Fault} {payload : List Symbol} :
    Stops bad (whole fault read payload) input ↔ Stops bad read payload ∨
      (bad fault ∧ ∃ value symbol rest, Accepts read payload value (symbol :: rest)) := by
  unfold Stops Accepts whole
  cases first : read payload with
  | error stop => simp
  | ok pair =>
    obtain ⟨value, rest⟩ := pair
    cases rest with
    | nil => simp
    | cons symbol rest => simp

theorem Exact.consumes {encode : α → List Symbol} {valid : α → Prop}
    (reads : Exact read encode valid) (nonempty : ∀ value, encode value ≠ []) : Consumes read := by
  intro input value rest _ accepted
  obtain ⟨-, rfl⟩ := (reads _ _ _).mp accepted
  have positive := length_pos_of_ne_nil (nonempty value)
  rw [length_append]
  omega

theorem readAll_rest {values : List α} {rest : List Symbol}
    (accepted : Accepts (readAll stuck read fuel) input values rest) : rest = [] := by
  induction fuel generalizing input values with
  | zero =>
    cases input with
    | nil => exact (accepts_readAll_nil.mp accepted).2
    | cons symbol more => cases accepted
  | succ fuel ih =>
    cases input with
    | nil => exact (accepts_readAll_nil.mp accepted).2
    | cons symbol more =>
      obtain ⟨_, _, _, -, later, -⟩ := accepts_readAll_cons.mp accepted
      exact ih later

theorem readAll_cons_stops {symbol : Symbol} {more : List Symbol} :
    Stops bad (readAll stuck read (fuel + 1)) (symbol :: more) ↔ Stops bad read (symbol :: more) ∨
      ∃ value rest, Accepts read (symbol :: more) value rest ∧
        Stops bad (readAll stuck read fuel) rest := by
  rw [Stops, readAll_cons]
  refine stops_bind.trans ?_
  simp

theorem Reaches.of_nil {tail : List Symbol} (reaches : Reaches read [] tail) : tail = [] := by
  cases reaches with
  | here => rfl
  | step nonempty first later => exact absurd rfl nonempty

theorem not_stops_readAll_nil : ¬ Stops bad (readAll stuck read fuel) [] := by
  rintro ⟨fault, -, impossible⟩
  cases fuel <;> cases impossible

theorem stops_readAll (consumes : Consumes read) (stuck : Fault) (fuel : Nat)
    (input : List Symbol) (enough : input.length ≤ fuel) :
    Stops bad (readAll stuck read fuel) input ↔
      ∃ tail, tail ≠ [] ∧ Reaches read input tail ∧ Stops bad read tail := by
  have empty (fuel : Nat) : Stops bad (readAll stuck read fuel) [] ↔
      ∃ tail, tail ≠ [] ∧ Reaches read [] tail ∧ Stops bad read tail := by
    constructor
    · intro stops
      exact absurd stops not_stops_readAll_nil
    · rintro ⟨tail, nonempty, reaches, -⟩
      exact absurd reaches.of_nil nonempty
  induction fuel generalizing input with
  | zero =>
    rw [eq_nil_of_length_eq_zero (Nat.le_zero.mp enough)]
    exact empty 0
  | succ fuel ih =>
    cases input with
    | nil => exact empty (fuel + 1)
    | cons symbol more =>
      rw [readAll_cons_stops]
      constructor
      · rintro (first | ⟨value, rest, first, later⟩)
        · exact ⟨symbol :: more, cons_ne_nil _ _, .here _, first⟩
        · have shorter := consumes _ _ _ (cons_ne_nil _ _) first
          obtain ⟨tail, nonempty, reaches, stops⟩ := (ih rest (by omega)).mp later
          exact ⟨tail, nonempty, .step (cons_ne_nil _ _) first reaches, stops⟩
      · rintro ⟨tail, nonempty, reaches, stops⟩
        cases reaches with
        | here => exact .inl stops
        | step some first later =>
          have shorter := consumes _ _ _ some first
          exact .inr ⟨_, _, first, (ih _ (by omega)).mpr ⟨tail, nonempty, later, stops⟩⟩

theorem Exact.reaches_iff {encode : α → List Symbol} {valid : α → Prop}
    (reads : Exact read encode valid) (nonempty : ∀ value, encode value ≠ []) {tail : List Symbol} :
    Reaches read input tail ↔
      ∃ values : List α, (∀ value ∈ values, valid value) ∧
        input = values.flatMap encode ++ tail := by
  constructor
  · intro reaches
    induction reaches with
    | here => exact ⟨[], by simp, rfl⟩
    | @step _ _ _ value _ first later ih =>
      obtain ⟨good, rfl⟩ := (reads _ _ _).mp first
      obtain ⟨values, all, rfl⟩ := ih
      refine ⟨value :: values, ?_, ?_⟩
      · intro other member
        rcases mem_cons.mp member with rfl | inner
        · exact good
        · exact all other inner
      · rw [flatMap_cons, append_assoc]
  · rintro ⟨values, all, rfl⟩
    induction values with
    | nil => exact .here _
    | cons value values ih =>
      rw [flatMap_cons, append_assoc]
      refine .step ?_ ((reads _ _ _).mpr ⟨all value mem_cons_self, rfl⟩) (ih ?_)
      · intro empty
        exact nonempty value (append_eq_nil_iff.mp empty).1
      · intro other member
        exact all other (mem_cons_of_mem _ member)

end Faults

end Scanner

end MonadChain
