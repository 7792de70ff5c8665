import MonadChain.Rlp.Codec
import MonadChain.Rlp.Transaction

/-!
Exactness of the decoders of single fields and of lists of them. The lists stand
here in the form of the format, where no length counter wraps; the encoders
agree with it on everything that fits in memory.
-/

namespace MonadChain.Rlp

open Scanner

variable {size : Nat} {α : Type} {next : Unit → Decoder α} {encode : α → Bytes} {value : α}
  {input rest : Bytes}

theorem accepts_failIf {bad : Prop} [Decidable bad] {error : DecodeError} :
    Accepts (failIf bad error >>= next) input value rest ↔
      ¬ bad ∧ Accepts (next ()) input value rest := by
  simp [failIf, stop, Unique.exists_iff]

theorem accepts_monadAssert {holds : Prop} [Decidable holds] {expr : String} :
    Accepts (monadAssert holds expr >>= next) input value rest ↔
      holds ∧ Accepts (next ()) input value rest := by
  simp [monadAssert, Unique.exists_iff]

theorem accepts_end {value : Unit} :
    Accepts decodeEnd input value rest ↔ input = [] ∧ [] = rest := by
  unfold Accepts decodeEnd
  split <;> simp [*]

theorem accepts_decodeEnd :
    Accepts (decodeEnd >>= next) input value rest ↔
      input = [] ∧ Accepts (next ()) [] value rest := by
  simp [accepts_end, Unique.exists_iff, and_assoc]

theorem completes_failIf {bad : Prop} [Decidable bad] {error : DecodeError}
    {base known : α → Prop} (fine : ∀ record, base record → known record → ¬ bad)
    (later : ¬ bad → Completes rest (next ()) encode base known) :
    Completes rest (failIf bad error >>= next) encode base known := by
  intro input record
  rw [accepts_failIf]
  constructor
  · rintro ⟨good, accepted⟩
    exact (later good _ _).mp accepted
  · rintro ⟨both, split⟩
    have good := fine record both.1 both.2
    exact ⟨good, (later good _ _).mpr ⟨both, split⟩⟩

theorem decodeWord_exact (small : size < 2 ^ 32) :
    Exact (decodeWord size) encodeWord (fun _ => True) := by
  intro input word rest
  rw [decodeWord, (decodeUnsigned_exact small).bind]
  constructor
  · rintro ⟨value, middle, fits, split, converted⟩
    obtain ⟨rfl, rfl⟩ := accepts_pure.mp converted
    refine ⟨trivial, ?_⟩
    rw [encodeWord, Fin.val_ofNat, Nat.mod_eq_of_lt fits]
    exact split
  · rintro ⟨-, split⟩
    rw [encodeWord] at split
    refine ⟨word.val, rest, word.isLt, split, accepts_pure.mpr ⟨?_, rfl⟩⟩
    apply Fin.ext
    rw [Fin.val_ofNat, Nat.mod_eq_of_lt word.isLt]

theorem word1_exact : Exact (decodeWord 1) encodeWord (fun _ => True) :=
  decodeWord_exact (by decide)

theorem word8_exact : Exact (decodeWord 8) encodeWord (fun _ => True) :=
  decodeWord_exact (by decide)

theorem word32_exact : Exact (decodeWord 32) encodeWord (fun _ => True) :=
  decodeWord_exact (by decide)

theorem encodeFixed_eq (small : size < 2 ^ 32) (bytes : Fixed size) :
    encodeFixed bytes = stringItem bytes.val := by
  rw [encodeFixed]
  apply encodeString2_eq
  rw [bytes.property]
  exact small

theorem decodeFixed_exact (small : size < 2 ^ 32) :
    Exact (decodeFixed size) encodeFixed (fun _ => True) := by
  intro input bytes rest
  rw [decodeFixed, parseStringMetadata_exact.bind, encodeFixed_eq small]
  constructor
  · rintro ⟨payload, middle, -, split, sized⟩
    by_cases length : payload.length = size
    · rw [dif_pos length] at sized
      obtain ⟨rfl, rfl⟩ := accepts_pure.mp sized
      exact ⟨trivial, split⟩
    · rw [dif_neg length] at sized
      exact absurd sized not_accepts_fail
  · rintro ⟨-, split⟩
    have short : bytes.val.length < 2 ^ 32 := by
      rw [bytes.property]
      exact small
    refine ⟨bytes.val, rest, sizeable_stringItem short, split, ?_⟩
    rw [dif_pos bytes.property]
    exact accepts_pure.mpr ⟨rfl, rfl⟩

theorem decodeAddress_exact : Exact decodeAddress encodeFixed (fun _ => True) :=
  decodeFixed_exact (by decide)

theorem decodeBytes32_exact : Exact decodeBytes32 encodeFixed (fun _ => True) :=
  decodeFixed_exact (by decide)

theorem length_encodeFixed (bytes : Bytes32) : (encodeFixed bytes).length = 33 := by
  have several : ¬ SingleByte bytes.val := by
    rintro ⟨one, -⟩
    rw [bytes.property] at one
    exact absurd one (by decide)
  rw [encodeFixed_eq (by decide), stringItem_of_not_single several, List.length_append,
    bytes.property]
  rfl

theorem encodeFixed_ne_nil (bytes : Bytes32) : encodeFixed bytes ≠ [] := by
  intro none
  have length := length_encodeFixed bytes
  rw [none] at length
  simp at length

theorem decodeOptionalAddress_exact :
    Exact decodeOptionalAddress encodeAddress (fun _ => True) := by
  intro input address rest
  rw [decodeOptionalAddress, parseStringMetadata_exact.bind]
  constructor
  · rintro ⟨payload, middle, -, split, sized⟩
    refine ⟨trivial, ?_⟩
    by_cases length : payload.length = 20
    · rw [dif_pos length] at sized
      obtain ⟨rfl, rfl⟩ := accepts_pure.mp sized
      rw [encodeAddress, encodeFixed_eq (by decide)]
      exact split
    · rw [dif_neg length] at sized
      by_cases long : 20 < payload.length
      · rw [if_pos long] at sized
        exact absurd sized not_accepts_fail
      · rw [if_neg long] at sized
        by_cases some : payload ≠ []
        · rw [if_pos some] at sized
          exact absurd sized not_accepts_fail
        · rw [if_neg some] at sized
          obtain ⟨rfl, rfl⟩ := accepts_pure.mp sized
          rw [not_not] at some
          rw [some] at split
          exact split
  · rintro ⟨-, split⟩
    cases address with
    | none =>
      refine ⟨[], rest, sizeable_stringItem (by decide), split, ?_⟩
      exact accepts_pure.mpr ⟨rfl, rfl⟩
    | some address =>
      rw [encodeAddress, encodeFixed_eq (by decide)] at split
      have short : address.val.length < 2 ^ 32 := by
        rw [address.property]
        decide
      refine ⟨address.val, rest, sizeable_stringItem short, split, ?_⟩
      rw [dif_pos address.property]
      exact accepts_pure.mpr ⟨rfl, rfl⟩

section Lists

variable {read : Decoder α} {valid : α → Prop} {fault : Stop}

theorem accepts_list :
    Accepts (do let payload ← parseListMetadata; whole fault read payload) input value rest ↔
      ∃ payload, Sizeable (listItem payload) ∧ Accepts read payload value [] ∧
        input = listItem payload ++ rest := by
  rw [parseListMetadata_exact.bind]
  constructor
  · rintro ⟨payload, middle, sizeable, split, inner⟩
    obtain ⟨done, rfl⟩ := accepts_whole.mp inner
    exact ⟨payload, sizeable, done, split⟩
  · rintro ⟨payload, sizeable, done, split⟩
    exact ⟨payload, rest, sizeable, split, accepts_whole.mpr ⟨done, rfl⟩⟩

theorem decodeListOf_exact (completes : Completes [] read encode valid fun _ => True) :
    Exact (decodeListOf read) (fun value => listItem (encode value))
      (fun value => valid value ∧ Sizeable (listItem (encode value))) := by
  intro input value rest
  rw [decodeListOf, accepts_list]
  constructor
  · rintro ⟨payload, sizeable, done, split⟩
    obtain ⟨⟨good, -⟩, same⟩ := (completes _ _).mp done
    rw [List.append_nil] at same
    subst same
    exact ⟨⟨good, sizeable⟩, split⟩
  · rintro ⟨⟨good, sizeable⟩, split⟩
    exact ⟨encode value, sizeable,
      (completes _ _).mpr ⟨⟨good, trivial⟩, (List.append_nil _).symm⟩, split⟩

/-- The list of a record. The parts that must fit in memory do so when the list does. -/
theorem decodeListOf_record (fits : α → Prop)
    (inside : ∀ value, Sizeable (listItem (encode value)) → fits value)
    (completes : Completes [] read encode (fun value => valid value ∧ fits value) fun _ => True) :
    Exact (decodeListOf read) (fun value => listItem (encode value))
      (fun value => valid value ∧ Sizeable (listItem (encode value))) := by
  refine (decodeListOf_exact completes).mono fun value => ?_
  constructor
  · rintro ⟨⟨good, -⟩, sizeable⟩
    exact ⟨good, sizeable⟩
  · rintro ⟨good, sizeable⟩
    exact ⟨⟨good, inside value sizeable⟩, sizeable⟩

theorem accepts_repeated (reads : Exact read encode valid) (nonempty : ∀ value, encode value ≠ [])
    {payload : Bytes} {values : List α} :
    Accepts (decodeRepeated read) payload values [] ↔
      (∀ value ∈ values, valid value) ∧ payload = values.flatMap encode := by
  have once := reads.readAll nonempty .unfinished payload.length payload (Nat.le_refl _) values []
  rw [eq_self_iff_true, true_and] at once
  exact once

def vectorItem (encode : α → Bytes) (values : List α) : Bytes := listItem (values.flatMap encode)

theorem accepts_vector (reads : Exact read encode valid) (nonempty : ∀ value, encode value ≠ [])
    {values : List α} :
    Accepts (do let payload ← parseListMetadata
                whole fault (decodeRepeated read) payload) input values rest ↔
      ((∀ value ∈ values, valid value) ∧ Sizeable (vectorItem encode values)) ∧
        input = vectorItem encode values ++ rest := by
  rw [accepts_list]
  constructor
  · rintro ⟨payload, sizeable, done, split⟩
    obtain ⟨good, rfl⟩ := (accepts_repeated reads nonempty).mp done
    exact ⟨⟨good, sizeable⟩, split⟩
  · rintro ⟨⟨good, sizeable⟩, split⟩
    exact ⟨values.flatMap encode, sizeable, (accepts_repeated reads nonempty).mpr ⟨good, rfl⟩,
      split⟩

end Lists

theorem decodeHashes_exact :
    Exact (decodeListOf (decodeRepeated decodeBytes32)) (vectorItem encodeFixed)
      (fun hashes => Sizeable (vectorItem encodeFixed hashes)) := by
  intro input hashes rest
  rw [decodeListOf, accepts_vector decodeBytes32_exact encodeFixed_ne_nil]
  simp

end MonadChain.Rlp
