import MonadChain.Rlp.Encode
import MonadChain.Rlp.Decode

/-!
The item layer of RLP. `stringItem` and `listItem` are the one encoding an item has; the parsers
accept exactly these, and the encoders of both headers write them.
-/

namespace MonadChain.Rlp

open Scanner List

variable {size value : Nat} {enc string : Bytes}

def itemHeader (base size : Nat) : Bytes :=
  if size ≤ 55 then [UInt8.ofNat (base + size)]
  else UInt8.ofNat (base + 55 + (toBigCompact 8 size).length) :: toBigCompact 8 size

def stringItem (string : Bytes) : Bytes :=
  if string.length = 1 ∧ string.headD 0 ≤ 0x7f then string
  else itemHeader 0x80 string.length ++ string

def listItem (payload : Bytes) : Bytes := itemHeader 0xc0 payload.length ++ payload

def Sizeable (item : Bytes) : Prop := item.length < 2 ^ 64

theorem listItem_ne_nil (payload : Bytes) : listItem payload ≠ [] := by
  unfold listItem itemHeader
  split <;> simp

theorem stringItem_ne_nil (string : Bytes) : stringItem string ≠ [] := by
  unfold stringItem itemHeader
  split
  · rename_i single
    intro empty
    rw [empty] at single
    simp at single
  · split <;> simp

theorem toBigCompact_four (small : size < 2 ^ 32) : toBigCompact 4 size = toBigCompact 8 size := by
  have room : (toBigCompact 4 size).length ≤ 8 :=
    Nat.le_trans (length_toBigCompact_le 4 size) (by decide)
  have recovered := toBigCompact_loadBe (toBigCompact_minimal 4 size) room
  rw [loadBe_toBigCompact (by simpa using small)] at recovered
  exact recovered.symm

theorem lengthLength_eq {n : Nat} (fits : n < 2 ^ 64) :
    lengthLength n = (toBigCompact 8 n).length := by
  have wide : n < 256 ^ 8 := by simpa using fits
  have bits : Nat.size n ≤ 64 := Nat.size_le.mpr fits
  have needs : ∀ width ≤ 8, (toBigCompact 8 n).length ≤ width ↔ Nat.size n ≤ 8 * width := by
    intro width room
    rw [length_toBigCompact_le_iff wide room, Nat.size_le, Nat.pow_mul]
  have atMost := (needs ((Nat.size n + 7) / 8) (by omega)).mpr (by omega)
  have atLeast := (needs _ (length_toBigCompact_le 8 n)).mp (Nat.le_refl _)
  unfold lengthLength countlZero
  omega

theorem refuse_ok {α : Type} {bad : Prop} [Decidable bad] {fault : Stop} {read : Except Stop α}
    {value : α} :
    (if bad then .error fault else read) = .ok value ↔ ¬ bad ∧ read = .ok value := by
  split
  · simp [*]
  · simp [*]

theorem extractPayload_ok {payload rest : Bytes} {i length : Nat} (fits : length < 2 ^ 64) :
    extractPayload enc i length = .ok (payload, rest) ↔
      i + length < 2 ^ 64 ∧ i ≤ enc.length ∧ payload.length = length ∧
        enc.drop i = payload ++ rest := by
  unfold extractPayload
  rw [refuse_ok]
  constructor
  · rintro ⟨inside, extracted⟩
    have exactEnd : (i + length) % 2 ^ 64 = i + length := by omega
    rw [exactEnd] at inside extracted
    cases extracted
    refine ⟨by omega, by omega, ?_, ?_⟩
    · rw [List.length_take, List.length_drop]
      omega
    · rw [← List.drop_drop, List.take_append_drop]
  · rintro ⟨small, start, size, split⟩
    have total : enc.length = i + length + rest.length := by
      have length_eq := congrArg List.length split
      rw [List.length_drop, List.length_append] at length_eq
      omega
    have exactEnd : (i + length) % 2 ^ 64 = i + length := Nat.mod_eq_of_lt small
    rw [exactEnd, ← List.drop_drop, split, ← size, List.take_left, List.drop_left]
    exact ⟨by omega, rfl⟩

theorem decodeRawNum_ok :
    decodeRawNum size enc = .ok value ↔ value < 256 ^ size ∧ enc = toBigCompact size value := by
  have shortest : (if enc = [] then .ok 0 else if enc.headD 0 = 0 then
      .error (.decode .leadingZero) else .ok (loadBe enc)) = (.ok value : Except Stop Nat) ↔
        Minimal enc ∧ loadBe enc = value := by
    cases enc with
    | nil => simp [Minimal, loadBe]
    | cons byte more => simp [refuse_ok, Minimal]
  rw [decodeRawNum, refuse_ok, shortest]
  constructor
  · rintro ⟨short, minimal, rfl⟩
    exact ⟨Nat.lt_of_lt_of_le (loadBe_lt enc) (Nat.pow_le_pow_right (by decide) (by omega)),
      (toBigCompact_loadBe minimal (by omega)).symm⟩
  · rintro ⟨fits, rfl⟩
    exact ⟨Nat.not_lt.mpr (length_toBigCompact_le size value), toBigCompact_minimal size value,
      loadBe_toBigCompact fits⟩

theorem parseLong_ok {first : UInt8} {tail payload rest : Bytes} {lengthOfLength : Nat}
    (positive : 0 < lengthOfLength) :
    parseLong (first :: tail) lengthOfLength = .ok (payload, rest) ↔
      56 ≤ payload.length ∧ (toBigCompact 8 payload.length).length = lengthOfLength ∧
        1 + lengthOfLength + payload.length < 2 ^ 64 ∧
        tail = toBigCompact 8 payload.length ++ payload ++ rest := by
  rw [parseLong, refuse_ok, length_cons, drop_succ_cons, drop_zero]
  constructor
  · rintro ⟨room, parsed⟩
    cases decoded : decodeLength (tail.take lengthOfLength) with
    | error fault =>
      rw [decoded] at parsed
      cases parsed
    | ok length =>
      obtain ⟨fits, bytes⟩ := decodeRawNum_ok.mp decoded
      rw [decoded] at parsed
      obtain ⟨long, extracted⟩ := refuse_ok.mp parsed
      obtain ⟨small, -, rfl, split⟩ := (extractPayload_ok (by simpa using fits)).mp extracted
      rw [Nat.add_comm 1, drop_succ_cons] at split
      refine ⟨by omega, ?_, small, ?_⟩
      · rw [← bytes, length_take]
        omega
      · rw [append_assoc, ← split, ← bytes, take_append_drop]
  · rintro ⟨long, rfl, small, rfl⟩
    have fits : payload.length < 2 ^ 64 := by omega
    have decoded : decodeLength (toBigCompact 8 payload.length) = .ok payload.length :=
      decodeRawNum_ok.mpr ⟨by simpa using fits, rfl⟩
    have split : (first :: (toBigCompact 8 payload.length ++ payload ++ rest)).drop
        (1 + (toBigCompact 8 payload.length).length) = payload ++ rest := by
      rw [Nat.add_comm 1, drop_succ_cons, append_assoc, drop_left]
    rw [append_assoc, take_left, decoded, ← append_assoc]
    simp only [length_append]
    refine ⟨by omega, refuse_ok.mpr ⟨by omega, (extractPayload_ok fits).mpr
      ⟨small, ?_, rfl, split⟩⟩⟩
    simp only [length_cons, length_append]
    omega

theorem eq_ofNat_iff {byte : UInt8} (small : value < 256) :
    byte = UInt8.ofNat value ↔ byte.toNat = value := by
  constructor
  · rintro rfl
    exact Nat.mod_eq_of_lt small
  · rintro rfl
    exact UInt8.ofNat_toNat.symm

theorem lengthBytes_bounds (fits : size < 2 ^ 64) (long : 56 ≤ size) :
    0 < (toBigCompact 8 size).length ∧ (toBigCompact 8 size).length ≤ 8 := by
  refine ⟨?_, length_toBigCompact_le 8 size⟩
  by_contra none
  have small := (length_toBigCompact_le_iff (by simpa using fits) (Nat.zero_le 8)).mp
    (Nat.le_of_not_lt none)
  omega

theorem length_itemHeader_le (base size : Nat) : (itemHeader base size).length ≤ 9 := by
  have short := length_toBigCompact_le 8 size
  unfold itemHeader
  split
  · simp
  · simp only [length_cons]
    omega

section Forms

variable {base : Nat} {first : UInt8} {tail payload rest : Bytes}

section

variable (room : base ≤ 0xc0)

include room

theorem header_iff : Sizeable (itemHeader base payload.length ++ payload) ∧
        first :: tail = itemHeader base payload.length ++ payload ++ rest ↔
      payload.length ≤ 55 ∧ first.toNat = base + payload.length ∧ tail = payload ++ rest ∨
      56 ≤ payload.length ∧ 0 < (toBigCompact 8 payload.length).length ∧
        1 + (toBigCompact 8 payload.length).length + payload.length < 2 ^ 64 ∧
        first.toNat = base + 55 + (toBigCompact 8 payload.length).length ∧
        (toBigCompact 8 payload.length).length ≤ 8 ∧
        tail = toBigCompact 8 payload.length ++ payload ++ rest := by
  unfold Sizeable itemHeader
  by_cases short : payload.length ≤ 55
  · have fits : 1 + payload.length < 2 ^ 64 := by omega
    have long : ¬ 56 ≤ payload.length := by omega
    rw [if_pos short, cons_append, nil_append, cons_append, cons.injEq, eq_ofNat_iff (by omega)]
    simp only [length_cons, Nat.add_comm payload.length, fits, short, long, true_and, false_and,
      or_false]
  · have long : 56 ≤ payload.length := by omega
    have lengthBytes := length_toBigCompact_le 8 payload.length
    rw [if_neg short, cons_append, cons_append, cons.injEq, eq_ofNat_iff (by omega)]
    simp only [length_cons, length_append, short, long, lengthBytes, true_and, false_and, false_or]
    constructor
    · rintro ⟨sizeable, start, split⟩
      exact ⟨(lengthBytes_bounds (by omega) long).1, by omega, start, split⟩
    · rintro ⟨-, sizeable, start, split⟩
      exact ⟨by omega, start, split⟩

theorem shortForm_ok (low : base ≤ first.toNat) (high : first.toNat ≤ base + 55) :
    extractPayload (first :: tail) 1 (first.toNat - base) = .ok (payload, rest) ↔
      Sizeable (itemHeader base payload.length ++ payload) ∧
        first :: tail = itemHeader base payload.length ++ payload ++ rest := by
  rw [extractPayload_ok (by omega), header_iff room]
  constructor
  · rintro ⟨-, -, size, split⟩
    exact .inl ⟨by omega, by omega, split⟩
  · rintro (⟨small, start, split⟩ | ⟨long, some, -, start, -, -⟩)
    · exact ⟨by omega, by simp, by omega, split⟩
    · omega

theorem longForm_ok (high : base + 55 < first.toNat) :
    parseLong (first :: tail) (first.toNat - (base + 55)) = .ok (payload, rest) ↔
      Sizeable (itemHeader base payload.length ++ payload) ∧
        first :: tail = itemHeader base payload.length ++ payload ++ rest := by
  rw [parseLong_ok (by omega), header_iff room]
  have lengthBytes := length_toBigCompact_le 8 payload.length
  constructor
  · rintro ⟨long, same, small, split⟩
    exact .inr ⟨long, by omega, by omega, by omega, lengthBytes, split⟩
  · rintro (⟨small, start, -⟩ | ⟨long, -, small, start, -, split⟩)
    · omega
    · exact ⟨long, by omega, by omega, split⟩

theorem header_head (sizeable : Sizeable (itemHeader base payload.length ++ payload))
    (split : first :: tail = itemHeader base payload.length ++ payload ++ rest) :
    base ≤ first.toNat ∧ first.toNat < base + 64 := by
  rcases (header_iff room).mp ⟨sizeable, split⟩ with ⟨small, start, -⟩ | ⟨-, -, -, start, few, -⟩
  · omega
  · omega

end

end Forms

theorem parseListMetadata_exact :
    Exact parseListMetadata listItem (fun payload => Sizeable (listItem payload)) := by
  intro input payload rest
  unfold Accepts
  cases input with
  | nil =>
    constructor
    · intro parsed
      cases parsed
    · rintro ⟨-, none⟩
      exact absurd (append_eq_nil_iff.mp none.symm).1 (listItem_ne_nil payload)
  | cons first tail =>
    rw [parseListMetadata, refuse_ok, parseList, UInt8.lt_iff_toNat_lt]
    by_cases isString : first.toNat < 0xc0
    · constructor
      · rintro ⟨isList, -⟩
        exact absurd isString isList
      · rintro ⟨sizeable, split⟩
        have range := header_head (Nat.le_refl _) sizeable split
        omega
    · refine (and_iff_right isString).trans ?_
      by_cases short : first.toNat < 0xf8
      · rw [if_pos (UInt8.lt_iff_toNat_lt.mpr short)]
        exact shortForm_ok (Nat.le_refl _) (by omega) (by omega)
      · rw [if_neg (fun below => short (UInt8.lt_iff_toNat_lt.mp below))]
        exact longForm_ok (Nat.le_refl 0xc0) (by omega)

def SingleByte (string : Bytes) : Prop := string.length = 1 ∧ string.headD 0 ≤ 0x7f

theorem stringItem_of_single (single : SingleByte string) :
    stringItem string = string := if_pos single

theorem stringItem_of_not_single (several : ¬ SingleByte string) :
    stringItem string = itemHeader 0x80 string.length ++ string := if_neg several

section Strings

variable {first : UInt8} {tail payload rest : Bytes}

theorem stringItem_iff :
    Sizeable (stringItem payload) ∧ first :: tail = stringItem payload ++ rest ↔
      first.toNat < 0x80 ∧ payload = [first] ∧ tail = rest ∨
      ¬ SingleByte payload ∧ Sizeable (itemHeader 0x80 payload.length ++ payload) ∧
        first :: tail = itemHeader 0x80 payload.length ++ payload ++ rest := by
  by_cases single : SingleByte payload
  · obtain ⟨only, rfl⟩ := length_eq_one_iff.mp single.1
    have small : only.toNat < 0x80 := Nat.lt_succ_of_le (UInt8.le_iff_toNat_le.mp single.2)
    rw [stringItem_of_single single, Sizeable, singleton_append, cons.injEq, cons.injEq]
    simp only [single, not_true_eq_false, false_and, or_false, length_singleton]
    constructor
    · rintro ⟨-, rfl, same⟩
      exact ⟨small, ⟨rfl, trivial⟩, same⟩
    · rintro ⟨-, ⟨rfl, -⟩, same⟩
      exact ⟨by decide, rfl, same⟩
  · rw [stringItem_of_not_single single]
    refine ⟨fun item => .inr ⟨single, item⟩, ?_⟩
    rintro (⟨small, rfl, -⟩ | ⟨-, item⟩)
    · exact absurd ⟨rfl, UInt8.le_iff_toNat_le.mpr (Nat.le_of_lt_succ small)⟩ single
    · exact item

theorem refused_iff (split : tail = payload ++ rest) (start : first.toNat - 0x80 = payload.length) :
    (first.toNat - 0x80 = 1 ∧ (first :: tail).length < 2 ∨
      first.toNat - 0x80 = 1 ∧ (first :: tail).getD 1 0 < 0x80) ↔ SingleByte payload := by
  rw [start, split]
  cases payload with
  | nil => simp [SingleByte]
  | cons byte more =>
    have small : byte < 0x80 ↔ byte ≤ 0x7f := by
      exact Nat.lt_succ_iff
    cases more with
    | nil => simp [SingleByte, small, show ¬ rest.length + 1 + 1 < 2 by omega]
    | cons => simp [SingleByte]

theorem parseString_ok (isString : first.toNat < 0xc0) :
    parseString first (first :: tail) = .ok (payload, rest) ↔
      Sizeable (stringItem payload) ∧ first :: tail = stringItem payload ++ rest := by
  rw [stringItem_iff, parseString]
  by_cases tiny : first.toNat < 0x80
  · rw [if_pos (UInt8.lt_iff_toNat_lt.mpr tiny), extractPayload_ok (by decide), drop_zero]
    constructor
    · rintro ⟨-, -, length, split⟩
      obtain ⟨only, rfl⟩ := length_eq_one_iff.mp length
      rw [singleton_append, cons.injEq] at split
      exact .inl ⟨tiny, by rw [split.1], split.2⟩
    · rintro (⟨-, rfl, rfl⟩ | ⟨-, sizeable, split⟩)
      · exact ⟨by decide, Nat.zero_le _, rfl, rfl⟩
      · exact absurd (header_head (by decide) sizeable split).1 (by simpa using tiny)
  · rw [if_neg (fun low => tiny (UInt8.lt_iff_toNat_lt.mp low)),
      or_iff_right (fun single => tiny single.1)]
    by_cases short : first.toNat < 0xb8
    · rw [if_pos (UInt8.lt_iff_toNat_lt.mpr short)]
      rw [refuse_ok, refuse_ok, shortForm_ok (by decide) (by simpa using tiny) (by omega),
        ← and_assoc, ← not_or]
      refine and_congr_left fun item => not_congr ?_
      rcases (header_iff (by decide)).mp item with ⟨-, start, split⟩ | ⟨-, some, -, start, -, -⟩
      · exact refused_iff split (by omega)
      · omega
    · rw [if_neg (fun low => short (UInt8.lt_iff_toNat_lt.mp low))]
      refine (longForm_ok (show 0x80 ≤ 0xc0 by decide) (by omega)).trans ?_
      refine (and_iff_right_of_imp fun item single => ?_).symm
      have length := single.1
      rcases (header_iff (by decide)).mp item with ⟨-, start, -⟩ | ⟨long, -⟩
      · omega
      · omega

end Strings

theorem parseStringMetadata_exact :
    Exact parseStringMetadata stringItem (fun string => Sizeable (stringItem string)) := by
  intro input payload rest
  unfold Accepts
  cases input with
  | nil =>
    constructor
    · intro parsed
      cases parsed
    · rintro ⟨-, none⟩
      exact absurd (append_eq_nil_iff.mp none.symm).1 (stringItem_ne_nil payload)
  | cons first tail =>
    rw [parseStringMetadata, refuse_ok, UInt8.le_iff_toNat_le]
    by_cases isList : 0xc0 ≤ first.toNat
    · refine ⟨fun parsed => absurd isList parsed.1, fun item => ?_⟩
      rcases stringItem_iff.mp item with ⟨low, -⟩ | ⟨-, sizeable, split⟩
      · omega
      · have range := header_head (by decide) sizeable split
        omega
    · exact (and_iff_right isList).trans (parseString_ok (by simpa using isList))

end MonadChain.Rlp
