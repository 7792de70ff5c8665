import MonadChain.Rlp.Items

/-!
The encoders write the items of the format: encode2.hpp as far as its length counters reach, the
in-place encoders of core/rlp wherever the destination has room.
-/

namespace MonadChain.Rlp

open Scanner List

variable {string payload d input rest : Bytes} {args : List Bytes} {base size n value : Nat}

theorem encodeString2_eq (small : string.length < 2 ^ 32) :
    encodeString2 string = stringItem string := by
  unfold encodeString2 stringItem itemHeader
  rw [Nat.mod_eq_of_lt small]
  by_cases single : string.length = 1 ∧ string.headD 0 ≤ 0x7f
  · rw [if_pos single, if_pos single]
  · rw [if_neg single, if_neg single]
    by_cases long : 55 < string.length
    · rw [if_pos long, if_neg (Nat.not_le.mpr long), toBigCompact_four small]
      rfl
    · rw [if_neg long, if_pos (Nat.not_lt.mp long)]
      rfl

theorem encodeList2_eq (small : args.flatten.length < 2 ^ 64) :
    encodeList2 args = listItem args.flatten := by
  unfold encodeList2 listItem itemHeader
  rw [← length_flatten, Nat.mod_eq_of_lt small]
  by_cases long : 55 < args.flatten.length
  · rw [if_pos long, if_neg (Nat.not_le.mpr long)]
    rfl
  · rw [if_neg long, if_pos (Nat.not_lt.mp long)]
    rfl

theorem length_itemHeader (fits : size < 2 ^ 64) :
    (itemHeader base size).length = if size ≤ 55 then 1 else 1 + lengthLength size := by
  unfold itemHeader
  split
  · rfl
  · rw [length_cons, lengthLength_eq fits, Nat.add_comm]

theorem length_stringItem (fits : string.length < 2 ^ 64) :
    (stringItem string).length = stringLength string := by
  unfold stringItem stringLength
  by_cases single : string.length = 1 ∧ string.headD 0 ≤ 0x7f
  · rw [if_pos single, if_pos single, single.1]
  · rw [if_neg single, if_neg single, length_append, length_itemHeader fits]
    split <;> rfl

theorem length_listItem (fits : payload.length < 2 ^ 64) :
    (listItem payload).length = listLength payload.length := by
  unfold listItem listLength
  rw [length_append, length_itemHeader fits]
  split <;> rfl

theorem sizeable_of_small (small : payload.length < 2 ^ 32) :
    Sizeable (itemHeader base payload.length ++ payload) := by
  have header := length_itemHeader_le base payload.length
  rw [Sizeable, length_append]
  omega

theorem sizeable_stringItem (small : string.length < 2 ^ 32) : Sizeable (stringItem string) := by
  unfold stringItem
  split
  · rw [Sizeable]
    omega
  · exact sizeable_of_small small

theorem sizeable_listItem (small : payload.length < 2 ^ 32) :
    Sizeable (listItem payload) := sizeable_of_small small

theorem length_le_stringItem (string : Bytes) : string.length ≤ (stringItem string).length := by
  unfold stringItem
  split
  · exact Nat.le_refl _
  · rw [length_append]
    omega

theorem length_le_listItem (payload : Bytes) : payload.length ≤ (listItem payload).length := by
  rw [listItem, length_append]
  omega

/-- The eight bytes of `encode_length` are the length bytes and zeros, which the
next write covers. -/
theorem encodeLength_eq (fits : n < 2 ^ 64) (room : 8 ≤ d.length) :
    encodeLength d n = some (toBigCompact 8 n,
      replicate (8 - (toBigCompact 8 n).length) 0 ++ d.drop 8) := by
  have short := length_toBigCompact_le 8 n
  have bytes := lengthLength_eq fits
  have zeros : countlZero n / 8 = 8 - (toBigCompact 8 n).length := by
    have few : countlZero n / 8 ≤ 8 := by
      unfold countlZero
      omega
    unfold lengthLength at bytes
    omega
  have kept : 8 - (8 - (toBigCompact 8 n).length) = (toBigCompact 8 n).length := by omega
  have recovered := @loadBe_toBigCompact 8 n (by simpa using fits)
  have stored : storeBe 8 (if n ≠ 0 then
      n * 2 ^ ((8 - (toBigCompact 8 n).length) * 8) % 2 ^ 64 else n) =
      toBigCompact 8 n ++ replicate (8 - (toBigCompact 8 n).length) 0 := by
    generalize toBigCompact 8 n = compact at *
    have total : (compact ++ replicate (8 - compact.length) (0 : UInt8)).length = 8 := by
      rw [length_append, length_replicate]
      omega
    have shifted := loadBe_append_zeros compact (8 - compact.length)
    have bound := loadBe_lt (compact ++ replicate (8 - compact.length) 0)
    have same := storeBe_loadBe (compact ++ replicate (8 - compact.length) 0)
    have power : 2 ^ ((8 - compact.length) * 8) = 256 ^ (8 - compact.length) := by
      rw [Nat.mul_comm, Nat.pow_mul]
    rw [total, shifted, recovered] at same
    rw [total, shifted, recovered] at bound
    rw [power]
    by_cases zero : n = 0
    · rw [if_neg (by simpa using zero)]
      rw [zero, Nat.zero_mul] at same
      rw [zero]
      exact same
    · rw [if_pos zero, Nat.mod_eq_of_lt (by simpa using bound)]
      exact same
  unfold encodeLength
  dsimp only
  rw [if_neg (Nat.not_lt.mpr room), zeros, stored, kept, append_assoc, take_left, drop_left]

theorem storeCompact_eq (room : size ≤ d.length) :
    storeCompact size n d = storeBe size n ++ d.drop size := by
  induction size generalizing n d with
  | zero => rfl
  | succ size ih =>
    have written : (d.set size (UInt8.ofNat n)).drop size =
        UInt8.ofNat (n % 256) :: d.drop (size + 1) := by
      have inside : size < (d.set size (UInt8.ofNat n)).length := by
        rw [length_set]
        omega
      rw [drop_eq_getElem_cons inside, getElem_set_self, drop_set_of_lt (by omega)]
      have digit : UInt8.ofNat n = UInt8.ofNat (n % 256) := by
        rw [← UInt8.toNat_inj]
        simp
      rw [digit]
    rw [storeCompact, ih (by rw [length_set]; omega), written, storeBe, append_assoc]
    rfl

theorem encodeLengthCompact_eq (fits : n < 2 ^ 64) (room : lengthLength n ≤ d.length) :
    encodeLengthCompact d n = some (toBigCompact 8 n, d.drop (lengthLength n)) := by
  have stored : storeBe (lengthLength n) n = toBigCompact 8 n := by
    have same := storeBe_loadBe (toBigCompact 8 n)
    rw [loadBe_toBigCompact (by simpa using fits)] at same
    rw [lengthLength_eq fits]
    exact same
  unfold encodeLengthCompact
  dsimp only
  rw [if_neg (Nat.not_lt.mpr room), storeCompact_eq room, stored, lengthLength_eq fits,
    take_left, drop_left]

theorem copyPayload_eq {written : Bytes} (room : payload.length ≤ d.length) :
    copyPayload written payload d = some (written ++ payload, d.drop payload.length) :=
  if_neg (Nat.not_lt.mpr room)

theorem encodeLength_copy (written payload d : Bytes) (fits : payload.length < 2 ^ 64)
    (long : 56 ≤ payload.length) (room : lengthLength payload.length + payload.length ≤ d.length) :
    (do let (length, d) ← encodeLength d payload.length
        copyPayload (written ++ length) payload d) =
      some (written ++ toBigCompact 8 payload.length ++ payload,
        d.drop (lengthLength payload.length + payload.length)) := by
  have bounds := lengthBytes_bounds fits long
  have bytes := lengthLength_eq fits
  rw [encodeLength_eq fits (by omega)]
  change copyPayload _ payload _ = _
  rw [copyPayload_eq, drop_append, drop_drop, drop_eq_nil_of_le]
  · rw [length_replicate, nil_append, bytes]
    congr 3
    omega
  · rw [length_replicate]
    omega
  · rw [length_append, length_replicate, length_drop]
    omega

theorem encodeString_eq (fits : string.length < 2 ^ 64) (room : stringLength string ≤ d.length) :
    encodeString d string = some (stringItem string, d.drop (stringLength string)) := by
  unfold encodeString stringItem
  unfold stringLength at room ⊢
  by_cases single : string.length = 1 ∧ string.headD 0 ≤ 0x7f
  · rw [if_pos single] at room
    rw [if_neg (by omega), if_pos single, if_pos single, if_pos single]
    obtain ⟨only, rfl⟩ := length_eq_one_iff.mp single.1
    rfl
  · rw [if_neg single] at room
    rw [if_neg single, if_neg single, if_neg single]
    unfold itemHeader
    by_cases short : string.length ≤ 55
    · rw [if_pos short] at room
      rw [if_neg (by omega), if_pos short, if_pos short, if_pos short, copyPayload_eq, drop_drop]
      rw [length_drop]
      omega
    · rw [if_neg short] at room
      rw [if_neg (by omega), if_neg short, if_neg short, if_neg short]
      have copied := encodeLength_copy [UInt8.ofNat (0xb7 + lengthLength string.length)] string
        (d.drop 1) fits (by omega) (by rw [length_drop]; omega)
      rw [drop_drop, ← Nat.add_assoc] at copied
      rw [← lengthLength_eq fits]
      exact copied

theorem encodeListPrefixCompact_eq (fits : size < 2 ^ 64)
    (room : listLength size - size ≤ d.length) :
    encodeListPrefixCompact d size =
      some (itemHeader 0xc0 size, d.drop (listLength size - size)) := by
  unfold encodeListPrefixCompact itemHeader
  unfold listLength at room ⊢
  by_cases short : size ≤ 55
  · rw [if_pos short, Nat.add_sub_cancel] at room
    rw [if_pos short, if_pos short, if_pos short, encodeListPrefix, if_neg (by omega), if_pos short,
      Nat.add_sub_cancel]
  · rw [if_neg short, Nat.add_sub_cancel] at room
    rw [if_neg short, if_neg short, if_neg short, if_neg (by omega), Nat.add_sub_cancel,
      encodeLengthCompact_eq fits (by rw [length_drop]; omega), drop_drop,
      ← lengthLength_eq fits]
    rfl

theorem encodeList_eq (fits : payload.length < 2 ^ 64)
    (room : listLength payload.length ≤ d.length) :
    encodeList d payload = some (listItem payload, d.drop (listLength payload.length)) := by
  unfold encodeList encodeListPrefix listItem itemHeader
  unfold listLength at room ⊢
  by_cases short : payload.length ≤ 55
  · rw [if_pos short] at room
    rw [if_neg (by omega), if_pos short, if_pos short, if_pos short]
    change copyPayload _ payload _ = _
    rw [copyPayload_eq, drop_drop]
    rw [length_drop]
    omega
  · rw [if_neg short] at room
    rw [if_neg (by omega), if_neg short, if_neg short, if_neg short]
    have copied := encodeLength_copy [UInt8.ofNat (0xf7 + lengthLength payload.length)] payload
      (d.drop 1) fits (by omega) (by rw [length_drop]; omega)
    rw [drop_drop, ← Nat.add_assoc] at copied
    rw [← lengthLength_eq fits, ← singleton_append, ← copied]
    cases encodeLength (d.drop 1) payload.length <;> rfl

theorem parseMetadata_string :
    Accepts parseMetadata input (.string, payload) rest ↔
      Accepts parseStringMetadata input payload rest := by
  unfold Accepts
  cases input with
  | nil => simp [parseMetadata, parseStringMetadata]
  | cons first tail =>
    rw [parseMetadata, parseStringMetadata]
    by_cases isString : first < 0xc0
    · rw [if_pos isString, if_neg (by simpa using isString)]
      cases parseString first (first :: tail) <;>
        simp [bind, Except.bind, pure, Except.pure, Prod.ext_iff]
    · rw [if_neg isString, if_pos (by simpa using isString)]
      cases parseList first (first :: tail) <;> simp [bind, Except.bind, pure, Except.pure]

theorem parseMetadata_list :
    Accepts parseMetadata input (.list, payload) rest ↔
      Accepts parseListMetadata input payload rest := by
  unfold Accepts
  cases input with
  | nil => simp [parseMetadata, parseListMetadata]
  | cons first tail =>
    rw [parseMetadata, parseListMetadata]
    by_cases isString : first < 0xc0
    · rw [if_pos isString, if_pos isString]
      cases parseString first (first :: tail) <;> simp [bind, Except.bind, pure, Except.pure]
    · rw [if_neg isString, if_neg isString]
      cases parseList first (first :: tail) <;>
        simp [bind, Except.bind, pure, Except.pure, Prod.ext_iff]

theorem accepts_decodeUnsigned :
    Accepts (decodeUnsigned size) input value rest ↔
      ∃ payload, Accepts parseStringMetadata input payload rest ∧
        decodeRawNum size payload = .ok value := by
  rw [decodeUnsigned, accepts_bind]
  constructor
  · rintro ⟨payload, middle, parsed, converted⟩
    cases decoded : decodeRawNum size payload with
    | error fault =>
      rw [decoded] at converted
      exact absurd converted not_accepts_fail
    | ok number =>
      rw [decoded] at converted
      obtain ⟨rfl, rfl⟩ := accepts_pure.mp converted
      exact ⟨payload, parsed, decoded⟩
  · rintro ⟨payload, parsed, decoded⟩
    refine ⟨payload, rest, parsed, ?_⟩
    rw [decoded]
    exact accepts_pure.mpr ⟨rfl, rfl⟩

theorem encodeUnsigned_eq (small : size < 2 ^ 32) :
    encodeUnsigned size value = stringItem (toBigCompact size value) :=
  encodeString2_eq (Nat.lt_of_le_of_lt (length_toBigCompact_le size value) small)

theorem decodeUnsigned_exact (small : size < 2 ^ 32) :
    Exact (decodeUnsigned size) (encodeUnsigned size) (fun value => value < 256 ^ size) := by
  intro input value rest
  rw [accepts_decodeUnsigned, encodeUnsigned_eq small]
  constructor
  · rintro ⟨payload, parsed, decoded⟩
    obtain ⟨-, split⟩ := (parseStringMetadata_exact _ _ _).mp parsed
    obtain ⟨fits, rfl⟩ := decodeRawNum_ok.mp decoded
    exact ⟨fits, split⟩
  · rintro ⟨fits, split⟩
    have short := Nat.lt_of_le_of_lt (length_toBigCompact_le size value) small
    exact ⟨_, (parseStringMetadata_exact _ _ _).mpr ⟨sizeable_stringItem short, split⟩,
      decodeRawNum_ok.mpr ⟨fits, rfl⟩⟩

theorem parse_encodeString2 (small : string.length < 2 ^ 32) (rest : Bytes) :
    Accepts parseStringMetadata (encodeString2 string ++ rest) string rest := by
  rw [encodeString2_eq small]
  exact (parseStringMetadata_exact _ _ _).mpr ⟨sizeable_stringItem small, rfl⟩

theorem parse_encodeList2 (small : args.flatten.length < 2 ^ 32)
    (rest : Bytes) : Accepts parseListMetadata (encodeList2 args ++ rest) args.flatten rest := by
  rw [encodeList2_eq (Nat.lt_trans small (by decide))]
  exact (parseListMetadata_exact _ _ _).mpr ⟨sizeable_listItem small, rfl⟩

theorem encodeString2_of_parse (small : input.length < 2 ^ 32)
    (parsed : Accepts parseStringMetadata input payload rest) :
    input = encodeString2 payload ++ rest := by
  obtain ⟨-, split⟩ := (parseStringMetadata_exact _ _ _).mp parsed
  have inside := length_le_stringItem payload
  rw [split, length_append] at small
  rw [encodeString2_eq (by omega)]
  exact split

theorem encodeList2_of_parse (small : input.length < 2 ^ 32)
    (parsed : Accepts parseListMetadata input payload rest) :
    input = encodeList2 [payload] ++ rest := by
  obtain ⟨-, split⟩ := (parseListMetadata_exact _ _ _).mp parsed
  have inside := length_le_listItem payload
  have same : [payload].flatten = payload := append_nil payload
  rw [split, length_append] at small
  rw [encodeList2_eq (by rw [same]; omega), same]
  exact split

def metadataItem : RlpType × Bytes → Bytes
  | (.string, payload) => stringItem payload
  | (.list, payload) => listItem payload

theorem metadataItem_ne_nil (item : RlpType × Bytes) : metadataItem item ≠ [] := by
  obtain ⟨kind, payload⟩ := item
  cases kind with
  | string => exact stringItem_ne_nil payload
  | list => exact listItem_ne_nil payload

theorem parseMetadata_exact :
    Exact parseMetadata metadataItem (fun item => Sizeable (metadataItem item)) := by
  rintro input ⟨kind, payload⟩ rest
  cases kind with
  | string => exact parseMetadata_string.trans (parseStringMetadata_exact _ _ _)
  | list => exact parseMetadata_list.trans (parseListMetadata_exact _ _ _)

def encodeItem : RlpType × Bytes → Bytes
  | (.string, payload) => encodeString2 payload
  | (.list, payload) => encodeList2 [payload]

/-- The item layer is a codec: what the encoders write is read back, whatever
follows it; what the parsers accept is what the encoders write; the in-place
encoders write the same bytes, and as many as the length functions say. -/
theorem item_codec :
    (∀ string rest, string.length < 2 ^ 32 →
      Accepts parseStringMetadata (encodeString2 string ++ rest) string rest) ∧
    (∀ args rest, args.flatten.length < 2 ^ 32 →
      Accepts parseListMetadata (encodeList2 args ++ rest) args.flatten rest) ∧
    (∀ input payload rest, input.length < 2 ^ 32 →
      Accepts parseStringMetadata input payload rest → input = encodeString2 payload ++ rest) ∧
    (∀ input payload rest, input.length < 2 ^ 32 →
      Accepts parseListMetadata input payload rest → input = encodeList2 [payload] ++ rest) ∧
    (∀ input item rest, input.length < 2 ^ 32 →
      Accepts parseMetadata input item rest → input = encodeItem item ++ rest) ∧
    (∀ size ≤ 32, ∀ input value rest, Accepts (decodeUnsigned size) input value rest ↔
      value < 256 ^ size ∧ input = encodeUnsigned size value ++ rest) ∧
    (∀ d string, string.length < 2 ^ 32 → stringLength string ≤ d.length →
      encodeString d string = some (encodeString2 string, d.drop (stringLength string)) ∧
      (encodeString2 string).length = stringLength string) ∧
    (∀ d payload, payload.length < 2 ^ 64 → listLength payload.length ≤ d.length →
      encodeList d payload = some (encodeList2 [payload], d.drop (listLength payload.length)) ∧
      (encodeList2 [payload]).length = listLength payload.length) ∧
    (∀ d payload, payload.length < 2 ^ 64 → listLength payload.length ≤ d.length + payload.length →
      ∃ header, encodeListPrefixCompact d payload.length = some (header, d.drop header.length) ∧
        header ++ payload = encodeList2 [payload] ∧
        header.length + payload.length = listLength payload.length) := by
  have single (payload : Bytes) : [payload].flatten = payload := append_nil payload
  refine ⟨fun string rest small => parse_encodeString2 small rest,
    fun args rest small => parse_encodeList2 small rest,
    fun input payload rest => encodeString2_of_parse,
    fun input payload rest => encodeList2_of_parse, ?_, ?_, ?_, ?_, ?_⟩
  · rintro input ⟨kind, payload⟩ rest small parsed
    cases kind with
    | string => exact encodeString2_of_parse small (parseMetadata_string.mp parsed)
    | list => exact encodeList2_of_parse small (parseMetadata_list.mp parsed)
  · intro size small
    exact decodeUnsigned_exact (by omega)
  · intro d string small room
    rw [encodeString2_eq small]
    exact ⟨encodeString_eq (by omega) room, length_stringItem (by omega)⟩
  · intro d payload fits room
    rw [encodeList2_eq (by rw [single]; exact fits), single]
    exact ⟨encodeList_eq fits room, length_listItem fits⟩
  · intro d payload fits room
    have total := length_listItem fits
    rw [listItem, length_append] at total
    have header : listLength payload.length - payload.length =
        (itemHeader 0xc0 payload.length).length := by omega
    refine ⟨itemHeader 0xc0 payload.length, ?_, ?_, total⟩
    · rw [encodeListPrefixCompact_eq fits (by omega), header]
    · rw [encodeList2_eq (by rw [single]; exact fits), single, listItem]

theorem item_codec_sample :
    Accepts parseStringMetadata (encodeString2 [1, 2] ++ [0xc0]) [1, 2] [0xc0] ∧
    encodeString [0, 0, 0, 7] [1, 2] = some (encodeString2 [1, 2], [7]) :=
  ⟨item_codec.1 [1, 2] [0xc0] (by decide),
    (item_codec.2.2.2.2.2.2.1 [0, 0, 0, 7] [1, 2] (by decide) (by decide)).1⟩

end MonadChain.Rlp
