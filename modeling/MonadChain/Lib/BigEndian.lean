import Mathlib.Algebra.GroupWithZero.Nat
import Mathlib.Data.List.Induction
import Mathlib.Data.Nat.Size

/-!
Numbers as big-endian bytes: at a fixed width, and without leading zeros.
-/

namespace MonadChain

open List

variable {size value : Nat} (bytes : Bytes)

abbrev Bytes := List UInt8

def loadBe (bytes : Bytes) : Nat :=
  bytes.foldl (fun value byte => value * 256 + byte.toNat) 0

def storeBe : Nat → Nat → Bytes
  | 0, _ => []
  | size + 1, value => storeBe size (value / 256) ++ [UInt8.ofNat (value % 256)]

def zeroless (bytes : Bytes) : Bytes := bytes.dropWhile (· = 0)

theorem loadBe_append (byte : UInt8) :
    loadBe (bytes ++ [byte]) = loadBe bytes * 256 + byte.toNat := by
  simp [loadBe]

theorem loadBe_lt : loadBe bytes < 256 ^ bytes.length := by
  induction bytes using reverseRec with
  | nil => simp [loadBe]
  | append_singleton bytes byte ih =>
    have small := byte.toNat_lt
    rw [loadBe_append, length_append, length_singleton, Nat.pow_succ]
    omega

@[simp] theorem length_storeBe (size value : Nat) : (storeBe size value).length = size := by
  induction size generalizing value with
  | zero => rfl
  | succ size ih => simp [storeBe, ih]

theorem loadBe_storeBe (size value : Nat) : loadBe (storeBe size value) = value % 256 ^ size := by
  induction size generalizing value with
  | zero => simp [storeBe, loadBe, Nat.mod_one]
  | succ size ih =>
    have digit : (UInt8.ofNat (value % 256)).toNat = value % 256 := by
      simp
    rw [storeBe, loadBe_append, ih, digit, Nat.pow_succ, Nat.mul_comm (256 ^ size), Nat.mod_mul]
    omega

theorem storeBe_pad (room : Nat) (bytes : Bytes) :
    storeBe (room + bytes.length) (loadBe bytes) = replicate room 0 ++ bytes := by
  induction bytes using reverseRec with
  | nil =>
    induction room with
    | zero => rfl
    | succ room ih =>
      have zeros : storeBe room 0 = replicate room 0 := by
        simpa [loadBe] using ih
      simp [storeBe, loadBe, zeros, replicate_succ']
  | append_singleton bytes byte ih =>
    have small := byte.toNat_lt
    have quotient : (loadBe bytes * 256 + byte.toNat) / 256 = loadBe bytes := by omega
    have remainder : (loadBe bytes * 256 + byte.toNat) % 256 = byte.toNat := by omega
    rw [length_append, length_singleton, ← Nat.add_assoc, storeBe, loadBe_append,
      quotient, remainder, ih, UInt8.ofNat_toNat, append_assoc]

theorem storeBe_loadBe : storeBe bytes.length (loadBe bytes) = bytes := by
  have padded := storeBe_pad 0 bytes
  rwa [Nat.zero_add] at padded

theorem loadBe_append_zeros (count : Nat) :
    loadBe (bytes ++ replicate count 0) = loadBe bytes * 256 ^ count := by
  induction count with
  | zero => simp
  | succ count ih =>
    have zero : (0 : UInt8).toNat = 0 := rfl
    rw [replicate_succ', ← append_assoc, loadBe_append, ih, zero, Nat.pow_succ,
      Nat.add_zero, Nat.mul_assoc]

theorem loadBe_zeroless : loadBe (zeroless bytes) = loadBe bytes := by
  induction bytes with
  | nil => rfl
  | cons byte rest ih =>
    by_cases zero : byte = 0
    · subst zero
      have skip : zeroless (0 :: rest) = zeroless rest := by simp [zeroless]
      rw [skip, ih]
      rfl
    · have stop : zeroless (byte :: rest) = byte :: rest := by simp [zeroless, zero]
      rw [stop]

theorem length_zeroless_le : (zeroless bytes).length ≤ bytes.length :=
  (dropWhile_sublist _).length_le

def Minimal (bytes : Bytes) : Prop := bytes.head? ≠ some 0

theorem zeroless_minimal : Minimal (zeroless bytes) := by
  induction bytes with
  | nil => simp [Minimal, zeroless]
  | cons byte rest ih =>
    by_cases zero : byte = 0
    · subst zero
      exact ih
    · simp [Minimal, zeroless, zero]

theorem zeroless_of_minimal {bytes : Bytes} (minimal : Minimal bytes) (room : Nat) :
    zeroless (replicate room 0 ++ bytes) = bytes := by
  induction room with
  | zero =>
    cases bytes with
    | nil => rfl
    | cons byte rest =>
      have nonzero : byte ≠ 0 := fun zero => minimal (by simp [zero])
      simp [zeroless, nonzero]
  | succ room ih =>
    rw [replicate_succ, cons_append]
    have skip : zeroless (0 :: (replicate room 0 ++ bytes)) =
        zeroless (replicate room 0 ++ bytes) := by simp [zeroless]
    rw [skip, ih]

/-- The shortest big-endian form of a number that fits in `size` bytes. -/
def toBigCompact (size value : Nat) : Bytes := zeroless (storeBe size value)

theorem loadBe_toBigCompact (fits : value < 256 ^ size) :
    loadBe (toBigCompact size value) = value := by
  rw [toBigCompact, loadBe_zeroless, loadBe_storeBe, Nat.mod_eq_of_lt fits]

theorem toBigCompact_minimal (size value : Nat) : Minimal (toBigCompact size value) :=
  zeroless_minimal _

theorem length_toBigCompact_le (size value : Nat) : (toBigCompact size value).length ≤ size := by
  have shorter := length_zeroless_le (storeBe size value)
  rw [length_storeBe] at shorter
  exact shorter

theorem toBigCompact_loadBe {bytes : Bytes} (minimal : Minimal bytes)
    (fits : bytes.length ≤ size) : toBigCompact size (loadBe bytes) = bytes := by
  obtain ⟨room, rfl⟩ := Nat.exists_eq_add_of_le' fits
  rw [toBigCompact, storeBe_pad, zeroless_of_minimal minimal]

theorem length_toBigCompact_le_iff {width : Nat} (fits : value < 256 ^ size)
    (room : width ≤ size) : (toBigCompact size value).length ≤ width ↔ value < 256 ^ width := by
  constructor
  · intro short
    have bound := loadBe_lt (toBigCompact size value)
    rw [loadBe_toBigCompact fits] at bound
    exact Nat.lt_of_lt_of_le bound (Nat.pow_le_pow_right (by decide) short)
  · intro small
    have same : toBigCompact size value = toBigCompact width value := by
      have recovered := toBigCompact_loadBe (toBigCompact_minimal width value)
        (Nat.le_trans (length_toBigCompact_le width value) room)
      rw [loadBe_toBigCompact small] at recovered
      exact recovered
    rw [same]
    exact length_toBigCompact_le width value

end MonadChain
