import MonadChain.Lib.CircularWindow
import MonadChain.Mpt.RootOffsets

/-!
The ring as a map from versions to root offsets. All valid versions lie between the two bounds,
which are never further apart than the ring is long: so each of them has a slot of its own.
-/

namespace MonadChain.Mpt

open Option Function

variable {v count : Nat} {offset : Offset}

abbrev History : Type := Nat → Option Offset

namespace Ring

variable {ring after : Ring} {map : History} {i version lowerBound : Nat} {o : Option Offset}

structure Tracks (ring : Ring) (map : History) : Prop where
  power : ∃ k, ring.capacity = 2 ^ k
  ordered : ring.versionLowerBound ≤ ring.nextVersion
  fits : ring.nextVersion ≤ ring.versionLowerBound + ring.capacity
  numbers : ring.nextVersion < 2 ^ 64
  holds : CircularWindow.Holds ring.capacity ring.slots ring.versionLowerBound map
  bounded : ∀ v, map v ≠ none → ring.versionLowerBound ≤ v ∧ v < ring.nextVersion

/-- The lower bound has been moved up as far as it goes: to a valid version, or to the
last one. -/
def Tight (ring : Ring) (map : History) : Prop :=
  0 < ring.nextVersion → ring.versionLowerBound < ring.nextVersion ∧
    (ring.versionLowerBound + 1 = ring.nextVersion ∨ map ring.versionLowerBound ≠ none)

structure Settled (ring : Ring) (map : History) : Prop extends Tracks ring map where
  tight : ring.Tight map

namespace Tracks

section

variable (tracks : ring.Tracks map)

include tracks

theorem positive : 0 < ring.capacity := by
  obtain ⟨k, size⟩ := tracks.power
  rw [size]
  exact Nat.two_pow_pos k

theorem place_eq (v : Nat) : ring.place v = v % ring.capacity := by
  obtain ⟨k, size⟩ := tracks.power
  rw [place, size, Nat.and_two_pow_sub_one_eq_mod]

theorem slot_eq (low : ring.versionLowerBound ≤ v)
    (high : v < ring.nextVersion) : ring.slot v = map v := by
  have fits := tracks.fits
  rw [slot, tracks.place_eq]
  exact tracks.holds v low (by omega)

theorem above (high : ring.nextVersion ≤ v) : map v = none := by
  by_contra valid
  have := (tracks.bounded v valid).2
  omega

theorem below (low : v < ring.versionLowerBound) : map v = none := by
  by_contra valid
  have := (tracks.bounded v valid).1
  omega

theorem maxVersion_eq :
    ring.maxVersion = invalidBlockNum ∧ ring.nextVersion = 0 ∨
      ring.maxVersion ≠ invalidBlockNum ∧ ring.maxVersion + 1 = ring.nextVersion := by
  have numbers := tracks.numbers
  unfold maxVersion invalidBlockNum
  split
  · exact Or.inl ⟨rfl, ‹_›⟩
  · right
    omega

theorem empty_of (none_left : ring.nextVersion = 0) : map = fun _ => none := by
  funext v
  exact tracks.above (by omega)

theorem store (low : ring.versionLowerBound ≤ i)
    (high : i < ring.nextVersion) : (ring.store i o).Tracks (update map i o) where
  power := tracks.power
  ordered := tracks.ordered
  fits := tracks.fits
  numbers := tracks.numbers
  holds := by
    have fits := tracks.fits
    show CircularWindow.Holds ring.capacity (update ring.slots (ring.place i) o)
      ring.versionLowerBound _
    rw [tracks.place_eq]
    exact tracks.holds.update low (by omega)
  bounded := by
    intro v valid
    by_cases same : v = i
    · rw [same]
      exact ⟨low, high⟩
    · rw [update_of_ne same] at valid
      exact tracks.bounded v valid

theorem lower (down : i ≤ ring.versionLowerBound) (fits : ring.nextVersion ≤ i + ring.capacity) :
    { ring with versionLowerBound := i }.Tracks map where
  power := tracks.power
  ordered := le_trans down tracks.ordered
  fits := fits
  numbers := tracks.numbers
  holds := by
    have ordered := tracks.ordered
    show CircularWindow.Holds ring.capacity ring.slots i map
    refine tracks.holds.lower down (by omega) fun v low high => ?_
    rw [tracks.above (by omega), tracks.below high]
  bounded := by
    intro v valid
    have within := tracks.bounded v valid
    exact ⟨le_trans down within.1, within.2⟩

theorem raise {bound : Nat} (up : ring.versionLowerBound ≤ bound)
    (ordered : bound ≤ ring.nextVersion)
    (passed : ∀ v, ring.versionLowerBound ≤ v → v < bound → map v = none) :
    { ring with versionLowerBound := bound }.Tracks map where
  power := tracks.power
  ordered := ordered
  fits := le_trans tracks.fits (Nat.add_le_add_right up _)
  numbers := tracks.numbers
  holds := by
    have fits := tracks.fits
    show CircularWindow.Holds ring.capacity ring.slots bound map
    refine tracks.holds.raise up (by omega) fun v low high => ?_
    rw [tracks.above (by omega), passed v low high]
  bounded := by
    intro v valid
    have within := tracks.bounded v valid
    refine ⟨?_, within.2⟩
    by_contra early
    exact valid (passed v within.1 (Nat.lt_of_not_le early))

theorem setNext (next : Nat)
    (ordered : ring.versionLowerBound ≤ next) (fits : next ≤ ring.versionLowerBound + ring.capacity)
    (numbers : next < 2 ^ 64) (passed : ∀ v, next ≤ v → map v = none) :
    { ring with nextVersion := next }.Tracks map where
  power := tracks.power
  ordered := ordered
  fits := fits
  numbers := numbers
  holds := tracks.holds
  bounded := by
    intro v valid
    refine ⟨(tracks.bounded v valid).1, ?_⟩
    by_contra late
    exact valid (passed v (Nat.le_of_not_lt late))

end

end Tracks

theorem scan_spec (ring : Ring) (gap idx : Nat) :
    idx ≤ ring.scan gap idx ∧ ring.scan gap idx ≤ idx + gap ∧
    (∀ v, idx ≤ v → v < ring.scan gap idx → ring.slot v = none) ∧
    (ring.scan gap idx < idx + gap → ring.slot (ring.scan gap idx) ≠ none) := by
  induction gap generalizing idx with
  | zero => exact ⟨le_rfl, le_rfl, fun v low high => absurd low (not_le.2 high),
      fun less => absurd less (lt_irrefl _)⟩
  | succ gap ih =>
    unfold scan
    split
    · rename_i empty
      obtain ⟨low, high, passed, stopped⟩ := ih (idx + 1)
      refine ⟨by omega, by omega, fun v lowV highV => ?_, fun less => stopped (by omega)⟩
      by_cases first : v = idx
      · rw [first]
        exact empty
      · exact passed v (by omega) highV
    · rename_i valid
      exact ⟨le_rfl, by omega, fun v low high => absurd low (not_le.2 high), fun _ => valid⟩

theorem Tracks.tighten (tracks : ring.Tracks map) (lowerBound : Nat)
    (up : ring.versionLowerBound ≤ lowerBound)
    (proper : 0 < ring.nextVersion → ring.versionLowerBound < ring.nextVersion) :
    (ring.updateVersionLowerBound lowerBound).Settled map ∧
    ring.versionLowerBound ≤ (ring.updateVersionLowerBound lowerBound).versionLowerBound := by
  unfold updateVersionLowerBound
  rw [if_neg (by omega : ¬ lowerBound < ring.versionLowerBound)]
  rcases tracks.maxVersion_eq with ⟨invalid, none_left⟩ | ⟨known, last⟩
  · rw [if_pos invalid]
    exact ⟨⟨tracks, fun some_left => absurd none_left (by omega)⟩, le_rfl⟩
  · rw [if_neg known]
    obtain ⟨low, high, passed, stopped⟩ :=
      ring.scan_spec (ring.maxVersion - ring.versionLowerBound) ring.versionLowerBound
    generalize ring.scan (ring.maxVersion - ring.versionLowerBound) ring.versionLowerBound = bound
      at low high passed stopped
    have gone : ∀ v, ring.versionLowerBound ≤ v → v < bound → map v = none := by
      intro v lowV highV
      rw [← tracks.slot_eq lowV (by omega)]
      exact passed v lowV highV
    refine ⟨⟨tracks.raise low (by omega) gone, fun _ => ⟨by dsimp only; omega, ?_⟩⟩, low⟩
    by_cases end_reached : bound + 1 = ring.nextVersion
    · exact Or.inl end_reached
    · right
      have valid := stopped (by omega)
      rw [tracks.slot_eq low (by omega)] at valid
      exact valid

theorem Tracks.assign_none (tracks : ring.Tracks map) (low : ring.versionLowerBound ≤ i)
    (high : i < ring.nextVersion) (done : ring.assign i none = some after) :
    after.Settled (update map i none) ∧ after.nextVersion = ring.nextVersion ∧
    after.capacity = ring.capacity ∧ ring.versionLowerBound ≤ after.versionLowerBound := by
  obtain ⟨-, rfl⟩ := assign_eq done
  have numbers := tracks.numbers
  have far : ring.versionLowerBound ≤ (if (none : Option Offset) ≠ none then i
      else invalidBlockNum) := by
    simp only [ne_eq, not_true_eq_false, if_false, invalidBlockNum]
    omega
  obtain ⟨kept, up⟩ := (tracks.store (o := none) low high).tighten _ far
    fun _ => lt_of_le_of_lt low high
  exact ⟨kept, nextVersion_updateVersionLowerBound, capacity_updateVersionLowerBound, up⟩

theorem scan_setLower (ring : Ring) (bound gap idx : Nat) :
    scan { ring with versionLowerBound := bound } gap idx = ring.scan gap idx := by
  induction gap generalizing idx with
  | zero => rfl
  | succ gap ih =>
    unfold scan
    rw [ih]
    rfl

theorem updateVersionLowerBound_lower (down : i ≤ ring.versionLowerBound)
    (known : ring.maxVersion ≠ invalidBlockNum) :
    ring.updateVersionLowerBound i =
      { ring with versionLowerBound := i }.updateVersionLowerBound i := by
  have start : (if i < ring.versionLowerBound then i else ring.versionLowerBound) = i := by
    split <;> omega
  have other : ¬ maxVersion { ring with versionLowerBound := i } = invalidBlockNum := known
  unfold updateVersionLowerBound
  dsimp only
  rw [start, if_neg known, if_neg other, if_neg (lt_irrefl i)]
  exact congrArg (fun bound => { ring with versionLowerBound := bound })
    (ring.scan_setLower i _ i).symm

section

variable (tracks : ring.Tracks map)

include tracks

theorem Tracks.assign_some
    (high : i < ring.nextVersion) (fits : ring.nextVersion ≤ i + ring.capacity)
    (done : ring.assign i (some offset) = some after) :
    after.Settled (update map i (some offset)) ∧
    after.nextVersion = ring.nextVersion ∧ after.capacity = ring.capacity := by
  obtain ⟨-, rfl⟩ := assign_eq done
  rw [if_pos (by simp)]
  refine ⟨?_, nextVersion_updateVersionLowerBound, capacity_updateVersionLowerBound⟩
  by_cases inside : ring.versionLowerBound ≤ i
  · exact ((tracks.store (o := some offset) inside high).tighten i inside
      fun _ => lt_of_le_of_lt inside high).1
  · have down : i ≤ ring.versionLowerBound := by omega
    have lowered := (tracks.lower down fits).store (o := some offset) (i := i) le_rfl high
    have known : (ring.store i (some offset)).maxVersion ≠ invalidBlockNum := by
      rcases tracks.maxVersion_eq with ⟨-, none_left⟩ | ⟨known, -⟩
      · omega
      · exact known
    have same : (ring.store i (some offset)).updateVersionLowerBound i =
        { ring.store i (some offset) with versionLowerBound := i }.updateVersionLowerBound i :=
      updateVersionLowerBound_lower down known
    rw [same]
    exact (lowered.tighten i le_rfl fun _ => high).1

section

variable (room : ring.nextVersion < ring.versionLowerBound + ring.capacity)

include room

theorem Tracks.pushed (numbers : ring.nextVersion + 1 < 2 ^ 64) :
    { ring.store ring.nextVersion o with nextVersion := ring.nextVersion + 1 }.Tracks
      (update map ring.nextVersion o) := by
  have ordered := tracks.ordered
  have counted := tracks.setNext (ring.nextVersion + 1) (by omega) (by omega) numbers
    (fun v late => tracks.above (by omega))
  exact counted.store (i := ring.nextVersion) (o := o) ordered (Nat.lt_succ_self _)

theorem Tracks.push_none (done : ring.push none = some after) :
    after.Tracks map ∧ after.nextVersion = ring.nextVersion + 1 ∧
    after.versionLowerBound = ring.versionLowerBound ∧ after.capacity = ring.capacity := by
  obtain ⟨⟨-, numbers⟩, rfl⟩ := push_eq done
  have pushed := tracks.pushed (o := none) room numbers
  rw [update_eq_self_iff.2 (tracks.above le_rfl).symm] at pushed
  exact ⟨pushed, rfl, rfl, rfl⟩

theorem Tracks.push_some (done : ring.push (some offset) = some after) :
    after.Settled (update map ring.nextVersion (some offset)) ∧
    after.nextVersion = ring.nextVersion + 1 ∧ after.capacity = ring.capacity := by
  obtain ⟨⟨-, numbers⟩, rfl⟩ := push_eq done
  have ordered := tracks.ordered
  have far : ring.versionLowerBound ≤ invalidBlockNum := by
    unfold invalidBlockNum
    omega
  exact ⟨((tracks.pushed (o := some offset) room numbers).tighten _ far
    fun _ => Nat.lt_succ_of_le ordered).1,
    nextVersion_updateVersionLowerBound, capacity_updateVersionLowerBound⟩

end

theorem Tracks.resetAll (numbers : version < 2 ^ 64) (done : ring.resetAll version = some after) :
    after.Tracks (fun _ => none) ∧ after.nextVersion = version ∧
    after.versionLowerBound = version ∧ after.capacity = ring.capacity := by
  obtain ⟨-, rfl⟩ := resetAll_eq done
  refine ⟨⟨tracks.power, le_rfl, Nat.le_add_right _ _, numbers, ?_,
    fun v valid => absurd rfl valid⟩, rfl, rfl, rfl⟩
  intro v _ _
  exact if_pos (Nat.mod_lt v tracks.positive)

theorem Tracks.pushInvalid
    (room : ring.nextVersion + count ≤ ring.versionLowerBound + ring.capacity)
    (done : ring.pushInvalid count = some after) :
    after.Tracks map ∧ after.nextVersion = ring.nextVersion + count ∧
    after.versionLowerBound = ring.versionLowerBound ∧ after.capacity = ring.capacity := by
  induction count generalizing ring with
  | zero =>
    cases done
    exact ⟨tracks, rfl, rfl, rfl⟩
  | succ count ih =>
    simp only [Ring.pushInvalid, bind_eq_bind, bind_eq_some_iff] at done
    obtain ⟨pushed, first, others⟩ := done
    obtain ⟨kept, next, lower, capacity⟩ := tracks.push_none (by omega) first
    obtain ⟨full, next', lower', capacity'⟩ :=
      ih kept (by rw [next, lower, capacity]; omega) others
    exact ⟨full, by rw [next', next]; omega, lower'.trans lower, capacity'.trans capacity⟩

theorem Tracks.fastForward (tight : ring.Tight map)
    (numbers : version < 2 ^ 64) (recent : ∀ v, map v ≠ none → version < v + ring.capacity)
    (done : ring.fastForward version = some after) :
    after.Tracks map ∧ after.nextVersion = version ∧
    version < after.versionLowerBound + after.capacity ∧ after.capacity = ring.capacity := by
  have positive := tracks.positive
  unfold Ring.fastForward at done
  dsimp only at done
  split at done
  · rename_i ahead
    split at done
    · rename_i far
      obtain ⟨cleared, next, lower, capacity⟩ := tracks.resetAll numbers done
      have empty : map = fun _ => none := by
        rcases tracks.maxVersion_eq with ⟨-, none_left⟩ | ⟨known, last⟩
        · exact tracks.empty_of none_left
        · funext v
          by_contra valid
          have within := tracks.bounded v valid
          have := recent v valid
          rcases far with invalid | far
          · exact known invalid
          · omega
      rw [empty]
      exact ⟨cleared, next, by rw [lower, capacity]; omega, capacity⟩
    · rename_i near
      rcases tracks.maxVersion_eq with ⟨invalid, -⟩ | ⟨known, last⟩
      · exact absurd (Or.inl invalid) near
      have room : version < ring.versionLowerBound + ring.capacity := by
        obtain ⟨low, one | valid⟩ := tight (by omega)
        · omega
        · exact recent _ valid
      have count : ring.nextVersion + (version - ring.maxVersion - 1) = version := by omega
      obtain ⟨kept, next, lower, capacity⟩ := tracks.pushInvalid (by omega) done
      exact ⟨kept, next.trans count, by rw [lower, capacity]; exact room, capacity⟩
  · cases done

end

/-- `update_root_offset` with no offset, on the ring. -/
def clearVersion (ring : Ring) (i : Nat) : Option Ring := do
  let assigned ← ring.assign i none
  if i = assigned.maxVersion ∧ i = assigned.versionLowerBound then assigned.resetAll 0
  else some assigned

theorem Tracks.clearVersion (tracks : ring.Tracks map) (low : ring.versionLowerBound ≤ i)
    (high : i < ring.nextVersion) (done : ring.clearVersion i = some after) :
    after.Settled (update map i none) ∧ after.capacity = ring.capacity ∧
    (after.nextVersion = 0 ∨ after.nextVersion = ring.nextVersion ∧
      ring.versionLowerBound ≤ after.versionLowerBound ∧
      (i = ring.versionLowerBound → i < after.versionLowerBound)) := by
  simp only [Ring.clearVersion, bind_eq_bind, bind_eq_some_iff] at done
  obtain ⟨assigned, first, second⟩ := done
  obtain ⟨kept, next, capacity, up⟩ := tracks.assign_none low high first
  split at second
  · rename_i last
    obtain ⟨cleared, nothing, -, capacity'⟩ := kept.toTracks.resetAll (Nat.two_pow_pos 64) second
    have empty : update map i none = fun _ => none := by
      funext v
      by_contra valid
      have within := kept.bounded v valid
      rcases kept.maxVersion_eq with ⟨-, none_left⟩ | ⟨-, top⟩
      · omega
      · have same : v = i := by omega
        rw [same, update_self] at valid
        exact valid rfl
    rw [empty]
    exact ⟨⟨cleared, fun some_left => absurd nothing (by omega)⟩, capacity'.trans capacity,
      Or.inl nothing⟩
  · rename_i more
    cases some.inj second
    refine ⟨kept, capacity, Or.inr ⟨next, up, fun first_one => ?_⟩⟩
    -- The cleared version is the lower bound: it stays only when it is the last one.
    rcases kept.maxVersion_eq with ⟨-, none_left⟩ | ⟨-, top⟩
    · omega
    · by_contra stuck
      have same : after.versionLowerBound = i := by omega
      obtain ⟨-, one | valid⟩ := kept.tight (by omega)
      · exact more ⟨by omega, same.symm⟩
      · rw [same, update_self] at valid
        exact valid rfl

theorem Tracks.clearFrom (tracks : ring.Tracks map) (valid : map version ≠ none)
    (first : version < i) (last : i + count = ring.nextVersion)
    (done : ring.clearFrom count i = some after) :
    after.Tracks (fun v => if i ≤ v then none else map v) ∧
    after.nextVersion = ring.nextVersion ∧ after.capacity = ring.capacity := by
  induction count generalizing ring map i with
  | zero =>
    cases done
    have same : (fun v => if i ≤ v then none else map v) = map := by
      funext v
      split
      · exact (tracks.above (by omega)).symm
      · rfl
    rw [same]
    exact ⟨tracks, rfl, rfl⟩
  | succ count ih =>
    simp only [Ring.clearFrom, bind_eq_bind, bind_eq_some_iff] at done
    obtain ⟨assigned, one, others⟩ := done
    have low := (tracks.bounded version valid).1
    obtain ⟨kept, next, capacity, -⟩ := tracks.assign_none (by omega) (by omega) one
    have valid' : update map i none version ≠ none := by
      rw [update_of_ne (by omega)]
      exact valid
    obtain ⟨cleared, next', capacity'⟩ :=
      ih kept.toTracks valid' (by omega) (by omega) others
    have same : (fun v => if i + 1 ≤ v then none else update map i none v) =
        fun v => if i ≤ v then none else map v := by
      funext v
      grind
    rw [same] at cleared
    exact ⟨cleared, next'.trans next, capacity'.trans capacity⟩

theorem Tracks.rewindToVersion (tracks : ring.Tracks map) (valid : map version ≠ none)
    (done : ring.rewindToVersion version = some after) :
    after.Settled (fun v => if version < v then none else map v) ∧
    after.nextVersion = version + 1 ∧ after.capacity = ring.capacity := by
  simp only [Ring.rewindToVersion] at done
  split at done
  · rename_i above
    obtain ⟨cleared, dropped, done⟩ := bind_eq_some_iff.1 done
    have within := tracks.bounded version valid
    rcases tracks.maxVersion_eq with ⟨-, none_left⟩ | ⟨-, top⟩
    · omega
    obtain ⟨kept, next, capacity⟩ :=
      tracks.clearFrom valid (Nat.lt_succ_self version) (by omega) dropped
    have stays : (if version < version then none else map version) ≠ none := by
      rw [if_neg (lt_irrefl version)]
      exact valid
    have low := (kept.bounded version stays).1
    have numbers := kept.numbers
    rw [if_neg (by omega : ¬ version < cleared.versionLowerBound)] at done
    have cut := kept.setNext (version + 1) (by omega)
      (le_trans (by omega) kept.fits) (by omega) (fun v late => if_pos (by omega))
    have settled := (cut.tighten invalidBlockNum
      (by show cleared.versionLowerBound ≤ _; unfold invalidBlockNum; omega)
      fun _ => Nat.lt_succ_of_le low).1
    cases done
    exact ⟨settled, nextVersion_updateVersionLowerBound,
      capacity_updateVersionLowerBound.trans capacity⟩
  · cases done

end Ring

end MonadChain.Mpt
