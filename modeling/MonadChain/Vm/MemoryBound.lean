import Mathlib.Tactic.Linarith
import MonadChain.Vm.OwnMemory

/-!
How much memory the frames of a transaction can have, vm/runtime/types.hpp and call.cpp. A frame
pays for its memory out of its gas, and a call gets no more than what is left. So 1024 frames with
two billion gas do not reach 2^30 bytes; with MIP-3 the total is limited when memory grows.
-/

namespace MonadChain.Vm

open List OwnFrames

def totalSize : List Context → Nat
  | [] => 0
  | ctx :: below => ctx.memory.size + totalSize below

namespace OwnFrame

def cost (mip3 : Bool) (own : OwnFrame) : Int := memoryCostFromWordCount mip3 (own.size / 32)

/-- A frame has spent what its block costs. -/
structure Sound (own : OwnFrame) : Prop where
  aligned : own.size % 32 = 0
  given : 0 ≤ own.given
  spent : (own.blockBaseGas : Int) ≤ own.spent

end OwnFrame

def costs (mip3 : Bool) : List OwnFrame → Int
  | [] => 0
  | own :: below => own.cost mip3 + costs mip3 below

/-- The gas of each frame is there beside the memory below it. -/
def Funded (mip3 : Bool) : List OwnFrame → Prop
  | [] => True
  | own :: below => own.Sound ∧ own.given + costs mip3 below ≤ 2000000000 ∧ Funded mip3 below

structure Affordable (mip3 : Bool) (frames : List OwnFrame) : Prop where
  depth : frames.length ≤ 1025
  funded : Funded mip3 frames
  peak : mip3 = true → sizes frames ≤ 0x800000

section

variable {mip3 : Bool} {own : OwnFrame} {below frames : List OwnFrame}

theorem memoryCost_nonneg (mip3 : Bool) (words : Nat) : 0 ≤ memoryCostFromWordCount mip3 words := by
  have square : 0 ≤ (words : Int) * words / 512 := by positivity
  unfold memoryCostFromWordCount
  split <;> omega

/-- The tangent of the cost at 2^15 words. -/
theorem tangent_le (words : Nat) :
    131 * (words : Int) ≤ memoryCostFromWordCount false words + 2 ^ 21 := by
  have square := mul_self_nonneg ((words : Int) - 2 ^ 15)
  have cost : memoryCostFromWordCount false words = (words : Int) * words / 512 + 3 * words := rfl
  have expanded : 2 ^ 16 * (words : Int) ≤ words * words + 2 ^ 30 := by
    linarith
  omega

/-- The bytes of the frames are bounded by what was paid for them. -/
theorem Funded.sizes_le (funded : Funded false frames) :
    131 * (sizes frames : Int) ≤ 32 * costs false frames + 2 ^ 26 * frames.length := by
  induction frames with
  | nil => decide
  | cons own below ih =>
    obtain ⟨sound, -, rest⟩ := funded
    have lower := ih rest
    have paid := tangent_le (own.size / 32)
    have aligned := sound.aligned
    simp only [sizes, costs, OwnFrame.cost, length_cons]
    omega

theorem Affordable.room (affordable : Affordable mip3 frames) : sizes frames.tail < 2 ^ 30 := by
  obtain ⟨depth, funded, peak⟩ := affordable
  match frames, funded with
  | [], _ => exact Nat.two_pow_pos 30
  | own :: below, ⟨sound, limit, rest⟩ =>
    have given := sound.given
    rw [length_cons] at depth
    rw [tail_cons]
    cases mip3 with
    | true =>
      have all := peak rfl
      rw [sizes] at all
      omega
    | false =>
      have size := rest.sizes_le
      omega

namespace OwnFrame

theorem Sound.deduct (sound : own.Sound) (mip3 : Bool) {gas : Int} (positive : 0 ≤ gas) :
    (own.deduct mip3 gas).Sound := by
  have spent := sound.spent
  refine ⟨sound.aligned, sound.given, ?_⟩
  dsimp only [OwnFrame.deduct]
  omega

theorem Sound.expand (sound : own.Sound) (mip3 : Bool) (others minSize : Nat) :
    let grown := own.expand mip3 others minSize
    grown.Sound ∧ grown.given = own.given ∧ grown.spent = own.spent ∧
      grown.blockBaseGas = own.blockBaseGas ∧
      (mip3 = true → own.size + others ≤ 0x800000 → grown.size + others ≤ 0x800000) := by
  intro grown
  have aligned : (own.sized minSize).size % 32 = 0 := Nat.mul_mod_right ..
  unfold grown OwnFrame.expand
  dsimp only
  split
  · split
    · rename_i fits
      exact ⟨{ sound with aligned }, rfl, rfl, rfl, fun active _ => fits.1 active⟩
    · exact ⟨{ sound with }, rfl, rfl, rfl, fun _ peak => peak⟩
  · exact ⟨sound, rfl, rfl, rfl, fun _ peak => peak⟩

theorem Sound.gasRemaining_le (sound : own.Sound) (mip3 : Bool) :
    own.gasRemaining mip3 + own.cost mip3 + own.blockBaseGas ≤ own.given := by
  have spent := sound.spent
  unfold OwnFrame.gasRemaining OwnFrame.cost
  omega

theorem Sound.result_le (sound : own.Sound) (mip3 : Bool) (others : Nat) (ending : Ending) :
    (own.result mip3 others ending).2 ≤ own.given := by
  have given := sound.given
  have le : ∀ {frame : OwnFrame}, frame.Sound → frame.gasRemaining mip3 ≤ frame.given :=
    fun {frame} sound => by
      have left := sound.gasRemaining_le mip3
      have cost := memoryCost_nonneg mip3 (frame.size / 32)
      rw [OwnFrame.cost] at left
      omega
  cases ending with
  | error => exact given
  | output offset size =>
    obtain ⟨grown, same, -⟩ := sound.expand mip3 others (offset + size)
    unfold OwnFrame.result
    dsimp only
    split
    · exact given
    · split
      · exact le sound
      · split
        · exact given
        · exact (le grown).trans_eq same

end OwnFrame

theorem share_le {word left : Int} (asked : 0 ≤ word) (there : 0 ≤ left) :
    0 ≤ min word (left - left / 64) ∧ min word (left - left / 64) ≤ left :=
  ⟨le_min asked (by omega), (min_le_right _ _).trans (by omega)⟩

theorem CallRequest.pay_le {request : CallRequest} {gasRemaining left gas : Int}
    (paid : request.pay gasRemaining = some (left, gas)) :
    left ≤ gasRemaining ∧ 0 ≤ gas ∧ gas ≤ gasRemaining + request.remainingBlockBaseGas := by
  unfold CallRequest.pay at paid
  simp only [Option.ite_none_left_eq_some, Option.some.injEq, Prod.mk.injEq, Int.not_lt] at paid
  obtain ⟨_, enough, rfl, rfl⟩ := paid
  have share := share_le (Int.natCast_nonneg request.gasWord) enough
  generalize min (request.gasWord : Int) _ = part at share ⊢
  cases value : request.hasValue <;>
    simp only [value, if_true, Bool.false_eq_true, if_false] at enough share ⊢ <;> omega

namespace Affordable

theorem call (affordable : Affordable mip3 (own :: below)) {request : CallRequest}
    (block : request.remainingBlockBaseGas ≤ own.blockBaseGas) :
    Affordable mip3 (own.call mip3 (sizes below) below.length request ++ below) := by
  obtain ⟨depth, ⟨sound, limit, rest⟩, peak⟩ := affordable
  obtain ⟨grown, given, _, base, inside⟩ := sound.expand mip3 (sizes below) request.needed
  have peak := fun active => inside active (peak active)
  unfold OwnFrame.call
  generalize own.expand mip3 (sizes below) request.needed = expanded at *
  rw [← given] at limit
  rw [← base] at block
  dsimp only
  split
  · exact ⟨depth, ⟨grown, limit, rest⟩, peak⟩
  · split
    · exact ⟨depth, ⟨{ grown with }, limit, rest⟩, peak⟩
    · rename_i gasRemaining gas paid
      obtain ⟨less, positive, share⟩ := CallRequest.pay_le paid
      have spent := grown.spent
      have left := grown.gasRemaining_le mip3
      have caller : OwnFrame.Sound { expanded with
          spent := expanded.spent + (expanded.gasRemaining mip3 - gasRemaining) } :=
        { grown with spent := by dsimp only; omega }
      split
      · exact ⟨depth, ⟨caller, limit, rest⟩, peak⟩
      · refine ⟨by simp only [length_append, length_cons, length_nil]; omega,
          ⟨⟨rfl, positive, Int.le_refl 0⟩, ?_, caller, limit, rest⟩, fun active => ?_⟩
        · change gas + (expanded.cost mip3 + costs mip3 below) ≤ _
          omega
        · exact (Nat.zero_add _).trans_le (peak active)

theorem leave (affordable : Affordable mip3 (own :: below)) (ending : Ending) (hostGas : Nat) :
    Affordable mip3 (OwnFrames.leave mip3 own below ending hostGas) := by
  obtain ⟨depth, ⟨sound, limit, rest⟩, peak⟩ := affordable
  match below, rest with
  | [], _ => exact ⟨Nat.zero_le _, trivial, fun _ => Nat.zero_le _⟩
  | parent :: below, ⟨parentSound, parentLimit, rest⟩ =>
    have given := sound.given
    have left := sound.result_le mip3 (sizes (parent :: below)) ending
    have spent : 0 ≤ own.given - max 0 ((own.result mip3 (sizes (parent :: below)) ending).2 -
        hostGas) := by omega
    have charged := parentSound.deduct mip3 spent
    have depth : (parent :: below).length ≤ 1025 := Nat.le_of_succ_le depth
    have peak : mip3 = true → sizes (parent :: below) ≤ 0x800000 := fun active =>
      (Nat.le_add_left _ _).trans (peak active)
    unfold OwnFrames.leave
    dsimp only
    split
    · exact ⟨depth, ⟨charged, parentLimit, rest⟩, peak⟩
    · exact ⟨depth, ⟨{ charged with }, parentLimit, rest⟩, peak⟩

theorem step (affordable : Affordable mip3 frames) {op : FrameOp} {after : List OwnFrame}
    (done : OwnFrames.step mip3 frames op = some after) : Affordable mip3 after := by
  match frames, affordable with
  | [], _ => cases done
  | own :: below, affordable =>
    have ⟨depth, ⟨sound, limit, rest⟩, peak⟩ := affordable
    simp only [OwnFrames.step, Option.ite_none_left_eq_some] at done
    obtain ⟨_, done⟩ := done
    cases op with
    | expandMemory minSize newHandle =>
      obtain ⟨grown, given, _, _, inside⟩ := sound.expand mip3 (sizes below) minSize
      obtain rfl := Option.some.inj done
      exact ⟨depth, ⟨grown, given ▸ limit, rest⟩, fun active => inside active (peak active)⟩
    | write offset bytes =>
      obtain ⟨_, done⟩ := Option.ite_none_right_eq_some.mp done
      obtain rfl := Option.some.inj done
      exact ⟨depth, ⟨{ sound with }, limit, rest⟩, peak⟩
    | deductGas gas =>
      obtain rfl := Option.some.inj done
      exact ⟨depth, ⟨sound.deduct mip3 (Int.natCast_nonneg gas), limit, rest⟩, peak⟩
    | enterBlock baseGas =>
      obtain rfl := Option.some.inj done
      have spent := sound.spent
      refine ⟨depth, ⟨⟨sound.aligned, sound.given, ?_⟩, limit, rest⟩, peak⟩
      dsimp only [OwnFrame.deduct]
      omega
    | call request newHandle =>
      obtain ⟨block, done⟩ := Option.ite_none_right_eq_some.mp done
      obtain rfl := Option.some.inj done
      exact affordable.call block
    | returnTo ending hostGas =>
      obtain rfl := Option.some.inj done
      exact affordable.leave ending hostGas

end Affordable

theorem AllSound.totalSize_eq {arena : Arena} {heap : Heap} {twins : List Twin}
    (sound : AllSound arena heap twins) : totalSize (twins.map Twin.ctx) = sizes (owns twins) := by
  induction twins with
  | nil => rfl
  | cons twin below ih =>
    obtain ⟨shape, _, _, _, rest⟩ := sound
    exact congrArg₂ (· + ·) shape.size (ih rest)

end

/-- However the frames grow their memory and call each other, the memory below the running frame
stays under 2^30 bytes, so that no assertion fails and every number fits; with MIP-3 all of it
stays within 8 MiB. -/
theorem total_memory_bounded (arena : Arena) (gas : Int) (positive : 0 ≤ gas)
    (limit : gas ≤ 2000000000) (ops : List FrameOp) :
    match (Frames.start arena.origin arena.capacity gas).run arena.mip3 ops with
    | .ok frames => totalSize frames.contexts.tail ≤ 2 ^ 30 - 1 ∧
        (arena.mip3 = true → totalSize frames.contexts ≤ 0x800000)
    | .error stop => stop = .refused ∨ stop = .taken := by
  have start : Affordable arena.mip3 [{ given := gas }] :=
    ⟨Nat.le_add_left 1 1024, ⟨⟨rfl, positive, Int.le_refl 0⟩, (Int.add_zero gas).trans_le limit,
      trivial⟩, fun _ => Nat.zero_le _⟩
  have agrees := (start_related arena gas).run True (fun _ good _ => good.room)
    (fun _ _ _ good => good.step) start ops
  match (Frames.start arena.origin arena.capacity gas).run arena.mip3 ops, OwnFrames.run arena.mip3
      [{ given := gas }] ops, agrees with
  | .error .refused, none, _ => exact .inl rfl
  | .error .taken, _, _ => exact .inr rfl
  | .error .assertion, _, full => exact absurd trivial full
  | .ok ⟨heap, contexts⟩, some frames, ⟨⟨twins, same, found, inv⟩, good⟩ =>
    obtain rfl : contexts = _ := same
    subst found
    have room := good.room
    have peak := good.peak
    match twins, inv with
    | [], _ => exact ⟨Nat.zero_le _, fun _ => Nat.zero_le _⟩
    | ⟨ctx, own⟩ :: below, ⟨running, _⟩ =>
      have lower : totalSize (below.map Twin.ctx) = sizes (owns below) := running.rest.totalSize_eq
      refine ⟨lower.trans_le (Nat.le_sub_one_of_lt room), fun active => ?_⟩
      exact (congrArg₂ (· + ·) running.shape.size lower).trans_le (peak active)

theorem total_memory_bounded_call : ∃ frames,
    (Frames.start 0 64 2000000000).run true (returningCall.take 7) = .ok frames ∧
    frames.contexts.map (fun ctx => ctx.memory.size) = [96, 64] ∧
    totalSize frames.contexts.tail ≤ 2 ^ 30 - 1 ∧ totalSize frames.contexts ≤ 0x800000 := by
  obtain ⟨frames, done⟩ : ∃ frames,
      (Frames.start 0 64 2000000000).run true (returningCall.take 7) = .ok frames := ⟨_, rfl⟩
  have bounded :=
    total_memory_bounded ⟨true, 0, 64⟩ 2000000000 (by decide) (by decide) (returningCall.take 7)
  have sizes : ((Frames.start 0 64 2000000000).run true (returningCall.take 7)).toOption.map
      (·.contexts.map fun ctx => ctx.memory.size) = some [96, 64] := by decide
  rw [done] at bounded sizes
  exact ⟨frames, done, Option.some.inj sizes, bounded.1, bounded.2 rfl⟩

end MonadChain.Vm
