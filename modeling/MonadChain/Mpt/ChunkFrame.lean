import MonadChain.Mpt.UpdateAux

/-!
What the operations of update_aux.cpp leave alone. Chunks move between the lists and versions are
set without any change of the rings; an operation on the ring of one timeline leaves the other
ring.
-/

namespace MonadChain.Mpt

open Option DbMetadataContext

variable {list : ChunkList} {idx capacity size fuel : Nat} {step : Metadata → Option Metadata}

structure SameRings (before after : Metadata) : Prop where
  rings : ∀ idx, after.ring idx = before.ring idx
  primary : after.primaryRingIdx = before.primaryRingIdx
  active : after.secondaryTimelineActive = before.secondaryTimelineActive
  length : after.historyLength = before.historyLength

namespace SameRings

variable {a b c : Metadata}

theorem refl (m : Metadata) : SameRings m m := ⟨fun _ => rfl, rfl, rfl, rfl⟩

theorem trans (first : SameRings a b) (second : SameRings b c) : SameRings a c where
  rings := fun idx => (second.rings idx).trans (first.rings idx)
  primary := second.primary.trans first.primary
  active := second.active.trans first.active
  length := second.length.trans first.length

section

variable (same : SameRings a b) (tid : TimelineId)

include same tid

theorem ringIdx : b.ringIdx tid = a.ringIdx tid := by
  cases tid <;> simp only [Metadata.ringIdx, same.primary]

theorem timelineRing : b.timelineRing tid = a.timelineRing tid := by
  rw [Metadata.timelineRing, same.ringIdx, same.rings]
  rfl

theorem timelineActive : b.timelineActive tid = a.timelineActive tid := by
  cases tid
  · rfl
  · exact same.active

end

end SameRings

namespace Metadata

variable {m after : Metadata}

theorem setList_sameRings (m : Metadata) (pair : IdPair) (list : ChunkList) :
    SameRings m (m.setList pair list) := by
  cases list <;> exact ⟨fun idx => by cases idx <;> rfl, rfl, rfl, rfl⟩

theorem setChunk_sameRings (m : Metadata) (idx : Nat) (info : ChunkInfo) :
    SameRings m (m.setChunk idx info) :=
  ⟨fun ring => by cases ring <;> rfl, rfl, rfl, rfl⟩

theorem appendChunk_sameRings (done : m.appendChunk list idx = some after) : SameRings m after := by
  unfold appendChunk at done
  dsimp only at done
  split at done
  · cases done
  split at done
  · split at done
    · cases done
      exact (setList_sameRings m _ _).trans (setChunk_sameRings _ _ _)
    · cases done
  · split at done
    · cases done
      exact ((setChunk_sameRings m _ _).trans (setList_sameRings _ _ _)).trans
        (setChunk_sameRings _ _ _)
    · cases done

theorem removeChunk_sameRings (done : m.removeChunk idx = some after) : SameRings m after := by
  unfold removeChunk at done
  dsimp only at done
  split at done
  · cases done
  split at done
  · split at done
    · cases done
      exact setList_sameRings m _ _
    · cases done
  split at done
  · split at done
    · cases done
      exact (setChunk_sameRings m _ _).trans (setList_sameRings _ _ _)
    · cases done
  split at done
  · split at done
    · cases done
      exact (setChunk_sameRings m _ _).trans (setList_sameRings _ _ _)
    · cases done
  · cases done

theorem setTimelineState_sameRings (m : Metadata) (change : TimelineState → TimelineState)
    (idx : RingIdx) : SameRings m (m.setTimelineState change idx) := by
  cases idx <;> exact ⟨fun ring => by cases ring <;> rfl, rfl, rfl, rfl⟩

end Metadata

namespace DbMetadataContext

/-- Both copies are changed alike, by steps that do not write a ring. -/
inductive Framed : DbMetadataContext → DbMetadataContext → Prop
  | refl (ctx : DbMetadataContext) : Framed ctx ctx
  | step {ctx middle after : DbMetadataContext} {step : Metadata → Option Metadata} :
      Framed ctx middle → middle.both step = some after →
      (∀ m next, step m = some next → SameRings m next) → Framed ctx after

variable {ctx middle after : DbMetadataContext}

theorem both_front (done : ctx.both step = some after) : step ctx.front = some after.front := by
  simp only [both, bind_eq_bind, bind_eq_some_iff] at done
  obtain ⟨front, first, back, -, finished⟩ := done
  cases finished
  exact first

namespace Framed

theorem sameRings (framed : Framed ctx after) : SameRings ctx.front after.front := by
  induction framed with
  | refl => exact .refl _
  | step _ done same ih => exact ih.trans (same _ _ (both_front done))

theorem set {change : Metadata → Metadata} (framed : Framed ctx middle)
    (done : middle.both (fun m => some (change m)) = some after)
    (same : ∀ m, SameRings m (change m)) : Framed ctx after :=
  framed.step done fun m next eq => by
    cases eq
    exact same m

theorem count {free : Prop} [Decidable free] {change : Metadata → Metadata}
    (framed : Framed ctx middle)
    (done : (if free then if size = 0 then middle.both (fun m => some (change m)) else none
      else some middle) = some after) (same : ∀ m, SameRings m (change m)) : Framed ctx after := by
  split at done
  · split at done
    · exact framed.set done same
    · cases done
  · cases done
    exact framed

end Framed

theorem append_framed (done : ctx.append list idx capacity size = some after) :
    Framed ctx after := by
  simp only [append, bind_eq_bind, bind_eq_some_iff] at done
  obtain ⟨listed, first, second⟩ := done
  exact ((Framed.refl ctx).step first fun _ _ => Metadata.appendChunk_sameRings).count second
    fun m => ⟨fun ring => by cases ring <;> rfl, rfl, rfl, rfl⟩

theorem remove_framed (done : ctx.remove idx capacity size = some after) : Framed ctx after := by
  simp only [remove, bind_eq_bind, bind_eq_some_iff] at done
  obtain ⟨unlisted, first, second⟩ := done
  exact ((Framed.refl ctx).step first fun _ _ => Metadata.removeChunk_sameRings).count second
    fun m => ⟨fun ring => by cases ring <;> rfl, rfl, rfl, rfl⟩

theorem advanceDbOffsetsTo_framed {fastOffset slowOffset : Offset}
    (done : ctx.advanceDbOffsetsTo fastOffset slowOffset = some after) : Framed ctx after := by
  unfold advanceDbOffsetsTo at done
  dsimp only at done
  split at done
  · exact (Framed.refl ctx).set done fun m => ⟨fun ring => by cases ring <;> rfl, rfl, rfl, rfl⟩
  · cases done

end DbMetadataContext

namespace MetadataOp

def KeepsRings : MetadataOp → Prop
  | .appendRootOffset _ _ | .updateRootOffset _ _ _ | .fastForwardNextVersion _ _
  | .updateHistoryLengthMetadata _ => False
  | _ => True

variable {ctx after : DbMetadataContext} {op : MetadataOp} {ops rest : List MetadataOp}

theorem run_framed (keeps : op.KeepsRings) (done : op.run ctx = some after) : Framed ctx after := by
  cases op with
  | appendRootOffset _ _ | updateRootOffset _ _ _ | fastForwardNextVersion _ _
  | updateHistoryLengthMetadata _ => exact keeps.elim
  | advanceDbOffsetsTo fastOffset slowOffset => exact advanceDbOffsetsTo_framed done
  | append list idx capacity size => exact append_framed done
  | remove idx capacity size => exact remove_framed done
  | setLatestFinalizedVersion _ | setLatestVerifiedVersion _ | setLatestVoted _ _
  | setLatestProposed _ _ =>
    simp only [run] at done
    exact (Framed.refl ctx).set done
      fun m => ⟨fun ring => by cases ring <;> rfl, rfl, rfl, rfl⟩
  | setAutoExpireVersionMetadata _ _ | setStateMachineKind _ _ =>
    simp only [run] at done
    exact (Framed.refl ctx).set done fun m => m.setTimelineState_sameRings _ _

theorem runAll_cons :
    runAll (op :: rest) ctx = (op.run ctx).bind (runAll rest) := rfl

theorem runAll_sameRings (keeps : ∀ op ∈ ops, op.KeepsRings)
    (done : runAll ops ctx = some after) : SameRings ctx.front after.front := by
  induction ops generalizing ctx with
  | nil =>
    cases done
    exact SameRings.refl _
  | cons op rest ih =>
    rw [List.forall_mem_cons] at keeps
    obtain ⟨next, ran, others⟩ := bind_eq_some_iff.1 done
    exact (run_framed keeps.1 ran).sameRings.trans (ih keeps.2 others)

end MetadataOp

theorem NewPool.appendFirst_framed {pool : NewPool} {ctx after : DbMetadataContext}
    (done : pool.appendFirst list idx ctx = some after) : Framed ctx after := by
  simp only [appendFirst, bind_eq_bind, bind_eq_some_iff] at done
  obtain ⟨listed, first, second⟩ := done
  split at second
  · exact (append_framed first).set second fun m => m.setChunk_sameRings _ _
  · cases second
    exact append_framed first

namespace UpdateAux

variable {aux after : UpdateAux}

theorem onContext_eq {step : DbMetadataContext → Option DbMetadataContext}
    (done : aux.onContext step = some after) :
    step aux.ctx = some after.ctx ∧ after = { aux with ctx := after.ctx } := by
  simp only [onContext, bind_eq_bind, bind_eq_some_iff] at done
  obtain ⟨ctx, stepped, finished⟩ := done
  cases finished
  exact ⟨stepped, rfl⟩

def Keeps (aux : UpdateAux) (result : Option UpdateAux) : Prop :=
  ∀ after, result = some after → SameRings aux.main after.main

namespace Keeps

variable {result other : Option UpdateAux}

theorem none : Keeps aux none := fun _ failed => by cases failed

theorem some (same : after.ctx = aux.ctx) : Keeps aux (some after) := fun _ done => by
  cases done
  rw [main, main, same]
  exact SameRings.refl _

theorem bind {next : UpdateAux → Option UpdateAux} (first : Keeps aux result)
    (later : ∀ middle, Keeps middle (next middle)) : Keeps aux (result >>= next) := by
  intro after done
  obtain ⟨middle, one, two⟩ := bind_eq_some_iff.1 done
  exact (first middle one).trans (later middle after two)

theorem look {α : Type} {found : Option α} {next : α → Option UpdateAux}
    (later : ∀ value, Keeps aux (next value)) : Keeps aux (found >>= next) := by
  intro after done
  obtain ⟨value, -, two⟩ := bind_eq_some_iff.1 done
  exact later value after two

theorem ite {test : Prop} [Decidable test] (yes : Keeps aux result) (no : Keeps aux other) :
    Keeps aux (if test then result else other) := by
  split
  · exact yes
  · exact no

theorem onContext {step : DbMetadataContext → Option DbMetadataContext}
    (framed : ∀ next, step aux.ctx = Option.some next → Framed aux.ctx next) :
    Keeps aux (aux.onContext step) := fun _ done =>
  (framed _ (onContext_eq done).1).sameRings

end Keeps

section

variable (aux : UpdateAux)

theorem giveBack_keeps (idx : Nat) : Keeps aux (aux.giveBack idx) := by
  refine (Keeps.onContext fun _ => remove_framed).bind fun removed after done => ?_
  exact (append_framed (onContext_eq done).1).sameRings

theorem freeTillCount_keeps (countBefore fuel idx : Nat) :
    Keeps aux (aux.freeTillCount countBefore fuel idx) := by
  induction fuel generalizing aux idx with
  | zero => exact .none
  | succ fuel ih =>
    exact .look fun info =>
      .ite ((giveBack_keeps aux idx).bind fun middle => ih middle _) (.some rfl)

theorem releaseUnreferencedChunks_keeps : Keeps aux aux.releaseUnreferencedChunks := by
  have compacted (fast slow : Nat) : Keeps aux (aux.freeCompactedChunks fast slow) :=
    .look fun _ => .look fun _ => .ite ((freeTillCount_keeps aux _ _ _).bind
      fun middle => freeTillCount_keeps middle _ _ _) .none
  exact .look fun _ => .look fun _ => .ite (.some rfl) (.ite .none (compacted _ _))

theorem writeRoot_keeps (write : RootWrite) : Keeps aux (aux.writeRoot write) := by
  have taken (chunks : List (ChunkList × Nat)) : Keeps aux (chunks.foldlM takeChunk aux) := by
    induction chunks generalizing aux with
    | nil => exact .some rfl
    | cons chunk rest ih =>
      have one : Keeps aux (aux.takeChunk chunk) :=
        (Keeps.onContext fun _ => remove_framed).bind fun _ => .onContext fun _ => append_framed
      exact one.bind fun middle => ih middle
  exact (taken write.taken).bind fun middle => .some rfl

theorem freeBehind_keeps (list : ChunkList) (id fuel : Nat) :
    Keeps aux (aux.freeBehind list id fuel) := by
  induction fuel generalizing aux with
  | zero => exact .none
  | succ fuel ih => exact .ite (.some rfl) ((giveBack_keeps aux _).bind fun middle => ih middle)

theorem rewindToMatchOffsets_keeps : Keeps aux aux.rewindToMatchOffsets := by
  refine .look fun _ => .look fun _ => .ite (.look fun _ => ?_) .none
  refine (freeBehind_keeps aux _ _ _).bind fun middle => ?_
  refine Keeps.bind (freeBehind_keeps (middle.trim _) _ _ _) fun cut => ?_
  exact .ite (.some rfl) .none

end

end UpdateAux

end MonadChain.Mpt
