import MonadChain.Mpt.ChunkFrame

/-!
Whether the two copies of the metadata stay equal. `update_root_offset` asks the front copy
whether the last version is gone, after the front copy has been written: once it has been reset
the answer is no, and the back copy keeps its bounds.
-/

namespace MonadChain.Mpt

open Option Metadata

variable {assigned front : Metadata} {op : MetadataOp} {rest ops : List MetadataOp}

namespace DbMetadataContext

def Agree (ctx : DbMetadataContext) : Prop := ctx.front = ctx.back

variable {ctx after : DbMetadataContext}

theorem both_agree {step : Metadata → Option Metadata} (agree : ctx.Agree)
    (done : ctx.both step = some after) : after.Agree := by
  unfold both at done
  rw [agree] at done
  cases stepped : step ctx.back with
  | none =>
    rw [stepped] at done
    cases done
  | some m =>
    rw [stepped] at done
    cases done
    rfl

theorem Framed.agree (framed : Framed ctx after) (agree : ctx.Agree) : after.Agree := by
  induction framed with
  | refl => exact agree
  | step _ done _ ih => exact both_agree ih done

end DbMetadataContext

open DbMetadataContext

namespace Metadata

variable {m : Metadata} {idx : RingIdx} {tid : TimelineId}

@[simp] theorem ring_setRing (m : Metadata) (ring : Ring) (idx : RingIdx) :
    (m.setRing ring idx).ring idx = ring := by
  cases idx <;> rfl

@[simp] theorem ringIdx_setRing (m : Metadata) (ring : Ring) (idx : RingIdx) (tid : TimelineId) :
    (m.setRing ring idx).ringIdx tid = m.ringIdx tid := by
  cases idx <;> cases tid <;> rfl

@[simp] theorem timelineActive_setRing (m : Metadata) (ring : Ring) (idx : RingIdx)
    (tid : TimelineId) : (m.setRing ring idx).timelineActive tid = m.timelineActive tid := by
  cases idx <;> cases tid <;> rfl

theorem timelineRing_setRing (m : Metadata) (ring : Ring) (tid : TimelineId) :
    (m.setRing ring (m.ringIdx tid)).timelineRing tid = ring := by
  rw [timelineRing, ringIdx_setRing, ring_setRing]

theorem modifyRing_eq {step : Ring → Option Ring} {after : Metadata}
    (done : m.modifyRing idx step = some after) :
    ∃ ring, step (m.ring idx) = some ring ∧ after = m.setRing ring idx := by
  unfold modifyRing at done
  cases stepped : step (m.ring idx) with
  | none =>
    rw [stepped] at done
    cases done
  | some ring =>
    rw [stepped] at done
    cases done
    exact ⟨ring, rfl, rfl⟩

theorem bounds_of_reset (m : Metadata) (tid : TimelineId) {reset : Ring}
    (empty : reset.nextVersion = 0) :
    (m.setRing reset (m.ringIdx tid)).dbHistoryMaxVersion tid = invalidBlockNum ∧
      (m.setRing reset (m.ringIdx tid)).dbHistoryMinValidVersion tid = invalidBlockNum := by
  have none_left : reset.maxVersion = invalidBlockNum := if_pos empty
  unfold dbHistoryMaxVersion dbHistoryMinValidVersion dbHistoryRangeLowerBound
  rw [timelineRing_setRing, none_left]
  simp

end Metadata

def MetadataOp.ErasesLast (ctx : DbMetadataContext) : MetadataOp → Prop
  | .updateRootOffset i none tid => i ≠ invalidBlockNum ∧
      ∃ assigned, ctx.front.modifyRing (ctx.front.ringIdx tid) (·.assign i none) = some assigned ∧
        i = assigned.dbHistoryMaxVersion tid ∧ i = assigned.dbHistoryMinValidVersion tid
  | _ => False

section Update

variable {ctx after : DbMetadataContext} {i : Nat} {rootOffset : Option Offset} {tid : TimelineId}

theorem updateRootOffset_steps (agree : ctx.Agree)
    (done : ctx.updateRootOffset i rootOffset tid = some after) :
    ∃ assigned,
      ctx.front.modifyRing (ctx.front.ringIdx tid) (·.assign i rootOffset) = some assigned ∧
      resetIfLast assigned assigned i rootOffset tid = some after.front ∧
      resetIfLast after.front assigned i rootOffset tid = some after.back := by
  simp only [updateRootOffset, bind_eq_bind, bind_eq_some_iff] at done
  obtain ⟨assigned, stored, front, first, other, also, back, second, finished⟩ := done
  rw [← agree, stored] at also
  cases also
  cases finished
  exact ⟨assigned, stored, first, second⟩

theorem resetIfLast_agree {back : Metadata}
    (first : resetIfLast assigned assigned i rootOffset tid = some front)
    (second : resetIfLast front assigned i rootOffset tid = some back) :
    front = back ↔ ¬ (rootOffset = none ∧ i ≠ invalidBlockNum ∧
      i = assigned.dbHistoryMaxVersion tid ∧ i = assigned.dbHistoryMinValidVersion tid) := by
  by_cases last : rootOffset = none ∧ i = assigned.dbHistoryMaxVersion tid ∧
      i = assigned.dbHistoryMinValidVersion tid
  · rw [resetIfLast, if_pos last] at first
    obtain ⟨reset, cleared, rfl⟩ := modifyRing_eq first
    have empty : reset.nextVersion = 0 := by rw [(Ring.resetAll_eq cleared).2]
    obtain ⟨maxGone, minGone⟩ := assigned.bounds_of_reset tid empty
    by_cases invalid : i = invalidBlockNum
    · have again : rootOffset = none ∧
          i = (assigned.setRing reset (assigned.ringIdx tid)).dbHistoryMaxVersion tid ∧
          i = (assigned.setRing reset (assigned.ringIdx tid)).dbHistoryMinValidVersion tid :=
        ⟨last.1, invalid.trans maxGone.symm, invalid.trans minGone.symm⟩
      rw [resetIfLast, if_pos again, ringIdx_setRing, first] at second
      cases second
      exact ⟨fun _ bad => bad.2.1 invalid, fun _ => rfl⟩
    · have not_again : ¬ (rootOffset = none ∧
          i = (assigned.setRing reset (assigned.ringIdx tid)).dbHistoryMaxVersion tid ∧
          i = (assigned.setRing reset (assigned.ringIdx tid)).dbHistoryMinValidVersion tid) :=
        fun both => invalid (both.2.1.trans maxGone)
      rw [resetIfLast, if_neg not_again] at second
      cases second
      constructor
      · intro same
        rw [same] at maxGone
        exact absurd (last.2.1.trans maxGone) invalid
      · intro fine
        exact absurd ⟨last.1, invalid, last.2⟩ fine
  · rw [resetIfLast, if_neg last] at first
    cases first
    rw [resetIfLast, if_neg last] at second
    cases second
    exact ⟨fun _ bad => last ⟨bad.1, bad.2.2⟩, fun _ => rfl⟩

theorem updateRootOffset_agree (agree : ctx.Agree)
    (done : ctx.updateRootOffset i rootOffset tid = some after) :
    after.Agree ↔ ¬ (MetadataOp.updateRootOffset i rootOffset tid).ErasesLast ctx := by
  obtain ⟨assigned, stored, first, second⟩ := updateRootOffset_steps agree done
  rw [Agree, resetIfLast_agree first second]
  apply not_congr
  cases rootOffset with
  | some offset => simp [MetadataOp.ErasesLast]
  | none =>
    constructor
    · rintro ⟨-, known, last⟩
      exact ⟨known, assigned, stored, last⟩
    · rintro ⟨known, other, same, last⟩
      cases stored.symm.trans same
      exact ⟨rfl, known, last⟩

theorem resetIfLast_completes (sized : (assigned.ring (front.ringIdx tid)).capacity ≠ 0) :
    ∃ m, resetIfLast front assigned i rootOffset tid = some m := by
  unfold resetIfLast
  split
  · simp [modifyRing, Ring.resetAll, sized]
  · exact ⟨assigned, rfl⟩

theorem ringIdx_resetIfLast {m : Metadata}
    (done : resetIfLast front assigned i rootOffset tid = some m) :
    m.ringIdx tid = assigned.ringIdx tid := by
  unfold resetIfLast at done
  split at done
  · obtain ⟨_, -, rfl⟩ := modifyRing_eq done
    rw [ringIdx_setRing]
  · cases done
    rfl

theorem modifyRing_completes {m : Metadata} {idx : RingIdx} (i : Nat)
    (rootOffset : Option Offset) (sized : (m.ring idx).capacity ≠ 0) :
    ∃ next, m.modifyRing idx (·.assign i rootOffset) = some next ∧
      (next.ring idx).capacity ≠ 0 ∧ ∀ tid, next.ringIdx tid = m.ringIdx tid := by
  obtain ⟨ring, assigned⟩ : ∃ ring, (m.ring idx).assign i rootOffset = some ring := by
    rw [Ring.assign, if_neg sized]
    exact ⟨_, rfl⟩
  refine ⟨m.setRing ring idx, ?_, ?_, fun tid => ringIdx_setRing m ring idx tid⟩
  · rw [modifyRing, assigned]
    rfl
  · rw [ring_setRing, (Ring.assign_eq assigned).2, Ring.capacity_updateVersionLowerBound]
    exact sized

theorem resetIfLast_capacity {m next : Metadata}
    (done : resetIfLast front m i rootOffset tid = some next) :
    (next.ring (front.ringIdx tid)).capacity = (m.ring (front.ringIdx tid)).capacity := by
  unfold resetIfLast at done
  split at done
  · obtain ⟨ring, reset, same⟩ := modifyRing_eq done
    rw [same, ring_setRing, (Ring.resetAll_eq reset).2]
  · cases done
    rfl

theorem updateRootOffset_succeeds (i : Nat) (rootOffset : Option Offset)
    (frontSized : (ctx.front.timelineRing tid).capacity ≠ 0)
    (backSized : (ctx.back.ring (ctx.front.ringIdx tid)).capacity ≠ 0) :
    ∃ next, ctx.updateRootOffset i rootOffset tid = some next ∧
      (next.back.ring (next.front.ringIdx tid)).capacity ≠ 0 := by
  obtain ⟨assigned, stored, sized, idx⟩ := modifyRing_completes i rootOffset frontSized
  obtain ⟨front, first⟩ : ∃ m, resetIfLast assigned assigned i rootOffset tid = some m :=
    resetIfLast_completes (by rw [idx]; exact sized)
  obtain ⟨assignedBack, storedBack, sizedBack, -⟩ :=
    modifyRing_completes i rootOffset backSized
  have frontIdx : front.ringIdx tid = ctx.front.ringIdx tid :=
    (ringIdx_resetIfLast first).trans (idx tid)
  obtain ⟨back, second⟩ : ∃ m, resetIfLast front assignedBack i rootOffset tid = some m :=
    resetIfLast_completes (by rw [frontIdx]; exact sizedBack)
  refine ⟨⟨front, back⟩, ?_, ?_⟩
  · simp only [updateRootOffset, stored, first, storedBack, second, bind_eq_bind, bind_some]
    rfl
  · rw [resetIfLast_capacity second, frontIdx]
    exact sizedBack

theorem updateRootOffset_completes (agree : ctx.Agree)
    (erases : (MetadataOp.updateRootOffset i none tid).ErasesLast ctx) :
    ∃ after, ctx.updateRootOffset i none tid = some after := by
  obtain ⟨-, assigned, stored, -⟩ := erases
  obtain ⟨ring, assigns, -⟩ := modifyRing_eq stored
  have sized := (Ring.assign_eq assigns).1
  have backSized : (ctx.back.ring (ctx.front.ringIdx tid)).capacity ≠ 0 := by
    rw [← show ctx.front = ctx.back from agree]
    exact sized
  obtain ⟨after, ran, -⟩ := updateRootOffset_succeeds i none sized backSized
  exact ⟨after, ran⟩

theorem MetadataOp.erasesLast_completes (agree : ctx.Agree)
    (erases : op.ErasesLast ctx) : ∃ after, op.run ctx = some after := by
  cases op with
  | updateRootOffset i rootOffset tid =>
    cases rootOffset with
    | none => exact updateRootOffset_completes agree erases
    | some o => exact erases.elim
  | _ => exact erases.elim

end Update

section Step

variable {ctx after : DbMetadataContext}

namespace MetadataOp

theorem run_agree (agree : ctx.Agree) (done : op.run ctx = some after) :
    after.Agree ↔ ¬ op.ErasesLast ctx := by
  cases op with
  | updateRootOffset i rootOffset tid =>
    have fails := updateRootOffset_agree agree done
    cases rootOffset with
    | none => exact fails
    | some o => exact ⟨fun _ erases => erases.elim, fun _ => fails.2 (fun bad => bad)⟩
  | appendRootOffset _ _ | fastForwardNextVersion _ _ | updateHistoryLengthMetadata _ =>
    simp only [run, DbMetadataContext.updateHistoryLengthMetadata] at done
    exact ⟨fun _ bad => bad, fun _ => both_agree agree done⟩
  | append _ _ _ _ | remove _ _ _ | advanceDbOffsetsTo _ _ | setLatestFinalizedVersion _
  | setLatestVerifiedVersion _ | setLatestVoted _ _ | setLatestProposed _ _
  | setAutoExpireVersionMetadata _ _ | setStateMachineKind _ _ =>
    have framed : Framed ctx after := run_framed (by trivial) done
    exact ⟨fun _ bad => bad, fun _ => framed.agree agree⟩

def KeepsAgreement (ops : List MetadataOp) (start : DbMetadataContext) : Prop :=
  ∀ done rest ctx, ops = done ++ rest → runAll done start = some ctx → ctx.Agree

def KeepsVersion (ops : List MetadataOp) (start : DbMetadataContext) : Prop :=
  ∀ done op rest ctx, ops = done ++ op :: rest → runAll done start = some ctx →
    ¬ op.ErasesLast ctx

theorem keepsVersion_cons :
    KeepsVersion (op :: rest) ctx ↔
      ¬ op.ErasesLast ctx ∧ ∀ next, op.run ctx = some next → KeepsVersion rest next := by
  constructor
  · intro keeps
    refine ⟨keeps [] op rest ctx rfl rfl, fun next ran done later tail middle split reaches => ?_⟩
    refine keeps (op :: done) later tail middle (by rw [split]; rfl) ?_
    rw [runAll_cons, ran]
    exact reaches
  · rintro ⟨first, others⟩ done later tail middle split reaches
    cases done with
    | nil =>
      cases split
      cases reaches
      exact first
    | cons head done =>
      cases split
      obtain ⟨next, ran, reaches⟩ := bind_eq_some_iff.1 reaches
      exact others next ran done later tail middle rfl reaches

theorem keepsAgreement_cons :
    KeepsAgreement (op :: rest) ctx ↔
      ctx.Agree ∧ ∀ next, op.run ctx = some next → KeepsAgreement rest next := by
  constructor
  · intro keeps
    refine ⟨keeps [] (op :: rest) ctx rfl rfl, fun next ran done tail middle split reaches => ?_⟩
    refine keeps (op :: done) tail middle (by rw [split]; rfl) ?_
    rw [runAll_cons, ran]
    exact reaches
  · rintro ⟨first, others⟩ done tail middle split reaches
    cases done with
    | nil =>
      cases reaches
      exact first
    | cons head done =>
      cases split
      obtain ⟨next, ran, reaches⟩ := bind_eq_some_iff.1 reaches
      exact others next ran done tail middle rfl reaches

theorem keepsAgreement_iff (agree : ctx.Agree) : KeepsAgreement ops ctx ↔ KeepsVersion ops ctx := by
  -- Induction on the operations: while the copies agree, the first one that breaks it is the
  -- first one that clears the last version.
  induction ops generalizing ctx with
  | nil =>
    constructor
    · intro _ done op rest middle split
      simp at split
    · intro _ done rest middle split reaches
      obtain ⟨rfl, rfl⟩ := List.nil_eq_append_iff.1 split
      cases reaches
      exact agree
  | cons op rest ih =>
    rw [keepsAgreement_cons, keepsVersion_cons]
    constructor
    · rintro ⟨-, others⟩
      have leaves : ¬ op.ErasesLast ctx := by
        intro erases
        obtain ⟨next, ran⟩ := erasesLast_completes agree erases
        have nextAgree : next.Agree := others next ran [] rest next rfl rfl
        exact (run_agree agree ran).1 nextAgree erases
      refine ⟨leaves, fun next ran => ?_⟩
      exact (ih ((run_agree agree ran).2 leaves)).1 (others next ran)
    · rintro ⟨leaves, others⟩
      refine ⟨agree, fun next ran => ?_⟩
      exact (ih ((run_agree agree ran).2 leaves)).2 (others next ran)

theorem runAll_agree (agree : ctx.Agree) (leaves : ∀ op ∈ ops, ∀ middle, ¬ op.ErasesLast middle)
    (done : runAll ops ctx = some after) : after.Agree := by
  have keeps : KeepsVersion ops ctx := fun earlier op rest middle split _ =>
    leaves op (by rw [split]; simp) middle
  exact (keepsAgreement_iff agree).2 keeps ops [] after (by simp) done

end MetadataOp

end Step

namespace NewPool

variable {pool : NewPool} {after : DbMetadataContext}

theorem rest_leaves {fast slow : Nat} {free : List Nat}
    (mem : op ∈ pool.rest fast slow free) (middle : DbMetadataContext) :
    ¬ op.ErasesLast middle := by
  simp only [rest, List.mem_append, List.mem_map, List.mem_cons, List.not_mem_nil, or_false] at mem
  rcases mem with (⟨_, -, rfl⟩ | rfl | rfl | rfl | rfl | rfl | rfl | rfl) | ⟨_, -, rfl⟩ <;>
    exact fun bad => bad

theorem init_agree (done : pool.init = some after) : after.Agree := by
  obtain ⟨-, fast, slow, free, first, second, -, fastAppended, slowAppended, ran⟩ := init_ok done
  have blank : DbMetadataContext.Agree ⟨pool.blank, pool.blank⟩ := rfl
  have firstAgree := (appendFirst_framed fastAppended).agree blank
  have secondAgree := (appendFirst_framed slowAppended).agree firstAgree
  exact MetadataOp.runAll_agree secondAgree (fun _ mem => rest_leaves mem) ran

end NewPool

/-- From a new pool on, the copies are equal after each completed operation exactly when
no operation clears the last version that is left. -/
theorem copies_agree_iff (pool : NewPool) (start : DbMetadataContext)
    (initialised : pool.init = some start) (ops : List MetadataOp) :
    MetadataOp.KeepsAgreement ops start ↔ MetadataOp.KeepsVersion ops start :=
  MetadataOp.keepsAgreement_iff (NewPool.init_agree initialised)

def smallPool : NewPool where
  chunkCount := 3
  chunkCapacity := fun _ => 2 ^ 28
  ringTotal := 1
  cnvCapacity := 2 ^ 28

def writeAndErase : List MetadataOp :=
  [ .fastForwardNextVersion 5 .primary
  , .appendRootOffset (some ⟨2, 0, 0⟩) .primary
  , .updateRootOffset 5 none .primary ]

theorem smallPool_starts : ∃ start, smallPool.init = some start :=
  isSome_iff_exists.1 (by decide +kernel)

theorem copies_agree_iff_sample : ∃ start, smallPool.init = some start ∧
    (MetadataOp.KeepsAgreement writeAndErase start ↔
      MetadataOp.KeepsVersion writeAndErase start) := by
  obtain ⟨start, initialised⟩ := smallPool_starts
  exact ⟨start, initialised, copies_agree_iff smallPool start initialised writeAndErase⟩

/-- The front copy is empty afterwards, and the back copy still reports version 5. -/
theorem copies_diverge : ∃ start ctx,
    smallPool.init = some start ∧ MetadataOp.runAll writeAndErase start = some ctx ∧
    ctx.front.dbHistoryMaxVersion .primary = invalidBlockNum ∧
    ctx.back.dbHistoryMaxVersion .primary = 5 ∧ ¬ ctx.Agree := by
  have versions : (smallPool.init.bind (MetadataOp.runAll writeAndErase)).map
      (fun ctx => (ctx.front.dbHistoryMaxVersion .primary, ctx.back.dbHistoryMaxVersion .primary)) =
        some (invalidBlockNum, 5) := by
    decide +kernel
  obtain ⟨ctx, ran, reports⟩ := map_eq_some_iff.1 versions
  obtain ⟨start, initialised, ran⟩ := bind_eq_some_iff.1 ran
  obtain ⟨front, back⟩ := Prod.mk.injEq _ _ _ _ ▸ reports
  refine ⟨start, ctx, initialised, ran, front, back, fun agree => ?_⟩
  rw [show ctx.front = ctx.back from agree, back] at front
  exact absurd front (by decide)

end MonadChain.Mpt
