import MonadChain.Runloop.Invariant

/-!
The run loop finalizes the canonical chain once, in order, after executing it.
The invariant is carried through the two queues of a round, through the trimming
of the cache and through the rounds.
-/

namespace MonadChain.Runloop

open Lineage Option List Ledger

variable {state : State} {id tip head start : BlockId} {h : Header} {db : Database}
  {seen entries : List (BlockId × Header)} {endBlockNum : Nat} {observed : Observation}

section Queues

variable {ledger : Ledger} {base latest : BlockId}

/-- A block on a path above the latest finalized one that was executed earlier is
ready like one that was executed just now. -/
theorem Ready.next {parent : BlockId}
    (inv : Inv ledger base state latest) (ready : Ready ledger base latest state parent)
    (link : ledger.parent id = some parent) (stored : (ledger.seqno id, id) ∈ state.db.proposals) :
    Ready ledger base latest state id where
  below := .step link ready.below
  known := Or.inr stored
  cached := by
    intro _
    have up := ledger.seqno_parent link
    have lower := Descends.seqno_le ready.below
    exact inv.cachedAbove id stored (by omega)
  cachedUp := by
    intro other otherLink positive
    have same : other = parent := some.inj (otherLink.symm.trans link)
    exact same ▸ ready.cached (same ▸ positive)

theorem executeAll_spec {parent : BlockId} (head : BlockId) (db : Database)
    (inv : Inv ledger base state latest) (ready : Ready ledger base latest state parent)
    (path : ledger.tree.Path parent (ids entries) tip) (stored : Stored ledger entries)
    (agree : ∀ block ∈ entries, hasExecuted db block = hasExecuted state.db block) :
    ∃ after, executeAll (ledger.seqno base + 1) head
        (entries.filter fun block => !hasExecuted db block) state = some after ∧
      Inv ledger base after latest ∧
      (∀ block ∈ entries, hasExecuted after.db block = true) ∧
      ∀ proposal ∈ state.db.proposals, proposal ∈ after.db.proposals := by
  induction entries generalizing parent state with
  | nil => exact ⟨state, rfl, inv, by simp, fun _ member => member⟩
  | cons block rest ih =>
    obtain ⟨id, h⟩ := block
    cases path with
    | cons link pathRest =>
    obtain ⟨found, storedRest⟩ := forall_mem_cons.mp stored
    obtain ⟨agreeHere, agreeRest⟩ := forall_mem_cons.mp agree
    have height := seqno_eq found
    by_cases done : hasExecuted db (id, h) = true
    · rw [filter_cons_of_neg (by simp [done])]
      have present : (ledger.seqno id, id) ∈ state.db.proposals := by
        rw [height]
        exact of_decide_eq_true (agreeHere.symm.trans done)
      obtain ⟨after, ran, invAfter, executed, kept⟩ :=
        ih inv (ready.next inv link present) pathRest storedRest agreeRest
      exact ⟨after, ran, invAfter, forall_mem_cons.mpr
        ⟨decide_eq_true (height ▸ kept _ present), executed⟩, kept⟩
    · rw [filter_cons_of_pos (by simp [done])]
      have fresh : (ledger.seqno id, id) ∉ state.db.proposals := by
        rw [height]
        intro present
        exact done (agreeHere.trans (decide_eq_true present))
      obtain ⟨middle, proposed, invMiddle, readyMiddle, grown⟩ :=
        propose_step inv ready found link fresh head
      have agreeNext : ∀ entry ∈ rest, hasExecuted db entry = hasExecuted middle.db entry := by
        intro entry member
        rw [agreeRest entry member]
        have higher := (pathRest.between entry.1 (mem_map_of_mem member)).1
        have different : (entry.2.seqno, entry.1) ≠ (ledger.seqno id, id) := by
          intro equal
          have same : entry.1 = id := (Prod.ext_iff.mp equal).2
          rw [same] at higher
          exact Nat.lt_irrefl _ higher
        simp [hasExecuted, grown, different]
      obtain ⟨after, ran, invAfter, executed, kept⟩ :=
        ih invMiddle readyMiddle pathRest storedRest agreeNext
      refine ⟨after, ?_, invAfter, forall_mem_cons.mpr ⟨decide_eq_true (kept _ ?_), executed⟩, ?_⟩
      · rw [executeAll, proposed]
        exact ran
      · rw [grown, height]
        exact mem_cons_self
      · intro proposal member
        exact kept proposal (grown ▸ mem_cons_of_mem _ member)

theorem finalize_step (inv : Inv ledger base state latest) (found : ledger.header id = some h)
    (link : ledger.parent id = some latest)
    (stored : (ledger.seqno id, id) ∈ state.db.proposals) (below : ledger.Descends head id) :
    ∃ after, finalizeBlock head id h state = some after ∧ Inv ledger base after id ∧
      after.db.proposals = state.db.proposals := by
  have height := seqno_eq found
  have up := ledger.seqno_parent link
  have baseLower := Descends.seqno_le inv.below
  have executed := inv.executed id stored (by omega)
  have finalized : finalizeBlock head id h state = some
      { db := ⟨state.db.proposals, h.seqno :: state.db.finalizedAt, h.seqno⟩
        cache := state.cache
        finalizedBlockNum := h.seqno
        calls := state.calls ++ [⟨head, .finalize h.seqno id⟩] } := by
    have next : h.seqno = state.db.latestFinalized + 1 := by rw [inv.database, ← height, up]
    rw [finalizeBlock, Database.finalize, if_neg (by simp [next]),
      if_neg (ledger.ne_zero found), if_neg (by rw [← height]; simp [stored])]
    rfl
  refine ⟨_, finalized, ?_, rfl⟩
  exact
    { numbered := inv.numbered
      database := height.symm
      counter := height.symm
      logged := by
        rw [latestOf, foldl_append]
        rfl
      below := .step link inv.below
      baseState := mem_cons_of_mem _ inv.baseState
      latestState := Or.inr stored
      cachedLatest := fun _ => inv.cachedAbove id stored (by omega)
      cachedUp := by
        intro other otherLink positive
        have same : other = latest := some.inj (otherLink.symm.trans link)
        exact same ▸ inv.cachedLatest (same ▸ positive)
      cachedAbove := fun other present above => inv.cachedAbove other present (by omega)
      cacheKnown := fun other present =>
        (inv.cacheKnown other present).imp_left fun low => by omega
      proposed := by
        rintro other ⟨seenHead, member⟩
        rcases mem_append.mp member with old | new
        · exact inv.proposed other ⟨seenHead, old⟩
        · cases mem_singleton.mp new
      executed := by
        intro other present above
        obtain ⟨seenHead, member⟩ := inv.executed other present above
        exact ⟨seenHead, mem_append_left _ member⟩
      heights := by
        have more : ledger.seqno id - ledger.seqno base =
            ledger.seqno latest - ledger.seqno base + 1 := by omega
        have last : ledger.seqno base + 1 + (ledger.seqno latest - ledger.seqno base) =
            h.seqno := by omega
        rw [finalizedHeights, filterMap_append, ← finalizedHeights, inv.heights, more,
          range'_1_concat, last]
        rfl
      allowed := by
        refine inv.allowed.append ⟨?_, height, below, executed⟩
        rw [inv.logged, ← height, up] }

theorem finalizeAll_spec (inv : Inv ledger base state latest) (below : ledger.Descends head tip)
    (path : ledger.tree.Path latest (ids entries) tip) (stored : Stored ledger entries)
    (executed : ∀ block ∈ entries, hasExecuted state.db block = true) :
    ∃ after, finalizeAll head entries state = some after ∧ Inv ledger base after tip := by
  induction entries generalizing latest state with
  | nil =>
    cases path
    exact ⟨state, rfl, inv⟩
  | cons block rest ih =>
    obtain ⟨id, h⟩ := block
    cases path with
    | cons link pathRest =>
    obtain ⟨found, storedRest⟩ := forall_mem_cons.mp stored
    obtain ⟨done, executedRest⟩ := forall_mem_cons.mp executed
    have present : (ledger.seqno id, id) ∈ state.db.proposals := by
      rw [seqno_eq found]
      exact of_decide_eq_true done
    obtain ⟨middle, finalized, invMiddle, same⟩ :=
      finalize_step inv found link present (below.trans pathRest.descends)
    obtain ⟨after, ran, invAfter⟩ := ih invMiddle pathRest storedRest fun entry member => by
      rw [hasExecuted, same]
      exact executedRest entry member
    exact ⟨after, by rw [finalizeAll, finalized]; exact ran, invAfter⟩

theorem Cached.trim {cache : BlockCache} {last : Nat}
    (known : Cached ledger cache id) (recent : last - 1 ≤ ledger.seqno id) :
    Cached ledger (cache.trim last) id := by
  obtain ⟨h, found, stored⟩ := known
  refine ⟨h, found, ?_⟩
  rw [seqno_eq found] at recent
  rw [BlockCache.trim, stored, filter_some, if_pos]
  simp only [Bool.not_eq_true', Bool.and_eq_false_iff, decide_eq_false_iff_not]
  omega

theorem Inv.trim (inv : Inv ledger base state latest) :
    Inv ledger base { state with cache := state.cache.trim (ledger.seqno latest) } latest :=
  { inv with
    cachedLatest := fun positive => (inv.cachedLatest positive).trim (by omega)
    cachedUp := by
      intro up link positive
      have lower := ledger.seqno_parent link
      exact (inv.cachedUp up link positive).trim (by omega)
    cachedAbove := fun id present above => (inv.cachedAbove id present above).trim (by omega)
    cacheKnown := by
      intro id present
      refine inv.cacheKnown id fun absent => present ?_
      change (state.cache id).filter _ = none
      rw [absent]
      rfl }

theorem trimAfter_spec (inv : Inv ledger base state latest)
    (path : ledger.tree.Path start (ids entries) latest) (stored : Stored ledger entries) :
    Inv ledger base (trimAfter entries state) latest := by
  rw [trimAfter]
  split
  · exact inv
  · next tip h last =>
    have member := mem_of_getLast? last
    have atTip : (ids entries).getLast? = some tip := by
      rw [ids, getLast?_map, last]
      rfl
    rcases path.getLast? with ⟨empty, _⟩ | found
    · rw [empty] at atTip
      cases atTip
    · have same : tip = latest := some.inj (atTip.symm.trans found)
      have height := seqno_eq (stored (tip, h) member)
      rw [← height, same]
      exact inv.trim

end Queues

section Rounds

variable {ledger : Ledger} {base latest : BlockId}

theorem queueFinalized_filter (db : Database) (block : BlockId × Header)
    (rest : List (BlockId × Header)) :
    queueFinalized db (rest.filter fun block => !hasExecuted db block) block =
      (block :: rest).filter fun block => !hasExecuted db block := by
  rw [queueFinalized, filter_cons]
  by_cases done : hasExecuted db block = true <;> simp [done]

theorem queueFinalized_eq (db : Database) (seen : List (BlockId × Header)) :
    seen.foldl (queueFinalized db) [] = seen.reverse.filter fun block => !hasExecuted db block := by
  rw [← foldr_reverse]
  generalize seen.reverse = entries
  induction entries with
  | nil => rfl
  | cons block rest ih => rw [foldr_cons, ih, queueFinalized_filter]

theorem queueProposed_above (db : Database) (head : BlockId)
    (above : ∀ block ∈ entries, block.2.seqno ≠ db.latestFinalized + 1) :
    entries.foldr (fun block queue => queueProposed db head queue block) [] =
      entries.filter fun block => !hasExecuted db block := by
  induction entries with
  | nil => rfl
  | cons block rest ih =>
    obtain ⟨here, later⟩ := forall_mem_cons.mp above
    rw [foldr_cons, ih later, queueProposed, if_neg (fun both => here both.1),
      queueFinalized_filter]

theorem queueProposed_eq (pathUp : ledger.tree.Path start (ids seen.reverse) tip)
    (storedUp : Stored ledger seen.reverse) (level : ledger.seqno start = db.latestFinalized) :
    seen.foldl (queueProposed db head) [] =
      if start = head then seen.reverse.filter fun block => !hasExecuted db block else [] := by
  rw [← foldr_reverse]
  generalize seen.reverse = entries at storedUp pathUp
  cases entries with
  | nil => simp
  | cons block rest =>
    obtain ⟨id, h⟩ := block
    cases pathUp with
    | cons link pathRest =>
    obtain ⟨found, storedRest⟩ := forall_mem_cons.mp storedUp
    have height : ledger.seqno id = h.seqno := seqno_eq found
    have up : ledger.seqno id = ledger.seqno start + 1 := ledger.seqno_parent link
    have ownParent : h.parentId = start := ledger.parentId_eq found link
    have above : ∀ entry ∈ rest, entry.2.seqno ≠ db.latestFinalized + 1 := by
      intro entry member
      have higher := (pathRest.between entry.1 (mem_map_of_mem member)).1
      change ledger.seqno id < ledger.seqno entry.1 at higher
      have entryHeight := seqno_eq (storedRest entry member)
      omega
    rw [foldr_cons, queueProposed_above db head above, queueProposed]
    have lowest : h.seqno = db.latestFinalized + 1 := by omega
    by_cases same : start = head
    · rw [if_pos same, if_neg (fun both => both.2 (same ▸ ownParent.symm)), queueFinalized_filter]
    · rw [if_neg same, if_pos ⟨lowest, fun equal => same (ownParent.symm.trans equal.symm)⟩]

/-- The queue of a round is what is missing on a path that starts at the latest
finalized block and covers everything to be finalized. -/
theorem toExecute_spec
    (inv : Inv ledger base state latest) (running : ledger.seqno latest < endBlockNum)
    (proposedReachable : ledger.Reachable observed.proposedHead)
    (below : ledger.Descends observed.finalizedHead latest)
    (result : Walked ledger observed.finalizedHead latest endBlockNum seen tip) :
    ∃ parts pathTip, toExecute ledger endBlockNum observed state.db seen =
        some (parts.filter fun block => !hasExecuted state.db block) ∧
      ledger.tree.Path latest (ids parts) pathTip ∧ Stored ledger parts ∧
      ∀ block ∈ seen.reverse, block ∈ parts := by
  by_cases behind : seen = []
  · subst behind
    -- Nothing to finalize: the finalized head is the latest finalized block.
    have same : tip = latest := by
      cases result.path
      rfl
    have level := result.height
    rw [same] at level
    have atHead : observed.finalizedHead = latest := below.eq_of_height
      (show ledger.seqno observed.finalizedHead ≤ ledger.seqno latest by omega)
    by_cases low : ledger.seqno observed.proposedHead ≤ ledger.seqno latest
    · refine ⟨[], latest, ?_, .nil _, Stored.nil ledger, by simp⟩
      simp only [toExecute, inv.database, forEachHeader_low _ proposedReachable low]
      rfl
    · obtain ⟨start, toStart, startLevel⟩ := ancestor_exists ledger.tree
        observed.proposedHead (Nat.le_of_not_le low)
      change ledger.seqno start = ledger.seqno latest at startLevel
      obtain ⟨proposed, proposedTip, proposedWalk, branch⟩ :=
        forEachHeader_path endBlockNum proposedReachable (by omega) toStart
      have queue : toExecute ledger endBlockNum observed state.db [] =
          some (if start = observed.finalizedHead then
            proposed.reverse.filter fun block => !hasExecuted state.db block else []) := by
        simp only [toExecute, inv.database, ← startLevel, proposedWalk, List.isEmpty_nil,
          if_true, List.foldl_nil, map_some]
        rw [queueProposed_eq branch.pathUp branch.storedUp (startLevel.trans inv.database.symm)]
      by_cases canonical : start = observed.finalizedHead
      · rw [if_pos canonical] at queue
        have branchUp := branch.pathUp
        rw [canonical.trans atHead] at branchUp
        exact ⟨proposed.reverse, proposedTip, queue, branchUp, branch.storedUp, by simp⟩
      · rw [if_neg canonical] at queue
        exact ⟨[], latest, queue, .nil _, Stored.nil ledger, by simp⟩
  · refine ⟨seen.reverse, tip, ?_, result.pathUp, result.storedUp, fun _ member => member⟩
    simp [toExecute, if_neg behind, queueFinalized_eq]

/-- A round keeps the invariant; afterwards the latest finalized block is the
ancestor of the observed head at the last height asked for. -/
theorem round_spec
    (inv : Inv ledger base state latest) (running : state.finalizedBlockNum < endBlockNum)
    (reachable : ledger.Reachable observed.finalizedHead)
    (proposedReachable : ledger.Reachable observed.proposedHead)
    (below : ledger.Descends observed.finalizedHead latest) :
    ∃ after tip, round ledger (ledger.seqno base + 1) endBlockNum state observed = some after ∧
      Inv ledger base after tip ∧ ledger.Descends observed.finalizedHead tip ∧
      ledger.seqno tip = min endBlockNum (ledger.seqno observed.finalizedHead) := by
  rw [inv.counter] at running
  obtain ⟨seen, tip, walked, result⟩ :=
    forEachHeader_path endBlockNum reachable (Nat.le_of_lt running) below
  obtain ⟨parts, pathTip, queue, partsPath, partsStored, covers⟩ :=
    toExecute_spec inv running proposedReachable below result
  obtain ⟨executed, ran, invExecuted, done, _⟩ :=
    executeAll_spec observed.finalizedHead state.db inv inv.ready partsPath partsStored
      fun _ _ => rfl
  obtain ⟨finalized, closed, invFinalized⟩ :=
    finalizeAll_spec invExecuted result.below result.pathUp result.storedUp
      fun block member => done block (covers block member)
  refine ⟨trimAfter seen.reverse finalized, tip, ?_,
    trimAfter_spec invFinalized result.pathUp result.storedUp, result.below, result.height⟩
  simp [round, inv.database, walked, queue, ran, closed]

def HeadsAdvance (ledger : Ledger) : BlockId → List Observation → Prop
  | _, [] => True
  | previous, observed :: rest =>
    ledger.Descends observed.finalizedHead previous ∧
      HeadsAdvance ledger observed.finalizedHead rest

def lastHead : BlockId → List Observation → BlockId
  | head, [] => head
  | _, observed :: rest => lastHead observed.finalizedHead rest

theorem HeadsAdvance.last_le {observations : List Observation} {previous : BlockId}
    (advance : HeadsAdvance ledger previous observations) :
    ledger.seqno previous ≤ ledger.seqno (lastHead previous observations) := by
  induction observations generalizing previous with
  | nil => exact Nat.le_refl _
  | cons observed rest ih => exact Nat.le_trans (Descends.seqno_le advance.1) (ih advance.2)

theorem rounds_spec {observations : List Observation} {previous : BlockId} (endBlockNum : Nat)
    (inv : Inv ledger base state latest) (below : ledger.Descends previous latest)
    (advance : HeadsAdvance ledger previous observations)
    (reachable : ∀ observed ∈ observations, ledger.Reachable observed.finalizedHead ∧
      ledger.Reachable observed.proposedHead) :
    ∃ after tip, rounds ledger (ledger.seqno base + 1) endBlockNum observations state =
      some after ∧ Inv ledger base after tip ∧ ledger.seqno tip = max (ledger.seqno latest)
        (min endBlockNum (ledger.seqno (lastHead latest observations))) := by
  induction observations generalizing state latest previous with
  | nil => exact ⟨state, latest, rfl, inv, by rw [lastHead]; omega⟩
  | cons observed rest ih =>
    by_cases running : state.finalizedBlockNum < endBlockNum
    · obtain ⟨⟨finalReachable, proposedReachable⟩, later⟩ := forall_mem_cons.mp reachable
      have level := Descends.seqno_le (advance.1.trans below)
      have counter := inv.counter
      obtain ⟨middle, tip, ran, invMiddle, tipBelow, height⟩ :=
        round_spec inv running finalReachable proposedReachable (advance.1.trans below)
      obtain ⟨after, last, done, invAfter, reached⟩ := ih invMiddle tipBelow advance.2 later
      refine ⟨after, last, ?_, invAfter, ?_⟩
      · rw [rounds, if_pos running, ran]
        exact done
      · have advanced := advance.2.last_le
        cases rest <;> simp only [lastHead] at reached advanced ⊢ <;> omega
    · have counter := inv.counter
      exact ⟨state, latest, by rw [rounds, if_neg running], inv, by omega⟩

end Rounds

section Start

variable {ledger : Ledger} {base : BlockId}

theorem fillCache_spec {cache : BlockCache} (distinct : (ids seen).Nodup)
    (absent : ∀ id ∈ ids seen, cache id = none) :
    ∃ filled, fillCache seen cache = some filled ∧
      (∀ block ∈ seen, filled block.1 = some ⟨block.2.seqno, block.2.parentId⟩) ∧
      ∀ id, id ∉ ids seen → filled id = cache id := by
  induction seen generalizing cache with
  | nil => exact ⟨cache, rfl, by simp, fun _ _ => rfl⟩
  | cons block rest ih =>
    obtain ⟨id, h⟩ := block
    obtain ⟨new, distinctRest⟩ := nodup_cons.mp distinct
    obtain ⟨here, later⟩ := forall_mem_cons.mp absent
    have emplaced : cache.emplace id ⟨h.seqno, h.parentId⟩ =
        some (Function.update cache id (some ⟨h.seqno, h.parentId⟩)) := by
      rw [BlockCache.emplace, here]
      rfl
    have vacant : ∀ other ∈ ids rest,
        Function.update cache id (some ⟨h.seqno, h.parentId⟩) other = none := by
      intro other member
      have different : other ≠ id := fun same => new (same ▸ member)
      rw [Function.update_of_ne different]
      exact later other member
    obtain ⟨filled, ran, stored, others⟩ := ih distinctRest vacant
    refine ⟨filled, ?_, forall_mem_cons.mpr ⟨?_, stored⟩, ?_⟩
    · rw [fillCache, emplaced]
      exact ran
    · rw [others id new, Function.update_self]
    · intro other missing
      have different : other ≠ id := fun same => missing (same ▸ mem_cons_self)
      rw [others other fun member => missing (mem_cons_of_mem _ member),
        Function.update_of_ne different]

theorem start_inv {openedHead : BlockId} (numbered : ledger.Numbered)
    (latest : db.latestFinalized = ledger.seqno base)
    (finalizedState : db.latestFinalized ∈ db.finalizedAt)
    (rewound : ∀ proposal ∈ db.proposals, proposal.1 ≤ db.latestFinalized)
    (below : ledger.Descends openedHead base) (reachable : ledger.Reachable openedHead) :
    ∃ seen cache, forEachHeader ledger openedHead (cacheStart db.latestFinalized)
        db.latestFinalized = some seen ∧ fillCache seen (fun _ => none) = some cache ∧
      Inv ledger base ⟨db, cache, db.latestFinalized, []⟩ base := by
  have early : cacheStart db.latestFinalized ≤ ledger.seqno base := by
    rw [cacheStart, ← latest]
    split <;> omega
  obtain ⟨root, toRoot, level⟩ := ancestor_exists ledger.tree base early
  change ledger.seqno root = _ at level
  obtain ⟨seen, tip, walked, result⟩ := forEachHeader_path db.latestFinalized reachable
    (show ledger.seqno root ≤ _ by omega) (below.trans toRoot)
  have bounded := Descends.seqno_le below
  have same : tip = base := result.below.unique below
    (show ledger.seqno tip = ledger.seqno base by rw [result.height]; omega)
  subst same
  have distinct : (ids seen).Nodup := (List.Perm.nodup_iff (reverse_perm _)).mp result.path.nodup
  obtain ⟨cache, filled, stored, others⟩ :=
    fillCache_spec distinct fun _ _ => rfl
  have cached : ∀ id, ledger.Descends tip id → cacheStart db.latestFinalized < ledger.seqno id →
      Cached ledger cache id := by
    intro id toId above
    have member := mem_reverse.mp (result.path.mem toId
      (show ledger.seqno root < ledger.seqno id by omega))
    obtain ⟨block, inSeen, rfl⟩ := mem_map.mp member
    exact ⟨block.2, result.stored block inSeen, stored block inSeen⟩
  have low : ∀ positive : 0 < db.latestFinalized,
      cacheStart db.latestFinalized < db.latestFinalized := by
    intro positive
    rw [cacheStart]
    split <;> omega
  refine ⟨seen, cache, by rw [← level]; exact walked, filled, ?_⟩
  exact
    { numbered
      database := latest
      counter := latest
      logged := rfl
      below := .refl _
      baseState := latest ▸ finalizedState
      latestState := Or.inl rfl
      cachedLatest := fun positive => cached tip (.refl _) (latest ▸ low (latest ▸ positive))
      cachedUp := by
        intro up link positive
        have height := ledger.seqno_parent link
        refine cached up (.step link (.refl _)) ?_
        rw [cacheStart]
        split <;> omega
      cachedAbove := by
        intro id present above
        have := rewound _ present
        omega
      cacheKnown := by
        intro id present
        by_cases member : id ∈ ids seen
        · exact Or.inl (Descends.seqno_le (result.path.between id
            (mem_reverse.mpr member)).2.1)
        · exact absurd (others id member) present
      proposed := by
        rintro id ⟨head, member⟩
        cases member
      executed := by
        intro id present above
        have := rewound _ present
        omega
      heights := by
        rw [Nat.sub_self]
        rfl
      allowed := Ordered.nil }

end Start

/-- A database rewound to its latest finalized block, and heads that descend from it and
advance. -/
structure Opened (ledger : Ledger) (db : Database) (base openedHead : BlockId)
    (observations : List Observation) : Prop where
  latest : db.latestFinalized = ledger.seqno base
  finalizedState : db.latestFinalized ∈ db.finalizedAt
  rewound : ∀ proposal ∈ db.proposals, proposal.1 ≤ db.latestFinalized
  below : ledger.Descends openedHead base
  openedReachable : ledger.Reachable openedHead
  advance : HeadsAdvance ledger openedHead observations
  reachable : ∀ observed ∈ observations, ledger.Reachable observed.finalizedHead ∧
    ledger.Reachable observed.proposedHead

/-- For every sequence of observations in which the finalized head only advances,
no assertion of the loop fails, `finalize` is called for consecutive heights from
the one after the initial finalized block up to the head that was observed last,
and every call is allowed by the calls before it. -/
theorem runloop_finalizes_canonical_chain (ledger : Ledger) (db : Database) (base : BlockId)
    (endBlockNum : Nat) (openedHead : BlockId) (observations : List Observation)
    (numbered : ledger.Numbered) (opened : Opened ledger db base openedHead observations) :
    ∃ state, runloopMonad ledger db endBlockNum openedHead observations = some state ∧
      state.db.latestFinalized = max db.latestFinalized
        (min endBlockNum (ledger.seqno (lastHead base observations))) ∧
      finalizedHeights state.calls =
        List.range' (db.latestFinalized + 1) (state.db.latestFinalized - db.latestFinalized) ∧
      Ordered (Allowed ledger base) state.calls := by
  obtain ⟨latest, finalizedState, rewound, below, openedReachable, advance, reachable⟩ := opened
  obtain ⟨seen, cache, walked, filled, inv⟩ :=
    start_inv numbered latest finalizedState rewound below openedReachable
  obtain ⟨state, tip, ran, invAfter, reached⟩ := rounds_spec endBlockNum inv below advance reachable
  refine ⟨state, ?_, ?_, ?_, invAfter.allowed⟩
  · rw [← latest] at ran
    simp only [runloopMonad, walked, filled, bind_eq_bind, bind_some]
    exact ran
  · rw [invAfter.database, reached, latest]
  · rw [invAfter.heights, invAfter.database, latest]

/-- A chain 10, 11, 12, 13 with a fork 22, 23 above its first block. -/
def forkHeader (number : Nat) : BlockId → Option Header
  | 11 => some ⟨1, 10, 1⟩
  | 12 => some ⟨2, 11, number⟩
  | 13 => some ⟨3, 12, 3⟩
  | 22 => some ⟨2, 11, 2⟩
  | 23 => some ⟨3, 22, 3⟩
  | _ => none

theorem forkHeader_cases {number : Nat} (found : forkHeader number id = some h) :
    (id = 11 ∧ h = ⟨1, 10, 1⟩) ∨ (id = 12 ∧ h = ⟨2, 11, number⟩) ∨ (id = 13 ∧ h = ⟨3, 12, 3⟩) ∨
      (id = 22 ∧ h = ⟨2, 11, 2⟩) ∨ (id = 23 ∧ h = ⟨3, 22, 3⟩) := by
  unfold forkHeader at found
  split at found <;> simp_all

def forkLedger (number : Nat) : Ledger where
  header := forkHeader number
  zero_absent := rfl
  linked := by
    intro id h found later
    rcases forkHeader_cases found with ⟨_, rfl⟩ | ⟨_, rfl⟩ | ⟨_, rfl⟩ | ⟨_, rfl⟩ | ⟨_, rfl⟩
    · exact absurd later (by decide)
    · exact ⟨⟨1, 10, 1⟩, rfl, rfl⟩
    · exact ⟨⟨2, 11, number⟩, rfl, rfl⟩
    · exact ⟨⟨1, 10, 1⟩, rfl, rfl⟩
    · exact ⟨⟨2, 11, 2⟩, rfl, rfl⟩
  first := by
    intro id h found one up parentFound
    rcases forkHeader_cases found with ⟨_, rfl⟩ | ⟨_, rfl⟩ | ⟨_, rfl⟩ | ⟨_, rfl⟩ | ⟨_, rfl⟩
    · cases parentFound
    all_goals cases one

theorem forkLedger_numbered : (forkLedger 2).Numbered := by
  intro id h found
  rcases forkHeader_cases found with ⟨_, rfl⟩ | ⟨_, rfl⟩ | ⟨_, rfl⟩ | ⟨_, rfl⟩ | ⟨_, rfl⟩ <;> decide

def forkDatabase : Database := ⟨[(1, 11)], [1, 0], 1⟩

def forkObservations : List Observation := [⟨11, 23⟩, ⟨11, 12⟩, ⟨13, 23⟩]

theorem fork_opened (number : Nat) :
    Opened (forkLedger number) forkDatabase 11 11 forkObservations := by
  have thirteen : (forkLedger number).Descends 13 11 :=
    .step (show (forkLedger number).tree.parent 13 = some 12 from rfl)
      (.step (show (forkLedger number).tree.parent 12 = some 11 from rfl) (.refl 11))
  refine ⟨rfl, by decide, by decide, .refl 11, Or.inr ⟨_, rfl⟩,
    ⟨.refl 11, .refl 11, thirteen, trivial⟩, fun observed member => ?_⟩
  simp only [forkObservations, mem_cons, not_mem_nil, or_false] at member
  rcases member with rfl | rfl | rfl <;> exact ⟨Or.inr ⟨_, rfl⟩, Or.inr ⟨_, rfl⟩⟩

theorem runloop_finalizes_fork :
    (∃ state, runloopMonad (forkLedger 2) forkDatabase 9 11 forkObservations = some state ∧
      state.db.latestFinalized = 3 ∧
      finalizedHeights state.calls = List.range' 2 (state.db.latestFinalized - 1) ∧
      Ordered (Allowed (forkLedger 2) 11) state.calls) ∧
    (runloopMonad (forkLedger 2) forkDatabase 9 11 forkObservations).map State.calls =
      some [⟨11, .proposeBlock 22⟩, ⟨11, .proposeBlock 23⟩, ⟨11, .proposeBlock 12⟩,
        ⟨13, .proposeBlock 13⟩, ⟨13, .finalize 2 12⟩, ⟨13, .finalize 3 13⟩] :=
  ⟨runloop_finalizes_canonical_chain (forkLedger 2) forkDatabase 11 9 11 forkObservations
    forkLedger_numbered (fork_opened 2), by decide⟩

/-- One chain up to a version that the database does not take. -/
def tallLedger : Ledger where
  header (id : Nat) := if id = 0 ∨ 2 ^ 63 < id then none else some ⟨id, id - 1, id⟩
  zero_absent := rfl
  linked := by
    intro (id : Nat) h found later
    obtain ⟨inside, found⟩ := Option.ite_none_left_eq_some.mp found
    obtain rfl := some.inj found
    dsimp only at later
    exact ⟨⟨id - 1, id - 1 - 1, id - 1⟩, if_neg (by dsimp only; omega), by dsimp only; omega⟩
  first := by
    intro id h found one up parentFound
    obtain ⟨_, parentFound⟩ := Option.ite_none_left_eq_some.mp parentFound
    obtain ⟨_, found⟩ := Option.ite_none_left_eq_some.mp found
    obtain rfl := some.inj found
    obtain rfl := some.inj parentFound
    dsimp only at one ⊢
    omega

def tallDatabase : Database := ⟨[(2 ^ 63 - 1, 2 ^ 63 - 1)], [2 ^ 63 - 1], 2 ^ 63 - 1⟩

/-- Where block 12 says that it is number 3, its grandparent is not in the cache; a block with
number 2^63 cannot be committed. -/
theorem runloop_misnumbered :
    (Opened (forkLedger 3) forkDatabase 11 11 forkObservations ∧
      runloopMonad (forkLedger 3) forkDatabase 9 11 forkObservations = none) ∧
    Opened tallLedger tallDatabase (2 ^ 63 - 1) (2 ^ 63 - 1) [⟨2 ^ 63, 2 ^ 63⟩] ∧
      runloopMonad tallLedger tallDatabase (2 ^ 64) (2 ^ 63 - 1) [⟨2 ^ 63, 2 ^ 63⟩] = none := by
  have child : tallLedger.Descends (2 ^ 63) (2 ^ 63 - 1) :=
    .step (show tallLedger.tree.parent (2 ^ 63) = some (2 ^ 63 - 1) from rfl) (.refl _)
  refine ⟨⟨fork_opened 3, isNone_iff_eq_none.mp (by decide)⟩, ⟨rfl, by decide, by decide, .refl _,
    .inr ⟨_, rfl⟩, ⟨child, trivial⟩, ?_⟩, isNone_iff_eq_none.mp (by decide +kernel)⟩
  exact forall_mem_singleton.mpr ⟨.inr ⟨_, rfl⟩, .inr ⟨_, rfl⟩⟩

end MonadChain.Runloop
