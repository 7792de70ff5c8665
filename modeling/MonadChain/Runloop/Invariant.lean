import MonadChain.Runloop.Loop

/-!
What holds between the rounds of the run loop. The cache knows the latest finalized block, its
parent and everything executed above it, and each call was allowed by the calls before it.
-/

namespace MonadChain.Runloop

open Lineage Function List

section Ordered

variable {α : Type} {allowed : List α → α → Prop}

def Ordered (allowed : List α → α → Prop) (entries : List α) : Prop :=
  ∀ before entry after, entries = before ++ entry :: after → allowed before entry

theorem Ordered.nil : Ordered allowed [] := by
  intro before entry after split
  cases before <;> cases split

theorem Ordered.append {entries : List α} {last : α} (old : Ordered allowed entries)
    (new : allowed entries last) : Ordered allowed (entries ++ [last]) := by
  intro before entry after split
  rcases eq_nil_or_concat after with rfl | ⟨front, final, rfl⟩
  · obtain ⟨rfl, same⟩ := append_inj' split rfl
    cases same
    exact new
  · have regrouped : entries ++ [last] = (before ++ entry :: front) ++ [final] := by
      rw [split]
      simp
    obtain ⟨same, _⟩ := append_inj' regrouped rfl
    exact old before entry front same

end Ordered

def Executed (calls : List Logged) (id : BlockId) : Prop :=
  ∃ head, (⟨head, .proposeBlock id⟩ : Logged) ∈ calls

def Finalized (base : BlockId) (calls : List Logged) (id : BlockId) : Prop :=
  id = base ∨ ∃ head block, (⟨head, .finalize block id⟩ : Logged) ∈ calls

def finalizes (latest : BlockId) (entry : Logged) : BlockId :=
  match entry.call with
  | .proposeBlock _ => latest
  | .finalize _ id => id

def latestOf (base : BlockId) (calls : List Logged) : BlockId := calls.foldl finalizes base

def finalizedHeight (entry : Logged) : Option Nat :=
  match entry.call with
  | .proposeBlock _ => none
  | .finalize block _ => some block

def finalizedHeights (calls : List Logged) : List Nat := calls.filterMap finalizedHeight

/-- When a call is in order: a block is proposed once, after its parent and below
no other block than the latest finalized one; the block finalized next is the
ancestor of the observed head at the next height, and it has been executed. -/
def Allowed (ledger : Ledger) (base : BlockId) (calls : List Logged) (entry : Logged) : Prop :=
  match entry.call with
  | .proposeBlock id =>
    ¬ Executed calls id ∧ ledger.Descends id (latestOf base calls) ∧
      ∃ h, ledger.header id = some h ∧
        (Executed calls h.parentId ∨ Finalized base calls h.parentId)
  | .finalize block id =>
    block = ledger.seqno (latestOf base calls) + 1 ∧ ledger.seqno id = block ∧
      ledger.Descends entry.head id ∧ Executed calls id

def Cached (ledger : Ledger) (cache : BlockCache) (id : BlockId) : Prop :=
  ∃ h, ledger.header id = some h ∧ cache id = some ⟨h.seqno, h.parentId⟩

structure Inv (ledger : Ledger) (base : BlockId) (state : State) (latest : BlockId) : Prop where
  numbered : ledger.Numbered
  database : state.db.latestFinalized = ledger.seqno latest
  counter : state.finalizedBlockNum = ledger.seqno latest
  logged : latestOf base state.calls = latest
  below : ledger.Descends latest base
  baseState : ledger.seqno base ∈ state.db.finalizedAt
  latestState : latest = base ∨ (ledger.seqno latest, latest) ∈ state.db.proposals
  cachedLatest : 0 < ledger.seqno latest → Cached ledger state.cache latest
  cachedUp : ∀ up, ledger.parent latest = some up → 0 < ledger.seqno up →
    Cached ledger state.cache up
  cachedAbove : ∀ id, (ledger.seqno id, id) ∈ state.db.proposals →
    ledger.seqno latest < ledger.seqno id → Cached ledger state.cache id
  cacheKnown : ∀ id, state.cache id ≠ none →
    ledger.seqno id ≤ ledger.seqno latest ∨ (ledger.seqno id, id) ∈ state.db.proposals
  proposed : ∀ id, Executed state.calls id → (ledger.seqno id, id) ∈ state.db.proposals
  executed : ∀ id, (ledger.seqno id, id) ∈ state.db.proposals →
    ledger.seqno base < ledger.seqno id → Executed state.calls id
  heights : finalizedHeights state.calls =
    List.range' (ledger.seqno base + 1) (ledger.seqno latest - ledger.seqno base)
  allowed : Ordered (Allowed ledger base) state.calls

structure Ready (ledger : Ledger) (base latest : BlockId) (state : State) (id : BlockId) :
    Prop where
  below : ledger.Descends id latest
  known : id = base ∨ (ledger.seqno id, id) ∈ state.db.proposals
  cached : 0 < ledger.seqno id → Cached ledger state.cache id
  cachedUp : ∀ up, ledger.parent id = some up → 0 < ledger.seqno up →
    Cached ledger state.cache up

variable {ledger : Ledger}

theorem Inv.ready {base latest : BlockId} {state : State} (inv : Inv ledger base state latest) :
    Ready ledger base latest state latest :=
  ⟨.refl _, inv.latestState, inv.cachedLatest, inv.cachedUp⟩

theorem Descends.seqno_le {id ancestor : BlockId} (below : ledger.Descends id ancestor) :
    ledger.seqno ancestor ≤ ledger.seqno id :=
  Lineage.Descends.height_le below

theorem Cached.update {cache : BlockCache} {id other : BlockId} (entry : BlockCacheEntry)
    (known : Cached ledger cache other) (different : other ≠ id) :
    Cached ledger (update cache id (some entry)) other := by
  obtain ⟨h, found, stored⟩ := known
  exact ⟨h, found, by rw [update_of_ne different, stored]⟩

section Propose

variable {ledger : Ledger} {base latest parent id : BlockId} {h : Header} {state : State}

theorem executed_record (head : BlockId) (other : BlockId) :
    Executed (state.record head (.proposeBlock id)).calls other ↔
      Executed state.calls other ∨ other = id := by
  constructor
  · rintro ⟨seenHead, member⟩
    rcases mem_append.mp member with old | new
    · exact Or.inl ⟨seenHead, old⟩
    · have same := mem_singleton.mp new
      cases same
      exact Or.inr rfl
  · rintro (⟨seenHead, member⟩ | rfl)
    · exact ⟨seenHead, mem_append_left _ member⟩
    · exact ⟨head, mem_append_right _ (mem_singleton.mpr rfl)⟩

section

variable (inv : Inv ledger base state latest) (ready : Ready ledger base latest state parent)

include inv ready

theorem Ready.parent_done : Executed state.calls parent ∨ Finalized base state.calls parent := by
  by_cases same : parent = base
  · exact Or.inr (Or.inl same)
  · have stored := ready.known.resolve_left same
    refine Or.inl (inv.executed parent stored ?_)
    have below : ledger.Descends parent base := ready.below.trans inv.below
    by_contra level
    exact same (below.eq_of_height (Nat.le_of_not_lt level))

theorem allowed_propose (found : ledger.header id = some h) (link : ledger.parent id = some parent)
    (fresh : (ledger.seqno id, id) ∉ state.db.proposals) (head : BlockId) :
    Allowed ledger base state.calls ⟨head, .proposeBlock id⟩ := by
  refine ⟨fun done => fresh (inv.proposed id done), ?_, h, found, ?_⟩
  · rw [inv.logged]
    exact .step link ready.below
  · rw [ledger.parentId_eq found link]
    exact ready.parent_done inv

end

theorem Ready.ancestors_cached (numbered : ledger.Numbered)
    (ready : Ready ledger base latest state h.parentId)
    (found : ledger.header id = some h) (positive : 0 < h.seqno) :
    BlockCache.ancestorsCached
      (update state.cache id (some ⟨h.seqno, h.parentId⟩)) h = true := by
  have height := Ledger.seqno_eq found
  have number := (numbered id h found).1
  have up := ledger.seqno_parent (ledger.parent_eq found positive)
  have lowNe : ∀ other, ledger.seqno other ≤ ledger.seqno h.parentId → other ≠ id := by
    rintro other level rfl
    omega
  rw [BlockCache.ancestorsCached]
  split
  · next second =>
    obtain ⟨parentHeader, parentFound, parentCached⟩ :=
      (ready.cached (by omega)).update ⟨h.seqno, h.parentId⟩ (lowNe _ (Nat.le_refl _))
    rw [parentCached]
    dsimp only
    split
    · next third =>
      have parentHeight := Ledger.seqno_eq parentFound
      have upLink := ledger.parent_eq parentFound (by omega)
      have upHeight := ledger.seqno_parent upLink
      obtain ⟨upHeader, upFound, upCached⟩ :=
        (ready.cachedUp _ upLink (by omega)).update ⟨h.seqno, h.parentId⟩ (lowNe _ (by omega))
      simp [upCached]
    · rfl
  · rfl

theorem Ready.readable (inv : Inv ledger base state latest)
    (ready : Ready ledger base latest state h.parentId)
    (found : ledger.header id = some h) (positive : 0 < h.seqno) :
    state.db.readable (ledger.seqno base + 1) h = true := by
  have height := Ledger.seqno_eq found
  have number := (inv.numbered id h found).1
  have up := ledger.seqno_parent (ledger.parent_eq found positive)
  rw [Database.readable]
  split
  · next isFirst =>
    have version : h.number - 1 = ledger.seqno base := by omega
    rw [version]
    exact decide_eq_true inv.baseState
  · next later =>
    rcases ready.known with atBase | executed
    · rw [atBase] at up
      omega
    · have version : h.number - 1 = ledger.seqno h.parentId := by omega
      rw [version]
      exact decide_eq_true executed

section

variable (inv : Inv ledger base state latest) (ready : Ready ledger base latest state parent)
  (found : ledger.header id = some h) (link : ledger.parent id = some parent)
  (fresh : (ledger.seqno id, id) ∉ state.db.proposals)

include inv ready found link fresh

theorem proposeBlock_eq (calls : List Logged) :
    proposeBlock (ledger.seqno base + 1) id h { state with calls := calls } =
      some
        { db := { state.db with proposals := (h.seqno, id) :: state.db.proposals }
          cache := update state.cache id (some ⟨h.seqno, h.parentId⟩)
          finalizedBlockNum := state.finalizedBlockNum
          calls := calls } := by
  have ⟨number, small⟩ := inv.numbered id h found
  have up := ledger.seqno_parent link
  have lower := Descends.seqno_le ready.below
  have positive : 0 < h.seqno := by
    rw [← Ledger.seqno_eq found, up]
    exact Nat.succ_pos _
  obtain rfl := ledger.parentId_eq found link
  have absent : state.cache id = none := by
    by_contra present
    rcases inv.cacheKnown id present with low | executed
    · omega
    · exact fresh executed
  have emplaced : state.cache.emplace id ⟨h.number, h.parentId⟩ =
      some (update state.cache id (some ⟨h.seqno, h.parentId⟩)) := by
    rw [BlockCache.emplace, absent, number]
    rfl
  simp only [proposeBlock, emplaced, Option.bind_eq_bind, Option.bind_some,
    ready.ancestors_cached inv.numbered found positive, ready.readable inv found positive,
    not_true_eq_false, if_false, Database.commit, if_neg (ledger.ne_zero found)]
  rw [number, if_neg (by omega)]
  rfl

theorem propose_step (head : BlockId) :
    ∃ after, proposeBlock (ledger.seqno base + 1) id h
        (state.record head (.proposeBlock id)) = some after ∧
      Inv ledger base after latest ∧ Ready ledger base latest after id ∧
      after.db.proposals = (ledger.seqno id, id) :: state.db.proposals := by
  have height := Ledger.seqno_eq found
  have up := ledger.seqno_parent link
  have lower := Descends.seqno_le ready.below
  have lowNe : ∀ other, ledger.seqno other ≤ ledger.seqno parent → other ≠ id := by
    rintro other level rfl
    omega
  have ownEntry : Cached ledger
      (update state.cache id (some ⟨h.seqno, h.parentId⟩)) id :=
    ⟨h, found, update_self ..⟩
  refine ⟨_, proposeBlock_eq inv ready found link fresh _, ?_, ?_, by rw [height]⟩
  · exact
      { inv with
        logged := by
          rw [latestOf, foldl_append]
          exact inv.logged
        latestState := inv.latestState.imp_right (mem_cons_of_mem _)
        cachedLatest := fun positive => (inv.cachedLatest positive).update _ (lowNe _ lower)
        cachedUp := by
          intro other otherLink positive
          have otherUp := ledger.seqno_parent otherLink
          exact (inv.cachedUp other otherLink positive).update _ (lowNe _ (by omega))
        cachedAbove := by
          intro other stored above
          by_cases same : other = id
          · exact same ▸ ownEntry
          · rcases mem_cons.mp stored with equal | old
            · exact absurd (Prod.ext_iff.mp equal).2 same
            · exact (inv.cachedAbove other old above).update _ same
        cacheKnown := by
          intro other present
          by_cases same : other = id
          · subst same
            exact Or.inr (by rw [height]; exact mem_cons_self)
          · have old : state.cache other ≠ none := by
              change update state.cache id _ other ≠ none at present
              rwa [update_of_ne same] at present
            exact (inv.cacheKnown other old).imp_right (mem_cons_of_mem _)
        proposed := by
          intro other done
          rcases (executed_record head other).mp done with old | rfl
          · exact mem_cons_of_mem _ (inv.proposed other old)
          · rw [height]
            exact mem_cons_self
        executed := by
          intro other stored above
          refine (executed_record head other).mpr ?_
          rcases mem_cons.mp stored with equal | old
          · exact Or.inr (Prod.ext_iff.mp equal).2
          · exact Or.inl (inv.executed other old above)
        heights := by
          rw [finalizedHeights, filterMap_append, ← finalizedHeights, inv.heights]
          exact append_nil _
        allowed := inv.allowed.append (allowed_propose inv ready found link fresh head) }
  · exact
      { below := .step link ready.below
        known := Or.inr (by rw [height]; exact mem_cons_self)
        cached := fun _ => ownEntry
        cachedUp := by
          intro other otherLink positive
          have same : other = parent := Option.some.inj (otherLink.symm.trans link)
          subst same
          exact (ready.cached positive).update _ (lowNe _ (Nat.le_refl _)) }

end

end Propose

end MonadChain.Runloop
