import MetaZenith.BlockLedger

/-! Deferred frees: blocks of a step in flight return to the pool when the step is processed
(`Scheduler._free_request_blocks`, `_free_cow_retained_blocks`, `_drain_deferred_frees`). -/

namespace MetaZenith.KVCache

open SingleTypeKVCacheManager BlockPool KVCacheManager List Option Function Finset

variable {known : Finset RequestId} {r : RequestId}

universe u

set_option linter.unusedSectionVars false

/-- A non-empty step that has been scheduled and not processed, with the blocks that its requests
and copies had then, and those that `remove_skipped_blocks` has taken away since. -/
structure Flight where
  seq : ℕ
  blocks : List ℕ
  skipped : List ℕ := []

/-- The scheduler with `defer_block_free` enabled. `known` are the requests that were ever given
blocks, and `inFlight` is the record of the steps in flight. -/
structure FencedScheduler (H : Type u) where
  manager : KVCacheManager H
  lastSchedSeq : RequestId → ℕ := fun _ => 0
  schedStepSeq : ℕ := 0
  processedStepSeq : ℕ := 0
  deferredFrees : List (ℕ × List ℕ) := []
  known : Finset RequestId := ∅
  inFlight : List Flight := []

inductive FenceEvent (H : Type u)
  /-- A request object with an id that holds no blocks. -/
  | addRequest (r : RequestId)
  | allocateSlots (request : KVRequest H) (args : SlotArgs)
  /-- The request is preempted, finished or aborted. -/
  | freeRequest (r : RequestId)
  /-- `schedule()` ends with these requests in the step. -/
  | endSchedule (scheduled : List RequestId)
  /-- The output of the oldest step in flight. -/
  | updateFromOutput
  | removeSkippedBlocks (r : RequestId) (processedComputedTokens : ℕ)
  | cacheBlocks (request : KVRequest H) (numComputedTokens : ℕ)
  | newStepStarts
  | evictBlocks (blockIds : List ℕ)
  | resetPrefixCache

namespace FencedScheduler

variable {H : Type u}

def groups (s : FencedScheduler H) : List (SingleTypeKVCacheManager H) :=
  s.manager.singleTypeManagers

def pool (s : FencedScheduler H) : BlockPool H := s.manager.blockPool

def withManager (s : FencedScheduler H) (k : KVCacheManager H) : FencedScheduler H :=
  { s with manager := k }

def withPool (s : FencedScheduler H) (p : BlockPool H) : FencedScheduler H :=
  s.withManager { s.manager with blockPool := p }

def know (s : FencedScheduler H) (r : RequestId) : FencedScheduler H :=
  { s with known := insert r s.known }

def recordSkipped (s : FencedScheduler H) (blocks : List ℕ) : FencedScheduler H :=
  { s with inFlight := s.inFlight.map fun f => { f with skipped := f.skipped ++ blocks } }

def defer (s : FencedScheduler H) (fence : ℕ) (blocks : List ℕ) : FencedScheduler H :=
  { s with deferredFrees := s.deferredFrees ++ [(fence,blocks)] }

variable [DecidableEq H]

variable (s : FencedScheduler H)

def freeRequestBlocks (r : RequestId) : FencedScheduler H :=
  if s.lastSchedSeq r ≤ s.processedStepSeq then s.withManager (s.manager.free r)
  else
    let popped := s.manager.popBlocksForFree r
    let s := s.withManager popped.2
    if popped.1.isEmpty then s else s.defer s.schedStepSeq popped.1

def freeCowRetainedBlocks (blocks : List ℕ) (fenceSeq : ℕ) : FencedScheduler H :=
  if fenceSeq ≤ s.processedStepSeq then s.withPool (s.pool.freeBlocks blocks)
  else s.defer fenceSeq blocks.reverse

def drain (processedStepSeq : ℕ) : List (ℕ × List ℕ) → BlockPool H →
    List (ℕ × List ℕ) × BlockPool H
  | [], p => ([],p)
  | (fence,blocks) :: rest, p =>
    if processedStepSeq < fence then ((fence,blocks) :: rest,p)
    else drain processedStepSeq rest (p.freeBlocks blocks.reverse)

def drainDeferredFrees : FencedScheduler H :=
  let drained := drain s.processedStepSeq s.deferredFrees s.pool
  { s.withPool drained.2 with deferredFrees := drained.1 }

def takeCopies : FencedScheduler H :=
  let taken := s.manager.takeKvCacheBlockCopies
  let s := s.withManager taken.2
  if taken.1.isEmpty then s
  else s.freeCowRetainedBlocks (taken.1.flatMap fun c => [c.1,c.2]) (s.schedStepSeq+1)

def countStep (scheduled copyBlocks : List ℕ) : FencedScheduler H :=
  if scheduled.isEmpty then s
  else
    { s with
      schedStepSeq := s.schedStepSeq+1
      lastSchedSeq := fun r => if r ∈ scheduled then s.schedStepSeq+1 else s.lastSchedSeq r
      inFlight := s.inFlight ++
        [⟨s.schedStepSeq+1,scheduled.flatMap (blocksOf s.groups) ++ copyBlocks,[]⟩] }

def skippedByAllocate (request : KVRequest H) (args : SlotArgs) : List ℕ :=
  let k := s.manager
  let numLocal := request.numComputedTokens+args.numNewComputedTokens
  let total := min (numLocal+args.numExternalComputedTokens) k.maxModelLen
  let watermarkBlocks := if args.hasScheduledReqs && request.waiting then k.watermarkBlocks else 0
  if k.fullSequenceFits request args numLocal total watermarkBlocks = some true then
    k.skippedBlocks request.requestId (total-request.numInFlightTokens)
  else []

def step : FenceEvent H → Option (FencedScheduler H)
  | .addRequest r =>
    if (blocksOf s.groups r).isEmpty then
      some { s with lastSchedSeq := update s.lastSchedSeq r 0 }
    else none
  | .allocateSlots request args =>
    (s.manager.allocateSlots request args).map fun (_,k) =>
      ((s.know request.requestId).withManager k).recordSkipped (s.skippedByAllocate request args)
  | .freeRequest r => some ((s.know r).freeRequestBlocks r)
  | .endSchedule scheduled => some (s.takeCopies.countStep scheduled (allCopyEnds s.groups))
  | .updateFromOutput =>
    if s.processedStepSeq < s.schedStepSeq then
      some { s with
        processedStepSeq := s.processedStepSeq+1
        inFlight := s.inFlight.tail }.drainDeferredFrees
    else none
  | .removeSkippedBlocks r n =>
    some (((s.know r).withManager (s.manager.removeSkippedBlocks r n)).recordSkipped
      (s.manager.skippedBlocks r n))
  | .cacheBlocks request n =>
    (s.manager.cacheBlocks request n).map (s.know request.requestId).withManager
  | .newStepStarts => some (s.withManager s.manager.newStepStarts)
  | .evictBlocks ids => (s.pool.evictBlocks ids).map s.withPool
  | .resetPrefixCache => some (s.withPool s.pool.resetPrefixCache.1)

def deferredBlocks : List ℕ := s.deferredFrees.flatMap Prod.snd

def otherHeld (known : Finset RequestId) (r : RequestId) (ms : List (SingleTypeKVCacheManager H))
    (b : ℕ) : ℤ :=
  (ms.map fun m => ∑ r' ∈ known.erase r, ((m.reqToBlocks r').count b : ℤ)).sum

def heldBy (known : Finset RequestId) (ms : List (SingleTypeKVCacheManager H)) (b : ℕ) : ℤ :=
  (ms.map fun m => (∑ r ∈ known, ((m.reqToBlocks r).count b : ℤ))+m.copyEnds.count b).sum

theorem heldBy_eq (hr : r ∈ known) (ms : List (SingleTypeKVCacheManager H)) (b : ℕ) :
    heldBy known ms b = otherHeld known r ms b+totalLoad ms r b := by
  induction ms with
  | nil => rfl
  | cons m ms ih =>
    have hsum := add_sum_erase known (fun r' => ((m.reqToBlocks r').count b : ℤ)) hr
    simp only [heldBy, otherHeld, List.map_cons, List.sum_cons, totalLoad_cons] at ih ⊢
    rw [ih, ← hsum, load]
    ring

theorem otherHeld_nonneg (known : Finset RequestId) (r : RequestId)
    (ms : List (SingleTypeKVCacheManager H)) (b : ℕ) : 0 ≤ otherHeld known r ms b := by
  refine sum_nonneg fun x hx => ?_
  obtain ⟨m,-,rfl⟩ := mem_map.mp hx
  positivity

variable {ms ms' : List (SingleTypeKVCacheManager H)} {k : KVCacheManager H}

theorem otherHeld_congr (h : List.Forall₂ (OthersKept r) ms ms') (b : ℕ) :
    otherHeld known r ms' b = otherHeld known r ms b := by
  induction h with
  | nil => rfl
  | cons hm _ ih =>
    simp only [otherHeld, List.map_cons, List.sum_cons] at ih ⊢
    rw [ih]
    congr 1
    refine sum_congr rfl fun r' hr' => ?_
    rw [hm r' (ne_of_mem_erase hr')]

theorem heldBy_insert (hr : r ∉ known) (hnone : ∀ m ∈ ms, m.reqToBlocks r = []) (b : ℕ) :
    heldBy (insert r known) ms b = heldBy known ms b := by
  unfold heldBy
  congr 1
  refine map_congr_left fun m hm => ?_
  rw [sum_insert hr, hnone m hm]
  simp

def Guarded (seq b : ℕ) : Prop :=
  (∃ r, seq ≤ s.lastSchedSeq r ∧ b ∈ blocksOf s.groups r) ∨ b ∈ allCopyEnds s.groups ∨
    ∃ e ∈ s.deferredFrees, seq ≤ e.1 ∧ b ∈ e.2

structure Inv (s : FencedScheduler H) : Prop where
  sound : s.pool.Sound
  refs : ∀ b, b ≠ nullBlock →
    (s.pool.blocks b).refCnt = heldBy s.known s.groups b+s.deferredBlocks.count b
  unknown : ∀ r, r ∉ s.known → ∀ m ∈ s.groups, m.reqToBlocks r = []
  recent : ∀ r, s.lastSchedSeq r ≤ s.schedStepSeq
  fences : ∀ e ∈ s.deferredFrees, e.1 ≤ s.schedStepSeq+1
  flights : s.inFlight.map Flight.seq =
    List.range' (s.processedStepSeq+1) (s.schedStepSeq-s.processedStepSeq)
  processed_le : s.processedStepSeq ≤ s.schedStepSeq
  guarded : ∀ f ∈ s.inFlight, ∀ b ∈ f.blocks, b ≠ nullBlock → b ∉ f.skipped →
    s.Guarded f.seq b
  drained : s.processedStepSeq = s.schedStepSeq → (∀ e ∈ s.deferredFrees, e.1 ≤ s.schedStepSeq) →
    s.deferredFrees = []

theorem Inv.know {s : FencedScheduler H} (hs : s.Inv) (r : RequestId) : (s.know r).Inv := by
  by_cases hr : r ∈ s.known
  · have hsame : s.know r = s := by
      unfold FencedScheduler.know
      rw [insert_eq_of_mem hr]
    rwa [hsame]
  · refine { hs with refs := fun b hb => ?_, unknown := fun r' hr' m hm => ?_ }
    · refine (hs.refs b hb).trans ?_
      change _ = heldBy (insert r s.known) s.groups b+_
      rw [heldBy_insert hr (hs.unknown r hr)]
      rfl
    · exact hs.unknown r' (fun hmem => hr' (mem_insert_of_mem hmem)) m hm

theorem Inv.ledger {s : FencedScheduler H} (hs : s.Inv) (hr : r ∈ s.known) :
    Ledger r (fun b => otherHeld s.known r s.groups b+s.deferredBlocks.count b) s.pool s.groups := by
  refine ⟨hs.sound,fun b _ => add_nonneg (otherHeld_nonneg ..) (by positivity),fun b hb => ?_⟩
  rw [hs.refs b hb, heldBy_eq hr]
  ring

theorem Inv.mem_known {s : FencedScheduler H} (hs : s.Inv) {b : ℕ} (hb : b ∈ blocksOf s.groups r) :
    r ∈ s.known := by
  by_contra hr
  obtain ⟨m,hm,hmem⟩ := mem_flatMap.mp hb
  rw [hs.unknown r hr m hm] at hmem
  cases hmem

theorem Inv.pos_of_guarded {s : FencedScheduler H} (hs : s.Inv) {seq b : ℕ} (hb : b ≠ nullBlock)
    (h : s.Guarded seq b) : 0 < (s.pool.blocks b).refCnt := by
  have hheld : 0 ≤ heldBy s.known s.groups b :=
    sum_nonneg fun x hx => by
      obtain ⟨m,-,rfl⟩ := mem_map.mp hx
      positivity
  have hload {r : RequestId} (hr : r ∈ s.known) (hpos : 0 < totalLoad s.groups r b) :
      0 < (s.pool.blocks b).refCnt := by
    rw [(hs.ledger hr).refs b hb]
    have := (hs.ledger hr).nonneg b hb
    omega
  rcases h with ⟨r,-,hmem⟩ | hcopy | ⟨e,he,-,hmem⟩
  · exact hload (hs.mem_known hmem) (totalLoad_pos_iff.mpr (.inl hmem))
  · -- the copies are counted whichever request is looked at
    have hk := (hs.know 0).ledger (mem_insert_self 0 s.known)
    have hrefs := hk.refs b hb
    have hnonneg := hk.nonneg b hb
    have hpos : 0 < totalLoad s.groups 0 b := totalLoad_pos_iff.mpr (.inr hcopy)
    change (s.pool.blocks b).refCnt = _+totalLoad s.groups 0 b at hrefs
    omega
  · have hdef : 0 < s.deferredBlocks.count b :=
      count_pos_iff.mpr (mem_flatMap.mpr ⟨e,he,hmem⟩)
    rw [hs.refs b hb]
    omega

theorem forall₂_mem_right {α β : Type*} {R : α → β → Prop} {as : List α} {bs : List β}
    (h : List.Forall₂ R as bs) {b : β} (hb : b ∈ bs) : ∃ a ∈ as, R a b := by
  induction h with
  | nil => cases hb
  | cons hab _ ih =>
    rcases mem_cons.mp hb with rfl | hb
    · exact ⟨_,mem_cons_self,hab⟩
    · obtain ⟨a,ha,hR⟩ := ih hb
      exact ⟨a,mem_cons_of_mem _ ha,hR⟩

theorem blocksOf_congr {r' : RequestId} (h : List.Forall₂ (OthersKept r) ms ms') (hr : r' ≠ r) :
    blocksOf ms' r' = blocksOf ms r' := by
  induction h with
  | nil => rfl
  | cons hm _ ih =>
    rw [blocksOf, blocksOf, List.flatMap_cons, List.flatMap_cons, hm r' hr]
    exact congrArg _ ih

theorem allCopyEnds_congr
    (h : List.Forall₂ (fun m m' => m'.pendingCowCopies = m.pendingCowCopies) ms ms') :
    allCopyEnds ms' = allCopyEnds ms := by
  induction h with
  | nil => rfl
  | cons hm _ ih =>
    rw [allCopyEnds, allCopyEnds, List.flatMap_cons, List.flatMap_cons, copyEnds, hm]
    exact congrArg _ ih

theorem allCopyEnds_subset (h : List.Forall₂ CopiesKept ms ms') : allCopyEnds ms ⊆ allCopyEnds ms' := by
  induction h with
  | nil => exact List.Subset.refl _
  | cons hm _ ih =>
    intro b hb
    rw [allCopyEnds, List.flatMap_cons, List.mem_append] at hb ⊢
    refine hb.imp (fun hb => ?_) fun hb => ih hb
    obtain ⟨c,hc,hbc⟩ := mem_flatMap.mp hb
    exact mem_flatMap.mpr ⟨c,hm.subset hc,hbc⟩

/-- A call of the manager on behalf of one request: the ledger says what it does to the counts,
and a guarded block loses its guard only through the skipped ones. -/
theorem Inv.managerCall {s : FencedScheduler H} {skipped : List ℕ} (hs : s.Inv) (hr : r ∈ s.known)
    (hledger : Ledger r (fun b => otherHeld s.known r s.groups b+s.deferredBlocks.count b)
      k.blockPool k.singleTypeManagers)
    (hothers : List.Forall₂ (OthersKept r) s.groups k.singleTypeManagers)
    (hcopies : allCopyEnds s.groups ⊆ allCopyEnds k.singleTypeManagers)
    (hmine : (∃ f ∈ s.inFlight, f.seq ≤ s.lastSchedSeq r) → ∀ b, b ≠ nullBlock →
      b ∈ blocksOf s.groups r → b ∉ skipped →
      b ∈ blocksOf k.singleTypeManagers r ∨ b ∈ allCopyEnds k.singleTypeManagers) :
    ((s.withManager k).recordSkipped skipped).Inv := by
  refine ⟨hledger.sound,fun b hb => ?_,fun r' hr' m hm => ?_,hs.recent,hs.fences,?_,
    hs.processed_le,?_,hs.drained⟩
  · refine (hledger.refs b hb).trans ?_
    change _ = heldBy s.known k.singleTypeManagers b+_
    rw [heldBy_eq hr, otherHeld_congr hothers]
    change _ = _+_+(s.deferredBlocks.count b : ℤ)
    ring
  · obtain ⟨m₀,hm₀,hkept⟩ := forall₂_mem_right hothers hm
    have hne : r' ≠ r := fun heq => hr' (heq ▸ hr)
    exact (hkept r' hne).trans (hs.unknown r' hr' m₀ hm₀)
  · refine Eq.trans ?_ hs.flights
    simp [recordSkipped, withManager]
  · intro f hf b hb hb0 hskip
    obtain ⟨f₀,hf₀,rfl⟩ := mem_map.mp hf
    have hnot : b ∉ f₀.skipped ∧ b ∉ skipped := by simpa using hskip
    rcases hs.guarded f₀ hf₀ b hb hb0 hnot.1 with ⟨r',hseq,hmem⟩ | hcopy | hdef
    · by_cases hrr : r' = r
      · subst hrr
        exact (hmine ⟨f₀,hf₀,hseq⟩ b hb0 hmem hnot.2).elim (fun hm => .inl ⟨r',hseq,hm⟩) fun hc => .inr (.inl hc)
      · refine .inl ⟨r',hseq,?_⟩
        change b ∈ blocksOf k.singleTypeManagers r'
        rwa [blocksOf_congr hothers hrr]
    · exact .inr (.inl (hcopies hcopy))
    · exact .inr (.inr hdef)

theorem recordSkipped_nil : s.recordSkipped [] = s := by
  simp [recordSkipped]

theorem Inv.removeSkippedBlocks {s : FencedScheduler H} (hs : s.Inv) (hr : r ∈ s.known) (n : ℕ) :
    ((s.withManager (s.manager.removeSkippedBlocks r n)).recordSkipped
      (s.manager.skippedBlocks r n)).Inv := by
  have hgroups := s.manager.groups_removeSkippedBlocks r n
  refine hs.managerCall hr (ledger_removeSkippedBlocks (hs.ledger hr) n)
    (hgroups.imp fun _ _ h => h.1) ?_ fun _ b _ hb hskip => .inl ?_
  · intro b hb
    rwa [allCopyEnds_congr (hgroups.imp fun _ _ h => h.2)]
  · exact mem_blocksOf_removeSkippedBlocks hb hskip

theorem Inv.tookAll {s : FencedScheduler H} (hs : s.Inv) (hr : r ∈ s.known)
    (h : TookAll r (fun b => otherHeld s.known r s.groups b+s.deferredBlocks.count b) s.pool
      k.blockPool s.groups k.singleTypeManagers) : (s.withManager k).Inv := by
  rw [← recordSkipped_nil (s.withManager k)]
  refine hs.managerCall hr h.ledger (h.groups.imp fun _ _ h => h.1)
    (allCopyEnds_subset (h.groups.imp fun _ _ h => h.2)) fun _ b hb0 hb _ => ?_
  have hbefore := (hs.ledger hr).refs b hb0
  have hafter := h.ledger.refs b hb0
  have hgrows := h.grows b
  have hpos : 0 < totalLoad s.groups r b := totalLoad_pos_iff.mpr (.inl hb)
  exact totalLoad_pos_iff.mp (by omega)

theorem Inv.allocateSlots {s : FencedScheduler H} (hs : s.Inv) {request : KVRequest H}
    {args : SlotArgs} {res : Option (List (List ℕ))}
    (h : s.manager.allocateSlots request args = some (res,k)) :
    (((s.know request.requestId).withManager k).recordSkipped
      (s.skippedByAllocate request args)).Inv := by
  have hk := hs.know request.requestId
  have hr : request.requestId ∈ (s.know request.requestId).known := mem_insert_self ..
  obtain ⟨-,fits,hfits,hcases⟩ := allocateSlots_inv h
  rcases hcases with ⟨rfl,-,rfl⟩ | ⟨rfl,hrest⟩
  · have hnone : s.skippedByAllocate request args = [] := by
      simp only [skippedByAllocate, hfits]
      rfl
    rw [hnone, recordSkipped_nil]
    exact hk
  · have hskip : s.skippedByAllocate request args = s.manager.skippedBlocks request.requestId
        (min (request.numComputedTokens+args.numNewComputedTokens+args.numExternalComputedTokens)
          s.manager.maxModelLen-request.numInFlightTokens) := by
      simp only [skippedByAllocate, hfits]
      rfl
    rw [hskip]
    have hremoved := hk.removeSkippedBlocks hr
      (min (request.numComputedTokens+args.numNewComputedTokens+args.numExternalComputedTokens)
        s.manager.maxModelLen-request.numInFlightTokens)
    rcases hrest with ⟨-,rfl⟩ | ⟨new,-,hcommit⟩
    · exact hremoved
    · exact hremoved.tookAll hr (tookAll_commitSlots (hremoved.ledger hr) hcommit)

theorem Inv.seq_bounds {s : FencedScheduler H} (hs : s.Inv) {f : Flight} (hf : f ∈ s.inFlight) :
    s.processedStepSeq < f.seq ∧ f.seq ≤ s.schedStepSeq := by
  have hmem : f.seq ∈ s.inFlight.map Flight.seq := mem_map_of_mem hf
  rw [hs.flights, mem_range'_1] at hmem
  have := hs.processed_le
  omega

def handOver (k : KVCacheManager H) (entries : List (ℕ × List ℕ)) : FencedScheduler H :=
  { s with manager := k, deferredFrees := s.deferredFrees ++ entries }

theorem Inv.handOver {s : FencedScheduler H} {entries : List (ℕ × List ℕ)} {fence : ℕ}
    (hs : s.Inv) (hpool : k.blockPool = s.pool) (hfence : ∀ e ∈ entries, e.1 = fence)
    (hlow : s.schedStepSeq ≤ fence) (hhigh : fence ≤ s.schedStepSeq+1)
    (hpending : entries ≠ [] → s.processedStepSeq = s.schedStepSeq → s.schedStepSeq < fence)
    (hheld : ∀ b, b ≠ nullBlock → heldBy s.known s.groups b =
      heldBy s.known k.singleTypeManagers b+(entries.flatMap Prod.snd).count b)
    (hunknown : ∀ r, r ∉ s.known → ∀ m ∈ k.singleTypeManagers, m.reqToBlocks r = [])
    (hblocks : ∀ r b, b ∈ blocksOf s.groups r →
      b ∈ blocksOf k.singleTypeManagers r ∨ b ∈ entries.flatMap Prod.snd)
    (hcopies : ∀ b ∈ allCopyEnds s.groups,
      b ∈ allCopyEnds k.singleTypeManagers ∨ b ∈ entries.flatMap Prod.snd) :
    (s.handOver k entries).Inv := by
  have hentry {f : Flight} {b : ℕ} (hf : f ∈ s.inFlight) (hb : b ∈ entries.flatMap Prod.snd) :
      (s.handOver k entries).Guarded f.seq b := by
    obtain ⟨e,he,hbe⟩ := mem_flatMap.mp hb
    refine .inr (.inr ⟨e,mem_append_right _ he,?_,hbe⟩)
    rw [hfence e he]
    exact (hs.seq_bounds hf).2.trans hlow
  refine ⟨?_,fun b hb => ?_,hunknown,hs.recent,fun e he => ?_,hs.flights,hs.processed_le,?_,?_⟩
  · change k.blockPool.Sound
    rw [hpool]
    exact hs.sound
  · change (k.blockPool.blocks b).refCnt = heldBy s.known k.singleTypeManagers b +
      (((s.deferredFrees ++ entries).flatMap Prod.snd).count b : ℤ)
    rw [hpool, hs.refs b hb, hheld b hb, flatMap_append, List.count_append]
    change _+(s.deferredBlocks.count b : ℤ) = _+((s.deferredBlocks.count b+_ : ℕ) : ℤ)
    push_cast
    ring
  · rcases List.mem_append.mp he with he | he
    · exact hs.fences e he
    · rw [hfence e he]
      exact hhigh
  · intro f hf b hb hb0 hskip
    rcases hs.guarded f hf b hb hb0 hskip with ⟨r,hseq,hmem⟩ | hcopy | ⟨e,he,hdef⟩
    · exact (hblocks r b hmem).elim (fun hm => .inl ⟨r,hseq,hm⟩) (hentry hf)
    · exact (hcopies b hcopy).elim (fun hc => .inr (.inl hc)) (hentry hf)
    · exact .inr (.inr ⟨e,mem_append_left _ he,hdef⟩)
  · intro heq hall
    have hnil : entries = [] := by
      by_contra hne
      obtain ⟨e,he⟩ := exists_mem_of_ne_nil entries hne
      have hlt := hpending hne heq
      have hle : e.1 ≤ s.schedStepSeq := hall e (mem_append_right _ he)
      rw [hfence e he] at hle
      omega
    change s.deferredFrees ++ entries = []
    rw [hnil, append_nil]
    exact hs.drained heq fun e he => hall e (mem_append_left _ he)

/-- `_free_request_blocks`: at once if no step in flight has the request, and deferred to the end
of all scheduled steps otherwise. -/
theorem Inv.freeRequestBlocks {s : FencedScheduler H} (hs : s.Inv) (hr : r ∈ s.known) :
    (s.freeRequestBlocks r).Inv := by
  by_cases hprocessed : s.lastSchedSeq r ≤ s.processedStepSeq
  · have hgroups := s.manager.groups_free r
    have hstate : s.freeRequestBlocks r = (s.withManager (s.manager.free r)).recordSkipped [] := by
      rw [recordSkipped_nil, FencedScheduler.freeRequestBlocks, if_pos hprocessed]
    rw [hstate]
    refine hs.managerCall hr (ledger_free (hs.ledger hr))
      (hgroups.imp fun _ _ h => h.1) ?_ ?_
    · intro b hb
      rwa [allCopyEnds_congr (hgroups.imp fun _ _ h => h.2)]
    · rintro ⟨f,hf,hseq⟩
      have := hs.seq_bounds hf
      omega
  · have hgroups := s.manager.groups_popBlocksForFree r
    have hothers := hgroups.imp fun _ _ h => h.1
    -- with nothing to defer the queue stays as it is
    have hqueue : ∃ entries : List (ℕ × List ℕ), (∀ e ∈ entries, e.1 = s.schedStepSeq) ∧
        entries.flatMap Prod.snd = blocksOf s.groups r ∧
        s.freeRequestBlocks r = s.handOver (s.manager.popBlocksForFree r).2 entries := by
      simp only [FencedScheduler.freeRequestBlocks, if_neg hprocessed]
      split
      · rename_i hnil
        refine ⟨[],(fun e he => nomatch he),(isEmpty_iff.mp hnil).symm,?_⟩
        rw [FencedScheduler.handOver, append_nil]
        rfl
      · refine ⟨[(s.schedStepSeq,(s.manager.popBlocksForFree r).1)],fun e he => ?_,?_,rfl⟩
        · rw [List.mem_singleton.mp he]
        · rw [List.flatMap_singleton]
          rfl
    obtain ⟨entries,hfence,hsnd,hstate⟩ := hqueue
    rw [hstate]
    refine hs.handOver rfl hfence le_rfl (Nat.le_succ _) ?_ ?_ ?_ ?_ ?_
    · intro _ heq
      have := hs.recent r
      omega
    · intro b _
      have hoth : otherHeld s.known r (s.manager.popBlocksForFree r).2.singleTypeManagers b =
          otherHeld s.known r s.groups b := otherHeld_congr hothers b
      have hl : totalLoad s.groups r b =
          totalLoad (s.manager.popBlocksForFree r).2.singleTypeManagers r b +
            ((blocksOf s.groups r).count b : ℤ) := (s.manager.totalLoad_popBlocksForFree r b).symm
      rw [heldBy_eq hr, heldBy_eq hr, hoth, hsnd, hl]
      ring
    · intro r' hr' m hm
      obtain ⟨m₀,hm₀,hkept⟩ := forall₂_mem_right hothers hm
      exact (hkept r' fun heq => hr' (heq ▸ hr)).trans (hs.unknown r' hr' m₀ hm₀)
    · intro r' b hb
      by_cases hrr : r' = r
      · right
        rw [hsnd]
        exact hrr ▸ hb
      · left
        rwa [blocksOf_congr hothers hrr]
    · intro b hb
      left
      rwa [allCopyEnds_congr (hgroups.imp fun _ _ h => h.2)]

theorem heldBy_takeCopies (known : Finset RequestId) (ms : List (SingleTypeKVCacheManager H))
    (b : ℕ) : heldBy known ms b =
      heldBy known (ms.map fun m => { m with pendingCowCopies := [] }) b+(allCopyEnds ms).count b := by
  induction ms with
  | nil => rfl
  | cons m ms ih =>
    simp only [heldBy, allCopyEnds, List.map_cons, List.sum_cons, List.flatMap_cons,
      List.count_append] at ih ⊢
    have hnil : copyEnds { m with pendingCowCopies := [] } = [] := rfl
    rw [ih, hnil, List.count_nil]
    push_cast
    ring

theorem Inv.takeCopies {s : FencedScheduler H} (hs : s.Inv) :
    s.takeCopies.Inv ∧ s.takeCopies.schedStepSeq = s.schedStepSeq ∧
      (∀ r, blocksOf s.takeCopies.groups r = blocksOf s.groups r) ∧
      ∀ b ∈ allCopyEnds s.groups, ∃ e ∈ s.takeCopies.deferredFrees,
        e.1 = s.schedStepSeq+1 ∧ b ∈ e.2 := by
  have hends : (s.manager.takeKvCacheBlockCopies.1.flatMap fun c => [c.1,c.2]) =
      allCopyEnds s.groups := by
    simp only [takeKvCacheBlockCopies, flatMap_assoc]
    rfl
  have hqueue : ∃ entries : List (ℕ × List ℕ), (∀ e ∈ entries, e.1 = s.schedStepSeq+1) ∧
      (entries.flatMap Prod.snd).Perm (allCopyEnds s.groups) ∧
      s.takeCopies = s.handOver s.manager.takeKvCacheBlockCopies.2 entries := by
    simp only [FencedScheduler.takeCopies]
    split
    · rename_i hnil
      refine ⟨[],(fun e he => nomatch he),?_,?_⟩
      · rw [← hends, isEmpty_iff.mp hnil]
        exact .nil
      · rw [FencedScheduler.handOver, append_nil]
        rfl
    · have hfence : ¬ s.schedStepSeq+1 ≤ s.processedStepSeq := by
        have := hs.processed_le
        omega
      refine ⟨[(s.schedStepSeq+1,(allCopyEnds s.groups).reverse)],fun e he => ?_,?_,?_⟩
      · rw [List.mem_singleton.mp he]
      · rw [List.flatMap_singleton]
        exact reverse_perm _
      · rw [hends, FencedScheduler.freeCowRetainedBlocks]
        exact if_neg hfence
  obtain ⟨entries,hfence,hperm,hstate⟩ := hqueue
  have hblocks (r : RequestId) :
      blocksOf s.manager.takeKvCacheBlockCopies.2.singleTypeManagers r = blocksOf s.groups r := by
    simp only [blocksOf, takeKvCacheBlockCopies, flatMap_map]
    rfl
  rw [hstate]
  refine ⟨hs.handOver rfl hfence (Nat.le_succ _) le_rfl (fun _ _ => Nat.lt_succ_self _) ?_ ?_ ?_ ?_,
    rfl,hblocks,?_⟩
  · intro b _
    rw [hperm.count_eq]
    exact heldBy_takeCopies s.known s.groups b
  · intro r hr m hm
    obtain ⟨m₀,hm₀,rfl⟩ := mem_map.mp hm
    exact hs.unknown r hr m₀ hm₀
  · intro r b hb
    left
    rwa [hblocks]
  · intro b hb
    exact .inr (hperm.mem_iff.mpr hb)
  · intro b hb
    obtain ⟨e,he,hbe⟩ := mem_flatMap.mp (hperm.mem_iff.mpr hb)
    exact ⟨e,mem_append_right _ he,hfence e he,hbe⟩

theorem Inv.countStep {s : FencedScheduler H} {scheduled copyBlocks : List ℕ} (hs : s.Inv)
    (hcopies : ∀ b ∈ copyBlocks, ∃ e ∈ s.deferredFrees, e.1 = s.schedStepSeq+1 ∧ b ∈ e.2) :
    (s.countStep scheduled copyBlocks).Inv := by
  unfold FencedScheduler.countStep
  split
  · exact hs
  have hlast (r : RequestId) : s.lastSchedSeq r ≤
      (if r ∈ scheduled then s.schedStepSeq+1 else s.lastSchedSeq r) := by
    split
    · exact (hs.recent r).trans (Nat.le_succ _)
    · exact le_rfl
  have hle := hs.processed_le
  refine ⟨hs.sound,hs.refs,hs.unknown,fun r => ?_,fun e he => ?_,?_,hle.trans (Nat.le_succ _),?_,?_⟩
  · dsimp only
    split
    · exact le_rfl
    · exact (hs.recent r).trans (Nat.le_succ _)
  · exact (hs.fences e he).trans (Nat.le_succ _)
  · dsimp only
    rw [map_append, hs.flights, Nat.succ_sub hle, range'_concat]
    simp
    omega
  · intro f hf b hb hb0 hskip
    rcases List.mem_append.mp hf with hold | hnew
    · rcases hs.guarded f hold b hb hb0 hskip with ⟨r,hseq,hmem⟩ | hrest
      · exact .inl ⟨r,hseq.trans (hlast r),hmem⟩
      · exact .inr hrest
    · rw [List.mem_singleton.mp hnew] at hb ⊢
      rcases List.mem_append.mp hb with hreq | hcopy
      · obtain ⟨r,hr,hmem⟩ := mem_flatMap.mp hreq
        exact .inl ⟨r,by simp [hr],hmem⟩
      · obtain ⟨e,he,hfence,hbe⟩ := hcopies b hcopy
        exact .inr (.inr ⟨e,he,hfence.ge,hbe⟩)
  · intro heq
    have heq' : s.processedStepSeq = s.schedStepSeq+1 := heq
    omega

theorem drain_spec (processed : ℕ) {queue : List (ℕ × List ℕ)} {p : BlockPool H} (hp : p.Sound)
    (hcount : ∀ b, b ≠ nullBlock → ((queue.flatMap Prod.snd).count b : ℤ) ≤ (p.blocks b).refCnt) :
    (drain processed queue p).2.Sound ∧
    (∃ freed, queue = freed ++ (drain processed queue p).1 ∧ ∀ e ∈ freed, e.1 ≤ processed) ∧
    (∀ e, (drain processed queue p).1.head? = some e → processed < e.1) ∧
    ∀ b, ((drain processed queue p).2.blocks b).refCnt-((drain processed queue p).1.flatMap
      Prod.snd).count b = (p.blocks b).refCnt-(queue.flatMap Prod.snd).count b := by
  induction queue generalizing p with
  | nil => exact ⟨hp,⟨[],rfl,(fun _ he => nomatch he)⟩,(fun _ he => nomatch he),fun _ => rfl⟩
  | cons e queue ih =>
    obtain ⟨fence,blocks⟩ := e
    rw [drain]
    split
    · rename_i hlt
      refine ⟨hp,⟨[],rfl,(fun _ he => nomatch he)⟩,fun e he => ?_,fun _ => rfl⟩
      cases he
      exact hlt
    · rename_i hpassed
      have hsplit (b : ℕ) : (((fence,blocks) :: queue).flatMap Prod.snd).count b =
          blocks.reverse.count b+(queue.flatMap Prod.snd).count b := by
        rw [List.flatMap_cons, List.count_append, count_reverse]
      have hq : (p.freeBlocks blocks.reverse).Sound := by
        refine hp.freeBlocks fun b hb => ?_
        have := hcount b hb
        rw [hsplit] at this
        omega
      obtain ⟨hsound,⟨freed,hfreed,hfence⟩,hhead,hrefs⟩ := ih hq fun b hb => by
        rw [freeBlocks_refCnt]
        have := hcount b hb
        rw [hsplit] at this
        omega
      refine ⟨hsound,⟨(fence,blocks) :: freed,?_,?_⟩,hhead,fun b => ?_⟩
      · rw [cons_append, ← hfreed]
      · exact forall_mem_cons.mpr ⟨not_lt.mp hpassed,hfence⟩
      · rw [hrefs, freeBlocks_refCnt, hsplit]
        push_cast
        ring

theorem Inv.updateFromOutput {s : FencedScheduler H} (hs : s.Inv)
    (hlt : s.processedStepSeq < s.schedStepSeq) : ({ s with
      processedStepSeq := s.processedStepSeq+1
      inFlight := s.inFlight.tail }.drainDeferredFrees).Inv := by
  have hcount (b : ℕ) (hb : b ≠ nullBlock) :
      ((s.deferredFrees.flatMap Prod.snd).count b : ℤ) ≤ (s.pool.blocks b).refCnt := by
    have hheld : 0 ≤ heldBy s.known s.groups b :=
      sum_nonneg fun x hx => by
        obtain ⟨m,-,rfl⟩ := mem_map.mp hx
        positivity
    rw [hs.refs b hb]
    change (s.deferredBlocks.count b : ℤ) ≤ _
    omega
  obtain ⟨hsound,⟨freed,hqueue,hfreed⟩,hhead,hrefs⟩ :=
    drain_spec (s.processedStepSeq+1) hs.sound hcount
  -- the first step in flight is the one that has been processed
  have htail : s.inFlight.tail.map Flight.seq =
      List.range' (s.processedStepSeq+2) (s.schedStepSeq-(s.processedStepSeq+1)) := by
    rw [map_tail, hs.flights, tail_range']
    rfl
  have hrest {e : ℕ × List ℕ} (he : e ∈ (drain (s.processedStepSeq+1) s.deferredFrees s.pool).1) :
      e ∈ s.deferredFrees := by
    rw [hqueue]
    exact mem_append_right _ he
  refine ⟨hsound,fun b hb => ?_,hs.unknown,hs.recent,fun e he => hs.fences e (hrest he),htail,hlt,?_,?_⟩
  · have hb' := hrefs b
    have hold := hs.refs b hb
    change ((drain (s.processedStepSeq+1) s.deferredFrees s.pool).2.blocks b).refCnt = heldBy s.known s.groups b +
      (((drain (s.processedStepSeq+1) s.deferredFrees s.pool).1.flatMap Prod.snd).count b : ℤ)
    change (s.pool.blocks b).refCnt = _+((s.deferredFrees.flatMap Prod.snd).count b : ℤ) at hold
    omega
  · intro f hf b hb hb0 hskip
    have hmem : f.seq ∈ s.inFlight.tail.map Flight.seq := mem_map_of_mem hf
    rw [htail, mem_range'_1] at hmem
    rcases hs.guarded f (mem_of_mem_tail hf) b hb hb0 hskip with hreq | hcopy | ⟨e,he,hseq,hbe⟩
    · exact .inl hreq
    · exact .inr (.inl hcopy)
    · rw [hqueue] at he
      rcases List.mem_append.mp he with hdone | he
      · have := hfreed e hdone
        omega
      · exact .inr (.inr ⟨e,he,hseq,hbe⟩)
  · intro heq hall
    change s.processedStepSeq+1 = s.schedStepSeq at heq
    change (drain (s.processedStepSeq+1) s.deferredFrees s.pool).1 = []
    cases hd : (drain (s.processedStepSeq+1) s.deferredFrees s.pool).1 with
    | nil => rfl
    | cons e rest =>
      have hfirst := hhead e (by rw [hd]; rfl)
      have hle : e.1 ≤ s.schedStepSeq := hall e (by
        change e ∈ (drain (s.processedStepSeq+1) s.deferredFrees s.pool).1
        rw [hd]
        exact mem_cons_self)
      omega

theorem Inv.withPool {s : FencedScheduler H} {p : BlockPool H} (hs : s.Inv)
    (hp : SameRefs s.pool p) : (s.withPool p).Inv :=
  ⟨hs.sound.congr hp,fun b hb => (hp.refCnt b).trans (hs.refs b hb),hs.unknown,hs.recent,hs.fences,
    hs.flights,hs.processed_le,hs.guarded,hs.drained⟩

theorem Inv.newStepStarts {s : FencedScheduler H} (hs : s.Inv) :
    (s.withManager s.manager.newStepStarts).Inv := by
  have hblocks (m : SingleTypeKVCacheManager H) : m.newStepStarts.reqToBlocks = m.reqToBlocks := by
    unfold SingleTypeKVCacheManager.newStepStarts
    split <;> rfl
  have hends (m : SingleTypeKVCacheManager H) : m.newStepStarts.copyEnds = m.copyEnds := by
    unfold SingleTypeKVCacheManager.newStepStarts
    split <;> rfl
  have hstate : s.withManager s.manager.newStepStarts = s.handOver s.manager.newStepStarts [] := by
    rw [FencedScheduler.handOver, append_nil]
    rfl
  rw [hstate]
  refine hs.handOver rfl (fun _ he => nomatch he) (le_refl s.schedStepSeq) (Nat.le_succ _)
    (fun hne => absurd rfl hne) ?_ ?_ ?_ ?_
  · intro b _
    simp [heldBy, KVCacheManager.newStepStarts, hblocks, hends, groups, Function.comp_def]
  · intro r hr m hm
    obtain ⟨m₀,hm₀,rfl⟩ := mem_map.mp hm
    rw [hblocks]
    exact hs.unknown r hr m₀ hm₀
  · intro r b hb
    left
    simpa [blocksOf, KVCacheManager.newStepStarts, flatMap_map, hblocks, groups] using hb
  · intro b hb
    left
    simpa [allCopyEnds, KVCacheManager.newStepStarts, flatMap_map, hends, groups] using hb

theorem Inv.addRequest {s : FencedScheduler H} (hs : s.Inv) (hnone : blocksOf s.groups r = []) :
    Inv { s with lastSchedSeq := update s.lastSchedSeq r 0 } := by
  refine ⟨hs.sound,hs.refs,hs.unknown,fun r' => ?_,hs.fences,hs.flights,hs.processed_le,?_,hs.drained⟩
  · by_cases hr : r' = r
    · simp [hr]
    · simpa [hr] using hs.recent r'
  · intro f hf b hb hb0 hskip
    rcases hs.guarded f hf b hb hb0 hskip with ⟨r',hseq,hmem⟩ | hrest
    · have hr : r' ≠ r := by
        rintro rfl
        rw [hnone] at hmem
        cases hmem
      exact .inl ⟨r',by simpa [hr] using hseq,hmem⟩
    · exact .inr hrest

theorem Inv.step {s s' : FencedScheduler H} {ev : FenceEvent H} (hs : s.Inv)
    (h : s.step ev = some s') : s'.Inv := by
  cases ev with
  | addRequest r =>
    obtain ⟨hnil,h⟩ := ite_none_right_eq_some.mp h
    cases h
    exact hs.addRequest (isEmpty_iff.mp hnil)
  | allocateSlots request args =>
    obtain ⟨⟨res,k⟩,halloc,rfl⟩ := map_eq_some_iff.mp h
    exact hs.allocateSlots halloc
  | freeRequest r =>
    cases h
    exact (hs.know r).freeRequestBlocks (mem_insert_self ..)
  | endSchedule scheduled =>
    cases h
    obtain ⟨hinv,hseq,-,hcopies⟩ := hs.takeCopies
    refine hinv.countStep fun b hb => ?_
    rw [hseq]
    exact hcopies b hb
  | updateFromOutput =>
    obtain ⟨hlt,h⟩ := ite_none_right_eq_some.mp h
    cases h
    exact hs.updateFromOutput hlt
  | removeSkippedBlocks r n =>
    cases h
    exact (hs.know r).removeSkippedBlocks (mem_insert_self ..) n
  | cacheBlocks request n =>
    obtain ⟨k,hcache,rfl⟩ := map_eq_some_iff.mp h
    have hk := hs.know request.requestId
    have hr : request.requestId ∈ (s.know request.requestId).known := mem_insert_self ..
    exact hk.tookAll hr (tookAll_cacheBlocks (hk.ledger hr) hcache)
  | newStepStarts =>
    cases h
    exact hs.newStepStarts
  | evictBlocks ids =>
    obtain ⟨p,hp,rfl⟩ := map_eq_some_iff.mp h
    exact hs.withPool (hashStep_evictBlocks hp).refs
  | resetPrefixCache =>
    cases h
    exact hs.withPool (hashStep_resetPrefixCache s.pool).refs

structure Fresh (k : KVCacheManager H) : Prop where
  pool : ∃ n enableCaching hashBlockSize, 0 < n ∧ k.blockPool = .init n enableCaching hashBlockSize
  blocks : ∀ m ∈ k.singleTypeManagers, ∀ r, m.reqToBlocks r = []
  copies : ∀ m ∈ k.singleTypeManagers, m.pendingCowCopies = []

theorem Inv.init (hk : Fresh k) : Inv { manager := k } := by
  obtain ⟨n,enableCaching,hashBlockSize,hn,hpool⟩ := hk.pool
  have hsound : k.blockPool.Sound := by
    rw [hpool]
    exact sound_init hn enableCaching hashBlockSize
  have hzero (b : ℕ) : (k.blockPool.blocks b).refCnt = 0 := by
    rw [hpool]
    rfl
  refine ⟨hsound,fun b _ => ?_,fun r _ m hm => hk.blocks m hm r,fun _ => le_rfl,
    (fun _ he => nomatch he),rfl,le_rfl,(fun _ hf => nomatch hf),fun _ _ => rfl⟩
  have hheld : heldBy ∅ k.singleTypeManagers b = 0 := by
    refine sum_eq_zero fun x hx => ?_
    obtain ⟨m,hm,rfl⟩ := mem_map.mp hx
    simp [copyEnds, hk.copies m hm]
  change (k.blockPool.blocks b).refCnt = heldBy ∅ k.singleTypeManagers b+0
  rw [hzero, hheld]
  rfl

def oneGroup (kind : SpecKind) (blockSize : ℕ) : KVCacheManager ℕ where
  blockPool := .init 10 false 2
  singleTypeManagers := [{
    kind := kind, blockSize := blockSize, enableCaching := true, kvCacheGroupId := 0,
    schedulerBlockSize := blockSize }]
  coordinator := .unitary
  maxModelLen := 64
  schedulerBlockSize := blockSize
  enableCaching := false

theorem fresh_oneGroup (kind : SpecKind) (blockSize : ℕ) : Fresh (oneGroup kind blockSize) where
  pool := ⟨10,false,2,by decide,rfl⟩
  blocks m hm r := by
    rw [List.mem_singleton.mp hm]
  copies m hm := by
    rw [List.mem_singleton.mp hm]

end FencedScheduler

end MetaZenith.KVCache
