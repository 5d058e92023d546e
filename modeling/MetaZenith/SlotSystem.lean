import MetaZenith.PoolSteps

/-! Runs of the KV cache manager: requests that allocate slots for their steps, outputs that are
processed later, and the calls in between. -/

namespace MetaZenith.KVCache

universe u

set_option linter.unusedSectionVars false

structure UnprocessedStep where
  numScheduledTokens : ℕ
  numDraftTokens : ℕ

structure SlotRequest where
  numComputedTokens : ℕ := 0
  steps : List UnprocessedStep := []

def SlotRequest.numInFlightTokens (q : SlotRequest) : ℕ := (q.steps.map (·.numScheduledTokens)).sum

structure SlotSystem (H : Type u) where
  manager : KVCacheManager H
  requests : RequestId → SlotRequest := fun _ => {}

inductive SlotEvent (H : Type u)
  /-- `allocate_slots` for a step with this many draft tokens. -/
  | allocate (request : KVRequest H) (args : SlotArgs) (numDraftTokens : ℕ)
  /-- The output of the oldest step, which rejects some of its drafts. -/
  | process (r : RequestId) (numRejected : ℕ)
  /-- A failed load or a full hit moves the computed tokens back. -/
  | rollback (r : RequestId) (numComputedTokens : ℕ)
  | cacheBlocks (request : KVRequest H) (numComputedTokens : ℕ)
  | removeSkippedBlocks (r : RequestId) (processedComputedTokens : ℕ)
  /-- The request is preempted or finished. -/
  | free (r : RequestId)
  /-- The same, with blocks that are freed later. -/
  | popBlocksForFree (r : RequestId)
  | newStepStarts
  | takeCopies
  /-- Deferred frees, evictions and resets. -/
  | pool (call : BlockPool.Call H)

namespace SlotSystem

variable {H : Type u}

def setRequest (s : SlotSystem H) (r : RequestId) (q : SlotRequest) : SlotSystem H :=
  { s with requests := Function.update s.requests r q }

def view (s : SlotSystem H) (request : KVRequest H) : KVRequest H :=
  { request with
    numComputedTokens := (s.requests request.requestId).numComputedTokens
    numInFlightTokens := (s.requests request.requestId).numInFlightTokens }

variable [DecidableEq H]

def scheduled (s : SlotSystem H) (r : RequestId) (args : SlotArgs) (numDraftTokens : ℕ) :
    SlotSystem H :=
  let q := s.requests r
  s.setRequest r {
    numComputedTokens := q.numComputedTokens+args.numNewComputedTokens+
      args.numExternalComputedTokens+args.numNewTokens
    steps := if args.numNewTokens = 0 then q.steps
      else q.steps ++ [⟨args.numNewTokens,numDraftTokens⟩] }

def step (s : SlotSystem H) : SlotEvent H → Option (SlotSystem H)
  | .allocate request args numDraftTokens =>
    (s.manager.allocateSlots (s.view request) args).map fun (res,k) =>
      let s := { s with manager := k }
      if res.isSome then s.scheduled request.requestId args numDraftTokens else s
  | .process r numRejected =>
    let q := s.requests r
    match q.steps with
    | [] => none
    | done :: steps =>
      if numRejected ≤ done.numDraftTokens then
        some (s.setRequest r ⟨q.numComputedTokens-numRejected,steps⟩)
      else none
  | .rollback r n =>
    let q := s.requests r
    if n ≤ q.numComputedTokens then some (s.setRequest r { q with numComputedTokens := n }) else none
  | .cacheBlocks request n =>
    (s.manager.cacheBlocks (s.view request) n).map fun k => { s with manager := k }
  | .removeSkippedBlocks r n => some { s with manager := s.manager.removeSkippedBlocks r n }
  | .free r =>
    some ({ s with manager := s.manager.free r }.setRequest r
      { s.requests r with numComputedTokens := 0 })
  | .popBlocksForFree r =>
    some ({ s with manager := (s.manager.popBlocksForFree r).2 }.setRequest r
      { s.requests r with numComputedTokens := 0 })
  | .newStepStarts => some { s with manager := s.manager.newStepStarts }
  | .takeCopies => some { s with manager := s.manager.takeKvCacheBlockCopies.2 }
  | .pool call => (s.manager.blockPool.step call).map fun p =>
      { s with manager := { s.manager with blockPool := p } }

end SlotSystem

namespace BlockPool

variable {H : Type u} [DecidableEq H] {p q : BlockPool H}

theorem steps_of_call {call : Call H} (h : p.step call = some q) : Steps p q := by
  simp only [BlockPool.step] at h
  split at h
  swap
  · cases h
  cases call with
  | getNewBlocks n =>
    obtain ⟨⟨new,q'⟩,hnew,rfl⟩ := Option.map_eq_some_iff.mp h
    exact (Steps.refl p).getNewBlocks hnew
  | touch blocks => exact (Steps.refl p).touch h
  | freeBlocks blocks =>
    cases h
    exact (Steps.refl p).freeBlocks blocks
  | cacheFullBlocks => exact (Steps.refl p).hashes (sameRefs_cacheFullBlocks h)
  | cachePartialBlock =>
    obtain ⟨⟨q',key⟩,hcache,rfl⟩ := Option.map_eq_some_iff.mp h
    exact (Steps.refl p).hashes (sameRefs_cachePartialBlock hcache)
  | moveBlockHashes src dst => exact (Steps.refl p).hashes (sameRefs_moveBlockHashes h)
  | evictBlocks ids => exact (Steps.refl p).hashes (hashStep_evictBlocks h).refs
  | resetPrefixCache =>
    cases h
    exact (Steps.refl p).hashes (hashStep_resetPrefixCache p).refs

end BlockPool

namespace KVCacheManager

variable {H : Type u} [DecidableEq H] {k : KVCacheManager H} {r : RequestId}

theorem free_counted (hk : k.blockPool.QueueCounted) (r : RequestId) :
    (k.free r).blockPool.QueueCounted :=
  mapPool_keeps hk fun _ _ _ hq => hq.freeBlocks _

theorem mem_free {m' : SingleTypeKVCacheManager H} (h : m' ∈ (k.free r).singleTypeManagers) :
    ∃ m ∈ k.singleTypeManagers, m' = (m.popBlocksForFree r).2 := by
  obtain ⟨m,hm,q,rfl⟩ := mapPool_mem h
  exact ⟨m,hm,rfl⟩

end KVCacheManager

end MetaZenith.KVCache
