import MetaZenith.SingleTypeManager

/-! `KVCacheManager` and its coordinator: one call allocates the slots of a request in every
group, from one pool. -/

namespace MetaZenith.KVCache

universe u v w

def threadPool {H : Type u} {α : Type v} {β : Type w}
    (f : BlockPool H → α → Option (BlockPool H × β)) :
    BlockPool H → List α → Option (BlockPool H × List β)
  | p, [] => some (p,[])
  | p, a :: as => (f p a).bind fun (p,b) => (threadPool f p as).map fun (p,bs) => (p,b :: bs)

def mapPool {H : Type u} {α : Type v} {β : Type w} (f : BlockPool H → α → BlockPool H × β) :
    BlockPool H → List α → BlockPool H × List β
  | p, [] => (p,[])
  | p, a :: as =>
    let rest := mapPool f (f p a).1 as
    (rest.1,(f p a).2 :: rest.2)

inductive CoordinatorKind
  | noPrefixCache
  | unitary
  | hybrid
deriving DecidableEq

structure KVCacheManager (H : Type u) where
  blockPool : BlockPool H
  singleTypeManagers : List (SingleTypeKVCacheManager H)
  coordinator : CoordinatorKind
  maxModelLen : ℕ
  schedulerBlockSize : ℕ
  watermarkBlocks : ℕ := 0
  enableCaching : Bool := true
  retentionInterval : Option ℕ := none

/-- The arguments of `allocate_slots`. `newComputedBlocks` is `none` for the manager's own empty
object, which stands for a request without hits. -/
structure SlotArgs where
  numNewTokens : ℕ
  numNewComputedTokens : ℕ := 0
  newComputedBlocks : Option (List (List ℕ)) := none
  numLookaheadTokens : ℕ := 0
  numExternalComputedTokens : ℕ := 0
  delayCacheBlocks : Bool := false
  fullSequenceMustFit : Bool := false
  reservedBlocks : ℕ := 0
  hasScheduledReqs : Bool := true

namespace KVCacheManager

variable {H : Type u}

def hitBlocks (k : KVCacheManager H) (newComputedBlocks : Option (List (List ℕ))) :
    List (List ℕ) :=
  newComputedBlocks.getD (k.singleTypeManagers.map fun _ => [])

def enablePartialHashHits (k : KVCacheManager H) : Bool :=
  k.coordinator == .hybrid && k.singleTypeManagers.any fun m => match m.kind with
    | .mamba .align _ => k.blockPool.hashBlockSize < m.blockSize
    | _ => false

variable [DecidableEq H]

def getNumBlocksToAllocate (k : KVCacheManager H) (r : RequestId) (numTokens : ℕ)
    (newComputedBlocks : List (List ℕ)) (totalComputedTokens numLocalComputedTokens : ℕ)
    (numTokensMainModel : ℕ) (applyAdmissionCap : Bool) : Option ℤ :=
  if newComputedBlocks.length < k.singleTypeManagers.length then none
  else ((k.singleTypeManagers.zip newComputedBlocks).mapM
    fun (g : SingleTypeKVCacheManager H × List ℕ) =>
      g.1.getNumBlocksToAllocate k.blockPool r numTokens g.2 totalComputedTokens
        numLocalComputedTokens numTokensMainModel applyAdmissionCap).map List.sum

variable (k : KVCacheManager H)

/-- `KVCacheCoordinator.allocate_new_computed_blocks`: the hits of every group are touched before
any group takes blocks for external tokens. -/
def allocateNewComputedBlocks (r : RequestId) (newComputedBlocks : List (List ℕ))
    (numLocalComputedTokens numExternalComputedTokens : ℕ) :
    Option (KVCacheManager H) :=
  if k.singleTypeManagers.any fun m => (m.numCachedBlock r).isSome then
    if newComputedBlocks.all List.isEmpty then some k else none
  else if newComputedBlocks.length < k.singleTypeManagers.length then none
  else
    (threadPool (fun p (g : SingleTypeKVCacheManager H × List ℕ) =>
      g.1.addLocalComputedBlocks p r g.2 numLocalComputedTokens numExternalComputedTokens)
      k.blockPool (k.singleTypeManagers.zip newComputedBlocks)).bind fun (p,managers) =>
        if numExternalComputedTokens = 0 then
          some { k with blockPool := p, singleTypeManagers := managers }
        else
          (threadPool (fun p (m : SingleTypeKVCacheManager H) =>
            m.allocateExternalComputedBlocks p r numLocalComputedTokens
              numExternalComputedTokens) p managers).map fun (p,managers) =>
            { k with blockPool := p, singleTypeManagers := managers }

def allocateNewBlocks (k : KVCacheManager H) (r : RequestId) (numTokens numTokensMainModel : ℕ) :
    Option (List (List ℕ) × KVCacheManager H) :=
  (threadPool (fun p (m : SingleTypeKVCacheManager H) =>
    (m.allocateNewBlocks p r numTokens numTokensMainModel).map fun (blocks,p,m) => (p,blocks,m))
    k.blockPool k.singleTypeManagers).map fun (p,results) =>
      (results.map (·.1),{ k with blockPool := p, singleTypeManagers := results.map (·.2) })

def removeSkippedBlocks (k : KVCacheManager H) (r : RequestId) (processedComputedTokens : ℕ) :
    KVCacheManager H :=
  let removed := mapPool (fun p (m : SingleTypeKVCacheManager H) =>
    m.removeSkippedBlocks p r processedComputedTokens) k.blockPool k.singleTypeManagers
  { k with blockPool := removed.1, singleTypeManagers := removed.2 }

def numTokensToCache (m : SingleTypeKVCacheManager H) (numComputedTokens : ℕ) : ℕ :=
  if k.coordinator = .hybrid then
    let aligned :=
      if k.enablePartialHashHits then numComputedTokens
      else numComputedTokens/k.schedulerBlockSize*k.schedulerBlockSize
    -- an EAGLE group matches one block past the boundary and drops it
    if m.useEagle ∧ 0 < aligned then min numComputedTokens (aligned+m.blockSize) else aligned
  else numComputedTokens

def cacheBlocks (k : KVCacheManager H) (request : KVRequest H) (numComputedTokens : ℕ) :
    Option (KVCacheManager H) :=
  if k.enableCaching then
    (threadPool (fun p (m : SingleTypeKVCacheManager H) => m.cacheBlocks p request
      (k.numTokensToCache m numComputedTokens) k.retentionInterval) k.blockPool
      k.singleTypeManagers).map fun (p,managers) =>
        { k with blockPool := p, singleTypeManagers := managers }
  else some k

def fullSequenceFits (request : KVRequest H) (args : SlotArgs)
    (numLocalComputedTokens totalComputedTokens watermarkBlocks : ℕ) : Option Bool :=
  if args.fullSequenceMustFit then
    let fullNumTokens := min request.numTokens k.maxModelLen
    let fullNumSlots := min (fullNumTokens+args.numLookaheadTokens) k.maxModelLen
    (k.getNumBlocksToAllocate request.requestId fullNumSlots
      (k.hitBlocks args.newComputedBlocks) totalComputedTokens numLocalComputedTokens
      fullNumTokens true).map fun n =>
        n+watermarkBlocks+args.reservedBlocks ≤ (k.blockPool.getNumFreeBlocks:ℤ)
  else some true

def commitSlots (request : KVRequest H) (args : SlotArgs)
    (numLocalComputedTokens totalComputedTokens numTokensNeedSlot : ℕ) :
    Option (List (List ℕ) × KVCacheManager H) :=
  let r := request.requestId
  (if args.newComputedBlocks.isSome ∨ 0 < args.numExternalComputedTokens then
      k.allocateNewComputedBlocks r (k.hitBlocks args.newComputedBlocks) numLocalComputedTokens
        args.numExternalComputedTokens
    else some k).bind fun k =>
      (k.allocateNewBlocks r numTokensNeedSlot (totalComputedTokens+args.numNewTokens)).bind
        fun (newBlocks,k) =>
          if !k.enableCaching || args.delayCacheBlocks then some (newBlocks,k)
          else
            -- draft tokens that may be rejected are not cached
            (k.cacheBlocks request
              (min (totalComputedTokens+args.numNewTokens) request.numTokens)).map fun k =>
                (newBlocks,k)

/-- `KVCacheManager.allocate_slots`. The outer option is an exception, the inner one the result
None of a call that finds too few blocks. -/
def allocateSlots (request : KVRequest H) (args : SlotArgs) :
    Option (Option (List (List ℕ)) × KVCacheManager H) :=
  if args.numNewTokens = 0 ∧ args.numExternalComputedTokens = 0 then none
  else
    let r := request.requestId
    let numLocalComputedTokens := request.numComputedTokens+args.numNewComputedTokens
    let totalComputedTokens :=
      min (numLocalComputedTokens+args.numExternalComputedTokens) k.maxModelLen
    let watermarkBlocks :=
      if args.hasScheduledReqs && request.waiting then k.watermarkBlocks else 0
    (k.fullSequenceFits request args numLocalComputedTokens totalComputedTokens
      watermarkBlocks).bind fun fits =>
      if fits then
        let numTokensMainModel := totalComputedTokens+args.numNewTokens
        let numTokensNeedSlot :=
          min (numTokensMainModel+args.numLookaheadTokens) k.maxModelLen
        let k := k.removeSkippedBlocks r (totalComputedTokens-request.numInFlightTokens)
        (k.getNumBlocksToAllocate r numTokensNeedSlot (k.hitBlocks args.newComputedBlocks)
          (numLocalComputedTokens+args.numExternalComputedTokens) numLocalComputedTokens
          numTokensMainModel false).bind fun numBlocksToAllocate =>
          let availableBlocks : ℤ := k.blockPool.getNumFreeBlocks-args.reservedBlocks
          if availableBlocks < numBlocksToAllocate+watermarkBlocks then some (none,k)
          else
            (k.commitSlots request args numLocalComputedTokens totalComputedTokens
              numTokensNeedSlot).map fun (newBlocks,k) => (some newBlocks,k)
      else some (none,k)

def popBlocksForFree (k : KVCacheManager H) (r : RequestId) : List ℕ × KVCacheManager H :=
  (k.singleTypeManagers.flatMap fun m => (m.popBlocksForFree r).1,
    { k with singleTypeManagers := k.singleTypeManagers.map fun m => (m.popBlocksForFree r).2 })

def free (k : KVCacheManager H) (r : RequestId) : KVCacheManager H :=
  let freed := mapPool (fun p (m : SingleTypeKVCacheManager H) => m.free p r) k.blockPool
    k.singleTypeManagers
  { k with blockPool := freed.1, singleTypeManagers := freed.2 }

def newStepStarts (k : KVCacheManager H) : KVCacheManager H :=
  { k with singleTypeManagers := k.singleTypeManagers.map (·.newStepStarts) }

/-- `take_kv_cache_block_copies`: the drained copies; both blocks of a pair stay retained until
the caller frees them. -/
def takeKvCacheBlockCopies : List (ℕ × ℕ) × KVCacheManager H :=
  (k.singleTypeManagers.flatMap (·.pendingCowCopies),
    { k with
      singleTypeManagers := k.singleTypeManagers.map fun m => { m with pendingCowCopies := [] } })

end KVCacheManager

end MetaZenith.KVCache
