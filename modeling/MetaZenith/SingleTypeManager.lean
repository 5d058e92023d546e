import MetaZenith.BlockPool

/-! The managers of the KV cache groups: which blocks a request holds in one group, how many more
it needs, and how it gets and gives them back. -/

namespace MetaZenith.KVCache

open BlockPool Function

universe u

abbrev RequestId := ℕ

def cdiv (a b : ℕ) : ℕ := (a+b-1)/b

theorem lt_cdiv_iff {a b k : ℕ} (hb : 0 < b) : k < cdiv a b ↔ k*b < a := by
  rw [cdiv, ← Nat.succ_le_iff, Nat.le_div_iff_mul_le hb, Nat.succ_mul]
  omega

inductive MambaCacheMode
  | none
  | all
  | align
deriving DecidableEq

inductive SpecKind
  | fullAttention
  | slidingWindow (slidingWindow : ℕ)
  | chunkedLocal (attentionChunkSize : ℕ)
  | mamba (mambaCacheMode : MambaCacheMode) (numSpeculativeBlocks : ℕ)
deriving DecidableEq

structure KVRequest (H : Type u) where
  requestId : RequestId
  numComputedTokens : ℕ := 0
  numInFlightTokens : ℕ := 0
  numTokens : ℕ := 0
  numPromptTokens : ℕ := 0
  sharedPrefixBoundary : ℕ := 0
  blockHashes : List H := []
  /-- Whether the status is WAITING or PREEMPTED. -/
  waiting : Bool := false

/-- `SingleTypeKVCacheManager` and its subclasses. A request without an entry in `req_to_blocks`
has no blocks there. -/
structure SingleTypeKVCacheManager (H : Type u) where
  kind : SpecKind
  blockSize : ℕ
  enableCaching : Bool
  kvCacheGroupId : ℕ
  schedulerBlockSize : ℕ
  maxAdmissionBlocksPerRequest : Option ℕ := none
  useEagle : Bool := false
  reqToBlocks : RequestId → List ℕ := fun _ => []
  numCachedBlock : RequestId → Option ℕ := fun _ => none
  partialHitReqs : RequestId → Option (ℕ × ℕ) := fun _ => none
  pendingCowCopies : List (ℕ × ℕ) := []
  cachedBlocksThisStep : List (BlockHashWithGroupId H) := []
  lastStateBlockIdx : RequestId → Option ℕ := fun _ => none
  allocatedBlockReqs : RequestId → Bool := fun _ => false

namespace SingleTypeKVCacheManager

variable {H : Type u}

def setBlocks (m : SingleTypeKVCacheManager H) (r : RequestId) (blocks : List ℕ) :
    SingleTypeKVCacheManager H :=
  { m with reqToBlocks := update m.reqToBlocks r blocks }

def popPartialHit (m : SingleTypeKVCacheManager H) (r : RequestId) : SingleTypeKVCacheManager H :=
  { m with partialHitReqs := update m.partialHitReqs r none }

/-- `get_num_skipped_tokens`. Mamba returns one less than the computed tokens; callers treat the
-1 of an empty prefix like 0. -/
def getNumSkippedTokens (m : SingleTypeKVCacheManager H) (numComputedTokens : ℕ) : ℕ :=
  match m.kind with
  | .fullAttention => 0
  | .slidingWindow slidingWindow => numComputedTokens+1-slidingWindow
  | .chunkedLocal attentionChunkSize => numComputedTokens/attentionChunkSize*attentionChunkSize
  | .mamba .. => numComputedTokens-1

def getNumEvictableBlocks (p : BlockPool H) (blocks : List ℕ) : ℕ :=
  blocks.countP fun b => (p.blocks b).refCnt == 0 && !(p.blocks b).isNull

def hasPartialLocalHit (m : SingleTypeKVCacheManager H) (newComputedBlocks : List ℕ)
    (numLocalComputedTokens : ℕ) : Bool :=
  !newComputedBlocks.isEmpty && numLocalComputedTokens%m.blockSize != 0

def baseNumBlocksToAllocate (m : SingleTypeKVCacheManager H) (p : BlockPool H) (r : RequestId)
    (numTokens : ℕ) (newComputedBlocks : List ℕ) (totalComputedTokens numLocalComputedTokens : ℕ)
    (applyAdmissionCap : Bool) : Option ℤ :=
  let numRequiredBlocks := cdiv numTokens m.blockSize
  let numRequiredBlocks :=
    if applyAdmissionCap then
      m.maxAdmissionBlocksPerRequest.elim numRequiredBlocks (min numRequiredBlocks)
    else numRequiredBlocks
  let numReqBlocks := (m.reqToBlocks r).length
  if (m.numCachedBlock r).isSome then
    -- a running request has no new prefix-cache hits
    if newComputedBlocks.isEmpty then some ((numRequiredBlocks-numReqBlocks : ℕ):ℤ) else none
  else
    let numSkippedBlocks := m.getNumSkippedTokens totalComputedTokens/m.blockSize
    let numNewBlocks :=
      numRequiredBlocks-max numSkippedBlocks (newComputedBlocks.length+numReqBlocks)
    let numEvictableBlocks :=
      getNumEvictableBlocks p (newComputedBlocks.drop (numSkippedBlocks-numReqBlocks))
    let numCowBlocks := if m.hasPartialLocalHit newComputedBlocks numLocalComputedTokens then 1 else 0
    some ((numNewBlocks+numCowBlocks+numEvictableBlocks : ℕ):ℤ)

/-- The branch of `MambaManager.get_num_blocks_to_allocate` for mode align. The count is negative
when the request holds more blocks than it needs. -/
def alignNumBlocksToAllocate (m : SingleTypeKVCacheManager H) (p : BlockPool H) (r : RequestId)
    (newComputedBlocks : List ℕ) (numLocalComputedTokens numTokensMainModel : ℕ)
    (numSpeculativeBlocks : ℕ) : ℤ :=
  let numRequiredBlocks := cdiv numTokensMainModel m.blockSize+numSpeculativeBlocks
  let numNewBlocks : ℤ := numRequiredBlocks-newComputedBlocks.length-(m.reqToBlocks r).length
  let hasPartialHit := m.hasPartialLocalHit newComputedBlocks numLocalComputedTokens ||
    (m.partialHitReqs r).isSome
  let numNewBlocks := if hasPartialHit then max numNewBlocks 0+1 else numNewBlocks
  let numNewBlocks : ℤ :=
    if 0 < numNewBlocks then
      -- an old request reuses its speculative blocks
      if m.allocatedBlockReqs r then 1+(if hasPartialHit then 1 else 0)
      else 1+numSpeculativeBlocks+(if hasPartialHit then 1 else 0)
    else numNewBlocks
  numNewBlocks+getNumEvictableBlocks p newComputedBlocks

variable [DecidableEq H]

variable (m : SingleTypeKVCacheManager H) (p : BlockPool H) (request : KVRequest H) (numTokens : ℕ)

def getNumBlocksToAllocate (r : RequestId) (numTokens : ℕ) (newComputedBlocks : List ℕ)
    (totalComputedTokens numLocalComputedTokens : ℕ) (numTokensMainModel : ℕ)
    (applyAdmissionCap : Bool) : Option ℤ :=
  match m.kind with
  | .mamba mode numSpeculativeBlocks =>
    if (newComputedBlocks.getLast?.bind fun b => (p.blocks b).blockHash).any
        (· ∈ m.cachedBlocksThisStep) then
      -- a state produced in this step cannot be read yet: make the check fail
      some (p.numGpuBlocks+1)
    else if mode = .align then
      some (m.alignNumBlocksToAllocate p r newComputedBlocks numLocalComputedTokens
        numTokensMainModel numSpeculativeBlocks)
    else
      m.baseNumBlocksToAllocate p r (numTokens+m.blockSize*numSpeculativeBlocks) newComputedBlocks
        totalComputedTokens numLocalComputedTokens applyAdmissionCap
  | _ => m.baseNumBlocksToAllocate p r numTokens newComputedBlocks totalComputedTokens
      numLocalComputedTokens applyAdmissionCap

/-- The bookkeeping of `add_local_computed_blocks` once the hits are touched. A partial tail is
remembered for the copy in `allocate_new_blocks` and is not counted as cached. -/
def adoptHits (r : RequestId) (numSkippedBlocks : ℕ) (newComputedBlocks : List ℕ)
    (numLocalComputedTokens : ℕ) : SingleTypeKVCacheManager H :=
  let reqBlocks := List.replicate numSkippedBlocks nullBlock ++ newComputedBlocks
  let blockIdx := numLocalComputedTokens/m.blockSize
  if m.hasPartialLocalHit newComputedBlocks numLocalComputedTokens then
    { m.setBlocks r reqBlocks with
      numCachedBlock := update m.numCachedBlock r (some blockIdx)
      partialHitReqs := update m.partialHitReqs r
        (newComputedBlocks.getLast?.map fun b => (blockIdx,b)) }
  else
    { m.setBlocks r reqBlocks with
      numCachedBlock := update m.numCachedBlock r (some reqBlocks.length) }

def addLocalComputedBlocks (r : RequestId) (newComputedBlocks : List ℕ)
    (numLocalComputedTokens numExternalComputedTokens : ℕ) :
    Option (BlockPool H × SingleTypeKVCacheManager H) :=
  if (m.reqToBlocks r).isEmpty then
    let numTotalComputedTokens := numLocalComputedTokens+numExternalComputedTokens
    let numSkippedBlocks := m.getNumSkippedTokens numTotalComputedTokens/m.blockSize
    let newComputedBlocks := newComputedBlocks.drop numSkippedBlocks
    (if m.enableCaching then p.touch newComputedBlocks
      else if newComputedBlocks.isEmpty then some p else none).map fun p =>
      (p,m.adoptHits r numSkippedBlocks newComputedBlocks numLocalComputedTokens)
  else none

/-- A negative number of blocks would corrupt the counter of the free queue; it counts as a
failure here. -/
def allocateExternalComputedBlocks (r : RequestId)
    (numLocalComputedTokens numExternalComputedTokens : ℕ) :
    Option (BlockPool H × SingleTypeKVCacheManager H) :=
  let numTotalComputedTokens := numLocalComputedTokens+numExternalComputedTokens
  let numSkippedTokens := m.getNumSkippedTokens numTotalComputedTokens
  let numExternalComputedTokens :=
    if 0 < numSkippedTokens then
      min (numTotalComputedTokens-numSkippedTokens) numExternalComputedTokens
    else numExternalComputedTokens
  if numExternalComputedTokens = 0 then some (p,m)
  else
    let reqBlocks := m.reqToBlocks r
    let numBlocks := cdiv numTotalComputedTokens m.blockSize
    if numBlocks < reqBlocks.length then none
    else (p.getNewBlocks (numBlocks-reqBlocks.length)).map fun (allocatedBlocks,p) =>
      (p,m.setBlocks r (reqBlocks ++ allocatedBlocks))

def applyCow (r : RequestId) (blockIdx sourceBlock cowBlock : ℕ) :
    Option (BlockPool H × SingleTypeKVCacheManager H) :=
  if (m.reqToBlocks r)[blockIdx]? = some sourceBlock ∧ (p.blocks sourceBlock).isNull = false ∧
      0 < (p.blocks sourceBlock).refCnt then
    some (p.setBlock cowBlock { p.blocks cowBlock with refCnt := (p.blocks cowBlock).refCnt+1 },
      { m.setBlocks r ((m.reqToBlocks r).set blockIdx cowBlock) with
        pendingCowCopies := m.pendingCowCopies ++ [(sourceBlock,cowBlock)] })
  else none

def redirectPartialHit (r : RequestId) :
    Option (List ℕ × BlockPool H × SingleTypeKVCacheManager H) :=
  match m.partialHitReqs r with
  | none => some ([],p,m)
  | some (blockIdx,sourceBlock) =>
    (p.getNewBlocks 1).bind fun (newBlocks,p) => newBlocks.head?.bind fun cowBlock =>
      ((m.popPartialHit r).applyCow p r blockIdx sourceBlock cowBlock).map fun (p,m) =>
        ([cowBlock],p,m)

def baseAllocateNewBlocks (r : RequestId) (numTokens : ℕ) :
    Option (List ℕ × BlockPool H × SingleTypeKVCacheManager H) :=
  (m.redirectPartialHit p r).bind fun (cowBlocks,p,m) =>
    let reqBlocks := m.reqToBlocks r
    let numRequiredBlocks := cdiv numTokens m.blockSize
    if numRequiredBlocks ≤ reqBlocks.length then some (cowBlocks,p,m)
    else (p.getNewBlocks (numRequiredBlocks-reqBlocks.length)).map fun (newBlocks,p) =>
      (cowBlocks ++ newBlocks,p,m.setBlocks r (reqBlocks ++ newBlocks))

def reuseSpeculativeBlocks (numSkippedBlocks : ℕ) : (blockIdx count : ℕ) → List ℕ → List ℕ
  | _, 0, blocks => blocks
  | blockIdx, count+1, blocks =>
    if blockIdx < numSkippedBlocks then
      reuseSpeculativeBlocks numSkippedBlocks (blockIdx+1) count
        ((blocks ++ [blocks.getD blockIdx nullBlock]).set blockIdx nullBlock)
    else blocks

/-- The block list of mode align before new blocks are appended: skipped positions are null and
the speculative blocks of the previous step are reused. -/
def alignReqBlocks (reqBlocks : List ℕ) (blocksAllocated : Bool)
    (numSkippedBlocks numSpeculativeBlocks : ℕ) : List ℕ :=
  let padded := reqBlocks ++
    List.replicate (numSkippedBlocks-reqBlocks.length) nullBlock
  if blocksAllocated then
    reuseSpeculativeBlocks numSkippedBlocks (reqBlocks.length-numSpeculativeBlocks)
      numSpeculativeBlocks padded
  else padded

def moveEntryToCow (r : RequestId) (blockIdx sourceBlock cowBlock : ℕ) :
    Option (BlockPool H × SingleTypeKVCacheManager H) :=
  if (m.reqToBlocks r)[blockIdx]? = some sourceBlock then
    (p.moveBlockHashes sourceBlock cowBlock).map fun p =>
      (p.setBlock sourceBlock { p.blocks sourceBlock with
          refCnt := (p.blocks sourceBlock).refCnt+1 },
        { m with
          pendingCowCopies := m.pendingCowCopies ++ [(sourceBlock,cowBlock)]
          cachedBlocksThisStep := m.cachedBlocksThisStep ++ (p.blocks cowBlock).blockHash.toList })
  else none

/-- The state of the manager before new blocks are taken: the last running state is remembered,
or the hit state of a request that gets its first blocks. -/
def alignAdvance (r : RequestId) (numSkippedBlocks numSpeculativeBlocks : ℕ) :
    SingleTypeKVCacheManager H :=
  let prevBlockLen := (m.reqToBlocks r).length
  let lastStateBlockIdx :=
    -- the running state is before the last `num_speculative_blocks` blocks
    if m.allocatedBlockReqs r then some (prevBlockLen-1-numSpeculativeBlocks)
    else if 0 < prevBlockLen then some (prevBlockLen-1)
    else m.lastStateBlockIdx r
  { m.setBlocks r (alignReqBlocks (m.reqToBlocks r) (m.allocatedBlockReqs r) numSkippedBlocks
      numSpeculativeBlocks) with
    lastStateBlockIdx := update m.lastStateBlockIdx r lastStateBlockIdx
    allocatedBlockReqs := update m.allocatedBlockReqs r true }

def alignTakeBlocks (r : RequestId) (blocksAllocated : Bool) (prevBlockLen : ℕ)
    (newBlocks : List ℕ) :
    Option (List ℕ × BlockPool H × SingleTypeKVCacheManager H) :=
  let returnedBlocks := (m.reqToBlocks r).drop prevBlockLen
  match m.partialHitReqs r with
  | none =>
    some (returnedBlocks ++ newBlocks,p,m.setBlocks r (m.reqToBlocks r ++ newBlocks))
  | some (blockIdx,sourceBlock) => newBlocks.head?.bind fun cowBlock =>
    (if blocksAllocated then
        (m.moveEntryToCow p r blockIdx sourceBlock cowBlock).map fun (p,m) => (returnedBlocks,p,m)
      else (m.applyCow p r blockIdx sourceBlock cowBlock).map fun (p,m) =>
        (cowBlock :: returnedBlocks,p,m)).map fun (returnedBlocks,p,m) =>
      (returnedBlocks ++ newBlocks.tail,p,
        (m.setBlocks r (m.reqToBlocks r ++ newBlocks.tail)).popPartialHit r)

def alignAllocateNewBlocks (r : RequestId) (numTokensMainModel numSpeculativeBlocks : ℕ) :
    Option (List ℕ × BlockPool H × SingleTypeKVCacheManager H) :=
  let prevBlockLen := (m.reqToBlocks r).length
  let numRequiredBlocks := cdiv numTokensMainModel m.blockSize+numSpeculativeBlocks
  if numRequiredBlocks ≤ prevBlockLen ∧ (m.partialHitReqs r).isNone then some ([],p,m)
  else
    let blocksAllocated := m.allocatedBlockReqs r
    let m := m.alignAdvance r (numRequiredBlocks-numSpeculativeBlocks-1) numSpeculativeBlocks
    let reqBlockLen := (m.reqToBlocks r).length
    let numCowBlocks := (m.partialHitReqs r).toList.length
    let numNewBlocks := numRequiredBlocks-reqBlockLen+numCowBlocks
    let maxNewBlocks := if blocksAllocated then 1 else numSpeculativeBlocks+1
    -- a negative number of blocks counts as a failure, and so does the assertion on it
    if (numRequiredBlocks < reqBlockLen ∧ (m.partialHitReqs r).isNone) ∨
        maxNewBlocks+numCowBlocks < numNewBlocks then none
    else (p.getNewBlocks numNewBlocks).bind fun (newBlocks,p) =>
      m.alignTakeBlocks p r blocksAllocated prevBlockLen newBlocks

def allocateNewBlocks (r : RequestId) (numTokens numTokensMainModel : ℕ) :
    Option (List ℕ × BlockPool H × SingleTypeKVCacheManager H) :=
  match m.kind with
  | .mamba mode numSpeculativeBlocks =>
    if mode = .align then m.alignAllocateNewBlocks p r numTokensMainModel numSpeculativeBlocks
    else m.baseAllocateNewBlocks p r (numTokens+m.blockSize*numSpeculativeBlocks)
  | _ => m.baseAllocateNewBlocks p r numTokens

/-- The backward loop of `_remove_blocks_in_range` over `count` blocks from `firstBlock` on: the
freed blocks and the new block list. It stops at the first null block. -/
def sweepBlocks (firstBlock : ℕ) : (count : ℕ) → List ℕ → List ℕ × List ℕ
  | 0, blocks => ([],blocks)
  | count+1, blocks =>
    let b := blocks.getD (firstBlock+count) nullBlock
    if b = nullBlock then ([],blocks)
    else
      let rest := sweepBlocks firstBlock count (blocks.set (firstBlock+count) nullBlock)
      (b :: rest.1,rest.2)

def removeBlocksInRange (r : RequestId) (firstBlock lastBlock : ℕ) :
    BlockPool H × SingleTypeKVCacheManager H :=
  let blocks := m.reqToBlocks r
  let swept := sweepBlocks firstBlock (min lastBlock blocks.length-firstBlock) blocks
  (p.freeBlocks swept.1,m.setBlocks r swept.2)

/-- The end of `MambaManager.remove_skipped_blocks` in mode align: the state block remembered by
the last allocation is freed once the processed tokens are past it. -/
def freeLastState (r : RequestId) (processedComputedTokens : ℕ) :
    BlockPool H × SingleTypeKVCacheManager H :=
  match m.lastStateBlockIdx r with
  | some idx =>
    let b := (m.reqToBlocks r).getD idx nullBlock
    if idx+1 < cdiv processedComputedTokens m.blockSize ∧ b ≠ nullBlock then
      (p.freeBlocks [b],m.setBlocks r ((m.reqToBlocks r).set idx nullBlock))
    else (p,m)
  | none => (p,m)

def removeSkippedBlocks (r : RequestId) (processedComputedTokens : ℕ) :
    BlockPool H × SingleTypeKVCacheManager H :=
  let numSkippedTokens := m.getNumSkippedTokens processedComputedTokens
  let removed :=
    if numSkippedTokens = 0 then (p,m)
    else m.removeBlocksInRange p r 0 (numSkippedTokens/m.blockSize)
  match m.kind with
  | .mamba .align _ => removed.2.freeLastState removed.1 r processedComputedTokens
  | _ => removed

def popBlocksForFree (r : RequestId) : List ℕ × SingleTypeKVCacheManager H :=
  (m.reqToBlocks r,{ m with
    reqToBlocks := update m.reqToBlocks r []
    numCachedBlock := update m.numCachedBlock r none
    partialHitReqs := update m.partialHitReqs r none
    lastStateBlockIdx := update m.lastStateBlockIdx r none
    allocatedBlockReqs := update m.allocatedBlockReqs r false })

def free (r : RequestId) : BlockPool H × SingleTypeKVCacheManager H :=
  (p.freeBlocks (m.popBlocksForFree r).1.reverse,(m.popBlocksForFree r).2)

def newStepStarts : SingleTypeKVCacheManager H :=
  match m.kind with
  | .mamba .. => { m with cachedBlocksThisStep := [] }
  | _ => m

def slidingWindowMask (slidingWindow startBlock endBlock : ℕ) (retentionInterval : Option ℕ)
    (reachableBoundaries : List ℕ) : Option (List Bool) :=
  let shift := if m.useEagle then 1 else 0
  let need := cdiv (slidingWindow-1) m.blockSize+shift
  let segmentTokens := match retentionInterval with
    | none => some m.schedulerBlockSize
    | some interval => if interval = 0 then none else some interval
  let perSegment := segmentTokens.map (·/m.blockSize)
  if perSegment.any (· ≤ need) then none
  else some ((List.range (endBlock-startBlock)).map fun i =>
    perSegment.any (fun n => shift ≤ startBlock+i ∧ n-need ≤ (startBlock+i-shift)%n) ||
    (retentionInterval.isSome && reachableBoundaries.any fun boundaryTokens =>
      let aligned := boundaryTokens/m.schedulerBlockSize*m.schedulerBlockSize
      let last := aligned/m.blockSize+shift
      last-need ≤ startBlock+i ∧ startBlock+i < last))

def mambaMask (startBlock endBlock : ℕ) (retentionInterval : Option ℕ)
    (reachableBoundaries : List ℕ) : Option (List Bool) :=
  retentionInterval.bind fun interval =>
    let perSegment := interval/m.blockSize
    if interval ≠ 0 ∧ perSegment ≤ 1 then none
    else
      let firstBoundary := (startBlock+perSegment)/perSegment*perSegment-1
      some ((List.range (endBlock-startBlock)).map fun i =>
        (interval ≠ 0 ∧ firstBoundary ≤ startBlock+i ∧
          (startBlock+i-firstBoundary)%perSegment = 0) ||
        reachableBoundaries.any fun boundaryTokens =>
          let aligned := boundaryTokens/m.schedulerBlockSize*m.schedulerBlockSize
          aligned/m.blockSize = startBlock+i+1)

def reachableBlockMask (startBlock endBlock : ℕ) (retentionInterval : Option ℕ)
    (reachableBoundaries : List ℕ) : Option (List Bool) :=
  match m.kind with
  | .slidingWindow slidingWindow =>
    m.slidingWindowMask slidingWindow startBlock endBlock retentionInterval reachableBoundaries
  | .mamba .. => m.mambaMask startBlock endBlock retentionInterval reachableBoundaries
  | _ => none

def baseCacheBlocks (retentionInterval : Option ℕ) :
    Option (BlockPool H × SingleTypeKVCacheManager H) :=
  let r := request.requestId
  let numCachedBlocks := (m.numCachedBlock r).getD 0
  let numFullBlocks := numTokens/m.blockSize
  if numFullBlocks ≤ numCachedBlocks then some (p,m)
  else
    let reachableBoundaries := (request.numPromptTokens-1) ::
      (if request.sharedPrefixBoundary = 0 then [] else [request.sharedPrefixBoundary])
    let blockMask := m.reachableBlockMask numCachedBlocks numFullBlocks retentionInterval
      reachableBoundaries
    (p.cacheFullBlocks request.blockHashes (m.reqToBlocks r) numCachedBlocks numFullBlocks
      m.blockSize m.kvCacheGroupId blockMask).map fun p =>
      (p,{ m with numCachedBlock := update m.numCachedBlock r (some numFullBlocks) })

def fullAttentionCachePartialTail : Option (BlockPool H) :=
  let boundaryTokens := request.numPromptTokens/p.hashBlockSize*p.hashBlockSize
  if boundaryTokens = 0 ∨ numTokens < boundaryTokens ∨ boundaryTokens%m.blockSize = 0 then some p
  else match (m.reqToBlocks request.requestId)[boundaryTokens/m.blockSize]? with
    | none => some p
    | some b => (p.cachePartialBlock request.blockHashes b boundaryTokens m.kvCacheGroupId
        m.blockSize).map (·.1)

/-- `MambaManager._cache_partial_tail_block`: the request becomes the producer of a partial tail
and copies its state before the next step. -/
def mambaCachePartialTail : Option (BlockPool H × SingleTypeKVCacheManager H) :=
  let r := request.requestId
  let boundaryTokens := request.numPromptTokens/p.hashBlockSize*p.hashBlockSize
  if m.blockSize = p.hashBlockSize ∨ numTokens%m.blockSize = 0 ∨
      numTokens%p.hashBlockSize ≠ 0 ∨ numTokens ≠ boundaryTokens then some (p,m)
  else
    let blockIdx := numTokens/m.blockSize
    match (m.reqToBlocks r)[blockIdx]? with
    | none => some (p,m)
    | some b =>
      if (p.blocks b).isNull then some (p,m)
      else (p.cachePartialBlock request.blockHashes b numTokens m.kvCacheGroupId m.blockSize).map
        fun (p,partialHash) => match partialHash with
          | none => (p,m)
          | some key => (p,{ m with
              partialHitReqs := update m.partialHitReqs r (some (blockIdx,b))
              numCachedBlock := update m.numCachedBlock r (some blockIdx)
              cachedBlocksThisStep := m.cachedBlocksThisStep ++ [key] })

def recordCachedBlocks (r : RequestId) (numCachedBlocksBefore numCachedBlocksAfter : ℕ) :
    SingleTypeKVCacheManager H :=
  let blocks := ((m.reqToBlocks r).take numCachedBlocksAfter).drop numCachedBlocksBefore
  { m with cachedBlocksThisStep := m.cachedBlocksThisStep ++ blocks.filterMap fun b =>
      if (p.blocks b).isNull then none else (p.blocks b).blockHash }

def cacheBlocks (retentionInterval : Option ℕ) :
    Option (BlockPool H × SingleTypeKVCacheManager H) :=
  (m.baseCacheBlocks p request numTokens retentionInterval).bind fun (p,m') =>
    match m.kind with
    | .fullAttention =>
      if m.blockSize = p.hashBlockSize then some (p,m')
      else (m'.fullAttentionCachePartialTail p request numTokens).map fun p => (p,m')
    | .mamba mode _ =>
      let numCachedBlocksBefore := (m.numCachedBlock request.requestId).getD 0
      let numCachedBlocksAfter := (m'.numCachedBlock request.requestId).getD 0
      (if mode = .align then m'.mambaCachePartialTail p request numTokens else some (p,m')).map
        fun (p,m') =>
          (p,m'.recordCachedBlocks p request.requestId numCachedBlocksBefore numCachedBlocksAfter)
    | _ => some (p,m')

end SingleTypeKVCacheManager

end MetaZenith.KVCache
