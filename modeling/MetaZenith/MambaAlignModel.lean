import MetaZenith.MambaBlockBound

/-! The hand-off of the recurrent state between the steps of one request in mamba cache mode align. The
scheduler's block list, the worker's append-only block table and the contents of the state blocks are
kept apart: the allocator renames speculative blocks and frees old columns while the worker copies
states between columns. A state is named by the tokens it has consumed. -/

namespace MetaZenith.MambaAlign

open KVCache KVCache.SingleTypeKVCacheManager

variable {τ : Type*}

structure Config where
  blockSize : ℕ
  numSpeculativeBlocks : ℕ

structure AlignRequest (τ : Type*) where
  tokens : List τ
  numComputedTokens : ℕ
  /-- `req_to_blocks` of the scheduler. -/
  reqBlocks : List ℕ
  blocksAllocated : Bool
  lastStateBlockIdx : Option ℕ
  /-- The request's row of the worker's block table. -/
  blockTable : List ℕ
  mambaStateIdx : Option ℕ
  numAcceptedTokens : ℕ
  /-- The temporal state in each block of the pool. -/
  memory : ℕ → List τ

/-- A step of the request: what the scheduler asks for, the blocks the pool hands out, the sampler's
answer, and what other requests have put into blocks that are not this request's. -/
structure AlignStep (τ : Type*) where
  numScheduledTokens : ℕ
  specTokenIds : List τ
  numAcceptedDrafts : ℕ
  nextToken : τ
  /-- The last chunk registered a partial tail, whose entry moves to a block outside the list. -/
  producerTail : Bool
  /-- The copy of a partial hit, any other number when there is none. -/
  cowBlock : ℕ
  newBlocks : List ℕ
  others : ℕ → List τ

section Stages

variable (cfg : Config) (st : AlignRequest τ) (step : AlignStep τ)

namespace AlignRequest

def sweptBlocks : List ℕ :=
  if st.numComputedTokens-1 = 0 then st.reqBlocks
  else (sweepBlocks 0 (min ((st.numComputedTokens-1)/cfg.blockSize) st.reqBlocks.length)
    st.reqBlocks).2

def freeLastState (blocks : List ℕ) : List ℕ :=
  match st.lastStateBlockIdx with
  | some idx =>
    if idx+1 < cdiv st.numComputedTokens cfg.blockSize ∧
        blocks.getD idx BlockPool.nullBlock ≠ BlockPool.nullBlock then
      blocks.set idx BlockPool.nullBlock
    else blocks
  | none => blocks

def removeSkippedBlocks : AlignRequest τ :=
  { st with reqBlocks := st.freeLastState cfg (st.sweptBlocks cfg) }

def interfere (others : ℕ → List τ) : AlignRequest τ :=
  { st with memory := fun b => if b ∈ st.reqBlocks then st.memory b else others b }

def privatize (cowBlock : ℕ) : AlignRequest τ :=
  if st.blocksAllocated = false ∧ st.numComputedTokens%cfg.blockSize ≠ 0 then
    let blockIdx := st.numComputedTokens/cfg.blockSize
    { st with
      reqBlocks := st.reqBlocks.set blockIdx cowBlock
      memory := Function.update st.memory cowBlock
        (st.memory (st.reqBlocks.getD blockIdx BlockPool.nullBlock)) }
  else st

/-- `MambaManager.allocate_new_blocks`. A request that holds blocks already sends the worker only what
lies behind its old list. -/
def allocateNewBlocks : AlignRequest τ :=
  let numRequiredBlocks :=
    cdiv (st.numComputedTokens+step.numScheduledTokens) cfg.blockSize+cfg.numSpeculativeBlocks
  let prevBlockLen := st.reqBlocks.length
  if st.blocksAllocated = true ∧ numRequiredBlocks ≤ prevBlockLen ∧ step.producerTail = false then st
  else
    let reqBlocks := alignReqBlocks st.reqBlocks st.blocksAllocated
      (numRequiredBlocks-cfg.numSpeculativeBlocks-1) cfg.numSpeculativeBlocks ++ step.newBlocks
    { st with
      reqBlocks
      blocksAllocated := true
      lastStateBlockIdx :=
        if st.blocksAllocated then some (prevBlockLen-1-cfg.numSpeculativeBlocks)
        else if 0 < prevBlockLen then some (prevBlockLen-1) else st.lastStateBlockIdx
      blockTable :=
        if st.blocksAllocated then st.blockTable ++ reqBlocks.drop prevBlockLen else reqBlocks }

def numNewBlocks : ℕ :=
  let numRequiredBlocks :=
    cdiv (st.numComputedTokens+step.numScheduledTokens) cfg.blockSize+cfg.numSpeculativeBlocks
  numRequiredBlocks-(alignReqBlocks st.reqBlocks st.blocksAllocated
    (numRequiredBlocks-cfg.numSpeculativeBlocks-1) cfg.numSpeculativeBlocks).length

def held : AlignRequest τ :=
  if st.blocksAllocated then st.removeSkippedBlocks cfg else st

def schedule : AlignRequest τ :=
  (((st.held cfg).interfere step.others).privatize cfg step.cowBlock).allocateNewBlocks cfg step

def block (column : ℕ) : ℕ := st.blockTable.getD column BlockPool.nullBlock

def currStateIdx : ℕ :=
  cdiv (st.numComputedTokens+step.numScheduledTokens) cfg.blockSize+cfg.numSpeculativeBlocks-1 -
    cfg.numSpeculativeBlocks

def prevStateIdx : Option ℕ :=
  match st.mambaStateIdx with
  | some idx => some idx
  | none =>
    if st.numComputedTokens = 0 then none else some ((st.numComputedTokens-1)/cfg.blockSize)

def preCopy : Option (ℕ × ℕ) :=
  match st.prevStateIdx cfg with
  | none => none
  | some prev =>
    if prev ≠ st.currStateIdx cfg step then
      some (prev+(st.numAcceptedTokens-1), st.currStateIdx cfg step)
    else none

def copyColumn (src dst : ℕ) : AlignRequest τ :=
  { st with memory := Function.update st.memory (st.block dst) (st.memory (st.block src)) }

def preprocess : AlignRequest τ :=
  match st.preCopy cfg step with
  | some (src, dst) =>
    { st.copyColumn src dst with
      mambaStateIdx := some (st.currStateIdx cfg step), numAcceptedTokens := 1 }
  | none => { st with mambaStateIdx := some (st.currStateIdx cfg step) }

def query : List τ :=
  (st.tokens.drop st.numComputedTokens ++ step.specTokenIds).take step.numScheduledTokens

def startState (stateIdx : ℕ) : List τ :=
  if st.numComputedTokens = 0 then []
  else st.memory (st.block (stateIdx+(st.numAcceptedTokens-1)))

/-- The forward pass with its assumed behaviour: the state after all tokens but the drafts in the
running column, and one more token in each column behind it. -/
def forward (stateIdx : ℕ) : AlignRequest τ :=
  let start := st.startState stateIdx
  let numDraftTokens := step.specTokenIds.length
  { st with
    memory := (List.range (numDraftTokens+1)).foldl (fun memory j =>
      Function.update memory (st.block (stateIdx+j))
        (start ++ (st.query step).take (step.numScheduledTokens-numDraftTokens+j))) st.memory }

def numTokensRunningState : ℕ :=
  st.numComputedTokens+step.numScheduledTokens-step.specTokenIds.length

def newNumComputed : ℕ :=
  st.numTokensRunningState step+(step.numAcceptedDrafts+1)-1

def postCopy (srcBlockIdx : ℕ) : Option (ℕ × ℕ) :=
  let alignedNewComputed := st.newNumComputed step/cfg.blockSize*cfg.blockSize
  if st.numTokensRunningState step ≤ alignedNewComputed then
    some (srcBlockIdx+(alignedNewComputed-st.numTokensRunningState step),
      alignedNewComputed/cfg.blockSize-1)
  else none

def postprocess (srcBlockIdx : ℕ) : AlignRequest τ :=
  let numAccepted := step.numAcceptedDrafts+1
  match st.postCopy cfg step srcBlockIdx with
  | some (src, dst) =>
    { st.copyColumn src dst with
      numAcceptedTokens := if srcBlockIdx = dst then 1 else numAccepted }
  | none => { st with numAcceptedTokens := numAccepted }

/-- The sampled tokens reach the request; a chunk that stops short of the known tokens samples nothing. -/
def processOutput : AlignRequest τ :=
  { st with
    tokens :=
      if st.numComputedTokens+step.numScheduledTokens < st.tokens.length then st.tokens
      else st.tokens ++ step.specTokenIds.take step.numAcceptedDrafts ++ [step.nextToken]
    numComputedTokens := st.newNumComputed step }

def execute : AlignRequest τ :=
  let stateIdx := st.currStateIdx cfg step
  ((((st.preprocess cfg step).forward step stateIdx).postprocess cfg step stateIdx).processOutput step)

def accessedColumns : List ℕ :=
  let stateIdx := st.currStateIdx cfg step
  let pre := st.preprocess cfg step
  (st.preCopy cfg step).elim [] (fun c => [c.1, c.2]) ++
    (if st.numComputedTokens = 0 then [] else [stateIdx+(pre.numAcceptedTokens-1)]) ++
    (List.range (step.specTokenIds.length+1)).map (stateIdx + ·) ++
    (pre.postCopy cfg step stateIdx).elim [] (fun c => [c.1, c.2])

end AlignRequest

/-- What the scheduler may ask for: a chunk of the known tokens, or the last known token with at most K
drafts. -/
def LegalTokens : Prop :=
  0 < step.numScheduledTokens ∧ step.numAcceptedDrafts ≤ step.specTokenIds.length ∧
    step.specTokenIds.length ≤ cfg.numSpeculativeBlocks ∧
    if step.specTokenIds.length = 0 then
      st.numComputedTokens+step.numScheduledTokens ≤ st.tokens.length
    else st.blocksAllocated = true ∧ st.numComputedTokens+1 = st.tokens.length ∧
      step.numScheduledTokens = step.specTokenIds.length+1

def FreshBlocks : Prop :=
  step.newBlocks.length = st.numNewBlocks cfg step ∧
    (step.cowBlock :: step.newBlocks).Nodup ∧
    BlockPool.nullBlock ∉ step.cowBlock :: step.newBlocks ∧
    ∀ b ∈ step.cowBlock :: step.newBlocks, b ∉ st.reqBlocks

instance : Decidable (LegalTokens cfg st step) := by
  unfold LegalTokens
  infer_instance

instance : Decidable (FreshBlocks cfg st step) := by
  unfold FreshBlocks
  infer_instance

end Stages

def AlignRequest.step (cfg : Config) (st : AlignRequest τ) (step : AlignStep τ) :
    Option (AlignRequest τ) :=
  if LegalTokens cfg st step ∧ FreshBlocks cfg (st.held cfg) step then
    some ((st.schedule cfg step).execute cfg step)
  else none

end MetaZenith.MambaAlign
