import MetaZenith.RowColumns

/-! The persistent batch of the model runner: `InputBatch`, its `BatchUpdateBuilder` and the
block tables, column by column as `gpu_input_batch.py` and `block_table.py` keep them.

A preallocated array is a function of the row index, a dictionary keyed by row index an
`Option`-valued one. What is keyed by request id only (the sets of greedy requests and the
like) does not move with the rows and is left out. -/

namespace MetaZenith

open Function

abbrev BatchReqId := ℕ

inductive SamplingType
  | greedy
  | random
  deriving DecidableEq, Repr

/-- The sampling parameters that `add_request` stores by row. An absent list is the empty one:
both are falsy. -/
structure SamplingParams where
  samplingType : SamplingType
  temperature : ℚ
  topP : ℚ
  topK : ℤ
  frequencyPenalty : ℚ
  presencePenalty : ℚ
  repetitionPenalty : ℚ
  allowedTokenIds : List ℕ
  badWordsTokenIds : List (List ℤ)
  deriving DecidableEq, Repr

structure PromptEmbeds where
  ident : ℕ
  numRows : ℕ
  deriving DecidableEq, Repr

structure CachedRequestState where
  reqId : BatchReqId
  promptTokenIds : Option (List ℤ)
  promptEmbeds : Option PromptEmbeds
  promptIsTokenIds : Option (List Bool)
  outputTokenIds : List ℤ
  numComputedTokens : ℕ
  blockIds : List (List ℕ)
  samplingParams : Option SamplingParams
  /-- `pooling_params.requires_token_ids` of a pooling request. -/
  poolingParams : Option Bool
  generator : Option ℕ
  loraIntId : Option ℕ
  deriving DecidableEq, Repr

def lengthFromPromptTokenIdsOrEmbeds (promptTokenIds : Option (List ℤ))
    (promptEmbeds : Option PromptEmbeds) : Option ℕ :=
  match promptTokenIds, promptEmbeds with
  | none, none => none
  | none, some e => some e.numRows
  | some t, none => some t.length
  | some t, some e => if e.numRows ≠ t.length then none else some t.length

structure BlockTable where
  maxNumBlocksPerReq : ℕ
  blocksPerKvBlock : ℕ
  blockTable : ℕ → ℕ → ℕ
  numBlocksPerRow : ℕ → ℕ

namespace BlockTable

def mapToKernelBlocks (blocksPerKvBlock : ℕ) (blockIds : List ℕ) : List ℕ :=
  if blocksPerKvBlock = 1 then blockIds
  else blockIds.flatMap fun b => (List.range blocksPerKvBlock).map (b*blocksPerKvBlock + ·)

def appendRow (t : BlockTable) (blockIds : List ℕ) (row : ℕ) : Option BlockTable :=
  if blockIds = [] then some t
  else
    let ids := mapToKernelBlocks t.blocksPerKvBlock blockIds
    let start := t.numBlocksPerRow row
    if start+ids.length ≤ t.maxNumBlocksPerReq then
      some { t with
        numBlocksPerRow := update t.numBlocksPerRow row (start+ids.length)
        blockTable := update t.blockTable row (writeSlice (t.blockTable row) start ids) }
    else none

def addRow (t : BlockTable) (blockIds : List ℕ) (row : ℕ) : Option BlockTable :=
  appendRow { t with numBlocksPerRow := update t.numBlocksPerRow row 0 } blockIds row

def clearRow (t : BlockTable) (row : ℕ) : BlockTable :=
  let n := t.numBlocksPerRow row
  { t with
    blockTable := update t.blockTable row fun c => if c < n then 0 else t.blockTable row c
    numBlocksPerRow := update t.numBlocksPerRow row 0 }

def moveRow (src tgt : ℕ) (t : BlockTable) : BlockTable :=
  let n := t.numBlocksPerRow src
  let table := matMovePrefix t.blockTable src tgt n
  { t with
    -- the vacated source row is cleared as well
    blockTable := update table src fun c => if c < n then 0 else table src c
    numBlocksPerRow := update (update t.numBlocksPerRow tgt n) src 0 }

def swapRow (src tgt : ℕ) (t : BlockTable) : BlockTable :=
  -- fancy indexing copies the right-hand side before it is stored
  { t with
    numBlocksPerRow := colSwap t.numBlocksPerRow src tgt
    blockTable := colSwap t.blockTable src tgt }

end BlockTable

/-- `MultiGroupBlockTable.add_row`: group `i` takes the `i`-th list of block ids, and an
`IndexError` or a shape error of a group is `none`. -/
def addRows : List BlockTable → List (List ℕ) → ℕ → Option (List BlockTable)
  | [], _, _ => some []
  | _ :: _, [], _ => none
  | t :: ts, ids :: rest, row =>
    match t.addRow ids row, addRows ts rest row with
    | some t', some ts' => some (t' :: ts')
    | _, _ => none

structure BatchConfig where
  maxNumReqs : ℕ
  maxModelLen : ℕ
  vocabSize : ℕ
  isPoolingModel : Bool
  useReplayssm : Bool
  deriving DecidableEq, Repr

structure InputBatch where
  /-- `_req_ids`. -/
  reqIds : List (Option BatchReqId)
  reqIdToIndex : AList fun _ : BatchReqId => ℕ
  /-- References to the output lists of the requests; a list is known by its request. -/
  reqOutputTokenIds : List (Option BatchReqId)
  specTokenIds : List (List ℤ)
  tokenIdsCpu : ℕ → ℕ → ℤ
  isTokenIds : ℕ → ℕ → Bool
  reqPromptEmbeds : ℕ → Option PromptEmbeds
  numTokensNoSpec : ℕ → ℕ
  numPromptTokens : ℕ → ℕ
  numComputedTokensCpu : ℕ → ℕ
  replayssmDecodeBase : ℕ → ℕ
  blockTables : List BlockTable
  temperatureCpu : ℕ → ℚ
  topPCpu : ℕ → ℚ
  topKCpu : ℕ → ℤ
  frequencyPenaltiesCpu : ℕ → ℚ
  presencePenaltiesCpu : ℕ → ℚ
  repetitionPenaltiesCpu : ℕ → ℚ
  numAcceptedTokensCpu : ℕ → ℕ
  requestLoraMapping : ℕ → ℕ
  generators : ℕ → Option ℕ
  badWordsTokenIds : ℕ → Option (List (List ℤ))
  /-- Allocated by the first request that restricts its tokens; `true` forbids a token. -/
  allowedTokenIdsMask : Option (ℕ → List Bool)
  logitsProcessingNeedsTokenIds : ℕ → Bool
  /-- `batch_update_builder._removed` and its flag. -/
  removed : List ℕ
  isRemovedSorted : Bool

variable (b : InputBatch) (cfg : BatchConfig)

namespace InputBatch

/-- `InputBatch.__init__`; what the uninitialised sampling arrays hold is arbitrary. -/
def init (tables : List BlockTable) (junk : ℕ → ℚ) (junkK : ℕ → ℤ) : InputBatch where
  reqIds := []
  reqIdToIndex := ∅
  reqOutputTokenIds := []
  specTokenIds := List.replicate cfg.maxNumReqs []
  tokenIdsCpu := fun _ _ => 0
  isTokenIds := fun _ _ => false
  reqPromptEmbeds := fun _ => none
  numTokensNoSpec := fun _ => 0
  numPromptTokens := fun _ => 0
  numComputedTokensCpu := fun _ => 0
  replayssmDecodeBase := fun _ => 0
  blockTables := tables
  temperatureCpu := junk
  topPCpu := junk
  topKCpu := junkK
  frequencyPenaltiesCpu := junk
  presencePenaltiesCpu := junk
  repetitionPenaltiesCpu := junk
  numAcceptedTokensCpu := fun _ => 1
  requestLoraMapping := fun _ => 0
  generators := fun _ => none
  badWordsTokenIds := fun _ => none
  allowedTokenIdsMask := none
  logitsProcessingNeedsTokenIds := fun _ => false
  removed := []
  isRemovedSorted := false

def numReqs : ℕ := b.reqIdToIndex.keys.length

def specAt (i : ℕ) : List ℤ := b.specTokenIds.getD i []

def getActiveTokenCount (i : ℕ) : ℕ := b.numTokensNoSpec i+(b.specAt i).length

def ensureRemovedSorted : InputBatch :=
  if b.isRemovedSorted then b
  else { b with removed := b.removed.insertionSort (· ≥ ·), isRemovedSorted := true }

def peekRemoved : Option ℕ :=
  if b.removed = [] then none else b.ensureRemovedSorted.removed.getLast?

def popRemoved : InputBatch :=
  if b.removed = [] then b
  else
    let b := b.ensureRemovedSorted
    { b with removed := b.removed.dropLast }

def registerAddRequest : ℕ × InputBatch :=
  match b.peekRemoved with
  | some i => (i, b.popRemoved)
  | none => (b.numReqs, b)

def placeRequest (i : ℕ) (reqId : BatchReqId) : InputBatch :=
  let b :=
    if i = b.reqIds.length then
      { b with
        reqIds := b.reqIds ++ [some reqId]
        reqOutputTokenIds := b.reqOutputTokenIds ++ [some reqId]
        specTokenIds := b.specTokenIds ++ [[]] }
    else
      { b with
        reqIds := b.reqIds.set i (some reqId)
        reqOutputTokenIds := b.reqOutputTokenIds.set i (some reqId)
        specTokenIds := b.specTokenIds.set i [] }
  { b with reqIdToIndex := b.reqIdToIndex.insert reqId i }

def promptFlags (req : CachedRequestState) (numPromptTokens : ℕ) : List Bool :=
  match req.promptTokenIds, req.promptIsTokenIds with
  | some _, some flags => flags
  | some _, none => List.replicate numPromptTokens true
  | none, _ => List.replicate numPromptTokens false

def writeTokens (b : InputBatch) (i : ℕ) (req : CachedRequestState) (numPrompt : ℕ) : InputBatch :=
  let numTokens := numPrompt+req.outputTokenIds.length
  { b with
    numPromptTokens := update b.numPromptTokens i numPrompt
    tokenIdsCpu := update b.tokenIdsCpu i
      (writeSlice (match req.promptTokenIds with
        | some ids => writeSlice (b.tokenIdsCpu i) 0 ids
        | none => b.tokenIdsCpu i) numPrompt req.outputTokenIds)
    isTokenIds := update b.isTokenIds i
      (writeSlice (writeSlice (b.isTokenIds i) 0 (promptFlags req numPrompt)) numPrompt
        (List.replicate req.outputTokenIds.length true))
    reqPromptEmbeds := match req.promptEmbeds with
      | some e => update b.reqPromptEmbeds i (some e)
      | none => b.reqPromptEmbeds
    numTokensNoSpec := update b.numTokensNoSpec i numTokens
    replayssmDecodeBase :=
      if cfg.useReplayssm then update b.replayssmDecodeBase i numTokens
      else b.replayssmDecodeBase
    numComputedTokensCpu := update b.numComputedTokensCpu i req.numComputedTokens }

def maskOf (allowed : List ℕ) : List Bool :=
  (List.range cfg.vocabSize).map fun t => decide (t ∉ allowed)

def clearMask : List Bool := List.replicate cfg.vocabSize false

def writeSampling (b : InputBatch) (i : ℕ) (generator : Option ℕ) (p : SamplingParams) :
    InputBatch :=
  { b with
    temperatureCpu := update b.temperatureCpu i
      (if p.samplingType = .greedy then 0 else p.temperature)
    topPCpu := update b.topPCpu i p.topP
    topKCpu := update b.topKCpu i
      (if 0 < p.topK ∧ p.topK < cfg.vocabSize then p.topK else cfg.vocabSize)
    frequencyPenaltiesCpu := update b.frequencyPenaltiesCpu i p.frequencyPenalty
    presencePenaltiesCpu := update b.presencePenaltiesCpu i p.presencePenalty
    repetitionPenaltiesCpu := update b.repetitionPenaltiesCpu i p.repetitionPenalty
    generators := match generator with
      | some g => update b.generators i (some g)
      | none => b.generators
    -- the row of a request without allowed tokens is not written
    allowedTokenIdsMask :=
      if p.allowedTokenIds = [] then b.allowedTokenIdsMask
      else some (update (b.allowedTokenIdsMask.getD fun _ => clearMask cfg) i
        (maskOf cfg p.allowedTokenIds))
    badWordsTokenIds :=
      if p.badWordsTokenIds = [] then b.badWordsTokenIds
      else update b.badWordsTokenIds i (some p.badWordsTokenIds) }

def writeParams (b : InputBatch) (i : ℕ) (req : CachedRequestState) : Option InputBatch :=
  match req.samplingParams, req.poolingParams with
  | some p, _ => some (writeSampling cfg b i req.generator p)
  | none, some needsTokenIds => some { b with
      logitsProcessingNeedsTokenIds :=
        update b.logitsProcessingNeedsTokenIds i needsTokenIds }
  | none, none => none

def flagsFit (req : CachedRequestState) (numPrompt : ℕ) : Bool :=
  match req.promptTokenIds, req.promptIsTokenIds with
  | some _, some flags => flags.length == numPrompt
  | _, _ => true

def withTables (tables : List BlockTable) : InputBatch :=
  { b with blockTables := tables }

def writeDefaults (i : ℕ) (req : CachedRequestState) : InputBatch :=
  { b with
    numAcceptedTokensCpu := update b.numAcceptedTokensCpu i 1
    requestLoraMapping := update b.requestLoraMapping i (req.loraIntId.getD 0) }

/-- `add_request`. `none` is one of its exceptions: a full batch, a prompt without a length, data
that do not fit their row, an unrecognised request. -/
def addRequest (b : InputBatch) (req : CachedRequestState) : Option InputBatch :=
  let (i, b) := b.registerAddRequest
  if cfg.maxNumReqs ≤ i then none
  else
    let b := b.placeRequest i req.reqId
    match lengthFromPromptTokenIdsOrEmbeds req.promptTokenIds req.promptEmbeds with
    | none => none
    | some numPrompt =>
      if flagsFit req numPrompt = false ∨
          cfg.maxModelLen < numPrompt+req.outputTokenIds.length then none
      else
        let b := writeTokens cfg b i req numPrompt
        match addRows b.blockTables req.blockIds i with
        | none => none
        | some tables =>
          match writeParams cfg (b.withTables tables) i req with
          | none => none
          | some b => some (b.writeDefaults i req)

/-- `update_req_spec_token_ids`; `none` is the `KeyError` of an unknown request or the shape error
of drafts past the end of the row. -/
def updateReqSpecTokenIds (b : InputBatch) (reqId : BatchReqId) (specTokenIds : List ℤ) :
    Option InputBatch :=
  match b.reqIdToIndex.lookup reqId with
  | none => none
  | some i =>
    let start := b.numTokensNoSpec i
    if specTokenIds = [] then some { b with specTokenIds := b.specTokenIds.set i [] }
    else if cfg.maxModelLen < start+specTokenIds.length then none
    else some { b with
      tokenIdsCpu := update b.tokenIdsCpu i
        (writeSlice (b.tokenIdsCpu i) start specTokenIds)
      isTokenIds := update b.isTokenIds i
        (writeSlice (b.isTokenIds i) start (List.replicate specTokenIds.length true))
      specTokenIds := b.specTokenIds.set i specTokenIds }

def clearSampling (b : InputBatch) (i : ℕ) : InputBatch :=
  { b with
    generators := update b.generators i none
    allowedTokenIdsMask := b.allowedTokenIdsMask.map fun m => update m i (clearMask cfg)
    badWordsTokenIds := update b.badWordsTokenIds i none }

def clearCommon (reqId : BatchReqId) (i : ℕ) : InputBatch :=
  { b with
    reqIdToIndex := b.reqIdToIndex.erase reqId
    removed := b.removed ++ [i]
    reqIds := b.reqIds.set i none
    reqOutputTokenIds := b.reqOutputTokenIds.set i none
    specTokenIds := b.specTokenIds.set i []
    blockTables := b.blockTables.map (BlockTable.clearRow · i)
    requestLoraMapping := update b.requestLoraMapping i 0 }

/-- `remove_request`; `none` is the `RuntimeError` of `removed_append` after the removed rows have
been read. -/
def removeRequest (b : InputBatch) (reqId : BatchReqId) : Option InputBatch :=
  match b.reqIdToIndex.lookup reqId with
  | none => some b
  | some i =>
    if b.isRemovedSorted then none
    else
      let b := b.clearCommon reqId i
      if cfg.isPoolingModel then some b else some (clearSampling cfg b i)

def listSwap {α : Type*} (l : List α) (i j : ℕ) (d : α) : List α :=
  (l.set i (l.getD j d)).set j (l.getD i d)

/-- The columns `swap_states` exchanges only when the model samples. The rows of the mask are
views of a tensor. -/
def swapSampling (i₁ i₂ : ℕ) : InputBatch :=
  { b with
    temperatureCpu := colSwap b.temperatureCpu i₁ i₂
    topPCpu := colSwap b.topPCpu i₁ i₂
    topKCpu := colSwap b.topKCpu i₁ i₂
    frequencyPenaltiesCpu := colSwap b.frequencyPenaltiesCpu i₁ i₂
    presencePenaltiesCpu := colSwap b.presencePenaltiesCpu i₁ i₂
    repetitionPenaltiesCpu := colSwap b.repetitionPenaltiesCpu i₁ i₂
    numAcceptedTokensCpu := colSwap b.numAcceptedTokensCpu i₁ i₂
    generators := dictSwap b.generators i₁ i₂
    badWordsTokenIds := dictSwap b.badWordsTokenIds i₁ i₂
    allowedTokenIdsMask := b.allowedTokenIdsMask.map fun m => colSwapViews m i₁ i₂ }

def swapCommon (b : InputBatch) (id₁ id₂ : BatchReqId) (i₁ i₂ : ℕ) : InputBatch :=
  let n := max (b.getActiveTokenCount i₁) (b.getActiveTokenCount i₂)
  { b with
    reqIds := listSwap b.reqIds i₁ i₂ none
    reqOutputTokenIds := listSwap b.reqOutputTokenIds i₁ i₂ none
    specTokenIds := listSwap b.specTokenIds i₁ i₂ []
    reqIdToIndex := (b.reqIdToIndex.insert id₁ ((b.reqIdToIndex.lookup id₂).getD 0)).insert id₂
      ((b.reqIdToIndex.lookup id₁).getD 0)
    numTokensNoSpec := colSwap b.numTokensNoSpec i₁ i₂
    numPromptTokens := colSwap b.numPromptTokens i₁ i₂
    replayssmDecodeBase :=
      if cfg.useReplayssm then colSwap b.replayssmDecodeBase i₁ i₂ else b.replayssmDecodeBase
    numComputedTokensCpu := colSwap b.numComputedTokensCpu i₁ i₂
    tokenIdsCpu := matSwapPrefix b.tokenIdsCpu i₁ i₂ n
    isTokenIds := matSwapPrefix b.isTokenIds i₁ i₂ n
    reqPromptEmbeds := dictSwap b.reqPromptEmbeds i₁ i₂
    blockTables := b.blockTables.map (BlockTable.swapRow i₁ i₂)
    requestLoraMapping := colSwap b.requestLoraMapping i₁ i₂ }

/-- `swap_states`; `none` is its assertion, or an index outside of the row list. -/
def swapStates (b : InputBatch) (i₁ i₂ : ℕ) : Option InputBatch :=
  match b.reqIds[i₁]?, b.reqIds[i₂]? with
  | some (some id₁), some (some id₂) =>
    let b := swapCommon cfg b id₁ id₂ i₁ i₂
    if cfg.isPoolingModel then some b else some (b.swapSampling i₁ i₂)
  | _, _ => none

/-- `while last_req_index in empty_req_indices: last_req_index -= 1`. A list that holds row 0 as
well would end at -1, which the caller treats as it treats 0. -/
def skipRemoved (removed : List ℕ) : ℕ → ℕ
  | 0 => 0
  | last+1 => if last+1 ∈ removed then skipRemoved removed last else last+1

def moveSampling (last empty : ℕ) : InputBatch :=
  { b with
    temperatureCpu := colMove b.temperatureCpu last empty
    topPCpu := colMove b.topPCpu last empty
    topKCpu := colMove b.topKCpu last empty
    frequencyPenaltiesCpu := colMove b.frequencyPenaltiesCpu last empty
    presencePenaltiesCpu := colMove b.presencePenaltiesCpu last empty
    repetitionPenaltiesCpu := colMove b.repetitionPenaltiesCpu last empty
    numAcceptedTokensCpu := colMove b.numAcceptedTokensCpu last empty
    generators := dictMove b.generators last empty
    -- the mask row of `last` keeps its contents
    allowedTokenIdsMask := b.allowedTokenIdsMask.map fun m => colMove m last empty
    badWordsTokenIds := dictMove b.badWordsTokenIds last empty }

def moveCommon (b : InputBatch) (reqId : BatchReqId) (last empty : ℕ) : InputBatch :=
  let n := b.getActiveTokenCount last
  { b with
    reqIds := (b.reqIds.set empty (some reqId)).set last none
    reqOutputTokenIds :=
      (b.reqOutputTokenIds.set empty (b.reqOutputTokenIds.getD last none)).set last none
    reqIdToIndex := b.reqIdToIndex.insert reqId empty
    specTokenIds := (listSwap b.specTokenIds last empty []).set last []
    tokenIdsCpu := matMovePrefix b.tokenIdsCpu last empty n
    isTokenIds := matMovePrefix b.isTokenIds last empty n
    reqPromptEmbeds := dictMove b.reqPromptEmbeds last empty
    numTokensNoSpec := colMove b.numTokensNoSpec last empty
    numPromptTokens := colMove b.numPromptTokens last empty
    replayssmDecodeBase :=
      if cfg.useReplayssm then colMove b.replayssmDecodeBase last empty else b.replayssmDecodeBase
    numComputedTokensCpu := colMove b.numComputedTokensCpu last empty
    blockTables := b.blockTables.map (BlockTable.moveRow last empty)
    requestLoraMapping := colMove b.requestLoraMapping last empty }

def moveDown (b : InputBatch) (reqId : BatchReqId) (last empty : ℕ) : InputBatch :=
  let b := moveCommon cfg b reqId last empty
  if cfg.isPoolingModel then b else b.moveSampling last empty

/-- The loop of `condense`. Each round pops a removed row, so as many rounds as there are removed
rows are enough; `none` is the assertion that the row moved down is occupied. -/
def condenseLoop (cfg : BatchConfig) : ℕ → InputBatch → ℕ → Option InputBatch
  | 0, b, _ => some b
  | fuel+1, b, last =>
    match b.peekRemoved with
    | none => some b
    | some empty =>
      let last := skipRemoved b.removed last
      if last ≤ empty then some b
      else
        match b.reqIds[last]? with
        | some (some reqId) =>
          condenseLoop cfg fuel (moveDown cfg b.popRemoved reqId last empty) (last-1)
        | _ => none

def trim (n : ℕ) : InputBatch :=
  { b with
    reqIds := b.reqIds.take n
    reqOutputTokenIds := b.reqOutputTokenIds.take n
    specTokenIds := b.specTokenIds.take n }

def condense (b : InputBatch) : Option InputBatch :=
  let numReqs := b.numReqs
  let b := b.ensureRemovedSorted
  if b.removed = [] then some b
  else if numReqs = 0 then some (b.trim 0)
  else
    let last := numReqs+b.removed.length-1
    (condenseLoop cfg b.removed.length b last).map (trim · numReqs)

def refreshMetadata : InputBatch :=
  { b with removed := [], isRemovedSorted := false }

end InputBatch

end MetaZenith
