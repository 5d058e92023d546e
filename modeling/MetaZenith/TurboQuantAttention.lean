import MetaZenith.RangeSplit

/-! Routing of `TurboQuantAttentionImpl.forward`: which K/V entries each query
token of a batch is scored against. -/

namespace MetaZenith.TurboQuant
open RangeSplit

/-- One K/V entry a query token can be scored against: a cached position read
through a block-table row, or a raw K/V row of the current batch. -/
inductive KVEntry
  | cached (row : ℕ) (pos : ℤ)
  | fresh (token : ℕ)
deriving DecidableEq, Repr

@[ext]
structure TurboQuantMetadata where
  seqLens : List ℤ
  /-- Each row is named by the request that owns it. -/
  blockTable : List ℕ
  queryStartLoc : List ℕ
  numActualTokens : ℕ
  maxQueryLen : ℕ
  maxSeqLen : ℕ
  isPrefill : Bool
  numDecodes : ℕ := 0
  numDecodeTokens : ℕ := 0
  queryStartLocCpu : Option (List ℕ) := none
  seqLensCpu : Option (List ℤ) := none

structure TurboQuantAttentionImpl where
  hasFlashAttn : Bool
  maxNumKvSplits : ℕ
  /-- The shape, codec and scale checks of `active_splits`, fixed at start-up. -/
  longB4Shape : Bool
  blockSize : ℕ
  /-- Length of `_arange_cache`, or `none` before its first use. -/
  arangeCache : Option ℕ
  splits_pos : 0 < maxNumKvSplits
  blockSize_pos : 0 < blockSize

def continuationDecodeThreshold : ℕ := 128
def headParallelContextThreshold : ℕ := 32768
def longB4NumSplits : ℕ := 28

def decodeRow (S row : ℕ) (seqLen : ℤ) : List KVEntry :=
  (List.range S).flatMap fun i => (part seqLen S i).map (KVEntry.cached row)

def tritonDecodeAttention (S B : ℕ) (blockTable : List ℕ) (seqLens : List ℤ) :
    List (List KVEntry) :=
  (List.zipWith (decodeRow S) blockTable seqLens).take B

variable (impl : TurboQuantAttentionImpl) (m : TurboQuantMetadata)

def activeSplits (B maxSeqLen : ℕ) : ℕ :=
  if longB4NumSplits ≤ impl.maxNumKvSplits ∧ B = 4 ∧
      headParallelContextThreshold ≤ maxSeqLen ∧ impl.longB4Shape then longB4NumSplits
  else impl.maxNumKvSplits

def decodeAttention (B : ℕ) (m : TurboQuantMetadata) : List (List KVEntry) :=
  tritonDecodeAttention (activeSplits impl B m.maxSeqLen) B m.blockTable m.seqLens

def segments (cu : List ℕ) : List (ℕ × ℕ) := cu.zip cu.tail

def slice {α : Type} (l : List α) (a b : ℕ) : List α := (l.take b).drop a

/-- One sequence of a causal `flash_attn_varlen_func` call: the mask is aligned
to the last key. -/
def flashSequence (k : List KVEntry) (sq sk : ℕ × ℕ) : List (List KVEntry) :=
  let keys := slice k sk.1 sk.2
  (List.range (sq.2-sq.1)).map fun t : ℕ =>
    keys.take ((t:ℤ)+1+((sk.2-sk.1:ℕ):ℤ)-((sq.2-sq.1:ℕ):ℤ)).toNat

def flashAttnVarlen (k : List KVEntry) (cuSeqlensQ cuSeqlensK : List ℕ) :
    List (List KVEntry) :=
  ((segments cuSeqlensQ).zip (segments cuSeqlensK)).flatMap fun s => flashSequence k s.1 s.2

def sdpa (k : List KVEntry) (qLen : ℕ) (mask : ℕ → ℕ → Bool) : List (List KVEntry) :=
  (List.range qLen).map fun p => (k.zipIdx.filter fun e => mask p e.2).map Prod.fst

def continuationPrefill (keyChunk : List KVEntry) (row : ℕ) (qLen cachedLen seqLen : ℕ) :
    List (List KVEntry) :=
  let allocLen := (cachedLen+impl.blockSize-1)/impl.blockSize*impl.blockSize
  let kCached := (interval 0 allocLen).map (KVEntry.cached row)
  let kFull := kCached.take cachedLen ++ keyChunk
  if impl.hasFlashAttn then
    flashAttnVarlen kFull [0,qLen] [0,seqLen]
  else
    sdpa kFull qLen fun p j => decide (j ≤ p+cachedLen)

def prefillRequest (maxSeqLen : ℕ) (kSeq : List KVEntry) (row qLen seqLen : ℕ) :
    List (List KVEntry) :=
  if qLen = seqLen then
    if impl.hasFlashAttn then
      flashAttnVarlen kSeq [0,qLen] [0,qLen]
    else
      sdpa kSeq qLen fun p j => decide (j ≤ p)
  else
    let cachedLen := seqLen-qLen
    if qLen ≤ continuationDecodeThreshold then
      -- the cached arange is rebuilt when it is missing or too short
      let cacheLen := if (impl.arangeCache.getD 0) ≤ maxSeqLen then maxSeqLen+1
        else impl.arangeCache.getD 0
      let synthSeqLens := slice (interval 0 cacheLen) (cachedLen+1) (seqLen+1)
      tritonDecodeAttention 32 qLen (List.replicate qLen row) synthSeqLens
    else
      continuationPrefill impl kSeq row qLen cachedLen seqLen

def setSlice {α : Type} (output : List α) (a b : ℕ) (out : List α) : List α :=
  output.take a ++ out ++ output.drop b

def prefillLoop (impl : TurboQuantAttentionImpl) (maxSeqLen : ℕ) (k : List KVEntry) :
    List ((ℕ × ℕ) × ℤ × ℕ) → List (List KVEntry) → List (List KVEntry)
  | [], output => output
  | ((qStart,qEnd),seqLen,row) :: rest, output =>
    if qEnd-qStart = 0 then prefillLoop impl maxSeqLen k rest output
    else
      prefillLoop impl maxSeqLen k rest (setSlice output qStart qEnd
        (prefillRequest impl maxSeqLen (slice k qStart qEnd) row (qEnd-qStart) seqLen.toNat))

def prefillAttention (N : ℕ) (k : List KVEntry) (m : TurboQuantMetadata) : List (List KVEntry) :=
  if impl.hasFlashAttn ∧ m.maxQueryLen = m.maxSeqLen then
    flashAttnVarlen k m.queryStartLoc m.queryStartLoc
  else
    let qsl := m.queryStartLocCpu.getD m.queryStartLoc
    let seqLensList := m.seqLensCpu.getD m.seqLens
    prefillLoop impl m.maxSeqLen k ((segments qsl).zip (seqLensList.zip m.blockTable))
      (List.replicate N [])

def verifyRoute : Bool :=
  let k1 := m.maxQueryLen
  let N := m.numActualTokens
  m.isPrefill && m.numDecodes == 0 && decide (1 < k1) && decide (k1 ≤ 16) &&
    decide (k1 < m.maxSeqLen) && decide (0 < N) && N%k1 == 0 &&
    m.queryStartLoc.length == N/k1+1

def synthMeta : TurboQuantMetadata :=
  let k1 := m.maxQueryLen
  let b := m.numActualTokens/k1
  { seqLens := (m.seqLens.take b).flatMap fun s =>
      (List.range k1).map fun o : ℕ => s-(k1:ℤ)+1+(o:ℤ)
    blockTable := (m.blockTable.take b).flatMap (List.replicate k1)
    queryStartLoc := m.queryStartLoc
    numActualTokens := m.numActualTokens
    maxQueryLen := 1
    maxSeqLen := m.maxSeqLen
    isPrefill := false }

def decodeMeta : TurboQuantMetadata :=
  { seqLens := m.seqLens.take m.numDecodes
    blockTable := m.blockTable.take m.numDecodes
    queryStartLoc := m.queryStartLoc.take (m.numDecodes+1)
    numActualTokens := m.numDecodeTokens
    maxQueryLen := 1
    maxSeqLen := m.maxSeqLen
    isPrefill := false }

def listMax (l : List ℕ) : ℕ := l.foldr max 0

def prefillMeta : TurboQuantMetadata :=
  { seqLens := m.seqLens.drop m.numDecodes
    blockTable := m.blockTable.drop m.numDecodes
    queryStartLoc := (m.queryStartLoc.drop m.numDecodes).map (·-m.numDecodeTokens)
    numActualTokens := m.numActualTokens-m.numDecodeTokens
    maxQueryLen := m.maxQueryLen
    maxSeqLen := match m.seqLensCpu with
      | some lens => listMax ((lens.drop m.numDecodes).map Int.toNat)
      | none => m.maxSeqLen
    isPrefill := true
    queryStartLocCpu := m.queryStartLocCpu.map fun qsl =>
      (qsl.drop m.numDecodes).map (·-m.numDecodeTokens)
    seqLensCpu := m.seqLensCpu.map (List.drop m.numDecodes) }

/-- For every query token of the batch, the K/V entries `forward` scores it against. -/
def forward : List (List KVEntry) :=
  let N := m.numActualTokens
  let k := (List.range N).map KVEntry.fresh
  if N = 0 then []
  else if verifyRoute m then
    decodeAttention impl N (synthMeta m)
  else if !m.isPrefill then
    decodeAttention impl N m
  else if m.numDecodes = 0 then
    prefillAttention impl N k m
  else
    let dt := m.numDecodeTokens
    decodeAttention impl dt (decodeMeta m) ++
      prefillAttention impl (N-dt) (k.drop dt) (prefillMeta m)

structure CommonAttentionMetadata where
  queryStartLoc : List ℕ
  seqLens : List ℤ
  seqLensCpuUpperBound : List ℤ
  numReqs : ℕ
  numActualTokens : ℕ
  maxQueryLen : ℕ
  maxSeqLen : ℕ
  blockTable : List ℕ

def splitDecodesAndPrefills (cam : CommonAttentionMetadata) (decodeThreshold : ℕ) :
    ℕ × ℕ × ℕ × ℕ :=
  if cam.maxQueryLen ≤ decodeThreshold then (cam.numReqs,0,cam.numActualTokens,0)
  else
    let queryLens := (segments cam.queryStartLoc).map fun s => s.2-s.1
    if decodeThreshold < queryLens.headD 0 then (0,cam.numReqs,0,cam.numActualTokens)
    else if !queryLens.any (decodeThreshold < ·) then (cam.numReqs,0,cam.numActualTokens,0)
    else
      let firstPrefill := queryLens.findIdx (decodeThreshold < ·)
      let numDecodeTokens := cam.queryStartLoc.getD firstPrefill 0
      (firstPrefill,cam.numReqs-firstPrefill,numDecodeTokens,cam.numActualTokens-numDecodeTokens)

def build (cam : CommonAttentionMetadata) : TurboQuantMetadata :=
  let split := splitDecodesAndPrefills cam 1
  { seqLens := cam.seqLens
    blockTable := cam.blockTable
    queryStartLoc := cam.queryStartLoc
    numActualTokens := cam.numActualTokens
    maxQueryLen := cam.maxQueryLen
    maxSeqLen := cam.maxSeqLen
    isPrefill := decide (1 < cam.maxQueryLen)
    numDecodes := split.1
    numDecodeTokens := split.2.2.1
    queryStartLocCpu := some cam.queryStartLoc
    seqLensCpu := some cam.seqLensCpuUpperBound }

/-- One scheduled request: its query tokens, its true length on the device and
the length the CPU assumes before the accepted counts are known. -/
structure BatchRequest where
  queryLen : ℕ
  seqLen : ℕ
  seqLenCpu : ℕ
  verification : Bool
deriving DecidableEq, Repr

def cumulative (a : ℕ) : List ℕ → List ℕ
  | [] => [a]
  | q :: qs => a :: cumulative (a+q) qs

def queryLens (reqs : List BatchRequest) : List ℕ := reqs.map BatchRequest.queryLen

/-- The common metadata of an unpadded batch; `max_seq_len` is optimistic. -/
def buildAttentionMetadata (reqs : List BatchRequest) : CommonAttentionMetadata :=
  { queryStartLoc := cumulative 0 (queryLens reqs)
    seqLens := reqs.map fun r => (r.seqLen:ℤ)
    seqLensCpuUpperBound := reqs.map fun r => (r.seqLenCpu:ℤ)
    numReqs := reqs.length
    numActualTokens := (queryLens reqs).sum
    maxQueryLen := listMax (queryLens reqs)
    maxSeqLen := listMax (reqs.map BatchRequest.seqLenCpu)
    blockTable := List.range' 0 reqs.length }

/-- A batch as the runner lays it out under async speculative decoding with `K` drafts. -/
structure Batch (K : ℕ) where
  reqs : List BatchRequest
  query_pos : ∀ r ∈ reqs, 0 < r.queryLen
  query_le : ∀ r ∈ reqs, r.queryLen ≤ r.seqLen
  le_cpu : ∀ r ∈ reqs, r.seqLen ≤ r.seqLenCpu
  cpu_le : ∀ r ∈ reqs, r.seqLenCpu ≤ r.seqLen+if r.verification then K else 0
  decodes_first : reqs.Pairwise fun a b => b.queryLen = 1 → a.queryLen = 1

def Batch.metadata {K : ℕ} (b : Batch K) : TurboQuantMetadata :=
  build (buildAttentionMetadata b.reqs)

end MetaZenith.TurboQuant
