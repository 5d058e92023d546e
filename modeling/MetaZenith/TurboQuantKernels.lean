import MetaZenith.RangeSplit
import MetaZenith.TilePipeline

/-! The stage-1 CUDA kernels, reduced to what they fold: for every partial
result the (physical block, page offset) slots in the order they are consumed. -/

namespace MetaZenith.TurboQuant

open List RangeSplit TilePipeline

abbrev Slot := ℤ × ℤ

abbrev Cell := Option Slot

abbrev Table := ℤ → ℤ

abbrev PartialIndex := ℕ × ℕ × ℕ

abbrev Trace := List (Cell × Option Cell)

def pageOf (position : ℤ) : ℤ := position.tdiv 16

def loadCell (table : Table) (rowBase position limit : ℤ) : Cell :=
  if position < limit then some (table (rowBase+pageOf position),position-pageOf position*16)
  else none

def numTiles (tokens : ℤ) (T : ℕ) : ℕ := ((tokens+T-1).tdiv T).toNat

section HeadParallel

variable (S : ℕ) (table : Table) (tableStride : ℕ) (seqLens : ℕ → ℤ)

/-- One CTA of `turboquant_head_parallel_stage1_pipeline_kernel<8, S>`: eight loader warps,
one token each. Every pair of a tile is folded; one that is masked twice changes nothing. -/
def headParallelTrace (shared : ℕ → ℕ → Cell) (batch split : ℕ) : Trace :=
  let seqLen := seqLens batch
  let splitStart := partStart seqLen S split
  let splitEnd := partEnd seqLen S split
  let splitTokens := partSize seqLen S split
  let tiles := numTiles splitTokens 8
  let cell (i t : ℕ) := loadCell table (batch*tableStride) (splitStart+((i*8:ℕ):ℤ)+(t:ℤ)) splitEnd
  let load (i : ℕ) (buf : ℕ → Cell) := loadCells (range 8) (cell i) buf
  let first := if 0 < tiles then Function.update shared 0 (load 0 (shared 0)) else shared
  unmask (doubleBuffered load (fun i buf s => s ++ maskedTile 8 splitTokens.toNat i buf)
    tiles 0 first [])

def headParallelKernel (boundaryOnly : Bool) (mismatch : ℤ) (B : ℕ) (shared : ℕ → ℕ → Cell) :
    List (PartialIndex × Trace) :=
  if boundaryOnly ∧ mismatch = 0 then []
  else
    (range B ×ˢ range 4 ×ˢ range S ×ˢ range 3 ×ˢ range 2).map
      fun (batch,kvHead,split,warp,h) =>
        ((batch,kvHead*6+(warp*2+h),split),
          headParallelTrace S table tableStride seqLens shared batch split)

end HeadParallel

section Shared4

variable (S : ℕ) (table : Table) (tableStride : ℕ) (seq : ℕ → ℤ)

def loadSplitEnd (S : ℕ) (seq : ℕ → ℤ) (rows split : ℕ) : ℤ :=
  (range rows).foldl (fun e r => max e (partEnd (seq r) S split)) 0

def shared4Start (split : ℕ) : ℤ := ceilTDiv (seq 0) S*split

def shared4Tiles (split : ℕ) : ℕ :=
  numTiles (max (loadSplitEnd S seq 4 split-shared4Start S seq split) 0) 12

/-- One CTA of `turboquant_shared4_grid3_pipeline_kernel<12, 8, 2, 3, S>`, as the warp of
`row` sees it. All rows are loaded through the table of row 0. -/
def shared4Trace (shared : ℕ → ℕ → Cell) (row split : ℕ) : Trace :=
  let rowSplitTokens := partSize (seq row) S split
  let tiles := shared4Tiles S seq split
  let cell (i t : ℕ) := loadCell table 0 (shared4Start S seq split+((i*12:ℕ):ℤ)+(t:ℤ))
    (loadSplitEnd S seq 4 split)
  let load (i : ℕ) (buf : ℕ → Cell) := loadCells (stridedTokens 8 12) (cell i) buf
  let first := if 0 < tiles then Function.update shared 0 (load 0 (shared 0)) else shared
  doubleBuffered load (fun i buf s => s ++ tilePairs 12 rowSplitTokens.toNat i buf) tiles 0 first []

def shared4Reads (split : ℕ) : List ℤ :=
  (range (shared4Tiles S seq split)).flatMap fun i =>
    ((stridedTokens 8 12).map fun t : ℕ => shared4Start S seq split+((i*12:ℕ):ℤ)+(t:ℤ)).filterMap
      fun position => if position < loadSplitEnd S seq 4 split then some (pageOf position) else none

def shared4Kernel (mismatch : ℤ) (shared : ℕ → ℕ → Cell) : List (PartialIndex × Trace) :=
  if mismatch ≠ 0 then []
  else
    (range 3 ×ˢ range 4 ×ˢ range S ×ˢ range 4 ×ˢ range 2).map
      fun (headGroup,kvHead,split,row,h) =>
        ((row,kvHead*6+(headGroup*2+h),split),shared4Trace S table seq shared row split)

def maxSeq (seq : ℕ → ℤ) : ℤ := (range 4).foldl (fun m r => max m (seq r)) 0

def activePages : ℤ := (maxSeq seq+16-1).tdiv 16

/-- One thread of `turboquant_b4_table_identity_proof_kernel<S>`: whether it raises the flag. -/
def proofThread (block thread : ℕ) : Bool :=
  let checkedPages := (min (activePages seq) tableStride).toNat
  (thread == 0 && block == 0 && [1,2,3].any fun row => ceilTDiv (seq row) S != ceilTDiv (seq 0) S) ||
    (thread == 0 && block == 0 && decide ((tableStride:ℤ) < activePages seq)) ||
    (gridStride (256*4) checkedPages checkedPages (block*256+thread)).any fun page =>
      [1,2,3].any fun row => table (((row*tableStride+page:ℕ):ℤ)) != table (page:ℤ)

def tableIdentityProof : ℤ :=
  if (range 4).any fun block => (range 256).any fun thread =>
    proofThread S table tableStride seq block thread then 1 else 0

end Shared4

section SharedRows

variable (kRows T : ℕ) (tokens : List ℕ) (S : ℕ) (table : Table) (tableStride : ℕ) (seqLens : ℕ → ℤ)

def groupSeq (group : ℕ) (r : ℕ) : ℤ := seqLens (group*kRows+r)

def sharedRowsStart (group split : ℕ) : ℤ := ceilTDiv (seqLens (group*kRows)) S*split

def sharedRowsTiles (group split : ℕ) : ℕ :=
  numTiles ((range kRows).foldl
    (fun m r => max m (partSize (groupSeq kRows seqLens group r) S split)) 0) T

/-- One CTA of a kernel whose rows all go through the table of the group's first row: each tile
of `T` positions below `loadEnd` is loaded once, by the loaders of `tokens`, for all rows. -/
def sharedRowsTrace (loadEnd : ℤ) (smem : ℕ → Cell) (group row split : ℕ) : Trace :=
  let rowSplitTokens := partSize (groupSeq kRows seqLens group row) S split
  let cell (i t : ℕ) := loadCell table ((group*kRows:ℕ)*tableStride)
    (sharedRowsStart kRows S seqLens group split+((i*T:ℕ):ℤ)+(t:ℤ)) loadEnd
  let load (i : ℕ) (buf : ℕ → Cell) := loadCells tokens (cell i) buf
  singleBuffered load (fun i buf s => s ++ tilePairs T rowSplitTokens.toNat i buf)
    (sharedRowsTiles kRows T S seqLens group split) 0 smem []

def sharedRowsReads (loadEnd : ℤ) (group split : ℕ) : List ℤ :=
  (range (sharedRowsTiles kRows T S seqLens group split)).flatMap fun i =>
    (tokens.map fun t : ℕ => sharedRowsStart kRows S seqLens group split+((i*T:ℕ):ℤ)+(t:ℤ)).filterMap
      fun position => if position < loadEnd then some (pageOf position) else none

end SharedRows

def pairLoadEnd (seqLens : ℕ → ℤ) (group split : ℕ) : ℤ :=
  let loadStart := sharedRowsStart 2 32 seqLens group split
  (range 2).foldl (fun e r =>
    max e (min (loadStart+ceilTDiv (seqLens (group*2)) 32) (groupSeq 2 seqLens group r))) 0

/-- `turboquant_shared_rows_stage1_kernel<2>`: warp `r` loads token `r` of a two-token tile. -/
def sharedPairTrace (table : Table) (tableStride : ℕ) (seqLens : ℕ → ℤ) (smem : ℕ → Cell)
    (group row split : ℕ) : Trace :=
  sharedRowsTrace 2 2 (range 2) 32 table tableStride seqLens (pairLoadEnd seqLens group split)
    smem group row split

def sharedPairReads (seqLens : ℕ → ℤ) (group split : ℕ) : List ℤ :=
  sharedRowsReads 2 2 (range 2) 32 seqLens (pairLoadEnd seqLens group split) group split

/-- `turboquant_shared_rows_tile20_stage1_kernel`: four warps load a tile of twenty tokens. -/
def tile20Trace (table : Table) (tableStride : ℕ) (seqLens : ℕ → ℤ) (smem : ℕ → Cell)
    (group row split : ℕ) : Trace :=
  sharedRowsTrace 4 20 (stridedTokens 4 20) 32 table tableStride seqLens
    (loadSplitEnd 32 (groupSeq 4 seqLens group) 4 split) smem group row split

def tile20Reads (seqLens : ℕ → ℤ) (group split : ℕ) : List ℤ :=
  sharedRowsReads 4 20 (stridedTokens 4 20) 32 seqLens
    (loadSplitEnd 32 (groupSeq 4 seqLens group) 4 split) group split

def sharedRowsGrid (kRows B : ℕ) (trace : ℕ → ℕ → ℕ → Trace) : List (PartialIndex × Trace) :=
  (range (B/kRows) ×ˢ range 4 ×ˢ range 32 ×ˢ range kRows ×ˢ range 6).map
    fun (group,kvHead,split,row,head) =>
      ((group*kRows+row,kvHead*6+head,split),trace group row split)

def sharedRowsStage1 (B : ℕ) (table : Table) (tableStride : ℕ) (seqLens : ℕ → ℤ)
    (smem : ℕ → Cell) : List (PartialIndex × Trace) :=
  if B = 8 then sharedRowsGrid 2 B (sharedPairTrace table tableStride seqLens smem)
  else sharedRowsGrid 4 B (tile20Trace table tableStride seqLens smem)

def sharedRowsStage1Reads (B : ℕ) (seqLens : ℕ → ℤ) (batch split : ℕ) : List ℤ :=
  if B = 8 then sharedPairReads seqLens (batch/2) split else tile20Reads seqLens (batch/4) split

end MetaZenith.TurboQuant
