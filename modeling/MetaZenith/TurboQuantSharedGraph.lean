import MetaZenith.TurboQuantAttention
import MetaZenith.TurboQuantComplement

/-! The guard of the shared-row graphs, evaluated on optimistic lengths, against the
kernels that run on the true ones. -/

namespace MetaZenith.TurboQuant

open List Option List

variable {group r row : ℕ} {page : ℤ}
open RangeSplit TilePipeline

def cdiv (a : ℤ) (b : ℕ) : ℤ := -(a.fdiv (-(b:ℤ)))

structure SharedGraphRunner where
  fullCudagraphMaxSeqLenBuckets : Option (List ℕ)
  uniformDecodeQueryLen : ℕ
  numSpecTokens : ℕ

/-- `_can_use_tq_spec_decode_shared_graph`; `numDraftTokens` is the list inside
`spec_decode_metadata`. -/
def canUseTqSpecDecodeSharedGraph (runner : SharedGraphRunner) (numReqs numTokens : ℕ)
    (numScheduledTokens : List ℕ) (numDraftTokens : Option (List ℕ))
    (optimisticSeqLensCpu : ℕ → ℤ) : Bool :=
  let queryLen := runner.uniformDecodeQueryLen
  let K := runner.numSpecTokens
  if runner.fullCudagraphMaxSeqLenBuckets.isNone || queryLen != 4 || K != 3 ||
      !([2,3,4].contains numReqs) || numTokens != numReqs*queryLen || numDraftTokens.isNone ||
      (numDraftTokens.getD []).any (· != K) || numScheduledTokens.any (· != queryLen) then false
  else
    let upperBounds := (range numReqs).map optimisticSeqLensCpu
    if upperBounds.any fun upperBound => (range (K+1)).any fun correction : ℕ =>
        let actualEnd := upperBound-(correction:ℤ)
        let firstRow := actualEnd-(K:ℤ)
        cdiv firstRow 32 != cdiv actualEnd 32 then false
    else if numReqs = 2 then
      let minUniqueTokens := (upperBounds.map fun value => max (value-(K:ℤ)) 0).sum
      !decide (minUniqueTokens*4*268 < 90*1024*1024)
    else true

structure VerifyBatch where
  numReqs : ℕ
  seqLens : ℕ → ℤ
  blockTable : ℕ → ℕ → ℤ
  tableStride : ℕ
  maxSeqLen : ℕ
  fits : ∀ i < numReqs, seqLens i ≤ 16*tableStride

namespace VerifyBatch

variable (b : VerifyBatch)

def paddedLen (i : ℕ) : ℤ := if i < b.numReqs then b.seqLens i else 0

def metadata (B : ℕ) : TurboQuantMetadata where
  seqLens := (range (B/4)).map b.paddedLen
  blockTable := range (B/4)
  queryStartLoc := (range (B/4+1)).map (4*·)
  numActualTokens := B
  maxQueryLen := 4
  maxSeqLen := b.maxSeqLen
  isPrefill := true

def synthLens (B r : ℕ) : ℤ := (synthMeta (b.metadata B)).seqLens.getD r 0

def synthTable (B : ℕ) : Table := fun x =>
  let i := (synthMeta (b.metadata B)).blockTable.getD (x/b.tableStride).toNat 0
  if i < b.numReqs then b.blockTable i (x%b.tableStride).toNat else 0

/-- What stage 1 is to fold for row `r`: the positions of the split, in order, through the block
table of the request the row belongs to. -/
def requestFold (r split : ℕ) : Trace :=
  pairUp ((part (b.paddedLen (r/4)-3+(r%4:ℕ)) 32 split).map fun position =>
    some (b.blockTable (r/4) (position/16).toNat,position%16))

end VerifyBatch

section Group

variable {kRows T S : ℕ} {tokens : List ℕ} {table : Table} {tableStride : ℕ} {seq : ℕ → ℤ}
  {group split : ℕ} {loadEnd : ℤ}

/-- A group that folds through one table and one split length folds each row's own positions. -/
theorem sharedRowsTrace_eq (hS : 0 < S) (hT : 2 ∣ T) (hT0 : 0 < T) (htokens : ∀ t < T, t ∈ tokens)
    (hr : row < kRows)
    (hcommon : ceilTDiv (groupSeq kRows seq group row) S = ceilTDiv (seq (group*kRows)) S)
    (hend : partEnd (groupSeq kRows seq group row) S split ≤ loadEnd)
    (htable : ∀ page : ℤ, 0 ≤ page → 16*page < groupSeq kRows seq group row →
      table ((group*kRows:ℕ)*tableStride+page) = table ((group*kRows+row:ℕ)*tableStride+page))
    (smem : ℕ → Cell) :
    sharedRowsTrace kRows T tokens S table tableStride seq loadEnd smem group row split =
      rowFold S table tableStride seq (group*kRows+row) split := by
  simp only [groupSeq] at hcommon hend htable
  have hstart : partStart (seq (group*kRows+row)) S split =
      sharedRowsStart kRows S seq group split := by
    rw [partStart, sharedRowsStart, hcommon]
  let c (t : ℕ) := loadCell table ((group*kRows:ℕ)*tableStride)
    (sharedRowsStart kRows S seq group split+t) loadEnd
  have hcells : pairUp ((range (partSize (seq (group*kRows+row)) S split).toNat).map c) =
      rowFold S table tableStride seq (group*kRows+row) split := by
    apply pairUp_cells_eq_rowFold
    intro t ht
    obtain ⟨_,h0,hlt,hle⟩ := part_bounds hS ht
    rw [hstart] at h0 hlt ⊢
    exact loadCell_eq_rowSlot (by omega) (by omega) (htable _ (by omega) (by omega))
  have hload (i : ℕ) (buf : ℕ → Cell) (t : ℕ) (ht : t < T) :
      loadCells tokens (fun t : ℕ => loadCell table ((group*kRows:ℕ)*tableStride)
        (sharedRowsStart kRows S seq group split+((i*T:ℕ):ℤ)+(t:ℤ)) loadEnd) buf t = c (i*T+t) := by
    rw [loadCells_of_mem _ _ (htokens t ht)]
    simp only [c]
    push_cast
    rw [add_assoc]
  have htiles : (partSize (seq (group*kRows+row)) S split).toNat ≤
      sharedRowsTiles kRows T S seq group split*T := by
    have hmax := foldl_max_le_iff.mp (le_refl ((range kRows).foldl
      (fun m r => max m (partSize (groupSeq kRows seq group r) S split)) 0))
    have hcover := le_numTiles_mul hT0 hmax.1
    have hrow : partSize (seq (group*kRows+row)) S split ≤ _ :=
      hmax.2 row (mem_range.mpr hr)
    rw [← sharedRowsTiles] at hcover
    omega
  rw [← hcells]
  exact singleBuffered_pairs hT htiles hload smem

theorem sharedRowsTiles_of_nonpos (hS : 0 < S) (hT0 : 0 < T)
    (h : ∀ r < kRows, groupSeq kRows seq group r ≤ 0) :
    sharedRowsTiles kRows T S seq group split = 0 := by
  have hmax : (range kRows).foldl
      (fun m r => max m (partSize (groupSeq kRows seq group r) S split)) 0 ≤ 0 :=
    foldl_max_le_iff.mpr ⟨le_rfl,fun r hr =>
      (partSize_of_nonpos hS (h r (mem_range.mp hr)) split).le⟩
  have hmin := (foldl_max_le_iff.mp (le_refl ((range kRows).foldl
      (fun m r => max m (partSize (groupSeq kRows seq group r) S split)) 0))).1
  rw [sharedRowsTiles, le_antisymm hmax hmin, numTiles, zero_add,
    Int.tdiv_eq_zero_of_lt (by omega) (by omega), Int.toNat_zero]

theorem sharedRowsTrace_of_nonpos (hS : 0 < S) (hT0 : 0 < T)
    (h : ∀ r < kRows, groupSeq kRows seq group r ≤ 0) (smem : ℕ → Cell) (row : ℕ) :
    sharedRowsTrace kRows T tokens S table tableStride seq loadEnd smem group row split = [] := by
  simp [sharedRowsTrace, sharedRowsTiles_of_nonpos hS hT0 h, singleBuffered]

theorem sharedRowsReads_of_nonpos (hS : 0 < S) (hT0 : 0 < T)
    (h : ∀ r < kRows, groupSeq kRows seq group r ≤ 0) :
    sharedRowsReads kRows T tokens S seq loadEnd group split = [] := by
  rw [sharedRowsReads, sharedRowsTiles_of_nonpos hS hT0 h]
  rfl

theorem sharedRowsReads_bounds (hfirst : -(S:ℤ) < seq (group*kRows))
    (hp : page ∈ sharedRowsReads kRows T tokens S seq loadEnd group split) :
    0 ≤ page ∧ 16*page < loadEnd := by
  obtain ⟨i,_,hi⟩ := mem_flatMap.mp hp
  obtain ⟨position,hpos,hsome⟩ := mem_filterMap.mp hi
  obtain ⟨t,_,rfl⟩ := mem_map.mp hpos
  split_ifs at hsome with hlt
  obtain rfl : pageOf _ = page := Option.some.inj hsome
  have h0 : 0 ≤ sharedRowsStart kRows S seq group split :=
    mul_nonneg (ceilTDiv_nonneg hfirst) (by omega)
  rw [pageOf, Int.tdiv_eq_ediv_of_nonneg (by omega)]
  omega

end Group

theorem cdiv_thirtyTwo (a : ℤ) : cdiv a 32 = (a+31)/32 := by
  have hneg : a.fdiv (-((32:ℕ):ℤ)) = (-a).fdiv 32 := by
    rw [← Int.neg_fdiv_neg (-a) 32, neg_neg]
    rfl
  rw [cdiv, hneg, Int.fdiv_eq_ediv_of_nonneg _ (by decide)]
  omega

theorem guard_windows {runner : SharedGraphRunner} {numReqs numTokens : ℕ}
    {numScheduledTokens : List ℕ} {numDraftTokens : Option (List ℕ)} {u : ℕ → ℤ}
    (h : canUseTqSpecDecodeSharedGraph runner numReqs numTokens numScheduledTokens numDraftTokens
      u = true) {i : ℕ} (hi : i < numReqs) {s : ℤ} (hlo : u i-3 ≤ s) (hhi : s ≤ u i) :
    (s-3+31)/32 = (s+31)/32 := by
  have hK : runner.numSpecTokens = 3 := by
    rw [canUseTqSpecDecodeSharedGraph] at h
    split_ifs at h with hshape <;> simp_all
  rw [canUseTqSpecDecodeSharedGraph] at h
  simp only at h
  split at h
  · cases h
  split at h
  · cases h
  rename_i hwindow
  rw [Bool.not_eq_true, List.any_eq_false] at hwindow
  have hcorr := hwindow (u i) (List.mem_map_of_mem (List.mem_range.mpr hi))
  rw [Bool.not_eq_true, List.any_eq_false] at hcorr
  -- the true length is the upper bound after some correction of at most three
  have hs := hcorr (u i-s).toNat (mem_range.mpr (by omega))
  rw [bne_iff_ne, not_not, hK, Int.toNat_of_nonneg (by omega), cdiv_thirtyTwo, cdiv_thirtyTwo] at hs
  omega

theorem getD_flatMap_const {α β : Type} {f : α → List β} {k : ℕ} (hf : ∀ a, (f a).length = k)
    (l : List α) (d : α) (e : β) {i j : ℕ} (hi : i < l.length) (hj : j < k) :
    (l.flatMap f).getD (k*i+j) e = (f (l.getD i d)).getD j e := by
  induction l generalizing i with
  | nil => simp at hi
  | cons a l ih =>
    rw [flatMap_cons]
    cases i with
    | zero =>
      rw [Nat.mul_zero, Nat.zero_add, getD_append _ _ _ _ (by rw [hf]; exact hj)]
      rfl
    | succ i =>
      have hk : k*(i+1)+j = (f a).length+(k*i+j) := by rw [hf]; ring
      rw [hk, getD_append_right _ _ _ _ (by omega), Nat.add_sub_cancel_left, ih (by simpa using hi)]
      rfl

namespace VerifyBatch

variable (b : VerifyBatch) {B : ℕ}

theorem synthLens_eq (hB : 4 ∣ B) (hr : r < B) : b.synthLens B r = b.paddedLen (r/4)-3+(r%4:ℕ) := by
  have hi : r/4 < B/4 := by omega
  have hr4 : r = 4*(r/4)+r%4 := by omega
  have hj : r%4 < 4 := Nat.mod_lt _ (by decide)
  have hget : ((range (B/4)).map b.paddedLen).getD (r/4) 0 = b.paddedLen (r/4) := by
    simp [getD_eq_getElem?_getD, hi]
  rw [synthLens, synthMeta, metadata]
  simp only
  rw [take_of_length_le (by simp)]
  conv_lhs => rw [hr4]
  rw [getD_flatMap_const (by simp) _ 0 0 (by simpa using hi) hj, hget]
  simp only [getD_eq_getElem?_getD, getElem?_map, getElem?_range hj, map_some, getD_some]
  push_cast
  ring

theorem synthTable_eq (hB : 4 ∣ B) (hr : r < B) (h0 : 0 ≤ page) (hp : page < b.tableStride) :
    b.synthTable B (r*b.tableStride+page) =
      if r/4 < b.numReqs then b.blockTable (r/4) page.toNat else 0 := by
  have hi : r/4 < B/4 := by omega
  have hr4 : r = 4*(r/4)+r%4 := by omega
  have hrow : ((r*b.tableStride+page)/b.tableStride).toNat = r := by
    rw [Int.mul_add_ediv_right _ _ (by omega), Int.ediv_eq_zero_of_lt h0 hp]
    omega
  have hpage : (r*b.tableStride+page)%b.tableStride = page := by
    rw [Int.mul_add_emod_self_right, Int.emod_eq_of_lt h0 hp]
  have howner : (synthMeta (b.metadata B)).blockTable.getD r 0 = r/4 := by
    rw [synthMeta, metadata]
    simp only
    rw [take_of_length_le (by simp)]
    conv_lhs => rw [hr4]
    rw [getD_flatMap_const (by simp) _ 0 0 (by simpa using hi) (Nat.mod_lt _ (by decide))]
    simp only [getD_eq_getElem?_getD, getElem?_range hi, getD_some,
      getElem?_replicate_of_lt (Nat.mod_lt r (by decide : 0 < 4))]
  simp only [synthTable, hrow, hpage, howner]

def CommonSplit (b : VerifyBatch) : Prop := ∀ i, (b.paddedLen i-3+31)/32 = (b.paddedLen i+31)/32

theorem commonSplit_of_guard {runner : SharedGraphRunner} {numTokens : ℕ}
    {numScheduledTokens : List ℕ} {numDraftTokens : Option (List ℕ)} {u : ℕ → ℤ}
    (h : canUseTqSpecDecodeSharedGraph runner b.numReqs numTokens numScheduledTokens numDraftTokens
      u = true) (hu : ∀ i < b.numReqs, u i-3 ≤ b.seqLens i ∧ b.seqLens i ≤ u i) : b.CommonSplit := by
  intro i
  rw [paddedLen]
  split_ifs with hi
  · exact guard_windows h hi (hu i hi).1 (hu i hi).2
  · rfl

variable {b}

theorem paddedLen_le (b : VerifyBatch) (i : ℕ) (h : 0 < b.paddedLen i) :
    i < b.numReqs ∧ b.paddedLen i ≤ 16*b.tableStride := by
  by_cases hi : i < b.numReqs
  · rw [paddedLen, if_pos hi]
    exact ⟨hi,b.fits i hi⟩
  · rw [paddedLen, if_neg hi] at h
    omega

theorem CommonSplit.ceilTDiv_eq (hc : b.CommonSplit) (hB : 4 ∣ B) (hr : r < B)
    (hpos : 0 < b.paddedLen (r/4)) : ceilTDiv (b.synthLens B r) 32 = (b.paddedLen (r/4)+31)/32 := by
  have h := hc (r/4)
  rw [synthLens_eq b hB hr, ceilTDiv, Int.tdiv_eq_ediv_of_nonneg (by omega)]
  omega

theorem rowFold_eq_requestFold (hB : 4 ∣ B) (hr : r < B) (split : ℕ) :
    rowFold 32 (b.synthTable B) b.tableStride (b.synthLens B) r split = b.requestFold r split := by
  rw [rowFold, requestFold, ← synthLens_eq b hB hr]
  congr 1
  apply map_congr_left
  intro position hp
  obtain ⟨t,ht,rfl⟩ := mem_map.mp hp
  obtain ⟨hpos,h0,hlt,hle⟩ := part_bounds (by decide) (mem_range.mp ht)
  rw [synthLens_eq b hB hr] at hpos
  have hlen := paddedLen_le b (r/4) (by omega)
  have hrow := synthLens_eq b hB hr
  rw [rowSlot, synthTable_eq b hB hr (by omega) (by omega), if_pos hlen.1]

section Kernels

variable {kRows T : ℕ} {tokens : List ℕ} {group : ℕ} (hB : 4 ∣ B) (hk : kRows = 2 ∨ kRows = 4)
  (hg : group*kRows < B) (hT : 0 < T) {loadEnd : ℤ} {split : ℕ}

include hB hk hg

theorem group_row (hr : r < kRows) : group*kRows+r < B ∧ (group*kRows+r)/4 = group*kRows/4 := by
  rcases hk with rfl | rfl <;> omega

theorem groupSeq_eq (hr : r < kRows) : groupSeq kRows (b.synthLens B) group r =
      b.paddedLen (group*kRows/4)-3+((group*kRows+r)%4:ℕ) := by
  obtain ⟨hlt,howner⟩ := group_row hB hk hg hr
  rw [groupSeq, synthLens_eq b hB hlt, howner]

theorem groupSeq_le (hr : r < kRows) :
    groupSeq kRows (b.synthLens B) group r ≤ b.paddedLen (group*kRows/4) := by
  have h := groupSeq_eq (b := b) hB hk hg hr
  omega

include hT

/-- Without a check on the device a group still folds what each of its rows is to fold. -/
theorem CommonSplit.sharedRowsTrace (hc : b.CommonSplit) (hT2 : 2 ∣ T)
    (htokens : ∀ t < T, t ∈ tokens) (hr : row < kRows) (hend : 0 < b.paddedLen (group*kRows/4) →
      partEnd (groupSeq kRows (b.synthLens B) group row) 32 split ≤ loadEnd) (smem : ℕ → Cell) :
    sharedRowsTrace kRows T tokens 32 (b.synthTable B) b.tableStride (b.synthLens B) loadEnd smem
      group row split = b.requestFold (group*kRows+row) split := by
  obtain ⟨hlt,howner⟩ := group_row hB hk hg hr
  rw [← rowFold_eq_requestFold hB hlt]
  by_cases hpos : 0 < b.paddedLen (group*kRows/4)
  · obtain ⟨hreal,hfits⟩ := paddedLen_le b _ hpos
    have hfirst := group_row hB hk hg (r := 0) (by omega)
    apply sharedRowsTrace_eq (by decide) hT2 hT htokens hr _ (hend hpos)
    · intro page h0 hp
      have hle := groupSeq_le (b := b) hB hk hg hr
      rw [synthTable_eq b hB hg h0 (by omega), synthTable_eq b hB hlt h0 (by omega), howner]
    · rw [groupSeq, hc.ceilTDiv_eq hB hlt (by rwa [howner]), hc.ceilTDiv_eq hB hg hpos, howner]
  · have hnone (r : ℕ) (hr : r < kRows) : groupSeq kRows (b.synthLens B) group r ≤ 0 :=
      (groupSeq_le hB hk hg hr).trans (by omega)
    have hrow : b.synthLens B (group*kRows+row) ≤ 0 := hnone row hr
    rw [sharedRowsTrace_of_nonpos (by decide) hT hnone, rowFold, part,
      partSize_of_nonpos (by decide) hrow]
    rfl

theorem sharedRowsReads_inside
    (hend : 0 < b.paddedLen (group*kRows/4) → loadEnd ≤ b.paddedLen (group*kRows/4))
    (hp : page ∈ sharedRowsReads kRows T tokens 32 (b.synthLens B) loadEnd group split) :
    0 ≤ page ∧ 16*page < b.paddedLen (group*kRows/4) ∧ page < b.tableStride := by
  by_cases hpos : 0 < b.paddedLen (group*kRows/4)
  · obtain ⟨_,hfits⟩ := paddedLen_le b _ hpos
    have hlen := synthLens_eq b hB hg
    obtain ⟨h0,hlt⟩ := sharedRowsReads_bounds (by push_cast; omega) hp
    have hle := hend hpos
    omega
  · rw [sharedRowsReads_of_nonpos (by decide) hT fun r hr =>
      (groupSeq_le (b := b) hB hk hg hr).trans (by omega)] at hp
    simp at hp

end Kernels

theorem CommonSplit.sharedPairTrace (hc : b.CommonSplit) (hB : 4 ∣ B) (hg : group*2 < B)
    (hr : row < 2) (smem : ℕ → Cell) (split : ℕ) :
    sharedPairTrace (b.synthTable B) b.tableStride (b.synthLens B) smem group row split =
      b.requestFold (group*2+row) split := by
  apply hc.sharedRowsTrace hB (.inl rfl) hg (by decide) (by decide) (by simp) hr
  intro hpos
  obtain ⟨hlt,howner⟩ := group_row hB (.inl rfl) hg hr
  -- the kernel cuts the common split, not the row's own one; they are equal
  have hsame : ceilTDiv (groupSeq 2 (b.synthLens B) group row) 32 =
      ceilTDiv (b.synthLens B (group*2)) 32 := by
    rw [groupSeq, hc.ceilTDiv_eq hB hlt (by rwa [howner]), hc.ceilTDiv_eq hB hg hpos, howner]
  have hmax := (foldl_max_le_iff.mp (le_refl (pairLoadEnd (b.synthLens B) group split))).2 row
    (mem_range.mpr hr)
  rwa [partEnd, partStart, hsame]

theorem CommonSplit.tile20Trace (hc : b.CommonSplit) (hB : 4 ∣ B) (hg : group*4 < B)
    (hr : row < 4) (smem : ℕ → Cell) (split : ℕ) :
    tile20Trace (b.synthTable B) b.tableStride (b.synthLens B) smem group row split =
      b.requestFold (group*4+row) split := by
  apply hc.sharedRowsTrace hB (.inr rfl) hg (by decide) (by decide)
    (fun t ht => mem_stridedTokens (by decide) ht) hr
  exact fun _ => partEnd_le_loadSplitEnd 32 (groupSeq 4 (b.synthLens B) group) split hr

theorem pairLoadEnd_le (hB : 4 ∣ B) (hg : group*2 < B) (split : ℕ)
    (hpos : 0 < b.paddedLen (group*2/4)) :
    pairLoadEnd (b.synthLens B) group split ≤ b.paddedLen (group*2/4) :=
  foldl_max_le_iff.mpr ⟨hpos.le,fun _ hr =>
    (min_le_right _ _).trans (groupSeq_le hB (.inl rfl) hg (mem_range.mp hr))⟩

theorem tile20LoadEnd_le (hB : 4 ∣ B) (hg : group*4 < B) (split : ℕ)
    (hpos : 0 < b.paddedLen (group*4/4)) :
    loadSplitEnd 32 (groupSeq 4 (b.synthLens B) group) 4 split ≤ b.paddedLen (group*4/4) :=
  foldl_max_le_iff.mpr ⟨hpos.le,fun _ hr =>
    (min_le_right _ _).trans (groupSeq_le hB (.inr rfl) hg (mem_range.mp hr))⟩

end VerifyBatch

theorem sharedRowsGrid_writes {kRows B : ℕ} (hk : kRows = 2 ∨ kRows = 4) (hB : 4 ∣ B)
    (trace : ℕ → ℕ → ℕ → Trace) {batch head split : ℕ} (hb : batch < B) (hh : head < 24)
    (hs : split < 32) : (sharedRowsGrid kRows B trace).filter (fun w => w.1 = (batch,head,split)) =
      [((batch,head,split),trace (batch/kRows) (batch%kRows) split)] := by
  apply filter_eq_singleton
  · rw [sharedRowsGrid, List.map_map]
    refine List.Nodup.map_on ?_ (List.nodup_range.product (List.nodup_range.product
      (List.nodup_range.product (List.nodup_range.product List.nodup_range))))
    rintro ⟨g,k,s,r,h⟩ hx ⟨g',k',s',r',h'⟩ hy heq
    simp only [mem_product, List.mem_range, Function.comp_apply, Prod.mk.injEq] at hx hy heq ⊢
    rcases hk with rfl | rfl <;> omega
  · rw [sharedRowsGrid, List.mem_map]
    refine ⟨(batch/kRows,head/6,split,batch%kRows,head%6),?_,?_⟩
    · simp only [mem_product, mem_range]
      rcases hk with rfl | rfl <;> omega
    · simp only [Prod.mk.injEq, and_true]
      rcases hk with rfl | rfl <;> omega

/-- Admission on optimistic lengths is sound: whatever the true lengths are within the window,
each row of the padded batch is written once, with what the per-row kernel folds for it, and no
table entry past the last page of the row's request is read. -/
theorem shared_graph_guard_sound {runner : SharedGraphRunner} (b : VerifyBatch) {numTokens : ℕ}
    {numScheduledTokens : List ℕ} {numDraftTokens : Option (List ℕ)} {u : ℕ → ℤ}
    (hguard : canUseTqSpecDecodeSharedGraph runner b.numReqs numTokens numScheduledTokens
      numDraftTokens u = true)
    (hu : ∀ i < b.numReqs, u i-3 ≤ b.seqLens i ∧ b.seqLens i ≤ u i) {B : ℕ}
    (hB : B = 8 ∨ B = 16) (smem : ℕ → Cell) (rowSmem : ℕ → ℕ → Cell) {batch head split : ℕ}
    (hb : batch < B) (hh : head < 24) (hs : split < 32) :
    (sharedRowsStage1 B (b.synthTable B) b.tableStride (b.synthLens B) smem).filter
        (fun w => w.1 = (batch,head,split)) =
      [((batch,head,split),b.requestFold batch split)] ∧
    headParallelTrace 32 (b.synthTable B) b.tableStride (b.synthLens B) rowSmem batch split =
      b.requestFold batch split ∧
    ∀ page ∈ sharedRowsStage1Reads B (b.synthLens B) batch split,
      0 ≤ page ∧ 16*page < b.paddedLen (batch/4) ∧ page < b.tableStride := by
  have hc := b.commonSplit_of_guard hguard hu
  have h4 : 4 ∣ B := by omega
  have hplain : headParallelTrace 32 (b.synthTable B) b.tableStride (b.synthLens B) rowSmem batch
      split = b.requestFold batch split := by
    rw [headParallelTrace_eq (by decide), VerifyBatch.rowFold_eq_requestFold h4 hb]
  rcases hB with rfl | rfl
  · have hg : batch/2*2 < 8 := by omega
    have hrow : batch/2*2+batch%2 = batch := by omega
    have howner : batch/2*2/4 = batch/4 := by omega
    refine ⟨?_,hplain,fun page hp => ?_⟩
    · rw [sharedRowsStage1, if_pos rfl, sharedRowsGrid_writes (.inl rfl) h4 _ hb hh hs,
        hc.sharedPairTrace h4 hg (Nat.mod_lt _ (by decide)), hrow]
    · have hin := VerifyBatch.sharedRowsReads_inside h4 (.inl rfl) hg (by decide)
        (VerifyBatch.pairLoadEnd_le h4 hg split) hp
      rwa [howner] at hin
  · have hg : batch/4*4 < 16 := by omega
    have hrow : batch/4*4+batch%4 = batch := by omega
    have howner : batch/4*4/4 = batch/4 := by omega
    refine ⟨?_,hplain,fun page hp => ?_⟩
    · rw [sharedRowsStage1, if_neg (by decide), sharedRowsGrid_writes (.inr rfl) h4 _ hb hh hs,
        hc.tile20Trace h4 hg (Nat.mod_lt _ (by decide)), hrow]
    · have hin := VerifyBatch.sharedRowsReads_inside h4 (.inr rfl) hg (by decide)
        (VerifyBatch.tile20LoadEnd_le h4 hg split) hp
      rwa [howner] at hin

def rejectedPairBatch : VerifyBatch where
  numReqs := 3
  seqLens := fun _ => 38
  blockTable := fun i page => 10*i+page
  tableStride := 4
  maxSeqLen := 40
  fits := by simp

theorem shared_graph_guard_sound_three_requests :
    (sharedRowsStage1 16 (rejectedPairBatch.synthTable 16) 4 (rejectedPairBatch.synthLens 16)
        fun _ => none).filter (fun w => w.1 = (5,7,16)) =
      [((5,7,16),[(some (12,0),some (some (12,1)))])] ∧
    ∀ page ∈ sharedRowsStage1Reads 16 (rejectedPairBatch.synthLens 16) 5 16,
      0 ≤ page ∧ 16*page < 38 ∧ page < 4 := by
  have h := shared_graph_guard_sound rejectedPairBatch
    (by decide : canUseTqSpecDecodeSharedGraph ⟨some [],4,3⟩ 3 12 [4,4,4] (some [3,3,3]) (fun _ => 40) = true)
    (by decide) (.inr rfl) (fun _ => none) (fun _ _ => none) (by decide : 5 < 16)
    (by decide : 7 < 24) (by decide : 16 < 32)
  exact ⟨h.1,h.2.2⟩

end MetaZenith.TurboQuant
