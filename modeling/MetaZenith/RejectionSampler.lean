import Mathlib

/-! `rejection_sample` over the flattened batch: the greedy and the random kernel, which fill one
fixed-width row per request, and `RejectionSampler.parse_output`. -/

namespace MetaZenith.Sampling

open List Function

variable {c i w : ℕ}

def placeholderTokenId : ℤ := -1

def cumsum (l : List ℕ) : List ℕ := (List.range l.length).map fun i => (l.take (i+1)).sum

structure SpecDecodeMetadata where
  draftTokenIds : List ℤ
  numDraftTokens : List ℕ
  cuNumDraftTokens : List ℕ
  maxSpecLen : ℕ

def SpecDecodeMetadata.ofCounts (counts : List ℕ) (draftTokenIds : List ℤ) : SpecDecodeMetadata where
  draftTokenIds := draftTokenIds
  numDraftTokens := counts
  cuNumDraftTokens := cumsum counts
  maxSpecLen := counts.foldr max 0

namespace SpecDecodeMetadata

variable (m : SpecDecodeMetadata)

def startIdx (reqIdx : ℕ) : ℕ := if reqIdx = 0 then 0 else m.cuNumDraftTokens.getD (reqIdx-1) 0

def endIdx (reqIdx : ℕ) : ℕ := m.cuNumDraftTokens.getD reqIdx 0

def rowStart (reqIdx : ℕ) : ℕ := reqIdx*(m.maxSpecLen+1)

end SpecDecodeMetadata

open SpecDecodeMetadata

/-- The loop both kernels share: `judge` gives the token of a position and whether the draft there
is rejected. Nothing is stored after a rejection. -/
def sampleLoop (judge : ℕ → ℤ × Bool) (row n : ℕ) (out : ℕ → ℤ) : (ℕ → ℤ) × Bool :=
  (List.range n).foldl (fun st pos =>
    if st.2 then st else (update st.1 (row+pos) (judge pos).1,(judge pos).2)) (out,false)

def sampleRow (judge : ℕ → ℤ × Bool) (bonus : ℤ) (row n : ℕ) (out : ℕ → ℤ) : ℕ → ℤ :=
  let loop := sampleLoop judge row n out
  if loop.2 then loop.1 else update loop.1 (row+n) bonus

def launch (batchSize : ℕ) (program : ℕ → (ℕ → ℤ) → ℕ → ℤ) (out : ℕ → ℤ) : ℕ → ℤ :=
  (List.range batchSize).foldl (fun out reqIdx => program reqIdx out) out

section Kernels

variable {K : Type*} [Field K] [LinearOrder K]

structure Synthetic (K : Type*) where
  conditionalRates : ℕ → K

variable (m : SpecDecodeMetadata) (synthetic : Option (Synthetic K)) (uniformProbs : ℕ → K)
  (bonusTokenIds : List ℤ)

def greedyJudge (targetArgmax : List ℤ) (startIdx pos : ℕ) : ℤ × Bool :=
  let draftTokenId := m.draftTokenIds.getD (startIdx+pos) 0
  let targetArgmaxId := targetArgmax.getD (startIdx+pos) 0
  match synthetic with
  | some s =>
    let accepted := decide (uniformProbs (startIdx+pos) < s.conditionalRates pos) &&
      decide (0 ≤ draftTokenId)
    (if accepted then draftTokenId else targetArgmaxId,!accepted)
  | none => (targetArgmaxId,draftTokenId ≠ targetArgmaxId)

def rejectionGreedySampleKernel (targetArgmax : List ℤ) (isGreedy : Option (List Bool))
    (reqIdx : ℕ) (out : ℕ → ℤ) : ℕ → ℤ :=
  if !(isGreedy.elim true fun l => l.getD reqIdx false) then out
  else
    let startIdx := m.startIdx reqIdx
    sampleRow (greedyJudge m synthetic uniformProbs targetArgmax startIdx)
      (bonusTokenIds.getD reqIdx 0) (m.rowStart reqIdx) (m.endIdx reqIdx-startIdx) out

variable (draftProbs : Option (ℕ → ℕ → K)) (targetProbs : ℕ → ℕ → K)

def acceptsDraft (draftTokenId : ℤ) (uniformProb : K) (idx pos : ℕ) : Bool :=
  if draftTokenId < 0 then false
  else match synthetic with
    | some s => uniformProb < s.conditionalRates pos
    | none =>
      let draftProb := match draftProbs with
        | none => 1
        | some probs => probs idx draftTokenId.toNat
      decide (0 < draftProb) && decide (uniformProb ≤ targetProbs idx draftTokenId.toNat/draftProb)

def randomJudge (recoveredTokenIds : List ℤ) (startIdx pos : ℕ) : ℤ × Bool :=
  let draftTokenId := m.draftTokenIds.getD (startIdx+pos) 0
  let accepted := acceptsDraft synthetic draftProbs targetProbs draftTokenId
    (uniformProbs (startIdx+pos)) (startIdx+pos) pos
  (if accepted then draftTokenId else recoveredTokenIds.getD (startIdx+pos) 0,!accepted)

def rejectionRandomSampleKernel (recoveredTokenIds : List ℤ) (isGreedy : List Bool) (reqIdx : ℕ)
    (out : ℕ → ℤ) : ℕ → ℤ :=
  if isGreedy.getD reqIdx false then out
  else
    let startIdx := m.startIdx reqIdx
    sampleRow (randomJudge m synthetic uniformProbs draftProbs targetProbs recoveredTokenIds startIdx)
      (bonusTokenIds.getD reqIdx 0) (m.rowStart reqIdx) (m.endIdx reqIdx-startIdx) out

def recoveredWeight (draftTokenId : ℤ) (idx token : ℕ) : K :=
  match draftProbs with
  | none => if (token:ℤ) ≠ draftTokenId then targetProbs idx token else 0
  | some probs => max (targetProbs idx token-probs idx token) 0

/-- What the sampler is given for a batch, apart from the metadata. `isGreedy` tells which requests
have the greedy temperature. -/
structure SampleInputs (K : Type*) where
  targetArgmax : List ℤ
  bonusTokenIds : List ℤ
  recoveredTokenIds : List ℤ
  draftProbs : Option (ℕ → ℕ → K)
  targetProbs : ℕ → ℕ → K
  uniformProbs : ℕ → K
  isGreedy : List Bool
  synthetic : Option (Synthetic K) := none

def rejectionSample (x : SampleInputs K) : ℕ → ℤ :=
  let batchSize := m.numDraftTokens.length
  let allGreedy := x.isGreedy.all id
  let allRandom := x.isGreedy.all not
  let out : ℕ → ℤ := fun _ => placeholderTokenId
  let out := if allRandom then out else
    launch batchSize (rejectionGreedySampleKernel m x.synthetic x.uniformProbs x.bonusTokenIds
      x.targetArgmax (if allGreedy then none else some x.isGreedy)) out
  if !allRandom && allGreedy then out
  else launch batchSize (rejectionRandomSampleKernel m x.synthetic x.uniformProbs x.bonusTokenIds
    x.draftProbs x.targetProbs x.recoveredTokenIds x.isGreedy) out

end Kernels

def outputRow (m : SpecDecodeMetadata) (out : ℕ → ℤ) (reqIdx : ℕ) : List ℤ :=
  (List.range (m.maxSpecLen+1)).map fun pos => out (m.rowStart reqIdx+pos)

def parseOutput (m : SpecDecodeMetadata) (vocabSize : ℕ) (discardReqIndices : List ℕ)
    (out : ℕ → ℤ) : List (List ℤ) :=
  (List.range m.numDraftTokens.length).map fun reqIdx =>
    (outputRow m out reqIdx).filter fun t =>
      decide (t ≠ placeholderTokenId) && decide (t < vocabSize) &&
        !discardReqIndices.contains reqIdx

section Row

variable {judge : ℕ → ℤ × Bool} {n row : ℕ}

structure AcceptsFirst (judge : ℕ → ℤ × Bool) (n a : ℕ) : Prop where
  le : a ≤ n
  accepted : ∀ j < a, (judge j).2 = false
  rejected : a < n → (judge a).2 = true

theorem sampleLoop_spec (judge : ℕ → ℤ × Bool) (row n : ℕ) (out : ℕ → ℤ) :
    ∃ a, AcceptsFirst judge n a ∧ (sampleLoop judge row n out).2 = decide (a < n) ∧
      ∀ k, (sampleLoop judge row n out).1 k =
        if row ≤ k ∧ k < row+min (a+1) n then (judge (k-row)).1 else out k := by
  induction n with
  | zero =>
    refine ⟨0,⟨le_rfl,by simp,by simp⟩,by simp [sampleLoop],fun k => ?_⟩
    rw [if_neg (by omega)]
    rfl
  | succ n ih =>
    obtain ⟨a,ha,hrej,hout⟩ := ih
    have hstep : sampleLoop judge row (n+1) out =
        if (sampleLoop judge row n out).2 then sampleLoop judge row n out
        else (update (sampleLoop judge row n out).1 (row+n) (judge n).1,(judge n).2) := by
      rw [sampleLoop, range_succ, foldl_append]
      rfl
    rw [hstep]
    by_cases han : a < n
    · -- a draft was rejected before: nothing changes
      rw [hrej, decide_eq_true han, if_pos rfl, hrej]
      refine ⟨a,⟨by omega,ha.accepted,fun _ => ha.rejected han⟩,by simp; omega,fun k => ?_⟩
      rw [hout, min_eq_left (by omega), min_eq_left (by omega)]
    · have hna : a = n := le_antisymm ha.le (not_lt.mp han)
      subst hna
      rw [hrej, decide_eq_false han, if_neg (by simp)]
      have hnew : ∀ k, update (sampleLoop judge row a out).1 (row+a) (judge a).1 k =
          if row ≤ k ∧ k < row+(a+1) then (judge (k-row)).1 else out k := by
        intro k
        by_cases hk : k = row+a
        · rw [hk, update_self, if_pos (by omega), Nat.add_sub_cancel_left]
        · rw [update_of_ne hk, hout, min_eq_right (Nat.le_succ a)]
          exact if_congr (by omega) rfl rfl
      cases hj : (judge a).2 with
      | true =>
        refine ⟨a,⟨by omega,ha.accepted,fun _ => hj⟩,by simp,fun k => ?_⟩
        rw [min_self]
        exact hnew k
      | false =>
        refine ⟨a+1,⟨le_rfl,fun j hlt => ?_,by simp⟩,by simp,fun k => ?_⟩
        · rcases Nat.lt_succ_iff_lt_or_eq.mp hlt with hlt | rfl
          · exact ha.accepted j hlt
          · exact hj
        · rw [min_eq_right (Nat.le_succ _)]
          exact hnew k

theorem AcceptsFirst.unique {a b : ℕ} (ha : AcceptsFirst judge n a) (hb : AcceptsFirst judge n b) :
    a = b := by
  have hle := ha.le
  have hle' := hb.le
  rcases lt_trichotomy a b with h | h | h
  · have h1 := hb.accepted a h
    rw [ha.rejected (by omega)] at h1
    cases h1
  · exact h
  · have h1 := ha.accepted b h
    rw [hb.rejected (by omega)] at h1
    cases h1

/-- A row holds the tokens up to the first rejection, or all of them and the bonus token. -/
theorem sampleRow_spec (judge : ℕ → ℤ × Bool) (bonus : ℤ) (row n : ℕ) (out : ℕ → ℤ) :
    ∃ a, AcceptsFirst judge n a ∧ ∀ k, sampleRow judge bonus row n out k =
      if row ≤ k ∧ k < row+(a+1) then (if k-row < n then (judge (k-row)).1 else bonus)
      else out k := by
  obtain ⟨a,ha,hrej,hout⟩ := sampleLoop_spec judge row n out
  refine ⟨a,ha,fun k => ?_⟩
  rw [sampleRow]
  by_cases han : a < n
  · rw [hrej, decide_eq_true han, if_pos rfl, hout, min_eq_left (by omega)]
    by_cases hk : row ≤ k ∧ k < row+(a+1)
    · rw [if_pos hk, if_pos hk, if_pos (by omega)]
    · rw [if_neg hk, if_neg hk]
  · have hna : a = n := le_antisymm ha.le (not_lt.mp han)
    subst hna
    rw [hrej, decide_eq_false han, if_neg (by simp)]
    by_cases hk : k = row+a
    · rw [hk, update_self, if_pos (by omega), if_neg (by omega)]
    · rw [update_of_ne hk, hout, min_eq_right (Nat.le_succ a)]
      by_cases hin : row ≤ k ∧ k < row+a
      · rw [if_pos hin, if_pos (by omega), if_pos (by omega)]
      · rw [if_neg hin, if_neg (by omega)]

structure RowLocal (w reqIdx : ℕ) (program : (ℕ → ℤ) → ℕ → ℤ) : Prop where
  frame : ∀ out k, k < reqIdx*(w+1) ∨ (reqIdx+1)*(w+1) ≤ k → program out k = out k
  congr : ∀ out out' : ℕ → ℤ, (∀ j ≤ w, out (reqIdx*(w+1)+j) = out' (reqIdx*(w+1)+j)) →
    ∀ j ≤ w, program out (reqIdx*(w+1)+j) = program out' (reqIdx*(w+1)+j)

theorem rowLocal_sampleRow (judge : ℕ → ℤ × Bool) (bonus : ℤ) (reqIdx : ℕ) (hn : n ≤ w) :
    RowLocal w reqIdx (sampleRow judge bonus (reqIdx*(w+1)) n) where
  frame out k hk := by
    obtain ⟨a,ha,hout⟩ := sampleRow_spec judge bonus (reqIdx*(w+1)) n out
    have hle := ha.le
    rw [Nat.succ_mul] at hk
    rw [hout, if_neg (by omega)]
  congr out out' h j hj := by
    obtain ⟨a,ha,hout⟩ := sampleRow_spec judge bonus (reqIdx*(w+1)) n out
    obtain ⟨b,hb,hout'⟩ := sampleRow_spec judge bonus (reqIdx*(w+1)) n out'
    rw [hout, hout', ha.unique hb, h j hj]

theorem RowLocal.guard {reqIdx : ℕ} {program : (ℕ → ℤ) → ℕ → ℤ} (h : RowLocal w reqIdx program)
    (exits : Bool) : RowLocal w reqIdx fun out => if exits then out else program out := by
  cases exits with
  | true => exact ⟨fun _ _ _ => rfl,fun _ _ hsame => hsame⟩
  | false => exact h

theorem launch_row {program : ℕ → (ℕ → ℤ) → ℕ → ℤ} (hlocal : ∀ r, RowLocal w r (program r))
    (out : ℕ → ℤ) (batchSize : ℕ) :
    (∀ r < batchSize, ∀ j ≤ w, launch batchSize program out (r*(w+1)+j) = program r out (r*(w+1)+j)) ∧
    ∀ k, batchSize*(w+1) ≤ k → launch batchSize program out k = out k := by
  induction batchSize with
  | zero => exact ⟨by simp,fun k _ => rfl⟩
  | succ B ih =>
    obtain ⟨hrows,hrest⟩ := ih
    have hstep : launch (B+1) program out = program B (launch B program out) := by
      rw [launch, range_succ, foldl_append]
      rfl
    rw [hstep]
    refine ⟨fun r hr j hj => ?_,fun k hk => ?_⟩
    · rcases Nat.lt_succ_iff_lt_or_eq.mp hr with hlt | rfl
      · have hmul : (r+1)*(w+1) ≤ B*(w+1) := Nat.mul_le_mul_right _ hlt
        rw [Nat.succ_mul] at hmul
        rw [(hlocal B).frame _ _ (.inl (by omega)), hrows r hlt j hj]
      · exact (hlocal r).congr _ _ (fun i _ => hrest _ (by omega)) j hj
    · rw [Nat.succ_mul] at hk
      rw [(hlocal B).frame _ _ (.inr (by rw [Nat.succ_mul]; omega)), hrest k (by omega)]

end Row

section Batch

variable {α β : Type*} {batch : List α}

theorem cumsum_getD {l : List ℕ} (h : i < l.length) : (cumsum l).getD i 0 = (l.take (i+1)).sum := by
  rw [cumsum, getD_eq_getElem _ _ (by simpa using h)]
  simp

/-- Position `pos` of request `i` in the flattened batch. -/
theorem flatMap_getD (f : α → List β) (d : β) {pos : ℕ} {x : α} (hx : batch[i]? = some x)
    (hpos : pos < (f x).length) :
    (batch.flatMap f).getD (((batch.map fun y => (f y).length).take i).sum+pos) d =
      (f x).getD pos d := by
  obtain ⟨hi,rfl⟩ := List.getElem?_eq_some_iff.mp hx
  have hsplit : batch = batch.take i ++ batch[i] :: batch.drop (i+1) := by simp
  have hsum : ((batch.map fun y => (f y).length).take i).sum = ((batch.take i).flatMap f).length := by
    rw [length_flatMap, map_take]
  have hflat : batch.flatMap f =
      (batch.take i).flatMap f ++ (f batch[i] ++ (batch.drop (i+1)).flatMap f) := by
    conv_lhs => rw [hsplit]
    rw [flatMap_append, flatMap_cons]
  rw [hsum, hflat, getD_append_right _ _ _ _ (by omega), Nat.add_sub_cancel_left,
    getD_append _ _ _ _ hpos]

variable {counts : List ℕ} (tokens : List ℤ)

theorem startIdx_ofCounts (hi : i < counts.length) :
    (ofCounts counts tokens).startIdx i = (counts.take i).sum := by
  rw [startIdx]
  split
  · rename_i h0
    rw [h0]
    rfl
  · have hlt : i-1 < counts.length := by omega
    have hpred : i-1+1 = i := by omega
    rw [ofCounts, cumsum_getD hlt, hpred]

theorem count_ofCounts (h : counts[i]? = some c) : (ofCounts counts tokens).endIdx i-
      (ofCounts counts tokens).startIdx i = c := by
  obtain ⟨hi,rfl⟩ := List.getElem?_eq_some_iff.mp h
  rw [startIdx_ofCounts tokens hi, endIdx, ofCounts,
    cumsum_getD hi, take_add_one, sum_append, Nat.add_sub_cancel_left]
  simp [hi]

theorem count_le_of_getElem? (h : counts[i]? = some c) : c ≤ (ofCounts counts tokens).maxSpecLen := by
  have hmem : c ∈ counts := mem_of_getElem? h
  rw [ofCounts]
  simp only
  clear h
  induction counts with
  | nil => simp at hmem
  | cons b l ih =>
    rcases mem_cons.mp hmem with hb | hb
    · exact hb ▸ le_max_left _ _
    · exact (ih hb).trans (le_max_right _ _)

theorem count_le_maxSpecLen (counts : List ℕ) (tokens : List ℤ) (r : ℕ) :
    (ofCounts counts tokens).endIdx r- (ofCounts counts tokens).startIdx r ≤
      (ofCounts counts tokens).maxSpecLen := by
  cases h : counts[r]? with
  | some c =>
    rw [count_ofCounts tokens h]
    exact count_le_of_getElem? tokens h
  | none =>
    have hlen := getElem?_eq_none_iff.mp h
    have hend : (ofCounts counts tokens).endIdx r = 0 := by
      rw [endIdx, getD_eq_default]
      simpa [ofCounts, cumsum] using hlen
    omega

end Batch

section Rows

set_option linter.unusedSectionVars false

variable {K : Type*} [Field K] [LinearOrder K] (counts : List ℕ) (tokens : List ℤ) (x : SampleInputs K)

theorem rowLocal_greedy (flags : Option (List Bool)) (r : ℕ) :
    RowLocal (ofCounts counts tokens).maxSpecLen r
      (rejectionGreedySampleKernel (.ofCounts counts tokens) x.synthetic x.uniformProbs
        x.bonusTokenIds x.targetArgmax flags r) :=
  (rowLocal_sampleRow _ _ r (count_le_maxSpecLen counts tokens r)).guard _

theorem rowLocal_random (r : ℕ) : RowLocal (ofCounts counts tokens).maxSpecLen r
      (rejectionRandomSampleKernel (.ofCounts counts tokens) x.synthetic x.uniformProbs
        x.bonusTokenIds x.draftProbs x.targetProbs x.recoveredTokenIds x.isGreedy r) :=
  (rowLocal_sampleRow _ _ r (count_le_maxSpecLen counts tokens r)).guard _

variable {counts x}

theorem rejectionSample_greedy_row (hc : counts[i]? = some c) (hg : x.isGreedy[i]? = some true)
    {j : ℕ} (hj : j ≤ (ofCounts counts tokens).maxSpecLen) :
    rejectionSample (.ofCounts counts tokens) x ((ofCounts counts tokens).rowStart i+j) =
      sampleRow (greedyJudge (.ofCounts counts tokens) x.synthetic x.uniformProbs x.targetArgmax
          ((ofCounts counts tokens).startIdx i)) (x.bonusTokenIds.getD i 0)
        ((ofCounts counts tokens).rowStart i) c (fun _ => placeholderTokenId)
        ((ofCounts counts tokens).rowStart i+j) := by
  obtain ⟨hi,-⟩ := List.getElem?_eq_some_iff.mp hc
  have hget : x.isGreedy.getD i false = true := by rw [List.getD_eq_getElem?_getD, hg]; rfl
  have hrandom : x.isGreedy.all not = false := by
    rw [all_eq_false]
    exact ⟨true,mem_of_getElem? hg,by simp⟩
  -- the greedy kernel is active for this request, with or without flags
  have hlaunch (flags : Option (List Bool)) (hflags : flags = none ∨ flags = some x.isGreedy) :
      launch counts.length (rejectionGreedySampleKernel (.ofCounts counts tokens) x.synthetic
        x.uniformProbs x.bonusTokenIds x.targetArgmax flags) (fun _ => placeholderTokenId)
        ((ofCounts counts tokens).rowStart i+j) =
      sampleRow (greedyJudge (.ofCounts counts tokens) x.synthetic x.uniformProbs x.targetArgmax
          ((ofCounts counts tokens).startIdx i)) (x.bonusTokenIds.getD i 0)
        ((ofCounts counts tokens).rowStart i) c (fun _ => placeholderTokenId)
        ((ofCounts counts tokens).rowStart i+j) := by
    have hactive : (flags.elim true fun l => l.getD i false) = true := by
      rcases hflags with rfl | rfl
      · rfl
      · exact hget
    have hrow := (launch_row (rowLocal_greedy counts tokens x flags) (fun _ => placeholderTokenId)
      counts.length).1 i hi j hj
    rw [rejectionGreedySampleKernel, hactive] at hrow
    simp only [count_ofCounts tokens hc] at hrow
    exact hrow
  rw [rejectionSample]
  simp only [hrandom, Bool.not_false, Bool.true_and, Bool.false_eq_true, if_false]
  cases hall : x.isGreedy.all id with
  | true => exact hlaunch none (.inl rfl)
  | false =>
    have hrow := (launch_row (rowLocal_random counts tokens x)
      (launch counts.length (rejectionGreedySampleKernel (.ofCounts counts tokens) x.synthetic
        x.uniformProbs x.bonusTokenIds x.targetArgmax (some x.isGreedy))
        fun _ => placeholderTokenId) counts.length).1 i hi j hj
    rw [rejectionRandomSampleKernel, if_pos hget] at hrow
    exact hrow.trans (hlaunch _ (.inr rfl))

theorem rejectionSample_random_row (hc : counts[i]? = some c) (hg : x.isGreedy[i]? = some false)
    {j : ℕ} (hj : j ≤ (ofCounts counts tokens).maxSpecLen) :
    rejectionSample (.ofCounts counts tokens) x ((ofCounts counts tokens).rowStart i+j) =
      sampleRow (randomJudge (.ofCounts counts tokens) x.synthetic x.uniformProbs x.draftProbs
          x.targetProbs x.recoveredTokenIds
          ((ofCounts counts tokens).startIdx i)) (x.bonusTokenIds.getD i 0)
        ((ofCounts counts tokens).rowStart i) c (fun _ => placeholderTokenId)
        ((ofCounts counts tokens).rowStart i+j) := by
  obtain ⟨hi,-⟩ := List.getElem?_eq_some_iff.mp hc
  have hget : x.isGreedy.getD i false = false := by rw [List.getD_eq_getElem?_getD, hg]; rfl
  have hgreedy : x.isGreedy.all id = false := by
    rw [all_eq_false]
    exact ⟨false,mem_of_getElem? hg,by simp⟩
  have hsame (out : ℕ → ℤ) (hout : ∀ j ≤ (ofCounts counts tokens).maxSpecLen,
      out ((ofCounts counts tokens).rowStart i+j) = placeholderTokenId) :
      launch counts.length (rejectionRandomSampleKernel (.ofCounts counts tokens) x.synthetic
        x.uniformProbs x.bonusTokenIds x.draftProbs x.targetProbs x.recoveredTokenIds x.isGreedy) out
        ((ofCounts counts tokens).rowStart i+j) =
      sampleRow (randomJudge (.ofCounts counts tokens) x.synthetic x.uniformProbs x.draftProbs
          x.targetProbs x.recoveredTokenIds
          ((ofCounts counts tokens).startIdx i)) (x.bonusTokenIds.getD i 0)
        ((ofCounts counts tokens).rowStart i) c (fun _ => placeholderTokenId)
        ((ofCounts counts tokens).rowStart i+j) := by
    have hrow := (launch_row (rowLocal_random counts tokens x) out counts.length).1 i hi j hj
    rw [(rowLocal_random counts tokens x i).congr out (fun _ => placeholderTokenId) hout j hj] at hrow
    rw [rejectionRandomSampleKernel, hget, if_neg (by simp)] at hrow
    simp only [count_ofCounts tokens hc] at hrow
    exact hrow
  rw [rejectionSample]
  simp only [hgreedy, Bool.and_false, Bool.false_eq_true, if_false]
  split
  · exact hsame _ fun _ _ => rfl
  · refine hsame _ fun j' hj' => ?_
    have hrow := (launch_row (rowLocal_greedy counts tokens x (some x.isGreedy))
      (fun _ => placeholderTokenId) counts.length).1 i hi j' hj'
    rw [rejectionGreedySampleKernel, Option.elim_some, hget] at hrow
    exact hrow

end Rows

end MetaZenith.Sampling
