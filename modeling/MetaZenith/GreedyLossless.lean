import MetaZenith.RejectionSampler

/-! Greedy requests get the tokens greedy decoding would have given them, whatever else is in the
batch. -/

namespace MetaZenith.Sampling

open List

structure BatchRequest (V : ℕ) where
  drafts : List ℤ
  argmaxes : List (Fin V)
  length_eq : argmaxes.length = drafts.length
  bonus : Fin V
  greedy : Bool

def tokenId {V : ℕ} (t : Fin V) : ℤ := (t:ℕ)

section Batch

set_option linter.unusedSectionVars false

variable {K : Type*} [Field K] [LinearOrder K] {V : ℕ}

structure RandomDraw (K : Type*) where
  recoveredTokenIds : List ℤ
  draftProbs : Option (ℕ → ℕ → K)
  targetProbs : ℕ → ℕ → K
  uniformProbs : ℕ → K

def batchMetadata (batch : List (BatchRequest V)) : SpecDecodeMetadata :=
  .ofCounts (batch.map (·.drafts.length)) (batch.flatMap (·.drafts))

def batchInputs (batch : List (BatchRequest V)) (x : RandomDraw K) : SampleInputs K where
  targetArgmax := batch.flatMap fun q => q.argmaxes.map tokenId
  bonusTokenIds := batch.map fun q => tokenId q.bonus
  recoveredTokenIds := x.recoveredTokenIds
  draftProbs := x.draftProbs
  targetProbs := x.targetProbs
  uniformProbs := x.uniformProbs
  isGreedy := batch.map (·.greedy)

variable {batch : List (BatchRequest V)} {i : ℕ} {q : BatchRequest V}

section

variable (hq : batch[i]? = some q)

include hq

/-- The judge of a greedy row compares the request's own drafts with its own argmaxes. -/
theorem greedyJudge_eq (x : RandomDraw K) {pos : ℕ} (hpos : pos < q.drafts.length) :
    greedyJudge (batchMetadata batch) none x.uniformProbs (batchInputs batch x).targetArgmax
        ((batchMetadata batch).startIdx i) pos = ((q.argmaxes.map tokenId).getD pos 0,
        decide (q.drafts.getD pos 0 ≠ (q.argmaxes.map tokenId).getD pos 0)) := by
  obtain ⟨hi,-⟩ := List.getElem?_eq_some_iff.mp hq
  have hlen : pos < (q.argmaxes.map tokenId).length := by
    rw [length_map, q.length_eq]
    exact hpos
  have hcounts : batch.map (fun y => y.drafts.length) =
      batch.map fun y => (y.argmaxes.map tokenId).length := by
    apply map_congr_left
    intro y _
    rw [length_map, y.length_eq]
  have hstart : (batchMetadata batch).startIdx i = ((batch.map (·.drafts.length)).take i).sum :=
    startIdx_ofCounts _ (by simpa using hi)
  have hd : (batchMetadata batch).draftTokenIds.getD ((batchMetadata batch).startIdx i+pos) 0 =
      q.drafts.getD pos 0 := by
    rw [hstart]
    exact flatMap_getD (fun y : BatchRequest V => y.drafts) 0 hq hpos
  have ht : (batchInputs batch x).targetArgmax.getD ((batchMetadata batch).startIdx i+pos) 0 =
      (q.argmaxes.map tokenId).getD pos 0 := by
    rw [hstart, hcounts]
    exact flatMap_getD (fun y : BatchRequest V => y.argmaxes.map tokenId) 0 hq hlen
  rw [greedyJudge]
  simp only [hd, ht]

theorem batch_count : (batch.map (·.drafts.length))[i]? = some q.drafts.length := by
  rw [getElem?_map, hq, Option.map_some]

theorem greedy_row (hg : q.greedy = true) (x : RandomDraw K) {j : ℕ}
    (hj : j ≤ (batchMetadata batch).maxSpecLen) :
    rejectionSample (batchMetadata batch) (batchInputs batch x) ((batchMetadata batch).rowStart i+j) =
      sampleRow (greedyJudge (batchMetadata batch) none x.uniformProbs
          (batchInputs batch x).targetArgmax ((batchMetadata batch).startIdx i))
        (tokenId q.bonus) ((batchMetadata batch).rowStart i) q.drafts.length
        (fun _ => placeholderTokenId) ((batchMetadata batch).rowStart i+j) := by
  have hflag : (batchInputs batch x).isGreedy[i]? = some true := by
    simp [batchInputs, hq, hg]
  have hbonus : (batchInputs batch x).bonusTokenIds.getD i 0 = tokenId q.bonus := by
    simp [batchInputs, getD_eq_getElem?_getD, hq]
  have hrow := rejectionSample_greedy_row (batch.flatMap (·.drafts)) (batch_count hq) hflag hj
  rw [hbonus] at hrow
  exact hrow

theorem outputRow_greedy (hg : q.greedy = true) (x : RandomDraw K) {a : ℕ}
    (ha : AcceptsFirst (greedyJudge (batchMetadata batch) none x.uniformProbs
      (batchInputs batch x).targetArgmax ((batchMetadata batch).startIdx i)) q.drafts.length a) :
    outputRow (batchMetadata batch) (rejectionSample (batchMetadata batch) (batchInputs batch x)) i =
      ((q.argmaxes ++ [q.bonus]).take (a+1)).map tokenId ++
        List.replicate ((batchMetadata batch).maxSpecLen-a) placeholderTokenId := by
  have hmax : q.drafts.length ≤ (batchMetadata batch).maxSpecLen :=
    count_le_of_getElem? _ (batch_count hq)
  have hale := ha.le
  have hlen : ((q.argmaxes ++ [q.bonus]).take (a+1)).length = a+1 := by
    rw [length_take, length_append, q.length_eq, length_singleton]
    omega
  apply ext_getElem
  · rw [outputRow, length_map, length_range, length_append, length_map, hlen, length_replicate]
    omega
  intro j hj hj'
  have hjle : j ≤ (batchMetadata batch).maxSpecLen := by
    rw [outputRow, length_map, length_range] at hj
    omega
  obtain ⟨b,hb,hrow⟩ := sampleRow_spec (greedyJudge (batchMetadata batch) none x.uniformProbs
    (batchInputs batch x).targetArgmax ((batchMetadata batch).startIdx i)) (tokenId q.bonus)
    ((batchMetadata batch).rowStart i) q.drafts.length fun _ => placeholderTokenId
  obtain rfl := ha.unique hb
  simp only [outputRow, getElem_map, getElem_range]
  rw [greedy_row hq hg x hjle, hrow, Nat.add_sub_cancel_left]
  by_cases hjb : j < a+1
  · rw [if_pos (by omega), getElem_append_left (by rw [length_map, hlen]; exact hjb),
      getElem_map, getElem_take]
    by_cases hjn : j < q.drafts.length
    · have hja : j < q.argmaxes.length := q.length_eq.symm ▸ hjn
      rw [if_pos hjn, greedyJudge_eq hq x hjn, getElem_append_left hja,
        getD_eq_getElem _ _ (by rwa [length_map]), getElem_map]
    · have hja : q.argmaxes.length = j := by
        rw [q.length_eq]
        omega
      subst hja
      rw [if_neg hjn, getElem_append_right le_rfl]
      simp
  · rw [if_neg (by omega), getElem_append_right (by rw [length_map, hlen]; omega), getElem_replicate]

end

end Batch

theorem filter_emitted {V : ℕ} (ts : List (Fin V)) (k : ℕ) :
    (ts.map tokenId ++ List.replicate k placeholderTokenId).filter (fun t =>
      decide (t ≠ placeholderTokenId) && decide (t < (V:ℤ)) && !false) = ts.map tokenId := by
  rw [filter_append, filter_eq_self.mpr, filter_eq_nil_iff.mpr, append_nil]
  · intro t ht
    simp [eq_of_mem_replicate ht]
  · intro t ht
    obtain ⟨u,-,rfl⟩ := mem_map.mp ht
    have hu := u.isLt
    have hne : tokenId u ≠ placeholderTokenId := by
      rw [tokenId, placeholderTokenId]
      omega
    have hlt : tokenId u < (V:ℤ) := by
      rw [tokenId]
      omega
    simp [hne, hlt]

/-- A greedy request gets the first `a + 1` of its argmaxes and its bonus token, where `a` is the
length of the longest draft prefix that equals the argmaxes. -/
theorem greedy_rejection_lossless {K : Type*} [Field K] [LinearOrder K] {V : ℕ}
    (batch : List (BatchRequest V)) (x : RandomDraw K) (discardReqIndices : List ℕ) {i : ℕ}
    {q : BatchRequest V} (hq : batch[i]? = some q) (hg : q.greedy = true)
    (hd : i ∉ discardReqIndices) :
    ∃ a ≤ q.drafts.length, (∀ j < a, q.drafts[j]? = q.argmaxes[j]?.map tokenId) ∧
      (a < q.drafts.length → q.drafts[a]? ≠ q.argmaxes[a]?.map tokenId) ∧
      (parseOutput (batchMetadata batch) V discardReqIndices
        (rejectionSample (batchMetadata batch) (batchInputs batch x)))[i]? =
          some (((q.argmaxes ++ [q.bonus]).take (a+1)).map tokenId) := by
  obtain ⟨hi,-⟩ := List.getElem?_eq_some_iff.mp hq
  obtain ⟨a,ha,-⟩ := sampleRow_spec (greedyJudge (batchMetadata batch) none x.uniformProbs
    (batchInputs batch x).targetArgmax ((batchMetadata batch).startIdx i)) 0 0 q.drafts.length
    fun _ => 0
  have hale := ha.le
  -- the judge's verdict on position `j`, as a comparison of list entries
  have hverdict : ∀ j < q.drafts.length, ((greedyJudge (batchMetadata batch) none x.uniformProbs
      (batchInputs batch x).targetArgmax ((batchMetadata batch).startIdx i) j).2 = false ↔
        q.drafts[j]? = q.argmaxes[j]?.map tokenId) := by
    intro j hj
    have hja : j < q.argmaxes.length := q.length_eq.symm ▸ hj
    rw [greedyJudge_eq hq x hj, getD_eq_getElem _ _ hj,
      getD_eq_getElem _ _ (by rwa [length_map]), getElem_map,
      getElem?_eq_getElem hj, getElem?_eq_getElem hja]
    simp
  refine ⟨a,hale,fun j hj => (hverdict j (by omega)).mp (ha.accepted j hj),fun hlt heq => ?_,?_⟩
  · have hrej := ha.rejected hlt
    rw [(hverdict a hlt).mpr heq] at hrej
    cases hrej
  · have hB : i < (batchMetadata batch).numDraftTokens.length := by
      simpa [batchMetadata, SpecDecodeMetadata.ofCounts] using hi
    have hcontains : discardReqIndices.contains i = false := by simpa using hd
    rw [parseOutput, getElem?_map, getElem?_range hB, Option.map_some,
      outputRow_greedy hq hg x ha, hcontains, filter_emitted]

def raggedBatch : List (BatchRequest 5) :=
  [⟨[3,-1],[3,4],rfl,0,true⟩,⟨[],[],rfl,2,true⟩,⟨[1],[1],rfl,4,true⟩]

theorem greedy_rejection_lossless_ragged :
    ∃ a ≤ 2, (∀ j < a, ([3,-1] : List ℤ)[j]? = ([3,4] : List (Fin 5))[j]?.map tokenId) ∧
      (a < 2 → ([3,-1] : List ℤ)[a]? ≠ ([3,4] : List (Fin 5))[a]?.map tokenId) ∧
      (parseOutput (batchMetadata raggedBatch) 5 [] (rejectionSample (batchMetadata raggedBatch)
        (batchInputs raggedBatch (⟨[],none,fun _ _ => 0,fun _ => 0⟩ : RandomDraw ℚ))))[0]? =
          some ((([3,4] ++ [0] : List (Fin 5)).take (a+1)).map tokenId) := by
  have hq : raggedBatch[0]? = some ⟨[3,-1],[3,4],rfl,0,true⟩ := rfl
  exact greedy_rejection_lossless raggedBatch
    (⟨[],none,fun _ _ => 0,fun _ => 0⟩ : RandomDraw ℚ) [] hq rfl (by simp)

end MetaZenith.Sampling
