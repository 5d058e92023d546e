import MetaZenith.InputBatch

/-! What one row of the batch holds, and what each operation does to it. -/

namespace MetaZenith

open BlockTable List Option Function

variable {i : ℕ} {b' : InputBatch} {l : List ℤ}

structure SamplingRow where
  temperature : ℚ
  topP : ℚ
  topK : ℤ
  frequencyPenalty : ℚ
  presencePenalty : ℚ
  repetitionPenalty : ℚ
  numAcceptedTokens : ℕ
  generator : Option ℕ
  badWordsTokenIds : Option (List (List ℤ))
  allowedMask : List Bool
  deriving DecidableEq, Repr

/-- The contents of a row as its readers see them. A token of the active prefix is known when its
flag says that it is given by a token id. -/
structure BatchRow where
  activeTokens : List (Option ℤ)
  specTokenIds : List ℤ
  numTokensNoSpec : ℕ
  numPromptTokens : ℕ
  numComputedTokens : ℕ
  replayssmDecodeBase : Option ℕ
  blockIds : List (List ℕ)
  loraIntId : ℕ
  sampling : Option SamplingRow
  deriving DecidableEq, Repr

theorem BatchRow.ext_sampling {r r' : BatchRow}
    (h : { r with sampling := none } = { r' with sampling := none })
    (hs : r.sampling = r'.sampling) : r = r' := by
  cases r
  cases r'
  simp_all

variable (t : BlockTable)

namespace BlockTable

def row (i : ℕ) : List ℕ := readPrefix (t.blockTable i) (t.numBlocksPerRow i)

theorem row_swapRow (i j k : ℕ) : (t.swapRow i j).row k = t.row (Equiv.swap i j k) := by
  simp [row, swapRow, colSwap_apply]

theorem row_moveRow {src tgt k : ℕ} (hk : k ≠ src) :
    (t.moveRow src tgt).row k = t.row (if k = tgt then src else k) := by
  simp only [row, moveRow, update_of_ne hk]
  by_cases hkt : k = tgt
  · subst hkt
    rw [update_self, if_pos rfl]
    apply readPrefix_congr
    intro c hc
    rw [matMovePrefix_apply t.blockTable fun _ => hc, if_pos rfl]
  · rw [update_of_ne hkt, if_neg hkt]
    apply readPrefix_congr
    intro c _
    rw [matMovePrefix_apply t.blockTable fun h => absurd h hkt, if_neg hkt]

theorem row_clearRow_of_ne {k : ℕ} (hk : k ≠ i) : (t.clearRow i).row k = t.row k := by
  simp [row, clearRow, update_of_ne hk]

theorem row_appendRow {t t' : BlockTable} {ids : List ℕ} (h : t.appendRow ids i = some t') :
    t'.row i = t.row i ++ mapToKernelBlocks t.blocksPerKvBlock ids ∧
      (∀ k, k ≠ i → t'.row k = t.row k) ∧ t'.blocksPerKvBlock = t.blocksPerKvBlock := by
  unfold appendRow at h
  by_cases hids : ids = []
  · rw [if_pos hids] at h
    cases h
    refine ⟨?_, fun _ _ => rfl, rfl⟩
    rw [hids]
    simp [mapToKernelBlocks]
  · rw [if_neg hids] at h
    obtain ⟨-,hsome⟩ := ite_none_right_eq_some.mp h
    cases hsome
    refine ⟨?_, fun k hk => ?_, rfl⟩
    · simp only [row, update_self]
      exact readPrefix_writeSlice _ _ _
    · simp [row, update_of_ne hk]

theorem row_addRow {t t' : BlockTable} {ids : List ℕ} (h : t.addRow ids i = some t') :
    t'.row i = mapToKernelBlocks t.blocksPerKvBlock ids ∧
      (∀ k, k ≠ i → t'.row k = t.row k) ∧ t'.blocksPerKvBlock = t.blocksPerKvBlock := by
  obtain ⟨hrow,hother,hsize⟩ := row_appendRow h
  refine ⟨?_, fun k hk => ?_, hsize⟩
  · rw [hrow]
    simp [row, readPrefix]
  · rw [hother k hk]
    simp [row, update_of_ne hk]

end BlockTable

def kernelBlockIds (tables : List BlockTable) (blockIds : List (List ℕ)) : List (List ℕ) :=
  List.zipWith (fun t ids => mapToKernelBlocks t.blocksPerKvBlock ids) tables blockIds

theorem row_addRows {ts ts' : List BlockTable} {ids : List (List ℕ)}
    (h : addRows ts ids i = some ts') : ts'.map (row · i) = kernelBlockIds ts ids ∧
      (∀ k, k ≠ i → ts'.map (row · k) = ts.map (row · k)) ∧
      ts'.map blocksPerKvBlock = ts.map blocksPerKvBlock := by
  induction ts generalizing ids ts' with
  | nil =>
    cases h
    simp [kernelBlockIds]
  | cons t ts ih =>
    cases ids with
    | nil => cases h
    | cons b ids =>
      simp only [addRows] at h
      split at h
      · rename_i t₁ ts₁ ht hts
        cases h
        obtain ⟨hrow,hother,hsize⟩ := row_addRow ht
        obtain ⟨hrows,hothers,hsizes⟩ := ih hts
        refine ⟨?_, fun k hk => ?_, ?_⟩
        · simp only [map_cons, kernelBlockIds, zipWith_cons_cons, hrow]
          rw [hrows]
          rfl
        · simp [hother k hk, hothers k hk]
        · simp [hsize, hsizes]
      · cases h

namespace InputBatch

def tokenAt (b : InputBatch) (i c : ℕ) : Option ℤ :=
  if b.isTokenIds i c then some (b.tokenIdsCpu i c) else none

def maskAt (cfg : BatchConfig) (b : InputBatch) (i : ℕ) : List Bool :=
  match b.allowedTokenIdsMask with
  | some m => m i
  | none => clearMask cfg

def samplingRow (cfg : BatchConfig) (b : InputBatch) (i : ℕ) : SamplingRow where
  temperature := b.temperatureCpu i
  topP := b.topPCpu i
  topK := b.topKCpu i
  frequencyPenalty := b.frequencyPenaltiesCpu i
  presencePenalty := b.presencePenaltiesCpu i
  repetitionPenalty := b.repetitionPenaltiesCpu i
  numAcceptedTokens := b.numAcceptedTokensCpu i
  generator := b.generators i
  badWordsTokenIds := b.badWordsTokenIds i
  allowedMask := b.maskAt cfg i

/-- The contents of row `i`. A slice never reads past the width of the token matrix. -/
def row (cfg : BatchConfig) (b : InputBatch) (i : ℕ) : BatchRow where
  activeTokens := readPrefix (b.tokenAt i) (min (b.getActiveTokenCount i) cfg.maxModelLen)
  specTokenIds := b.specAt i
  numTokensNoSpec := b.numTokensNoSpec i
  numPromptTokens := b.numPromptTokens i
  numComputedTokens := b.numComputedTokensCpu i
  replayssmDecodeBase := if cfg.useReplayssm then some (b.replayssmDecodeBase i) else none
  blockIds := b.blockTables.map (BlockTable.row · i)
  loraIntId := b.requestLoraMapping i
  sampling := if cfg.isPoolingModel then none else some (b.samplingRow cfg i)

section Swap

variable {cfg : BatchConfig} {b : InputBatch} {i j : ℕ}

theorem getD_listSwap {α : Type*} (l : List α) {j : ℕ} (d : α) (hi : i < l.length)
    (hj : j < l.length) (k : ℕ) : (listSwap l i j d).getD k d = l.getD (Equiv.swap i j k) d := by
  unfold listSwap
  by_cases hkj : k = j
  · subst hkj
    rw [Equiv.swap_apply_right, getD_eq_getElem?_getD, getElem?_set_self (by simpa)]
    rfl
  · rw [getD_eq_getElem?_getD, getElem?_set_ne (Ne.symm hkj)]
    by_cases hki : k = i
    · subst hki
      rw [Equiv.swap_apply_left, getElem?_set_self hi]
      rfl
    · rw [getElem?_set_ne (Ne.symm hki), Equiv.swap_apply_of_ne_of_ne hki hkj, getD_eq_getElem?_getD]

/-- The rows of the two requests whose states were exchanged, and of all others, apart from the
sampling columns. -/
theorem row_swapCommon (id₁ id₂ : BatchReqId) (hi : i < b.specTokenIds.length)
    (hj : j < b.specTokenIds.length) (k : ℕ) :
    { (swapCommon cfg b id₁ id₂ i j).row cfg k with sampling := none } =
      { b.row cfg (Equiv.swap i j k) with sampling := none } := by
  have hspec : (swapCommon cfg b id₁ id₂ i j).specAt k = b.specAt (Equiv.swap i j k) :=
    getD_listSwap b.specTokenIds [] hi hj k
  have hcount : (swapCommon cfg b id₁ id₂ i j).getActiveTokenCount k =
      b.getActiveTokenCount (Equiv.swap i j k) := by
    unfold getActiveTokenCount
    rw [hspec]
    exact congrArg (· + _) (colSwap_apply b.numTokensNoSpec i j k)
  -- a position of the prefix lies below the larger of the two counts
  have htoken : ∀ c < b.getActiveTokenCount (Equiv.swap i j k),
      (swapCommon cfg b id₁ id₂ i j).tokenAt k c = b.tokenAt (Equiv.swap i j k) c := by
    intro c hc
    have hlt : k = i ∨ k = j → c < max (b.getActiveTokenCount i) (b.getActiveTokenCount j) := by
      rintro (rfl | rfl)
      · rw [Equiv.swap_apply_left] at hc
        exact lt_max_of_lt_right hc
      · rw [Equiv.swap_apply_right] at hc
        exact lt_max_of_lt_left hc
    unfold tokenAt swapCommon
    simp [matSwapPrefix_apply _ hlt]
  simp only [row, BatchRow.mk.injEq, hspec, hcount, and_true, true_and]
  refine ⟨?_, colSwap_apply .., colSwap_apply .., colSwap_apply .., ?_, ?_, colSwap_apply ..⟩
  · apply readPrefix_congr
    intro c hc
    exact htoken c (lt_of_lt_of_le hc (min_le_left _ _))
  · cases h : cfg.useReplayssm <;> simp [swapCommon, h, colSwap_apply]
  · simp [swapCommon, BlockTable.row_swapRow]

theorem maskAt_swapSampling (cfg : BatchConfig) (b : InputBatch) (i j k : ℕ) :
    (b.swapSampling i j).maskAt cfg k = if k = i then b.maskAt cfg j else b.maskAt cfg k := by
  unfold maskAt swapSampling
  cases b.allowedTokenIdsMask with
  | none => simp
  | some m => exact colSwapViews_apply m i j k

theorem samplingRow_swapSampling (cfg : BatchConfig) (b : InputBatch) (i j k : ℕ) :
    (b.swapSampling i j).samplingRow cfg k = { b.samplingRow cfg (Equiv.swap i j k) with
      allowedMask := if k = i then b.maskAt cfg j else b.maskAt cfg k } := by
  simp only [samplingRow, maskAt_swapSampling, SamplingRow.mk.injEq, and_true]
  simp [swapSampling, colSwap_apply, dictSwap_apply]

theorem swapStates_eq_some (h : swapStates cfg b i j = some b') :
    ∃ id₁ id₂, b.reqIds[i]? = some (some id₁) ∧ b.reqIds[j]? = some (some id₂) ∧
      b' = if cfg.isPoolingModel then swapCommon cfg b id₁ id₂ i j
        else (swapCommon cfg b id₁ id₂ i j).swapSampling i j := by
  unfold swapStates at h
  split at h
  · rename_i id₁ id₂ h₁ h₂
    refine ⟨id₁, id₂, h₁, h₂, ?_⟩
    split at h
    · rename_i hp
      rw [if_pos hp]
      exact (Option.some.inj h).symm
    · rename_i hp
      rw [if_neg hp]
      exact (Option.some.inj h).symm
  · cases h

/-- `swap_states` exchanges the two rows when their masks agree or are not used. -/
theorem row_swapStates (h : swapStates cfg b i j = some b') (hi : i < b.specTokenIds.length)
    (hj : j < b.specTokenIds.length)
    (hmask : cfg.isPoolingModel = false → b.maskAt cfg i = b.maskAt cfg j) (k : ℕ) :
    b'.row cfg k = b.row cfg (Equiv.swap i j k) := by
  obtain ⟨id₁,id₂,-,-,rfl⟩ := swapStates_eq_some h
  apply BatchRow.ext_sampling
  · rw [← row_swapCommon id₁ id₂ hi hj k]
    split <;> rfl
  · cases hp : cfg.isPoolingModel with
    | true => simp [row, hp]
    | false =>
      simp only [row, hp, Bool.false_eq_true, if_false, Option.some.injEq, samplingRow_swapSampling]
      have hview : (if k = i then b.maskAt cfg j else b.maskAt cfg k) =
          b.maskAt cfg (Equiv.swap i j k) := by
        have h := colSwapViews_eq_colSwap_iff (b.maskAt cfg) i j
        rw [← colSwap_apply (b.maskAt cfg), ← h.mpr (hmask hp), colSwapViews_apply]
      exact congrArg (fun m => { b.samplingRow cfg (Equiv.swap i j k) with allowedMask := m }) hview

end Swap

section Move

variable {cfg : BatchConfig} {b : InputBatch} {last empty k : ℕ}

/-- Away from the vacated row, a round of `condense` puts row `last` in place of row `empty`. -/
theorem row_moveDown (reqId : BatchReqId)
    (hlast : last < b.specTokenIds.length) (hempty : empty < b.specTokenIds.length)
    (hdict : cfg.isPoolingModel = false →
      b.generators empty = none ∧ b.badWordsTokenIds empty = none) (hk : k ≠ last) :
    (moveDown cfg b reqId last empty).row cfg k = b.row cfg (if k = empty then last else k) := by
  have hspec : (moveCommon cfg b reqId last empty).specAt k =
      b.specAt (if k = empty then last else k) := by
    have hswap := getD_listSwap b.specTokenIds [] hlast hempty k
    have hto : Equiv.swap last empty k = if k = empty then last else k := by
      by_cases hke : k = empty
      · rw [hke, Equiv.swap_apply_right, if_pos rfl]
      · rw [Equiv.swap_apply_of_ne_of_ne hk hke, if_neg hke]
    rw [hto] at hswap
    unfold specAt moveCommon
    rw [← hswap]
    simp [getElem?_set_ne (Ne.symm hk)]
  have hcount : (moveCommon cfg b reqId last empty).getActiveTokenCount k =
      b.getActiveTokenCount (if k = empty then last else k) := by
    unfold getActiveTokenCount
    rw [hspec]
    exact congrArg (· + _) (colMove_apply b.numTokensNoSpec last empty k)
  have htoken : ∀ c < b.getActiveTokenCount (if k = empty then last else k),
      (moveCommon cfg b reqId last empty).tokenAt k c =
        b.tokenAt (if k = empty then last else k) c := by
    intro c hc
    have hlt : k = empty → c < b.getActiveTokenCount last := by
      intro hke
      rwa [if_pos hke] at hc
    unfold tokenAt moveCommon
    simp [matMovePrefix_apply _ hlt]
  have hcommon : { (moveCommon cfg b reqId last empty).row cfg k with sampling := none } =
      { b.row cfg (if k = empty then last else k) with sampling := none } := by
    simp only [row, BatchRow.mk.injEq, hspec, hcount, and_true, true_and]
    refine ⟨?_, colMove_apply .., colMove_apply .., colMove_apply .., ?_, ?_, colMove_apply ..⟩
    · apply readPrefix_congr
      intro c hc
      exact htoken c (lt_of_lt_of_le hc (min_le_left _ _))
    · cases h : cfg.useReplayssm <;> simp [moveCommon, h, colMove_apply]
    · simp only [moveCommon, List.map_map]
      apply List.map_congr_left
      intro t _
      exact t.row_moveRow hk
  apply BatchRow.ext_sampling
  · rw [← hcommon]
    unfold moveDown
    split <;> rfl
  · cases hp : cfg.isPoolingModel with
    | true => simp [row, hp]
    | false =>
      obtain ⟨hgen,hbad⟩ := hdict hp
      have hmask : (moveDown cfg b reqId last empty).maskAt cfg k =
          b.maskAt cfg (if k = empty then last else k) := by
        simp only [moveDown, hp, Bool.false_eq_true, if_false, maskAt, moveSampling, moveCommon]
        cases b.allowedTokenIdsMask with
        | none => rfl
        | some m => exact colMove_apply m last empty k
      simp only [row, hp, Bool.false_eq_true, if_false, samplingRow, hmask]
      simp [moveDown, hp, moveSampling, moveCommon, colMove_apply, dictMove_apply _ hgen hk, dictMove_apply _ hbad hk]

end Move

section Remove

variable {cfg : BatchConfig} {b : InputBatch} {reqId : BatchReqId} {i k : ℕ}

def vacate (cfg : BatchConfig) (b : InputBatch) (reqId : BatchReqId) (i : ℕ) : InputBatch :=
  if cfg.isPoolingModel then b.clearCommon reqId i
  else clearSampling cfg (b.clearCommon reqId i) i

theorem removeRequest_eq (hi : b.reqIdToIndex.lookup reqId = some i)
    (hs : b.isRemovedSorted = false) : removeRequest cfg b reqId = some (vacate cfg b reqId i) := by
  simp only [removeRequest, hi, hs, vacate, Bool.false_eq_true, if_false]
  split <;> rfl

theorem row_vacate (hk : k ≠ i) : (vacate cfg b reqId i).row cfg k = b.row cfg k := by
  have hspec : (b.clearCommon reqId i).specAt k = b.specAt k := by
    simp [specAt, clearCommon, getElem?_set_ne (Ne.symm hk)]
  have htables : (b.clearCommon reqId i).blockTables.map (BlockTable.row · k) =
      b.blockTables.map (BlockTable.row · k) := by
    simp only [clearCommon, List.map_map]
    apply List.map_congr_left
    intro t _
    exact t.row_clearRow_of_ne hk
  have hlora : (b.clearCommon reqId i).requestLoraMapping k = b.requestLoraMapping k :=
    update_of_ne hk ..
  have hcommon : (b.clearCommon reqId i).row cfg k = b.row cfg k := by
    simp only [row, getActiveTokenCount, hspec, htables, hlora]
    rfl
  cases hp : cfg.isPoolingModel with
  | true => simpa [vacate, hp] using hcommon
  | false =>
    rw [← hcommon]
    have hmask : (clearSampling cfg (b.clearCommon reqId i) i).maskAt cfg k =
        (b.clearCommon reqId i).maskAt cfg k := by
      unfold maskAt clearSampling
      cases (b.clearCommon reqId i).allowedTokenIdsMask with
      | none => rfl
      | some m => exact update_of_ne hk ..
    simp only [vacate, hp, Bool.false_eq_true, if_false, row, samplingRow, hmask]
    simp only [clearSampling, update_of_ne hk]
    rfl

end Remove

section Add

variable {cfg : BatchConfig} {b : InputBatch} {i k : ℕ} {req : CachedRequestState} {n : ℕ}

def promptTokens (req : CachedRequestState) (n : ℕ) : List (Option ℤ) :=
  match req.promptTokenIds with
  | some ids => List.zipWith (fun given t => if given then some t else none) (promptFlags req n) ids
  | none => List.replicate n none

def samplingOf (cfg : BatchConfig) (generator : Option ℕ) (p : SamplingParams) : SamplingRow where
  temperature := if p.samplingType = .greedy then 0 else p.temperature
  topP := p.topP
  topK := if 0 < p.topK ∧ p.topK < cfg.vocabSize then p.topK else cfg.vocabSize
  frequencyPenalty := p.frequencyPenalty
  presencePenalty := p.presencePenalty
  repetitionPenalty := p.repetitionPenalty
  numAcceptedTokens := 1
  generator := generator
  badWordsTokenIds := if p.badWordsTokenIds = [] then none else some p.badWordsTokenIds
  allowedMask := if p.allowedTokenIds = [] then clearMask cfg else maskOf cfg p.allowedTokenIds

def rowOf (cfg : BatchConfig) (tables : List BlockTable) (req : CachedRequestState) (n : ℕ) :
    BatchRow where
  activeTokens := promptTokens req n ++ req.outputTokenIds.map some
  specTokenIds := []
  numTokensNoSpec := n+req.outputTokenIds.length
  numPromptTokens := n
  numComputedTokens := req.numComputedTokens
  replayssmDecodeBase :=
    if cfg.useReplayssm then some (n+req.outputTokenIds.length) else none
  blockIds := kernelBlockIds tables req.blockIds
  loraIntId := req.loraIntId.getD 0
  sampling := if cfg.isPoolingModel then none else req.samplingParams.map (samplingOf cfg req.generator)

theorem length_promptFlags (hfit : flagsFit req n = true) : (promptFlags req n).length = n := by
  unfold flagsFit at hfit
  unfold promptFlags
  cases hp : req.promptTokenIds <;> cases hf : req.promptIsTokenIds <;> simp_all

theorem length_promptTokenIds {ids : List ℤ} (hids : req.promptTokenIds = some ids)
    (hn : lengthFromPromptTokenIdsOrEmbeds req.promptTokenIds req.promptEmbeds = some n) :
    ids.length = n := by
  rw [hids] at hn
  unfold lengthFromPromptTokenIdsOrEmbeds at hn
  cases he : req.promptEmbeds with
  | none => simpa [he] using hn
  | some e =>
    simp only [he, ne_eq, ite_not] at hn
    exact Option.some.inj (ite_none_right_eq_some.mp hn).2

def pick (given : Bool) (t : ℤ) : Option ℤ := if given then some t else none

theorem zipWith_pick_true (l : List ℤ) :
    List.zipWith pick (List.replicate l.length true) l = l.map some := by
  induction l with
  | nil => rfl
  | cons t l ih => simp [replicate_succ, pick, ih]

theorem zipWith_pick_false (hl : l.length = n) :
    List.zipWith pick (List.replicate n false) l = List.replicate n none := by
  induction l generalizing n with
  | nil =>
    subst hl
    rfl
  | cons t l ih =>
    subst hl
    simp [replicate_succ, pick, ih]

theorem readPrefix_writeTokens (cfg : BatchConfig) (hfit : flagsFit req n = true)
    (hn : lengthFromPromptTokenIdsOrEmbeds req.promptTokenIds req.promptEmbeds = some n) :
    readPrefix ((writeTokens cfg b i req n).tokenAt i) (n+req.outputTokenIds.length) =
      promptTokens req n ++ req.outputTokenIds.map some := by
  have hflags := length_promptFlags hfit
  set base := match req.promptTokenIds with
    | some ids => writeSlice (b.tokenIdsCpu i) 0 ids
    | none => b.tokenIdsCpu i with hbase
  have hzip : (writeTokens cfg b i req n).tokenAt i = fun c =>
      pick (writeSlice (writeSlice (b.isTokenIds i) 0 (promptFlags req n)) n
        (List.replicate req.outputTokenIds.length true) c)
        (writeSlice base n req.outputTokenIds c) := by
    ext1 c
    simp only [tokenAt, writeTokens, update_self]
    rfl
  have hflagsRead := readPrefix_writeSlice (writeSlice (b.isTokenIds i) 0 (promptFlags req n)) n
    (List.replicate req.outputTokenIds.length true)
  rw [length_replicate, readPrefix_writeSlice_zero _ hflags] at hflagsRead
  rw [hzip, readPrefix_zipWith, hflagsRead, readPrefix_writeSlice,
    zipWith_append (by simp [hflags]), zipWith_pick_true]
  congr 1
  unfold promptTokens
  cases hids : req.promptTokenIds with
  | some ids =>
    rw [hids] at hbase
    rw [hbase, readPrefix_writeSlice_zero _ (length_promptTokenIds hids hn)]
    rfl
  | none =>
    have hnone : promptFlags req n = List.replicate n false := by
      unfold promptFlags
      rw [hids]
    rw [hnone]
    exact zipWith_pick_false (length_readPrefix _ n)

structure Added (cfg : BatchConfig) (b : InputBatch) (req : CachedRequestState) (b' : InputBatch)
    (i n : ℕ) (b₀ : InputBatch) : Prop where
  chosen : b.registerAddRequest = (i, b₀)
  room : i < cfg.maxNumReqs
  promptLength : lengthFromPromptTokenIdsOrEmbeds req.promptTokenIds req.promptEmbeds = some n
  flags : flagsFit req n = true
  fits : n+req.outputTokenIds.length ≤ cfg.maxModelLen
  written : ∃ tables b₂, addRows b₀.blockTables req.blockIds i = some tables ∧
    writeParams cfg ((writeTokens cfg (b₀.placeRequest i req.reqId) i req n).withTables tables) i
      req = some b₂ ∧ b' = b₂.writeDefaults i req

theorem exists_added (h : addRequest cfg b req = some b') : ∃ i n b₀, Added cfg b req b' i n b₀ := by
  unfold addRequest at h
  obtain ⟨⟨i,b₀⟩,hreg⟩ : ∃ x, b.registerAddRequest = x := ⟨_, rfl⟩
  simp only [hreg] at h
  obtain ⟨hroom,h⟩ := ite_none_left_eq_some.mp h
  split at h
  · cases h
  · rename_i n hn
    obtain ⟨hfit,h⟩ := ite_none_left_eq_some.mp h
    rw [not_or, Bool.not_eq_false, Nat.not_lt] at hfit
    split at h
    · cases h
    · rename_i tables htables
      split at h
      · cases h
      · rename_i b₂ hb₂
        have htables' : addRows b₀.blockTables req.blockIds i = some tables := by
          unfold placeRequest at htables
          split at htables <;> exact htables
        exact ⟨i, n, b₀, hreg, Nat.lt_of_not_le hroom, hn, hfit.1, hfit.2, tables, b₂, htables', hb₂,
          (Option.some.inj h).symm⟩

structure Books where
  reqIds : List (Option BatchReqId)
  reqIdToIndex : AList fun _ : BatchReqId => ℕ
  reqOutputTokenIds : List (Option BatchReqId)
  specTokenIds : List (List ℤ)
  removed : List ℕ
  isRemovedSorted : Bool

def books (b : InputBatch) : Books where
  reqIds := b.reqIds
  reqIdToIndex := b.reqIdToIndex
  reqOutputTokenIds := b.reqOutputTokenIds
  specTokenIds := b.specTokenIds
  removed := b.removed
  isRemovedSorted := b.isRemovedSorted

theorem writeParams_books {b : InputBatch} (h : writeParams cfg b i req = some b') :
    b'.books = b.books := by
  unfold writeParams at h
  split at h <;> cases h <;> rfl

theorem maskAt_writeSampling (cfg : BatchConfig) (b : InputBatch) (i : ℕ) (g : Option ℕ)
    (p : SamplingParams) (k : ℕ) : (writeSampling cfg b i g p).maskAt cfg k =
      if p.allowedTokenIds ≠ [] ∧ k = i then maskOf cfg p.allowedTokenIds else b.maskAt cfg k := by
  by_cases hp : p.allowedTokenIds = []
  · simp [maskAt, writeSampling, hp]
  · by_cases hk : k = i
    · simp [maskAt, writeSampling, hp, hk]
    · cases hm : b.allowedTokenIdsMask <;> simp [maskAt, writeSampling, hp, hk, hm]

theorem generators_writeSampling (cfg : BatchConfig) (b : InputBatch) (i : ℕ) (g : Option ℕ)
    (p : SamplingParams) (k : ℕ) : (writeSampling cfg b i g p).generators k =
      if k = i then g.or (b.generators i) else b.generators k := by
  unfold writeSampling
  by_cases hk : k = i
  · cases g <;> simp [hk]
  · cases g <;> simp [hk]

theorem badWords_writeSampling (cfg : BatchConfig) (b : InputBatch) (i : ℕ) (g : Option ℕ)
    (p : SamplingParams) (k : ℕ) : (writeSampling cfg b i g p).badWordsTokenIds k =
      if p.badWordsTokenIds ≠ [] ∧ k = i then some p.badWordsTokenIds else b.badWordsTokenIds k := by
  by_cases hp : p.badWordsTokenIds = []
  · simp [writeSampling, hp]
  · by_cases hk : k = i <;> simp [writeSampling, hp, hk]

theorem writeParams_row_of_ne {b : InputBatch} (h : writeParams cfg b i req = some b')
    (hk : k ≠ i) : b'.row cfg k = b.row cfg k := by
  unfold writeParams at h
  split at h
  · cases h
    simp only [row, samplingRow, maskAt_writeSampling, generators_writeSampling,
      badWords_writeSampling, hk, and_false, if_false]
    simp only [writeSampling, update_of_ne hk]
    rfl
  · cases h
    rfl
  · cases h

theorem writeTokens_row_of_ne (cfg : BatchConfig) (b : InputBatch) (req : CachedRequestState) (n : ℕ)
    (hk : k ≠ i) : (writeTokens cfg b i req n).row cfg k = b.row cfg k := by
  have htoken : (writeTokens cfg b i req n).tokenAt k = b.tokenAt k := by
    ext1 c
    simp [tokenAt, writeTokens, update_of_ne hk]
  have hreplay : cfg.useReplayssm = true →
      (writeTokens cfg b i req n).replayssmDecodeBase k = b.replayssmDecodeBase k := by
    intro hr
    simp [writeTokens, hr, update_of_ne hk]
  have hcount : (writeTokens cfg b i req n).numTokensNoSpec k = b.numTokensNoSpec k :=
    update_of_ne hk ..
  simp only [row, getActiveTokenCount, htoken, hcount]
  simp only [BatchRow.mk.injEq]
  refine ⟨rfl, rfl, trivial, update_of_ne hk .., update_of_ne hk .., ?_, rfl, rfl, rfl⟩
  split
  · rename_i hr
    rw [hreplay hr]
  · rfl

theorem specAt_placeRequest_of_ne (hk : k ≠ i) (reqId : BatchReqId) :
    (b.placeRequest i reqId).specAt k = b.specAt k := by
  unfold placeRequest specAt
  split
  · simp only [getD_eq_getElem?_getD, getElem?_append, getElem?_singleton]
    by_cases hlt : k < b.specTokenIds.length
    · rw [if_pos hlt]
    · -- past the end both lists give an empty row
      rw [if_neg hlt, getElem?_eq_none (Nat.le_of_not_lt hlt)]
      split <;> rfl
  · simp [getElem?_set_ne (Ne.symm hk)]

theorem placeRequest_row_of_ne (hk : k ≠ i) (reqId : BatchReqId) :
    (b.placeRequest i reqId).row cfg k = b.row cfg k := by
  have hspec := specAt_placeRequest_of_ne (b := b) hk reqId
  have hnum : (b.placeRequest i reqId).numTokensNoSpec = b.numTokensNoSpec := by
    unfold placeRequest
    split <;> rfl
  simp only [row, getActiveTokenCount, hspec, hnum]
  unfold placeRequest
  split <;> rfl

namespace Added

variable {b b' b₀ : InputBatch}

theorem books_eq (h : Added cfg b req b' i n b₀) : b'.books = (b₀.placeRequest i req.reqId).books := by
  obtain ⟨tables,b₂,-,hparams,rfl⟩ := h.written
  exact (writeParams_books hparams).trans rfl

theorem row_of_ne (h : Added cfg b req b' i n b₀) (hk : k ≠ i) : b'.row cfg k = b₀.row cfg k := by
  obtain ⟨tables,b₂,htables,hparams,rfl⟩ := h.written
  have hlast : b₂.row cfg k = { (b₀.placeRequest i req.reqId).row cfg k with
      blockIds := tables.map (BlockTable.row · k) } := by
    have htok := writeTokens_row_of_ne cfg (b₀.placeRequest i req.reqId) req n hk
    rw [writeParams_row_of_ne hparams hk, ← htok]
    rfl
  rw [placeRequest_row_of_ne hk, (row_addRows htables).2.1 k hk] at hlast
  rw [show b₀.row cfg k = b₂.row cfg k from hlast.symm]
  simp only [row, samplingRow, writeDefaults, update_of_ne hk]
  rfl

def maskLeft (cfg : BatchConfig) (b₀ : InputBatch) (i : ℕ) (p : SamplingParams) : List Bool :=
  if p.allowedTokenIds = [] then b₀.maskAt cfg i else maskOf cfg p.allowedTokenIds

theorem samplingRow_self (h : Added cfg b req b' i n b₀) {p : SamplingParams}
    (hp : req.samplingParams = some p) (hgen : b₀.generators i = none)
    (hbad : b₀.badWordsTokenIds i = none) : b'.samplingRow cfg i =
      { samplingOf cfg req.generator p with allowedMask := maskLeft cfg b₀ i p } := by
  obtain ⟨tables,b₂,-,hparams,rfl⟩ := h.written
  simp only [writeParams, hp, Option.some.injEq] at hparams
  subst hparams
  -- the steps before the sampling columns leave the dictionaries and the mask alone
  set b₁ := (writeTokens cfg (b₀.placeRequest i req.reqId) i req n).withTables tables with hb₁
  have hgen₁ : b₁.generators i = none := by
    rw [← hgen, hb₁]
    unfold placeRequest
    split <;> rfl
  have hbad₁ : b₁.badWordsTokenIds i = none := by
    rw [← hbad, hb₁]
    unfold placeRequest
    split <;> rfl
  have hmask₁ : b₁.maskAt cfg i = b₀.maskAt cfg i := by
    rw [hb₁]
    unfold placeRequest
    split <;> rfl
  have hmask : (writeSampling cfg b₁ i req.generator p).maskAt cfg i = maskLeft cfg b₀ i p := by
    rw [maskAt_writeSampling, hmask₁, maskLeft]
    by_cases ha : p.allowedTokenIds = [] <;> simp [ha]
  have hgen₂ : (writeSampling cfg b₁ i req.generator p).generators i = req.generator := by
    rw [generators_writeSampling, hgen₁, if_pos rfl, or_none]
  have hbad₂ : (writeSampling cfg b₁ i req.generator p).badWordsTokenIds i =
      if p.badWordsTokenIds = [] then none else some p.badWordsTokenIds := by
    rw [badWords_writeSampling, hbad₁]
    by_cases ha : p.badWordsTokenIds = [] <;> simp [ha]
  have hfields : ((writeSampling cfg b₁ i req.generator p).writeDefaults i req).samplingRow cfg i =
      { samplingOf cfg req.generator p with
        generator := (writeSampling cfg b₁ i req.generator p).generators i
        badWordsTokenIds := (writeSampling cfg b₁ i req.generator p).badWordsTokenIds i
        allowedMask := (writeSampling cfg b₁ i req.generator p).maskAt cfg i } := by
    simp only [samplingRow, writeDefaults, samplingOf, writeSampling, update_self]
    rfl
  rw [hfields, hmask, hgen₂, hbad₂]
  rfl

theorem row_common_self (h : Added cfg b req b' i n b₀)
    (hspec : (b₀.placeRequest i req.reqId).specAt i = []) : { b'.row cfg i with sampling := none } =
      { rowOf cfg b₀.blockTables req n with sampling := none } := by
  obtain ⟨tables,b₂,htables,hparams,rfl⟩ := h.written
  have hkept : { (b₂.writeDefaults i req).row cfg i with sampling := none } =
      { ((writeTokens cfg (b₀.placeRequest i req.reqId) i req n).withTables tables).row cfg i with
        loraIntId := req.loraIntId.getD 0, sampling := none } := by
    unfold writeParams at hparams
    split at hparams <;> cases hparams <;>
      simp only [row, writeDefaults, update_self] <;> rfl
  rw [hkept]
  have hspec₁ : (writeTokens cfg (b₀.placeRequest i req.reqId) i req n).specAt i = [] := hspec
  have hcount : ((writeTokens cfg (b₀.placeRequest i req.reqId) i req n).withTables
      tables).getActiveTokenCount i = n+req.outputTokenIds.length := by
    unfold getActiveTokenCount
    rw [show ((writeTokens cfg (b₀.placeRequest i req.reqId) i req n).withTables
      tables).specAt i = [] from hspec₁]
    exact update_self ..
  simp only [row, rowOf, hcount, min_eq_left h.fits, BatchRow.mk.injEq]
  refine ⟨readPrefix_writeTokens cfg h.flags h.promptLength, hspec, update_self ..,
    update_self .., update_self .., ?_, (row_addRows htables).1, trivial, trivial⟩
  cases hr : cfg.useReplayssm <;> simp [writeTokens, withTables, hr]

/-- An added request finds its own row exactly when no mask of an earlier request is left in it. -/
theorem row_self_iff (h : Added cfg b req b' i n b₀)
    (hspec : (b₀.placeRequest i req.reqId).specAt i = [])
    (hkind : cfg.isPoolingModel = false → req.samplingParams.isSome)
    (hdict : cfg.isPoolingModel = false → b₀.generators i = none ∧ b₀.badWordsTokenIds i = none) :
    b'.row cfg i = rowOf cfg b₀.blockTables req n ↔
      (cfg.isPoolingModel = false → ∀ p, req.samplingParams = some p → p.allowedTokenIds = [] →
        b₀.maskAt cfg i = clearMask cfg) := by
  have hcommon := h.row_common_self hspec
  cases hp : cfg.isPoolingModel with
  | true =>
    refine iff_of_true (BatchRow.ext_sampling hcommon ?_) (by simp)
    simp [row, rowOf, hp]
  | false =>
    obtain ⟨p,hsome⟩ := isSome_iff_exists.mp (hkind hp)
    obtain ⟨hgen,hbad⟩ := hdict hp
    have hsampling := h.samplingRow_self hsome hgen hbad
    have hrow : (b'.row cfg i).sampling = some (b'.samplingRow cfg i) := by
      simp [row, hp]
    have hwant : (rowOf cfg b₀.blockTables req n).sampling = some (samplingOf cfg req.generator p) := by
      simp [rowOf, hp, hsome]
    constructor
    · intro heq _ q hq hnil
      obtain rfl : p = q := Option.some.inj (hsome.symm.trans hq)
      have hmask := congrArg BatchRow.sampling heq
      rw [hrow, hwant, Option.some.injEq, hsampling] at hmask
      have hm := congrArg SamplingRow.allowedMask hmask
      simpa [maskLeft, samplingOf, hnil] using hm
    · intro hclear
      refine BatchRow.ext_sampling hcommon ?_
      rw [hrow, hwant, hsampling]
      have hm : maskLeft cfg b₀ i p = (samplingOf cfg req.generator p).allowedMask := by
        unfold maskLeft samplingOf
        by_cases hnil : p.allowedTokenIds = []
        · rw [if_pos hnil, if_pos hnil, hclear rfl p hsome hnil]
        · rw [if_neg hnil, if_neg hnil]
      rw [hm]

end Added

end Add

section Spec

variable {cfg : BatchConfig} {b b' : InputBatch} {reqId : BatchReqId} {i k : ℕ}

def withSpec (specTokenIds : List ℤ) (r : BatchRow) : BatchRow :=
  { r with
    activeTokens := r.activeTokens.take r.numTokensNoSpec ++ specTokenIds.map some
    specTokenIds := specTokenIds }

theorem specAt_set {c : InputBatch} (h : i < b.specTokenIds.length)
    (hc : c.specTokenIds = b.specTokenIds.set i l) : c.specAt i = l := by
  simp [specAt, hc, h]

theorem specAt_set_of_ne {c : InputBatch} (hc : c.specTokenIds = b.specTokenIds.set i l)
    (hk : k ≠ i) : c.specAt k = b.specAt k := by
  simp [specAt, hc, getElem?_set_ne (Ne.symm hk)]

/-- `update_req_spec_token_ids` writes the drafts behind the tokens of its own row. -/
theorem updateReqSpecTokenIds_row {ids : List ℤ} (h : updateReqSpecTokenIds cfg b reqId ids = some b')
    (hindex : b.reqIdToIndex.lookup reqId = some i) (hlt : i < b.specTokenIds.length) :
    b'.row cfg i = withSpec ids (b.row cfg i) ∧ (∀ k, k ≠ i → b'.row cfg k = b.row cfg k) ∧
      { b'.books with specTokenIds := b.specTokenIds } = b.books ∧
      b'.specTokenIds.length = b.specTokenIds.length := by
  simp only [updateReqSpecTokenIds, hindex] at h
  by_cases hids : ids = []
  · rw [if_pos hids] at h
    subst hids
    cases h
    have hspec := specAt_set (c := { b with specTokenIds := b.specTokenIds.set i [] }) hlt rfl
    refine ⟨?_, fun k hk => ?_, rfl, by simp⟩
    · simp only [row, withSpec, getActiveTokenCount, hspec, take_readPrefix, map_nil,
        append_nil, length_nil, Nat.add_zero]
      rw [← min_assoc, min_eq_left (Nat.le_add_right _ _)]
      rfl
    · have hother := specAt_set_of_ne (b := b)
        (c := { b with specTokenIds := b.specTokenIds.set i [] }) rfl hk
      simp only [row, getActiveTokenCount, hother]
      rfl
  · rw [if_neg hids] at h
    obtain ⟨hfits,h⟩ := ite_none_left_eq_some.mp h
    rw [Nat.not_lt] at hfits
    set b₁ : InputBatch := { b with
      tokenIdsCpu := update b.tokenIdsCpu i
        (writeSlice (b.tokenIdsCpu i) (b.numTokensNoSpec i) ids)
      isTokenIds := update b.isTokenIds i
        (writeSlice (b.isTokenIds i) (b.numTokensNoSpec i) (List.replicate ids.length true))
      specTokenIds := b.specTokenIds.set i ids } with hb₁
    obtain rfl : b' = b₁ := (Option.some.inj h).symm
    have hspec : b₁.specAt i = ids := specAt_set hlt rfl
    -- the drafts extend the prefix of known length
    have htokens : readPrefix (b₁.tokenAt i) (b.numTokensNoSpec i+ids.length) =
        readPrefix (b.tokenAt i) (b.numTokensNoSpec i) ++ ids.map some := by
      have hzip : b₁.tokenAt i = fun c =>
          pick (writeSlice (b.isTokenIds i) (b.numTokensNoSpec i) (List.replicate ids.length true) c)
            (writeSlice (b.tokenIdsCpu i) (b.numTokensNoSpec i) ids c) := by
        ext1 c
        simp only [hb₁, tokenAt, update_self]
        rfl
      have hflags := readPrefix_writeSlice (b.isTokenIds i) (b.numTokensNoSpec i)
        (List.replicate ids.length true)
      rw [length_replicate] at hflags
      rw [hzip, readPrefix_zipWith, hflags, readPrefix_writeSlice, zipWith_append (by simp),
        zipWith_pick_true, ← readPrefix_zipWith]
      rfl
    refine ⟨?_, fun k hk => ?_, rfl, by simp [hb₁]⟩
    · have hold : min (b.numTokensNoSpec i)
          (min (b.numTokensNoSpec i+(b.specAt i).length) cfg.maxModelLen) =
            b.numTokensNoSpec i := by omega
      simp only [row, withSpec, getActiveTokenCount, hspec, take_readPrefix, hold]
      rw [show b₁.numTokensNoSpec i = b.numTokensNoSpec i from rfl, min_eq_left hfits, htokens]
      rfl
    · have hother : b₁.specAt k = b.specAt k := specAt_set_of_ne rfl hk
      have htoken : b₁.tokenAt k = b.tokenAt k := by
        ext1 c
        simp [hb₁, tokenAt, update_of_ne hk]
      simp only [row, getActiveTokenCount, hother, htoken]
      rfl

end Spec

end InputBatch

end MetaZenith
