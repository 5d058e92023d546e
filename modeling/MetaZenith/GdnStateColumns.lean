import MetaZenith.GuardedRuns

/-! The recurrent state a gated delta net layer starts each step from. A request owns the columns
s .. s+K of its block table row; a state is named by the tokens it has consumed. The metadata builder
picks the starting column from the draft counts of the whole batch and from the accepted counts that
the runner carries from step to step. -/

namespace MetaZenith.Gdn

open List Option Function

variable {τ : Type*}

/-- One request's part of a scheduler output, with the answer the sampler will give for it. An empty
`specTokenIds` is a request without an entry in `scheduled_spec_decode_tokens`. -/
structure ScheduledRow (τ : Type*) where
  reqId : ℕ
  numScheduledTokens : ℕ
  specTokenIds : List τ
  numAcceptedDrafts : ℕ
  nextToken : τ
deriving DecidableEq

/-- What the runner keeps of a row of the previous batch: `prev_num_draft_tokens` and the number of
sampled tokens (`num_accepted_tokens_cpu`, `valid_sampled_token_count_gpu`). Condensing and reordering
move the entry with its request. -/
structure PrevRow where
  reqId : ℕ
  numDraftTokens : ℕ
  numSampledTokens : ℕ
deriving DecidableEq

structure BatchRow where
  reqId : ℕ
  queryLen : ℕ
  contextLen : ℕ
  numAcceptedTokens : ℕ
  numDecodeDraftTokens : ℤ
deriving DecidableEq

structure GDNAttentionMetadata where
  numPrefills : ℕ
  numDecodes : ℕ
  numSpecDecodes : ℕ
  /-- Rows of `spec_state_indices_tensor`, with their accepted counts. -/
  specRows : List BatchRow
  /-- Rows of `non_spec_state_indices_tensor`: the first `numDecodes` of them are decodes. -/
  nonSpecRows : List BatchRow
deriving DecidableEq

def splitDecodesAndPrefills (rows : List BatchRow) : ℕ :=
  (rows.takeWhile (·.queryLen ≤ 1)).length

def BatchRow.isSpec (row : BatchRow) : Bool := 0 ≤ row.numDecodeDraftTokens

/-- `GDNAttentionMetadataBuilder.build`. The draft counts are passed only when some request of the batch
has drafts (`useSpecDecode`). -/
def build (numSpec : ℕ) (useSpecDecode : Bool) (rows : List BatchRow) : GDNAttentionMetadata :=
  let specRows := rows.filter (·.isSpec)
  if numSpec = 0 ∨ useSpecDecode = false ∨ (specRows.map (·.numDecodeDraftTokens)).sum = 0 then
    let numDecodes := splitDecodesAndPrefills rows
    { numPrefills := rows.length-numDecodes, numDecodes, numSpecDecodes := 0, specRows := [],
      nonSpecRows := rows }
  else
    let nonSpecRows := rows.filter (!·.isSpec)
    let numDecodes := nonSpecRows.countP (·.queryLen = 1)
    let numZeroLen := nonSpecRows.countP (·.queryLen = 0)
    let numPrefills := nonSpecRows.length-numDecodes-numZeroLen
    -- non-speculative decodes go through the prefill kernel when others speculate
    if 0 < numDecodes ∧ 0 < specRows.length then
      { numPrefills := numPrefills+numDecodes, numDecodes := 0,
        numSpecDecodes := specRows.length, specRows, nonSpecRows }
    else
      { numPrefills, numDecodes, numSpecDecodes := specRows.length, specRows, nonSpecRows }

variable (md : GDNAttentionMetadata)

namespace GDNAttentionMetadata

def isSpec (r : ℕ) : Bool := md.specRows.any (·.reqId = r)

def isDecode (r : ℕ) : Bool :=
  (md.nonSpecRows.take md.numDecodes).any (·.reqId = r)

/-- The state a request's kernel starts from: column s + num_accepted - 1 for a speculative row, column
s for any other one. Only the prefill kernel masks the column of a row without context. -/
def initialState (columns : ℕ → List τ) (r : ℕ) : List τ :=
  match md.specRows.find? (·.reqId = r) with
  | some row => columns (row.numAcceptedTokens-1)
  | none =>
    if md.isDecode r then columns 0
    else match md.nonSpecRows.find? (·.reqId = r) with
      | some row => if 0 < row.contextLen then columns 0 else []
      | none => []

def finalColumns (columns : ℕ → List τ) (r : ℕ) (query : List τ) : ℕ → List τ :=
  let start := md.initialState columns r
  if md.isSpec r then
    fun j => if j < query.length then start ++ query.take (j+1) else columns j
  else update columns 0 (start ++ query)

end GDNAttentionMetadata

/-- A request with its token list, its computed count and the states in its columns. `lastCount` is a
ghost: how many tokens its last step produced, one for a prefill chunk. -/
structure RequestState (τ : Type*) where
  tokens : List τ
  numComputedTokens : ℕ
  columns : ℕ → List τ
  lastCount : ℕ

structure Config where
  numSpec : ℕ
  useAsyncScheduling : Bool

structure System (τ : Type*) where
  requests : ℕ → Option (RequestState τ)
  prevRows : List PrevRow

def System.init : System τ := ⟨fun _ => none, []⟩

/-- `num_accepted_tokens` of a row in `_prepare_inputs`. Without async scheduling it is the row's last
sampled count, and one for a row that was just added. With it, the count starts at one and
`update_num_computed_tokens_for_batch_change` replaces it for rows that had drafts. -/
def numAcceptedTokens (cfg : Config) (prev : List PrevRow) (r : ℕ) : ℕ :=
  match prev.find? (·.reqId = r) with
  | none => 1
  | some row =>
    if cfg.useAsyncScheduling = true ∧ row.numDraftTokens = 0 then 1 else row.numSampledTokens

/-- The entry of `num_decode_draft_tokens`: -1 unless the row is exactly one token and its drafts. -/
def ScheduledRow.numDecodeDraftTokens (row : ScheduledRow τ) : ℤ :=
  if row.specTokenIds.length ≠ 0 ∧ row.numScheduledTokens = row.specTokenIds.length+1 then
    row.specTokenIds.length
  else -1

def System.batchRow (cfg : Config) (s : System τ) (row : ScheduledRow τ) : BatchRow :=
  { reqId := row.reqId, queryLen := row.numScheduledTokens
    contextLen := (s.requests row.reqId).elim 0 (·.numComputedTokens)
    numAcceptedTokens := numAcceptedTokens cfg s.prevRows row.reqId
    numDecodeDraftTokens := row.numDecodeDraftTokens }

def System.batchRows (cfg : Config) (s : System τ) (rows : List (ScheduledRow τ)) :
    List BatchRow :=
  rows.map (s.batchRow cfg)

def System.metadata (cfg : Config) (s : System τ) (rows : List (ScheduledRow τ)) :
    GDNAttentionMetadata :=
  build cfg.numSpec (rows.any fun row => row.specTokenIds.length ≠ 0) (s.batchRows cfg rows)

/-- What the scheduler may put in a row: a chunk of the known tokens, or the last known token with at
most K drafts. Drafts exist only for a request that has sampled since it was admitted or resumed. -/
def LegalRow (cfg : Config) (st : RequestState τ) (row : ScheduledRow τ) : Prop :=
  0 < row.numScheduledTokens ∧ row.numAcceptedDrafts ≤ row.specTokenIds.length ∧
    row.specTokenIds.length ≤ cfg.numSpec ∧
    if row.specTokenIds.length = 0 then
      st.numComputedTokens+row.numScheduledTokens ≤ st.tokens.length
    else 0 < st.numComputedTokens ∧ st.numComputedTokens+1 = st.tokens.length ∧
      row.numScheduledTokens = row.specTokenIds.length+1

instance (cfg : Config) (st : RequestState τ) (row : ScheduledRow τ) :
    Decidable (LegalRow cfg st row) := by
  unfold LegalRow
  infer_instance

def scheduleRunning (st : RequestState τ) (specTokenIds : List τ)
    (longPrefillThreshold tokenBudget maxModelLen : ℕ) : ℕ × List τ :=
  let numNewTokens := st.tokens.length+specTokenIds.length-st.numComputedTokens
  let numNewTokens :=
    if 0 < longPrefillThreshold ∧ longPrefillThreshold < numNewTokens then longPrefillThreshold
    else numNewTokens
  let numNewTokens := min numNewTokens tokenBudget
  let numNewTokens := min numNewTokens (maxModelLen-st.numComputedTokens-1)
  let numScheduledSpecTokens := numNewTokens+st.numComputedTokens-st.tokens.length
  (numNewTokens, specTokenIds.take numScheduledSpecTokens)

def RequestState.query (st : RequestState τ) (row : ScheduledRow τ) : List τ :=
  (st.tokens.drop st.numComputedTokens ++ row.specTokenIds).take row.numScheduledTokens

def ScheduledRow.numSampledTokens (row : ScheduledRow τ) : ℕ := row.numAcceptedDrafts+1

def RequestState.advance (st : RequestState τ) (md : GDNAttentionMetadata)
    (row : ScheduledRow τ) : RequestState τ :=
  let columns := md.finalColumns st.columns row.reqId (st.query row)
  if row.specTokenIds.length = 0 then
    { tokens :=
        -- a chunk that stops short of the known tokens samples nothing
        if st.numComputedTokens+row.numScheduledTokens < st.tokens.length then st.tokens
        else st.tokens ++ [row.nextToken]
      numComputedTokens := st.numComputedTokens+row.numScheduledTokens
      columns, lastCount := 1 }
  else
    { tokens := st.tokens ++ row.specTokenIds.take row.numAcceptedDrafts ++ [row.nextToken]
      numComputedTokens := st.numComputedTokens+row.numSampledTokens
      columns, lastCount := row.numSampledTokens }

inductive Event (τ : Type*) where
  /-- A new request. Its blocks hold whatever their earlier owners left. -/
  | addRequest (r : ℕ) (tokens : List τ) (columns : ℕ → List τ)
  /-- A preempted request: its blocks are gone and it starts over in others. -/
  | preempt (r : ℕ) (columns : ℕ → List τ)
  | finish (r : ℕ)
  | step (rows : List (ScheduledRow τ))

def System.Legal (cfg : Config) (s : System τ) (rows : List (ScheduledRow τ)) : Prop :=
  (rows.map (·.reqId)).Nodup ∧
    ∀ row ∈ rows, (s.requests row.reqId).any fun st => decide (LegalRow cfg st row)

instance (cfg : Config) (s : System τ) (rows : List (ScheduledRow τ)) :
    Decidable (s.Legal cfg rows) := by
  unfold System.Legal
  infer_instance

def System.runRows (cfg : Config) (s : System τ) (rows : List (ScheduledRow τ)) (r : ℕ) :
    Option (RequestState τ) :=
  match rows.find? (·.reqId = r) with
  | none => s.requests r
  | some row => (s.requests r).map (·.advance (s.metadata cfg rows) row)

def ScheduledRow.prevRow (row : ScheduledRow τ) : PrevRow :=
  { reqId := row.reqId, numDraftTokens := row.specTokenIds.length
    numSampledTokens := row.numSampledTokens }

def dropRow (cfg : Config) (prev : List PrevRow) (r : ℕ) : List PrevRow :=
  if cfg.useAsyncScheduling then prev else prev.filter (·.reqId ≠ r)

def System.step (cfg : Config) (s : System τ) : Event τ → Option (System τ)
  | .addRequest r tokens columns =>
    if tokens = [] then none
    else some { s with requests := update s.requests r (some ⟨tokens, 0, columns, 1⟩) }
  | .preempt r columns =>
    (s.requests r).map fun st =>
      { requests := update s.requests r (some ⟨st.tokens, 0, columns, 1⟩)
        prevRows := dropRow cfg s.prevRows r }
  | .finish r =>
    some { requests := update s.requests r none
           prevRows := dropRow cfg s.prevRows r }
  | .step rows =>
    if s.Legal cfg rows then
      some { requests := s.runRows cfg rows, prevRows := rows.map (·.prevRow) }
    else none

theorem find?_of_nodup {α : Type*} {key : α → ℕ} {l : List α} {x : α} (h : (l.map key).Nodup)
    (hx : x ∈ l) : l.find? (fun y => key y = key x) = some x := by
  have hsome : (l.find? fun y => key y = key x).isSome := by
    rw [List.find?_isSome]
    exact ⟨x,hx,by simp⟩
  obtain ⟨y,hy⟩ := isSome_iff_exists.mp hsome
  have hkey : key y = key x := by simpa using find?_some hy
  rw [hy, inj_on_of_nodup_map h (mem_of_find?_eq_some hy) hx hkey]

theorem build_of_no_drafts {numSpec : ℕ} {useSpecDecode : Bool} {rows : List BatchRow}
    (h : numSpec = 0 ∨ useSpecDecode = false ∨
      ((rows.filter (·.isSpec)).map (·.numDecodeDraftTokens)).sum = 0) :
    (build numSpec useSpecDecode rows).specRows = [] ∧
      (build numSpec useSpecDecode rows).nonSpecRows = rows := by
  simp [build, if_pos h]

theorem build_of_drafts {numSpec : ℕ} {useSpecDecode : Bool} {rows : List BatchRow}
    (h : ¬ (numSpec = 0 ∨ useSpecDecode = false ∨
      ((rows.filter (·.isSpec)).map (·.numDecodeDraftTokens)).sum = 0)) :
    (build numSpec useSpecDecode rows).specRows = rows.filter (·.isSpec) ∧
      (build numSpec useSpecDecode rows).nonSpecRows = rows.filter (!·.isSpec) := by
  simp only [build, if_neg h]
  -- reclassifying the decodes moves counts, not rows
  split <;> exact ⟨rfl,rfl⟩

variable {r : ℕ}

namespace System

variable {cfg : Config} {s : System τ} {rows : List (ScheduledRow τ)} {row : ScheduledRow τ}
  {st : RequestState τ}

section

variable (h : s.Legal cfg rows)

include h

theorem Legal.legalRow (hrow : row ∈ rows)
    (hst : s.requests row.reqId = some st) : LegalRow cfg st row := by
  simpa [hst] using h.2 row hrow

theorem Legal.exists_state (hrow : row ∈ rows) : ∃ st, s.requests row.reqId = some st := by
  have hany := h.2 row hrow
  cases hreq : s.requests row.reqId with
  | none => simp [hreq] at hany
  | some st => exact ⟨st,rfl⟩

/-- A legal row is speculative exactly when it has drafts, whatever the other rows are. -/
theorem Legal.isSpec_batchRow (hrow : row ∈ rows) :
    (s.batchRow cfg row).isSpec = decide (row.specTokenIds.length ≠ 0) := by
  obtain ⟨st,hst⟩ := h.exists_state hrow
  obtain ⟨_,_,_,hshape⟩ := h.legalRow hrow hst
  simp only [batchRow, BatchRow.isSpec, ScheduledRow.numDecodeDraftTokens]
  by_cases hd : row.specTokenIds.length = 0
  · simp [hd]
  · rw [if_neg hd] at hshape
    simp [hd, hshape.2.2]

theorem Legal.nodup_batchRows : ((s.batchRows cfg rows).map (·.reqId)).Nodup := by
  rw [batchRows, List.map_map]
  exact h.1

theorem Legal.has_drafts (hrow : row ∈ rows) (hd : row.specTokenIds.length ≠ 0) :
    ¬ (cfg.numSpec = 0 ∨ (rows.any fun row => row.specTokenIds.length ≠ 0) = false ∨
      (((s.batchRows cfg rows).filter (·.isSpec)).map (·.numDecodeDraftTokens)).sum = 0) := by
  obtain ⟨st,hst⟩ := h.exists_state hrow
  obtain ⟨_,_,hle,hshape⟩ := h.legalRow hrow hst
  rw [if_neg hd] at hshape
  have hmem : s.batchRow cfg row ∈ (s.batchRows cfg rows).filter (·.isSpec) := by
    rw [mem_filter, h.isSpec_batchRow hrow, batchRows]
    exact ⟨mem_map_of_mem hrow,by simpa using hd⟩
  have hcount : 0 < (s.batchRow cfg row).numDecodeDraftTokens := by
    simp only [batchRow, ScheduledRow.numDecodeDraftTokens, if_pos (And.intro hd hshape.2.2)]
    omega
  have hle_sum : (s.batchRow cfg row).numDecodeDraftTokens ≤
      (((s.batchRows cfg rows).filter (·.isSpec)).map (·.numDecodeDraftTokens)).sum := by
    apply single_le_sum _ _ (mem_map_of_mem hmem)
    intro d hd
    obtain ⟨b,hb,rfl⟩ := mem_map.mp hd
    simpa [BatchRow.isSpec] using (mem_filter.mp hb).2
  rintro (h0 | h0 | h0)
  · omega
  · rw [List.any_eq_false] at h0
    exact h0 row hrow (by simpa using hd)
  · omega

theorem Legal.initialState_of_drafts (hrow : row ∈ rows)
    (hd : row.specTokenIds.length ≠ 0) (columns : ℕ → List τ) :
    (s.metadata cfg rows).isSpec row.reqId = true ∧
      (s.metadata cfg rows).initialState columns row.reqId =
        columns (numAcceptedTokens cfg s.prevRows row.reqId-1) := by
  have hrows := (build_of_drafts (h.has_drafts hrow hd)).1
  have hmem : s.batchRow cfg row ∈ (s.metadata cfg rows).specRows := by
    rw [metadata, hrows, mem_filter, h.isSpec_batchRow hrow, batchRows]
    exact ⟨mem_map_of_mem hrow,by simpa using hd⟩
  have hnodup : ((s.metadata cfg rows).specRows.map (·.reqId)).Nodup := by
    rw [metadata, hrows]
    exact h.nodup_batchRows.sublist (filter_sublist.map _)
  have hfind : (s.metadata cfg rows).specRows.find? (fun b => b.reqId = row.reqId) =
      some (s.batchRow cfg row) := find?_of_nodup hnodup hmem
  constructor
  · rw [GDNAttentionMetadata.isSpec, List.any_eq_true]
    exact ⟨_,hmem,by simp [batchRow]⟩
  · simp only [GDNAttentionMetadata.initialState, hfind]
    rfl

/-- A row without drafts starts at column s, also when other rows speculate; without context it does so
only as a decode. -/
theorem Legal.initialState_of_no_drafts (hrow : row ∈ rows)
    (hst : s.requests row.reqId = some st) (hd : row.specTokenIds.length = 0)
    (columns : ℕ → List τ) : (s.metadata cfg rows).isSpec row.reqId = false ∧
      (s.metadata cfg rows).initialState columns row.reqId =
        if (s.metadata cfg rows).isDecode row.reqId = true ∨ 0 < st.numComputedTokens then columns 0
        else [] := by
  have hnot : (s.batchRow cfg row).isSpec = false := by
    rw [h.isSpec_batchRow hrow]
    simpa using hd
  have hin : s.batchRow cfg row ∈ s.batchRows cfg rows := mem_map_of_mem hrow
  have hinj := inj_on_of_nodup_map h.nodup_batchRows
  -- in either branch of the builder the row is among the others and only there
  have hsplit : (∀ b ∈ (s.metadata cfg rows).specRows, b.reqId ≠ row.reqId) ∧
      s.batchRow cfg row ∈ (s.metadata cfg rows).nonSpecRows ∧
      ((s.metadata cfg rows).nonSpecRows.map (·.reqId)).Nodup := by
    rw [metadata]
    by_cases hb : cfg.numSpec = 0 ∨ (rows.any fun row => row.specTokenIds.length ≠ 0) = false ∨
        (((s.batchRows cfg rows).filter (·.isSpec)).map (·.numDecodeDraftTokens)).sum = 0
    · obtain ⟨hspec,hrest⟩ := build_of_no_drafts hb
      rw [hspec, hrest]
      exact ⟨by simp,hin,h.nodup_batchRows⟩
    · obtain ⟨hspec,hrest⟩ := build_of_drafts hb
      rw [hspec, hrest]
      refine ⟨?_,mem_filter.mpr ⟨hin,by simp [hnot]⟩, h.nodup_batchRows.sublist (filter_sublist.map _)⟩
      intro b hb heq
      obtain ⟨hmem,hisSpec⟩ := mem_filter.mp hb
      rw [hinj hmem hin heq, hnot] at hisSpec
      cases hisSpec
  obtain ⟨hspec,hrest,hnodup⟩ := hsplit
  have hnone : (s.metadata cfg rows).specRows.find? (fun b => b.reqId = row.reqId) = none := by
    rw [find?_eq_none]
    intro b hb
    simpa using hspec b hb
  have hfind : (s.metadata cfg rows).nonSpecRows.find? (fun b => b.reqId = row.reqId) =
      some (s.batchRow cfg row) := find?_of_nodup hnodup hrest
  constructor
  · rw [GDNAttentionMetadata.isSpec, List.any_eq_false]
    intro b hb
    simpa using hspec b hb
  · simp only [GDNAttentionMetadata.initialState, hnone, hfind]
    by_cases hdec : (s.metadata cfg rows).isDecode row.reqId = true
    · simp [hdec]
    · simp [hdec, batchRow, hst]

end

/-- What a request's columns hold between steps: the newest state where its last count points and, after
a speculative step, the state after that step's first token in column s. -/
structure Tracks (cfg : Config) (s : System τ) (r : ℕ) (st : RequestState τ) : Prop where
  computed_le : st.numComputedTokens ≤ st.tokens.length
  count_pos : 0 < st.lastCount
  count_le : 0 < st.numComputedTokens → st.lastCount ≤ st.numComputedTokens
  newest : 0 < st.numComputedTokens →
    st.columns (st.lastCount-1) = st.tokens.take st.numComputedTokens
  first : 0 < st.numComputedTokens →
    st.columns 0 = st.tokens.take (st.numComputedTokens-st.lastCount+1)
  remembered : 0 < st.numComputedTokens → (s.prevRows.any fun p => p.reqId = r) = true →
    numAcceptedTokens cfg s.prevRows r = st.lastCount

/-- The steps that take a request over correctly: the last step produced one token, or this one
speculates and the request sat in the previous batch. A first step must not read a column that an
earlier owner has written. -/
def Continues (cfg : Config) (s : System τ) (rows : List (ScheduledRow τ)) (r : ℕ)
    (st : RequestState τ) : Prop :=
  if st.numComputedTokens = 0 then
    (s.metadata cfg rows).isDecode r = true → st.columns 0 = []
  else st.lastCount = 1 ∨
    (s.metadata cfg rows).isSpec r = true ∧ (s.prevRows.any fun p => p.reqId = r) = true

theorem numAcceptedTokens_of_absent {prev : List PrevRow}
    (h : ¬ (prev.any fun p => p.reqId = r) = true) : numAcceptedTokens cfg prev r = 1 := by
  have hnone : prev.find? (fun p => p.reqId = r) = none := by
    simpa [find?_eq_none] using h
  simp [numAcceptedTokens, hnone]

theorem Tracks.first_eq_iff (h : Tracks cfg s r st) (hpos : 0 < st.numComputedTokens) :
    st.columns 0 = st.tokens.take st.numComputedTokens ↔ st.lastCount = 1 := by
  have hle := h.computed_le
  have hcount := h.count_le hpos
  have hcount_pos := h.count_pos
  rw [h.first hpos]
  constructor
  · intro heq
    have hlen := congrArg List.length heq
    simp only [length_take] at hlen
    omega
  · intro heq
    congr 1
    omega

/-- The selected state is the one after the computed tokens exactly in the steps that continue. -/
theorem Tracks.initialState_iff (h : Tracks cfg s row.reqId st) (hlegal : s.Legal cfg rows)
    (hrow : row ∈ rows) (hst : s.requests row.reqId = some st) :
    (s.metadata cfg rows).initialState st.columns row.reqId =
        st.tokens.take st.numComputedTokens ↔ Continues cfg s rows row.reqId st := by
  obtain ⟨_,_,_,hshape⟩ := hlegal.legalRow hrow hst
  by_cases hd : row.specTokenIds.length = 0
  · obtain ⟨hspec,hinit⟩ := hlegal.initialState_of_no_drafts hrow hst hd st.columns
    rw [hinit, Continues, hspec]
    by_cases hzero : st.numComputedTokens = 0
    · rw [hzero, take_zero]
      by_cases hdec : (s.metadata cfg rows).isDecode row.reqId = true <;> simp [hdec]
    · rw [if_pos (Or.inr (by omega)), if_neg hzero, h.first_eq_iff (by omega)]
      simp
  · rw [if_neg hd] at hshape
    obtain ⟨hpos,_⟩ := hshape
    obtain ⟨hspec,hinit⟩ := hlegal.initialState_of_drafts hrow hd st.columns
    rw [hinit, Continues, hspec, if_neg (by omega)]
    by_cases hprev : (s.prevRows.any fun p => p.reqId = row.reqId) = true
    · rw [h.remembered hpos hprev, h.newest hpos, hprev]
      simp
    · rw [numAcceptedTokens_of_absent hprev, h.first_eq_iff hpos]
      simp [hprev]

theorem take_append_query (hle : st.numComputedTokens ≤ st.tokens.length) {k : ℕ}
    (hk : k ≤ row.numScheduledTokens) : st.tokens.take st.numComputedTokens ++ (st.query row).take k =
      (st.tokens ++ row.specTokenIds).take (st.numComputedTokens+k) := by
  rw [RequestState.query, take_take, min_eq_left hk, take_add, take_append_of_le_length hle,
    drop_append_of_le_length hle]

theorem numAcceptedTokens_prevRow (hlegal : s.Legal cfg rows) (hrow : row ∈ rows) :
    numAcceptedTokens cfg (rows.map (·.prevRow)) row.reqId =
      if row.specTokenIds.length = 0 then 1 else row.numSampledTokens := by
  obtain ⟨st,hst⟩ := hlegal.exists_state hrow
  obtain ⟨_,haccepted,_⟩ := hlegal.legalRow hrow hst
  have hnodup : ((rows.map (·.prevRow)).map (·.reqId)).Nodup := by
    rw [List.map_map]
    exact hlegal.1
  have hfind : (rows.map (·.prevRow)).find? (fun p => p.reqId = row.reqId) = some row.prevRow :=
    find?_of_nodup hnodup (mem_map_of_mem hrow)
  simp only [numAcceptedTokens, hfind]
  simp only [ScheduledRow.prevRow, ScheduledRow.numSampledTokens]
  by_cases hd : row.specTokenIds.length = 0
  · have hzero : row.numAcceptedDrafts = 0 := by omega
    simp [hd, hzero]
  · simp [hd]

theorem Tracks.advance_chunk (h : Tracks cfg s row.reqId st) (hlegal : s.Legal cfg rows)
    (hrow : row ∈ rows) (hst : s.requests row.reqId = some st)
    (hok : Continues cfg s rows row.reqId st) (hd : row.specTokenIds.length = 0) :
    Tracks cfg { requests := s.runRows cfg rows, prevRows := rows.map (·.prevRow) } row.reqId
      (st.advance (s.metadata cfg rows) row) := by
  have hstart := (h.initialState_iff hlegal hrow hst).mpr hok
  obtain ⟨hnum,haccepted,_,hshape⟩ := hlegal.legalRow hrow hst
  have hle := h.computed_le
  have hremembered := numAcceptedTokens_prevRow hlegal hrow
  rw [if_pos hd] at hshape hremembered
  have hspec := (hlegal.initialState_of_no_drafts hrow hst hd st.columns).1
  have hnil : row.specTokenIds = [] := eq_nil_of_length_eq_zero hd
  have hfinal : st.tokens.take st.numComputedTokens ++ st.query row =
      st.tokens.take (st.numComputedTokens+row.numScheduledTokens) := by
    have hall : (st.query row).take row.numScheduledTokens = st.query row :=
      take_of_length_le (by simp [RequestState.query])
    rw [← hall, take_append_query hle le_rfl, hnil, append_nil]
  have hcolumn : (st.advance (s.metadata cfg rows) row).columns 0 =
      st.tokens.take (st.numComputedTokens+row.numScheduledTokens) := by
    simp only [RequestState.advance, if_pos hd, GDNAttentionMetadata.finalColumns, hspec, hstart,
      Bool.false_eq_true, if_false, update_self]
    exact hfinal
  -- the sampled token lies behind the computed ones
  have htokens : (st.advance (s.metadata cfg rows) row).tokens.take
      (st.numComputedTokens+row.numScheduledTokens) =
      st.tokens.take (st.numComputedTokens+row.numScheduledTokens) := by
    simp only [RequestState.advance, if_pos hd]
    split
    · rfl
    · exact take_append_of_le_length hshape
  have hcomputed : (st.advance (s.metadata cfg rows) row).numComputedTokens =
      st.numComputedTokens+row.numScheduledTokens := by
    simp only [RequestState.advance, if_pos hd]
  have hcount : (st.advance (s.metadata cfg rows) row).lastCount = 1 := by
    simp only [RequestState.advance, if_pos hd]
  refine ⟨?_,by omega,by omega,?_,?_,?_⟩
  · rw [hcomputed]
    simp only [RequestState.advance, if_pos hd]
    split
    · exact hshape
    · rw [length_append]
      omega
  · intro _
    rw [hcount, hcomputed, htokens]
    exact hcolumn
  · intro hpos
    rw [hcount, Nat.sub_add_cancel hpos, hcomputed, htokens]
    exact hcolumn
  · intro _ _
    rw [hcount]
    exact hremembered

/-- A speculative step that starts from the right state leaves the state after each accepted token in
the column its count will select. -/
theorem Tracks.advance_drafts (h : Tracks cfg s row.reqId st) (hlegal : s.Legal cfg rows)
    (hrow : row ∈ rows) (hst : s.requests row.reqId = some st)
    (hok : Continues cfg s rows row.reqId st) (hd : row.specTokenIds.length ≠ 0) :
    Tracks cfg { requests := s.runRows cfg rows, prevRows := rows.map (·.prevRow) } row.reqId
      (st.advance (s.metadata cfg rows) row) := by
  have hstart := (h.initialState_iff hlegal hrow hst).mpr hok
  obtain ⟨hnum,haccepted,_,hshape⟩ := hlegal.legalRow hrow hst
  have hle := h.computed_le
  have hremembered := numAcceptedTokens_prevRow hlegal hrow
  rw [if_neg hd] at hshape hremembered
  obtain ⟨hpos,hlast,hquery⟩ := hshape
  have hspec := (hlegal.initialState_of_drafts hrow hd st.columns).1
  have hsampled : row.numSampledTokens = row.numAcceptedDrafts+1 := rfl
  have hcolumn : ∀ j ≤ row.numAcceptedDrafts,
      (st.advance (s.metadata cfg rows) row).columns j =
        (st.tokens ++ row.specTokenIds).take (st.numComputedTokens+(j+1)) := by
    intro j hj
    have hlen : j < (st.query row).length := by
      simp only [RequestState.query, length_take, length_append, length_drop]
      omega
    simp only [RequestState.advance, if_neg hd, GDNAttentionMetadata.finalColumns, hspec, if_true,
      hstart, if_pos hlen]
    exact take_append_query hle (by omega)
  -- the accepted drafts are the tokens those states have seen
  have htokens : ∀ j ≤ row.numAcceptedDrafts,
      (st.advance (s.metadata cfg rows) row).tokens.take (st.numComputedTokens+(j+1)) =
        (st.tokens ++ row.specTokenIds).take (st.numComputedTokens+(j+1)) := by
    intro j hj
    have hsplit : st.numComputedTokens+(j+1) = st.tokens.length+j := by omega
    simp only [RequestState.advance, if_neg hd, hsplit, append_assoc, take_length_add_append]
    rw [take_append_of_le_length (by rw [length_take]; omega), take_take, min_eq_left hj]
  have hcomputed : (st.advance (s.metadata cfg rows) row).numComputedTokens =
      st.numComputedTokens+(row.numAcceptedDrafts+1) := by
    simp only [RequestState.advance, if_neg hd, hsampled]
  have hcount : (st.advance (s.metadata cfg rows) row).lastCount = row.numAcceptedDrafts+1 := by
    simp only [RequestState.advance, if_neg hd, hsampled]
  refine ⟨?_,by omega,by omega,?_,?_,?_⟩
  · rw [hcomputed]
    simp only [RequestState.advance, if_neg hd, length_append, length_take, length_singleton]
    omega
  · intro _
    rw [hcount, hcomputed, htokens _ le_rfl]
    exact hcolumn _ le_rfl
  · intro _
    have hfirst : st.numComputedTokens+(row.numAcceptedDrafts+1) -
        (row.numAcceptedDrafts+1)+1 = st.numComputedTokens+(0+1) := by omega
    rw [hcount, hcomputed, hfirst, htokens 0 (Nat.zero_le _)]
    exact hcolumn 0 (Nat.zero_le _)
  · intro _ _
    rw [hcount]
    exact hremembered

theorem Tracks.fresh (s : System τ) (tokens : List τ) (columns : ℕ → List τ) :
    Tracks cfg s r ⟨tokens, 0, columns, 1⟩ where
  computed_le := Nat.zero_le _
  count_pos := Nat.one_pos
  count_le := fun h => absurd h (lt_irrefl 0)
  newest := fun h => absurd h (lt_irrefl 0)
  first := fun h => absurd h (lt_irrefl 0)
  remembered := fun h => absurd h (lt_irrefl 0)

theorem Tracks.of_find? {s' : System τ} (h : Tracks cfg s r st)
    (hfind : ∀ p, s'.prevRows.find? (fun p => p.reqId = r) = some p →
      s.prevRows.find? (fun p => p.reqId = r) = some p) : Tracks cfg s' r st where
  computed_le := h.computed_le
  count_pos := h.count_pos
  count_le := h.count_le
  newest := h.newest
  first := h.first
  remembered := by
    intro hpos hany
    have hsome : (s'.prevRows.find? fun p => p.reqId = r).isSome := by
      rw [List.find?_isSome]
      exact List.any_eq_true.mp hany
    obtain ⟨p,hp⟩ := isSome_iff_exists.mp hsome
    have hold := hfind p hp
    have hcount := h.remembered hpos (by
      rw [List.any_eq_true]
      exact List.find?_isSome.mp (hold ▸ rfl))
    simp only [numAcceptedTokens, hold] at hcount
    simp only [numAcceptedTokens, hp]
    exact hcount

theorem find?_dropRow {prev : List PrevRow} {r' : ℕ} (hne : r ≠ r') (p : PrevRow)
    (h : (dropRow cfg prev r').find? (fun p => p.reqId = r) = some p) :
    prev.find? (fun p => p.reqId = r) = some p := by
  unfold dropRow at h
  split at h
  · exact h
  · rw [find?_filter] at h
    rw [← h]
    congr 1
    funext p
    by_cases hp : p.reqId = r
    · simp [hp, hne]
    · simp [hp]

def ContinuesStep (cfg : Config) (r : ℕ) (s : System τ) (e : Event τ) (_ : System τ) : Prop :=
  match e with
  | .step rows => ∀ st, s.requests r = some st → (∃ row ∈ rows, row.reqId = r) →
      Continues cfg s rows r st
  | _ => True

theorem tracks_step {s' : System τ} {e : Event τ}
    (h : ∀ st, s.requests r = some st → Tracks cfg s r st) (hstep : s.step cfg e = some s')
    (hok : ContinuesStep cfg r s e s') : ∀ st, s'.requests r = some st → Tracks cfg s' r st := by
  intro st hst
  cases e with
  | addRequest r' tokens columns =>
    obtain ⟨-,hs'⟩ := ite_none_left_eq_some.mp hstep
    cases hs'
    by_cases hr : r = r'
    · subst hr
      simp only [update_self, Option.some.injEq] at hst
      subst hst
      exact .fresh _ _ _
    · simp only [update_of_ne hr] at hst
      exact (h st hst).of_find? fun p hp => hp
  | preempt r' columns =>
    obtain ⟨st',-,hs'⟩ := map_eq_some_iff.mp hstep
    cases hs'
    by_cases hr : r = r'
    · subst hr
      simp only [update_self, Option.some.injEq] at hst
      subst hst
      exact .fresh _ _ _
    · simp only [update_of_ne hr] at hst
      exact (h st hst).of_find? (find?_dropRow hr)
  | finish r' =>
    cases hstep
    by_cases hr : r = r'
    · subst hr
      simp only [update_self] at hst
      cases hst
    · simp only [update_of_ne hr] at hst
      exact (h st hst).of_find? (find?_dropRow hr)
  | step rows =>
    obtain ⟨hlegal,hs'⟩ := ite_none_right_eq_some.mp hstep
    cases hs'
    by_cases hin : ∃ row ∈ rows, row.reqId = r
    · obtain ⟨row,hrow,rfl⟩ := hin
      have hfind : rows.find? (fun x => x.reqId = row.reqId) = some row :=
        find?_of_nodup hlegal.1 hrow
      simp only [runRows, hfind] at hst
      obtain ⟨st₀,hst₀,rfl⟩ := map_eq_some_iff.mp hst
      have hcont := hok st₀ hst₀ ⟨row,hrow,rfl⟩
      by_cases hd : row.specTokenIds.length = 0
      · exact (h st₀ hst₀).advance_chunk hlegal hrow hst₀ hcont hd
      · exact (h st₀ hst₀).advance_drafts hlegal hrow hst₀ hcont hd
    · -- a request outside the batch keeps its columns and loses its entry
      have hnone : rows.find? (fun x => x.reqId = r) = none := by
        rw [find?_eq_none]
        intro row hrow heq
        exact hin ⟨row,hrow,by simpa using heq⟩
      simp only [runRows, hnone] at hst
      refine (h st hst).of_find? fun p hp => ?_
      obtain ⟨row,hrow,rfl⟩ := mem_map.mp (mem_of_find?_eq_some hp)
      have hreq : row.prevRow.reqId = r := by simpa using find?_some hp
      exact absurd ⟨row,hrow,hreq⟩ hin

private def speculatingRun : List (Event ℕ) :=
  [.addRequest 0 [1, 2] fun _ => [7], .step [⟨0, 2, [], 0, 3⟩], .addRequest 1 [8, 9, 9] fun _ => [],
    .step [⟨0, 2, [4], 1, 5⟩, ⟨1, 2, [], 0, 0⟩]]

instance (cfg : Config) (s : System ℕ) (rows : List (ScheduledRow ℕ)) (r : ℕ)
    (st : RequestState ℕ) : Decidable (Continues cfg s rows r st) := by
  unfold Continues
  infer_instance

private def continuesCheck (cfg : Config) (r : ℕ) (s : System ℕ) (e : Event ℕ) (_ : System ℕ) :
    Bool :=
  match e with
  | .step rows => (s.requests r).all fun st => decide (Continues cfg s rows r st)
  | _ => true

private theorem continuesStep_of_check (cfg : Config) (r : ℕ) (s : System ℕ) (e : Event ℕ)
    (s' : System ℕ) (h : continuesCheck cfg r s e s' = true) : ContinuesStep cfg r s e s' := by
  cases e with
  | step rows =>
    intro st hst _
    simpa [continuesCheck, hst] using h
  | _ => trivial

def StaleStart (cfg : Config) : Prop :=
  ∃ s : System ℕ, Reachable (System.step cfg) (fun _ _ _ => True) System.init s ∧
    ∃ st, s.requests 0 = some st ∧ 0 < st.numComputedTokens ∧
      scheduleRunning st [6] 0 1 100 = (1, []) ∧ s.Legal cfg [⟨0, 1, [], 0, 6⟩] ∧
      (s.metadata cfg [⟨0, 1, [], 0, 6⟩]).initialState st.columns 0 ≠
        st.tokens.take st.numComputedTokens

end System

end MetaZenith.Gdn
