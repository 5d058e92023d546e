import MetaZenith.StructuredOutputSound

/-! Engine steps with structured output: the drafts of the scheduled requests are filtered, the
bitmask is computed, the sampler emits tokens and the grammars are advanced by them. -/

namespace MetaZenith.StructuredOutput

open List Option Function

variable {S ι : Type*} [DecidableEq ι] {A : Acceptor S ℤ} {cfg : Config}

structure StepInput (ι : Type*) where
  ids : List ι
  placeholders : ι → ℕ
  drafts : ι → Option (List ℤ)
  counters : ι → ℤ × ℤ
  outputs : ι → List ℤ
  stops : ι → List ℤ → Bool

def Request.withCounters (r : Request S) (counters : ℤ × ℤ) : Request S :=
  { r with numComputedTokens := counters.1, numOutputPlaceholders := counters.2 }

def filtered (A : Acceptor S ℤ) (cfg : Config) (inp : StepInput ι) (requests : ι → Request S)
    (id : ι) : List ℤ × Request S :=
  updateDraftTokenIdsInOutput A cfg ((requests id).withCounters (inp.counters id))
    (inp.placeholders id) (inp.drafts id)

def windows (A : Acceptor S ℤ) (cfg : Config) (inp : StepInput ι) (requests : ι → Request S)
    (id : ι) : List ℤ := (filtered A cfg inp requests id).1

def afterFilter (A : Acceptor S ℤ) (cfg : Config) (inp : StepInput ι) (requests : ι → Request S)
    (id : ι) : Request S :=
  if id ∈ inp.ids then (filtered A cfg inp requests id).2 else requests id

def stepBitmask (A : Acceptor S ℤ) (cfg : Config) (inp : StepInput ι) (requests : ι → Request S) :
    Option (List (List Row) × (ι → Request S)) :=
  grammarBitmask A cfg (windows A cfg inp requests) inp.ids (afterFilter A cfg inp requests)
    (takesParallel cfg inp.ids)

def engineStep (A : Acceptor S ℤ) (cfg : Config) (requests : ι → Request S) (inp : StepInput ι) :
    Option (ι → Request S) :=
  (stepBitmask A cfg inp requests).map fun (_, after) => fun id =>
    if id ∈ inp.ids then (updateFromOutput A cfg (after id) (inp.stops id) (inp.outputs id)).2
    else after id

/-- What the scheduler guarantees: a request takes part once, gets at most the configured number of
drafts, and none before its first output. -/
def Legal (cfg : Config) (requests : ι → Request S) (inp : StepInput ι) : Prop :=
  inp.ids.Nodup ∧ ∀ id ∈ inp.ids, inp.placeholders id ≤ cfg.numSpeculativeTokens ∧
    (0 < inp.placeholders id →
      (requests id).promptTokenIds.length < (requests id).allTokenIds.length)

def Sampled (A : Acceptor S ℤ) (cfg : Config) (requests : ι → Request S) (inp : StepInput ι) :
    Prop :=
  ∀ blocks after, stepBitmask A cfg inp requests = some (blocks, after) →
    List.Forall₂ (fun id rows => Emits rows (windows A cfg inp requests id) (inp.outputs id))
      inp.ids blocks

def Fresh (r : Request S) : Prop :=
  r.allTokenIds = r.promptTokenIds ∧ r.reasoningEndTokenIndex = none

/-- What every step keeps of a request: the end of reasoning is decided by the time there is an
output, and lies within the history when its place is known. -/
structure Sane (cfg : Config) (r : Request S) : Prop where
  decided : r.promptTokenIds.length < r.allTokenIds.length → cfg.waits = true →
    r.reasoningEnded.isSome
  index_lt : ∀ e, r.reasoningEndTokenIndex = some e → e < r.allTokenIds.length

theorem Fresh.sane {r : Request S} (h : Fresh r) : Sane cfg r where
  decided hlt := by
    rw [h.1] at hlt
    exact absurd hlt (lt_irrefl _)
  index_lt e he := by
    rw [h.2] at he
    cases he

section Filter

variable {marker : ℤ} {r : Request S}

theorem findReasoningEndIndex_lt {p : ReasoningParser} (hp : DetectsMarker p marker)
    {all : List ℤ} {start : ℕ} (hmem : marker ∈ all.drop start) :
    findReasoningEndIndex p all start < all.length := by
  have hlt := length_afterMarker_lt hmem
  have hstart := length_pos_of_mem hmem
  rw [length_drop] at hlt hstart
  unfold findReasoningEndIndex
  rw [findReasoningEndLoop_spec hp, if_pos hmem, getD_some, length_drop]
  omega

/-- `should_advance` changes at most the decision about the end of reasoning. -/
theorem Sane.shouldAdvance (h : Sane cfg r)
    (hp : ∀ p, cfg.reasoner = some p → DetectsMarker p marker) (new : List ℤ)
    (hnew : new = [] ∨ ∃ all, r.allTokenIds = all ++ new) :
    Sane cfg (shouldAdvance cfg r new).2 ∧ (shouldAdvance cfg r new).2.grammar = r.grammar ∧
      (shouldAdvance cfg r new).2.allTokenIds = r.allTokenIds := by
  rcases shouldAdvance_cases cfg r new with ⟨-,heq⟩ | ⟨p,hreasoner,-,-,heq⟩
  · rw [heq]
    exact ⟨h, rfl, rfl⟩
  · rw [heq]
    split
    · rename_i hend
      refine ⟨⟨fun _ _ => rfl, fun e he => ?_⟩, rfl, rfl⟩
      rw [hp p hreasoner, decide_eq_true_eq] at hend
      obtain rfl := Option.some.inj he
      apply findReasoningEndIndex_lt (hp p hreasoner)
      by_cases hnil : new = []
      · rwa [deltaIds, if_neg (not_not.mpr hnil)] at hend
      · obtain ⟨all,hall⟩ := hnew.resolve_left hnil
        rw [deltaIds, if_pos hnil] at hend
        unfold deltaStart
        rw [if_pos hnil, hall, length_append, Nat.add_sub_cancel, drop_left]
        exact hend
    · exact ⟨h, rfl, rfl⟩

/-- The filter keeps a request sane and its grammar as it is, and its window raises no error. -/
theorem filter_spec (h : Sane cfg r) (hp : ∀ p, cfg.reasoner = some p → DetectsMarker p marker)
    {placeholders : ℕ} (hout : 0 < placeholders → r.promptTokenIds.length < r.allTokenIds.length)
    (drafts : Option (List ℤ)) :
    let result := updateDraftTokenIdsInOutput A cfg r placeholders drafts
    Sane cfg result.2 ∧ result.2.grammar = r.grammar ∧ WindowFits A cfg result.2 result.1 ∧
      result.1.length ≤ placeholders := by
  unfold updateDraftTokenIdsInOutput
  cases drafts with
  | none => exact ⟨h, rfl, fun _ => fits_padding _ _, by simp⟩
  | some drafts =>
    by_cases hzero : placeholders = 0
    · simp only [hzero, if_true]
      exact ⟨h, trivial, fun _ => trivial, by simp⟩
    · simp only [if_neg hzero]
      obtain ⟨hsane,hgrammar,-⟩ := h.shouldAdvance hp [] (.inl rfl)
      have hlen : ∀ l : List ℤ, l.length ≤ placeholders →
          (l ++ List.replicate (placeholders-l.length) (-1)).length ≤ placeholders := by
        intro l hl
        rw [length_append, length_replicate]
        omega
      have hvalid : (validateTokens A (shouldAdvance cfg r []).2.grammar
          (drafts.take placeholders)).length ≤ placeholders := by
        refine le_trans ?_ (length_take_le placeholders drafts)
        exact length_validateTokens_le _ _
      refine ⟨hsane, hgrammar, ?_, ?_⟩
      · cases hadv : (shouldAdvance cfg r []).1 with
        | true => exact fun _ => fits_validateTokens _ _ _
        | false =>
          -- reasoning is going on, and the request has output already
          intro hmasked
          exfalso
          rcases shouldAdvance_cases cfg r [] with ⟨-,heq⟩ | ⟨p,hreasoner,he,hended,heq⟩
          · rw [heq] at hadv
            cases hadv
          · have hsame : (shouldAdvance cfg r []).2 = r := by
              rw [heq] at hadv ⊢
              split at hadv
              · cases hadv
              · rename_i hno
                rw [if_neg hno]
            have hw : cfg.waits = true := waits_eq_true.mpr ⟨p, hreasoner, he⟩
            have hsome := h.decided (hout (Nat.pos_of_ne_zero hzero)) hw
            rw [hsame, settled_of_isSome hsome, Request.masked, hw] at hmasked
            simp [hended] at hmasked
      · split
        · exact hlen _ hvalid
        · exact hlen _ (length_take_le _ _)

end Filter

variable {requests : ι → Request S}

section Batch

theorem requestBitmask_nil (A : Acceptor S ℤ) (cfg : Config) (r : Request S) :
    requestBitmask A cfg r [] = some (parallelBitmask A cfg r) := by
  obtain ⟨hfill,hfill'⟩ := shouldFillBitmask_eq cfg r
  simp [requestBitmask, parallelBitmask, hfill, hfill', windowLoop]

/-- The loop over the requests: a block of rows for each, and each request as its own round leaves
it. The requests are distinct, so a round does not see the rounds before it. -/
theorem grammarBitmask_spec {window : ι → List ℤ} {ids : List ι} (hnodup : ids.Nodup)
    (hfits : ∀ id ∈ ids, WindowFits A cfg (requests id) (window id)) (parallel : Bool)
    (hnil : parallel = true → ∀ id ∈ ids, window id = []) :
    ∃ blocks after, grammarBitmask A cfg window ids requests parallel = some (blocks, after) ∧
      List.Forall₂ (fun id rows => requestBitmask A cfg (requests id) (window id) =
        some (rows, after id)) ids blocks ∧
      (∀ id ∈ ids, after id = (requests id).settled cfg) ∧
      ∀ id, id ∉ ids → after id = requests id := by
  induction ids generalizing requests with
  | nil => exact ⟨[], requests, rfl, .nil, by simp, fun _ _ => rfl⟩
  | cons id ids ih =>
    obtain ⟨hid,hrest⟩ := nodup_cons.mp hnodup
    obtain ⟨rows₀,w,bonus,hrows,-⟩ := requestBitmask_spec (hfits id mem_cons_self)
    have hround : (if parallel then some (parallelBitmask A cfg (requests id))
        else requestBitmask A cfg (requests id) (window id)) =
          some (rows₀ ++ bonus, (requests id).settled cfg) := by
      split
      · rename_i hp
        rw [← requestBitmask_nil, ← hnil hp id mem_cons_self, hrows]
      · exact hrows
    have hother : ∀ k ∈ ids, update requests id ((requests id).settled cfg) k =
        requests k := by
      intro k hk
      rw [update_of_ne]
      rintro rfl
      exact hid hk
    obtain ⟨blocks,after,hloop,hblocks,hsettled,houtside⟩ := @ih (update requests
      id ((requests id).settled cfg)) hrest (fun k hk => by
        rw [hother k hk]
        exact hfits k (mem_cons_of_mem _ hk))
      (fun hp k hk => hnil hp k (mem_cons_of_mem _ hk))
    have hself : after id = (requests id).settled cfg := by
      rw [houtside id hid, update_self]
    refine ⟨(rows₀ ++ bonus) :: blocks, after, ?_, .cons ?_ ?_, ?_, ?_⟩
    · simp [grammarBitmask, hround, hloop]
    · rw [hself, hrows]
    · have hboth := (forall₂_and_left ids blocks).mpr ⟨hother, hblocks⟩
      refine hboth.imp fun k rows hk => ?_
      rw [← hk.1]
      exact hk.2
    · intro k hk
      rcases mem_cons.mp hk with rfl | hk
      · exact hself
      · rw [hsettled k hk, hother k hk]
    · intro k hk
      rw [mem_cons, not_or] at hk
      rw [houtside k hk.2, update_of_ne hk.1]

theorem stepBitmask_spec {marker : ℤ} (hp : ∀ p, cfg.reasoner = some p → DetectsMarker p marker)
    (hsane : ∀ id, Sane cfg (requests id)) {inp : StepInput ι} (hlegal : Legal cfg requests inp) :
    ∃ blocks after, stepBitmask A cfg inp requests = some (blocks, after) ∧
      List.Forall₂ (fun id rows => requestBitmask A cfg (afterFilter A cfg inp requests id)
        (windows A cfg inp requests id) = some (rows, after id)) inp.ids blocks ∧
      (∀ id ∈ inp.ids, after id = (afterFilter A cfg inp requests id).settled cfg) ∧
      (∀ id, id ∉ inp.ids → after id = requests id) ∧
      ∀ id ∈ inp.ids, Sane cfg (afterFilter A cfg inp requests id) ∧
        (afterFilter A cfg inp requests id).grammar = (requests id).grammar ∧
        WindowFits A cfg (afterFilter A cfg inp requests id) (windows A cfg inp requests id) := by
  have hfilter : ∀ id ∈ inp.ids, Sane cfg (afterFilter A cfg inp requests id) ∧
      (afterFilter A cfg inp requests id).grammar = (requests id).grammar ∧
      WindowFits A cfg (afterFilter A cfg inp requests id) (windows A cfg inp requests id) ∧
      (windows A cfg inp requests id).length ≤ inp.placeholders id := by
    intro id hid
    have hcounters : Sane cfg ((requests id).withCounters (inp.counters id)) :=
      ⟨(hsane id).decided, (hsane id).index_lt⟩
    unfold afterFilter
    rw [if_pos hid]
    exact filter_spec hcounters hp (hlegal.2 id hid).2 (inp.drafts id)
  have hnil : takesParallel cfg inp.ids = true → ∀ id ∈ inp.ids, windows A cfg inp requests id = [] := by
    intro hpar id hid
    have hzero : cfg.numSpeculativeTokens = 0 := by
      simpa using (Bool.and_eq_true_iff.mp hpar).2
    have hlen := (hfilter id hid).2.2.2.trans (hlegal.2 id hid).1
    rw [hzero, Nat.le_zero] at hlen
    exact length_eq_zero_iff.mp hlen
  obtain ⟨blocks,after,hmask,hblocks,hsettled,houtside⟩ := grammarBitmask_spec hlegal.1
    (fun id hid => (hfilter id hid).2.2.1) (takesParallel cfg inp.ids) hnil
  refine ⟨blocks, after, hmask, hblocks, hsettled, fun id hid => ?_, fun id hid => ?_⟩
  · rw [houtside id hid, afterFilter, if_neg hid]
  · exact ⟨(hfilter id hid).1, (hfilter id hid).2.1, (hfilter id hid).2.2.1⟩

end Batch

section Run

variable {marker : ℤ} {r : Request S}

theorem Sane.settled (h : Sane cfg r) : Sane cfg (r.settled cfg) := by
  have hset := settled_eq cfg r
  refine ⟨fun _ hw => settled_isSome hw, ?_⟩
  rw [hset]
  exact h.index_lt

/-- Processing the output of a request keeps it sane once the end of reasoning is decided. -/
theorem Sane.updateFromOutput (h : Sane cfg r) (hdecided : cfg.waits = true → r.reasoningEnded.isSome)
    (hp : ∀ p, cfg.reasoner = some p → DetectsMarker p marker) (stops : List ℤ → Bool)
    (out : List ℤ) : Sane cfg (updateFromOutput A cfg r stops out).2 := by
  unfold StructuredOutput.updateFromOutput
  set new := keptTokens stops r.allTokenIds out
  have happended : Sane cfg { r with allTokenIds := r.allTokenIds ++ new } := by
    refine ⟨fun _ => hdecided, fun e he => ?_⟩
    rw [length_append]
    exact Nat.lt_add_right _ (h.index_lt e he)
  obtain ⟨hsane,-⟩ := happended.shouldAdvance hp new (.inr ⟨r.allTokenIds, rfl⟩)
  unfold advanceGrammar
  dsimp only
  split
  · exact happended
  · split
    · unfold acceptAdvance
      split
      · exact hsane
      · exact ⟨hsane.decided, hsane.index_lt⟩
    · exact hsane

theorem Sane.engineStep {requests' : ι → Request S} (hsane : ∀ id, Sane cfg (requests id))
    (hp : ∀ p, cfg.reasoner = some p → DetectsMarker p marker) {inp : StepInput ι}
    (hstep : engineStep A cfg requests inp = some requests') (hlegal : Legal cfg requests inp) :
    ∀ id, Sane cfg (requests' id) := by
  obtain ⟨blocks,after,hmask,-,hsettled,houtside,hfilter⟩ := stepBitmask_spec hp hsane hlegal
  unfold StructuredOutput.engineStep at hstep
  rw [hmask, map_some, Option.some.injEq] at hstep
  intro id
  rw [← hstep]
  dsimp only
  by_cases hid : id ∈ inp.ids
  · rw [if_pos hid, hsettled id hid]
    exact (hfilter id hid).1.settled.updateFromOutput (fun hw => settled_isSome hw) hp _ _
  · rw [if_neg hid, houtside id hid]
    exact hsane id

def threeTokens : Acceptor ℕ ℤ where
  accept s t := if s < 3 ∧ t = s+10 then some (s+1) else none
  terminated s := s == 3

def thinkingConfig : Config where
  reasoner := some ⟨fun _ => false, fun _ delta => decide (99 ∈ delta)⟩
  enableInReasoning := false
  isDiffusion := false
  numSpeculativeTokens := 3

def freshRequest (_ : Unit) : Request ℕ := ⟨⟨0, []⟩, [1], [1], 0, 0, none, none⟩

def prefillStep : StepInput Unit where
  ids := [()]
  placeholders := fun _ => 0
  drafts := fun _ => none
  counters := fun _ => (1, 0)
  outputs := fun _ => [5]
  stops := fun _ _ => false

def prefilledRequest (_ : Unit) : Request ℕ := ⟨⟨0, []⟩, [1], [1, 5], 1, 0, some false, none⟩

def draftStep : StepInput Unit where
  ids := [()]
  placeholders := fun _ => 3
  drafts := fun _ => some [5, 99, 12]
  counters := fun _ => (2, 0)
  outputs := fun _ => [5, 99, 10]
  stops := fun _ _ => false

end Run

end MetaZenith.StructuredOutput
