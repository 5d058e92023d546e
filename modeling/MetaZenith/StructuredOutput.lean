import MetaZenith.UndoAcceptor

/-! Structured output: the bitmask of a window of drafts (`StructuredOutputManager.grammar_bitmask`),
the filter on the drafts (`Scheduler.update_draft_token_ids_in_output`) and the advance of the
grammar by the sampled tokens (`Scheduler.update_from_output`). -/

namespace MetaZenith.StructuredOutput

variable {S : Type*}

structure ReasoningParser where
  isReasoningEnd : List ℤ → Bool
  isReasoningEndStreaming : List ℤ → List ℤ → Bool

structure Config where
  /-- `None` without a reasoning parser. -/
  reasoner : Option ReasoningParser
  enableInReasoning : Bool
  isDiffusion : Bool
  /-- `vllm_config.num_speculative_tokens`. -/
  numSpeculativeTokens : ℕ

structure Request (S : Type*) where
  grammar : Matcher S
  promptTokenIds : List ℤ
  allTokenIds : List ℤ
  numComputedTokens : ℤ
  numOutputPlaceholders : ℤ
  reasoningEnded : Option Bool
  reasoningEndTokenIndex : Option ℕ

abbrev Row := ℤ → Bool

section Grammar

variable (A : Acceptor S ℤ)

def isTerminated (g : Matcher S) : Bool := A.terminated g.state

def acceptTokens (g : Matcher S) (tokens : List ℤ) : Bool × Matcher S :=
  if isTerminated A g then (false, g) else g.acceptLoop A tokens

def validateTokens (g : Matcher S) (tokens : List ℤ) : List ℤ := g.acceptedPrefix A tokens

def fillBitmask (g : Matcher S) (applyBitmask : Bool) : Row :=
  if applyBitmask && !isTerminated A g then fun t => (A.accept g.state t).isSome else fun _ => true

end Grammar

/-- `should_fill_bitmask`; an unknown end of reasoning is decided by the prompt. -/
def shouldFillBitmask (cfg : Config) (r : Request S) : Bool × Request S :=
  match cfg.reasoner with
  | none => (true, r)
  | some p =>
    if cfg.enableInReasoning then (true, r)
    else
      match r.reasoningEnded with
      | some ended => (ended, r)
      | none =>
        let ended := p.isReasoningEnd r.promptTokenIds
        (ended, { r with reasoningEnded := some ended })

def findReasoningEndLoop (p : ReasoningParser) : List ℤ → ℕ → List ℤ → Option ℕ
  | _, _, [] => none
  | before, idx, token :: rest =>
    if p.isReasoningEndStreaming (before ++ [token]) [token] then some idx
    else findReasoningEndLoop p (before ++ [token]) (idx+1) rest

def findReasoningEndIndex (p : ReasoningParser) (allTokenIds : List ℤ) (start : ℕ) : ℕ :=
  (findReasoningEndLoop p (allTokenIds.take start) start (allTokenIds.drop start)).getD
    (allTokenIds.length-1)

def deltaStart (r : Request S) (newTokenIds : List ℤ) : ℕ :=
  if newTokenIds ≠ [] then r.allTokenIds.length-newTokenIds.length
  else
    let deltaFrom := r.numComputedTokens-r.numOutputPlaceholders
    if 0 ≤ deltaFrom then deltaFrom.toNat else (r.allTokenIds.length+deltaFrom).toNat

def deltaIds (r : Request S) (newTokenIds : List ℤ) : List ℤ :=
  if newTokenIds ≠ [] then newTokenIds else r.allTokenIds.drop (deltaStart r newTokenIds)

def shouldAdvance (cfg : Config) (r : Request S) (newTokenIds : List ℤ) : Bool × Request S :=
  match cfg.reasoner with
  | none => (true, r)
  | some p =>
    if cfg.enableInReasoning then (true, r)
    else if r.reasoningEnded = some true then (true, r)
    else
      if p.isReasoningEndStreaming r.allTokenIds (deltaIds r newTokenIds) then
        (true, { r with
          reasoningEnded := some true
          reasoningEndTokenIndex :=
            some (findReasoningEndIndex p r.allTokenIds (deltaStart r newTokenIds)) })
      else (false, r)

def trimReasoningForAdvance (r : Request S) (newTokenIds : List ℤ) : List ℤ :=
  match r.reasoningEndTokenIndex with
  | none => newTokenIds
  | some endIdx =>
    let firstIdx : ℤ := r.allTokenIds.length-newTokenIds.length
    let numReasoning : ℤ := endIdx+1-firstIdx
    if numReasoning ≤ 0 then newTokenIds else newTokenIds.drop numReasoning.toNat

/-- `update_draft_token_ids_in_output` for one request with `placeholders` scheduled drafts. A
request whose drafts are not delivered keeps its placeholders. -/
def updateDraftTokenIdsInOutput (A : Acceptor S ℤ) (cfg : Config) (r : Request S)
    (placeholders : ℕ) (drafts : Option (List ℤ)) : List ℤ × Request S :=
  match drafts with
  | none => (List.replicate placeholders (-1), r)
  | some specTokenIds =>
    if placeholders = 0 then ([], r)
    else
      let specTokenIds := specTokenIds.take placeholders
      let (advance, r) := shouldAdvance cfg r []
      let specTokenIds := if advance then validateTokens A r.grammar specTokenIds else specTokenIds
      (specTokenIds ++ List.replicate (placeholders-specTokenIds.length) (-1), r)

structure Window (S : Type*) where
  grammar : Matcher S
  applyBitmask : Bool
  stateAdvancements : ℕ
  postReasoningEndInWindow : Bool

section Bitmask

variable (A : Acceptor S ℤ)

def advanceBy (token : ℤ) (w : Window S) : Option (Window S) :=
  if isTerminated A w.grammar then some w
  else
    let (accepted, grammar) := acceptTokens A w.grammar [token]
    if accepted then
      some { w with grammar := grammar, stateAdvancements := w.stateAdvancements+1 }
    else if w.postReasoningEndInWindow then some { w with grammar := grammar }
    else none

/-- A round of the loop after its row has been filled. `simulated` is the history with the drafts
up to this one. -/
def windowRound (detect : Option ReasoningParser) (simulated : List ℤ) (token : ℤ) (w : Window S) :
    Option (Window S) :=
  if token = -1 then some { w with applyBitmask := false }
  else
    match detect with
    | some p =>
      if w.applyBitmask then advanceBy A token w
      else if p.isReasoningEndStreaming simulated [token] then
        -- the marker itself is reasoning content
        some { w with applyBitmask := true, postReasoningEndInWindow := true }
      else some w
    | none => if w.applyBitmask then advanceBy A token w else some w

def windowLoop (detect : Option ReasoningParser) :
    List ℤ → List ℤ → Window S → Option (List Row × Window S)
  | _, [], w => some ([], w)
  | before, token :: rest, w =>
    let row := fillBitmask A w.grammar w.applyBitmask
    match windowRound A detect (before ++ [token]) token w with
    | none => none
    | some w' =>
      (windowLoop detect (before ++ [token]) rest w').map fun (rows, w'') => (row :: rows, w'')

/-- The serial branch of `grammar_bitmask` for one request: its rows, and the request after the
rollback. -/
def requestBitmask (cfg : Config) (r : Request S) (reqTokens : List ℤ) :
    Option (List Row × Request S) :=
  let (applyBitmask, r) := shouldFillBitmask cfg r
  let detect := if !applyBitmask && !cfg.enableInReasoning then cfg.reasoner else none
  match windowLoop A detect r.allTokenIds reqTokens ⟨r.grammar, applyBitmask, 0, false⟩ with
  | none => none
  | some (rows, w) =>
    let (fill, r) := shouldFillBitmask cfg r
    let bonus :=
      if cfg.isDiffusion && !reqTokens.isEmpty then []
      else [fillBitmask A w.grammar (fill || w.applyBitmask)]
    some (rows ++ bonus,
      { r with grammar :=
          if 0 < w.stateAdvancements then w.grammar.rollback w.stateAdvancements else w.grammar })

def parallelBitmask (cfg : Config) (r : Request S) : List Row × Request S :=
  let (applyBitmask, r) := shouldFillBitmask cfg r
  ([fillBitmask A r.grammar applyBitmask], r)

def parallelThreshold : ℕ := 128

/-- `grammar_bitmask`: the rows of each request in the order of the ids (one after the other they
are the bitmask tensor), and the requests afterwards. -/
def grammarBitmask {ι : Type*} [DecidableEq ι] (cfg : Config) (windows : ι → List ℤ) :
    List ι → (ι → Request S) → Bool → Option (List (List Row) × (ι → Request S))
  | [], requests, _ => some ([], requests)
  | id :: ids, requests, parallel =>
    let result :=
      if parallel then some (parallelBitmask A cfg (requests id))
      else requestBitmask A cfg (requests id) (windows id)
    match result with
    | none => none
    | some (rows, r) =>
      (grammarBitmask cfg windows ids (Function.update requests id r) parallel).map
        fun (blocks, requests') => (rows :: blocks, requests')

def takesParallel {ι : Type*} (cfg : Config) (ids : List ι) : Bool :=
  decide (parallelThreshold < ids.length) && decide (cfg.numSpeculativeTokens = 0)

end Bitmask

def keptTokens (stops : List ℤ → Bool) : List ℤ → List ℤ → List ℤ
  | _, [] => []
  | allTokenIds, token :: rest =>
    if stops (allTokenIds ++ [token]) then [token]
    else token :: keptTokens stops (allTokenIds ++ [token]) rest

/-- The call of `accept_tokens` in `update_from_output`, when there is something to advance by: its
tokens with its answer, and the request afterwards. -/
def acceptAdvance (A : Acceptor S ℤ) (r : Request S) (advanceTokenIds : List ℤ) :
    Option (List ℤ × Bool) × Request S :=
  if advanceTokenIds = [] then (none, r)
  else
    let (accepted, grammar) := acceptTokens A r.grammar advanceTokenIds
    (some (advanceTokenIds, accepted), { r with grammar := grammar })

/-- The structured-output branch of `update_from_output` after the tokens were appended. -/
def advanceGrammar (A : Acceptor S ℤ) (cfg : Config) (r : Request S) (newTokenIds : List ℤ) :
    Option (List ℤ × Bool) × Request S :=
  if newTokenIds = [] then (none, r)
  else
    let (advance, r) := shouldAdvance cfg r newTokenIds
    if advance then acceptAdvance A r (trimReasoningForAdvance r newTokenIds) else (none, r)

def updateFromOutput (A : Acceptor S ℤ) (cfg : Config) (r : Request S) (stops : List ℤ → Bool)
    (generatedTokenIds : List ℤ) : Option (List ℤ × Bool) × Request S :=
  let newTokenIds := keptTokens stops r.allTokenIds generatedTokenIds
  advanceGrammar A cfg { r with allTokenIds := r.allTokenIds ++ newTokenIds } newTokenIds

end MetaZenith.StructuredOutput
