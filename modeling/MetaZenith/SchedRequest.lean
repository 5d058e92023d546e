import Mathlib

/-! Requests as the scheduler keeps them, and what happens to one request at a time:
stopping, preemption, streaming updates. One token is sampled per step. -/

namespace MetaZenith.Sched

abbrev ReqId := ℕ
abbrev Token := ℤ

inductive RequestStatus
  | waiting | waitingForStructuredOutputGrammar | waitingForRemoteKvs | waitingForStreamingReq
  | running | preempted
  | finishedStopped | finishedLengthCapped | finishedAborted | finishedIgnored | finishedError
  | finishedRepetition
  deriving DecidableEq, Repr

namespace RequestStatus

def isFinished : RequestStatus → Bool
  | finishedStopped | finishedLengthCapped | finishedAborted | finishedIgnored | finishedError
  | finishedRepetition => true
  | _ => false

def isBlockedWaiting : RequestStatus → Bool
  | waitingForStructuredOutputGrammar | waitingForRemoteKvs | waitingForStreamingReq => true
  | _ => false

end RequestStatus

structure RepetitionDetectionParams where
  maxPatternSize : ℤ
  minPatternSize : ℤ
  minCount : ℤ

structure SamplingParams where
  minTokens : ℕ := 0
  eosTokenId : Option Token := none
  stopTokenIds : List Token := []
  repetitionDetection : Option RepetitionDetectionParams := none

/-- `max_tokens` of an update is carried but never read. -/
structure StreamingUpdate where
  promptTokenIds : List Token
  hasMmFeatures : Bool := false
  arrivalTime : ℤ
  samplingParams : SamplingParams

/-- The fields the scheduler reads, with the values `Request.__init__` gives them. Draft tokens
are placeholders under async scheduling, so only their number is kept. -/
structure Request where
  requestId : ReqId
  promptTokenIds : List Token
  maxTokens : ℕ
  samplingParams : SamplingParams := {}
  priority : ℤ := 0
  arrivalTime : ℤ := 0
  loraIntId : Option ℕ := none
  hasEncoderInputs : Bool := false
  resumable : Bool := false
  status : RequestStatus := .waiting
  outputTokenIds : List Token := []
  allTokenIds : List Token := promptTokenIds
  numPromptTokens : ℕ := promptTokenIds.length
  numOutputPlaceholders : ℤ := 0
  numStaleOutputTokens : ℤ := 0
  dropStaleOutput : Bool := false
  numInFlightTokens : ℤ := 0
  nextDecodeEligibleStep : ℕ := 0
  numSpecTokenIds : ℕ := 0
  numComputedTokens : ℤ := 0
  isPrefillChunk : Bool := false
  sharedPrefixBoundary : ℤ := 0
  numPreemptions : ℕ := 0
  streamingQueue : List (Option StreamingUpdate) := []

variable (q : Request)

namespace Request

def numTokens : ℤ := q.allTokenIds.length

def numTokensWithSpec : ℤ := q.numTokens+q.numSpecTokenIds

def numOutputTokens : ℕ := q.outputTokenIds.length

def lt (a b : Request) : Bool :=
  if a.priority ≠ b.priority then a.priority < b.priority
  else if a.arrivalTime ≠ b.arrivalTime then a.arrivalTime < b.arrivalTime
  else a.requestId < b.requestId

def appendOutputTokenId (t : Token) : Request :=
  { q with outputTokenIds := q.outputTokenIds ++ [t], allTokenIds := q.allTokenIds ++ [t] }

end Request

def hasRepeatingPattern (fromEnd : List Token) (patternLen minCount : ℕ) : Bool :=
  (List.range patternLen).all fun n => (List.range (minCount-1)).all fun m =>
    fromEnd[patternLen*(m+1)+n]? == fromEnd[n]?

def checkSequenceRepetition (tokenIds : List Token) (params : RepetitionDetectionParams) : Bool :=
  let minPatternSize := if params.minPatternSize ≤ 0 then 1 else params.minPatternSize
  if params.maxPatternSize ≤ 0 || params.minCount < 2 || params.maxPatternSize < minPatternSize then
    false
  else
    -- a pattern that does not fit ends the search: no longer one fits either
    (List.range (params.maxPatternSize-minPatternSize+1).toNat).any fun k =>
      let patternLen := minPatternSize.toNat+k
      decide (patternLen*params.minCount.toNat ≤ tokenIds.length) &&
        hasRepeatingPattern tokenIds.reverse patternLen params.minCount.toNat

def checkStop (maxModelLen : ℕ) : Option RequestStatus :=
  let params := q.samplingParams
  if q.numOutputTokens < params.minTokens then none
  else if q.outputTokenIds.getLast? = params.eosTokenId ∧ params.eosTokenId.isSome then
    some .finishedStopped
  else if q.outputTokenIds.getLast?.any params.stopTokenIds.contains then some .finishedStopped
  else if maxModelLen ≤ q.numTokens ∨ q.maxTokens ≤ q.numOutputTokens then
    some .finishedLengthCapped
  else if params.repetitionDetection.any (checkSequenceRepetition q.outputTokenIds) then
    some .finishedRepetition
  else none

/-- The loop of `_update_request_with_output`: the request, how many of the tokens were kept
and whether it stopped. -/
def appendUntilStop (maxModelLen : ℕ) : List Token → Request → Request × ℕ × Bool
  | [], q => (q,0,false)
  | t :: ts, q =>
    let q := q.appendOutputTokenId t
    match checkStop q maxModelLen with
    | some status => ({ q with status := status },1,true)
    | none =>
      let r := appendUntilStop maxModelLen ts q
      (r.1,r.2.1+1,r.2.2)

def preemptRequest (dropStaleOutput : Bool) (q : Request) : Request :=
  { q with
    status := .preempted
    numComputedTokens := 0
    numSpecTokenIds := 0
    dropStaleOutput := dropStaleOutput || (q.dropStaleOutput && decide (0 < q.numStaleOutputTokens))
    numStaleOutputTokens := q.numInFlightTokens
    numOutputPlaceholders := 0
    numPreemptions := q.numPreemptions+1 }

/-- The request's own part of `_update_request_as_session`. The last sampled token has not been
computed and is discarded. -/
def updateRequestAsSession (session : Request) (update : StreamingUpdate) : Request :=
  let numComputed := session.numComputedTokens.toNat
  let keptOutputTokens := (session.allTokenIds.take numComputed).drop session.numPromptTokens
  let promptTokenIds := session.promptTokenIds ++ keptOutputTokens ++ update.promptTokenIds
  { session with
    allTokenIds := session.allTokenIds.take numComputed ++ update.promptTokenIds
    outputTokenIds := []
    promptTokenIds := promptTokenIds
    hasEncoderInputs := session.hasEncoderInputs || update.hasMmFeatures
    numPromptTokens := promptTokenIds.length
    arrivalTime := update.arrivalTime
    samplingParams := update.samplingParams
    status := .waiting }

end MetaZenith.Sched
