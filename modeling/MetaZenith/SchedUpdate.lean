import MetaZenith.SchedModel

/-! `update_from_output` and the calls from outside: `add_request`, `finish_requests`,
`reset_prefix_cache`; and runs of the scheduler with steps in flight. -/

namespace MetaZenith.Sched

/-- What the model runner and the connector return for one step. `keepsBlocks` names the finished
requests whose entry stays until a transfer is over. -/
structure ModelRunnerOutput where
  sampledTokenIds : ReqId → List Token
  grammarRejects : ReqId → Bool := fun _ => false
  finishedRecving : List ReqId := []
  finishedSending : List ReqId := []
  keepsBlocks : ReqId → Bool := fun _ => false

variable (cfg : Config) (out : ModelRunnerOutput) (s : Scheduler)

def freeRequest (r : ReqId) (delayFreeBlocks : Bool) : Scheduler :=
  { s with
    finishedReqIds := s.finishedReqIds ++ [r]
    requests := if delayFreeBlocks then s.requests else Function.update s.requests r none }

def enqueueWaitingRequest (r : ReqId) (status : RequestStatus) : Scheduler :=
  if status.isBlockedWaiting then
    { s with skippedWaiting := addRequest cfg.policy s.lt s.skippedWaiting r }
  else { s with waiting := addRequest cfg.policy s.lt s.waiting r }

def handleStopped (r : ReqId) (q : Request) (keep : Bool) : Scheduler :=
  if !q.resumable then freeRequest (s.modify r fun _ => q) r keep
  else match q.streamingQueue with
    | none :: rest => freeRequest (s.modify r fun _ => { q with streamingQueue := rest }) r keep
    | some update :: rest =>
      let q := updateRequestAsSession { q with streamingQueue := rest } update
      enqueueWaitingRequest cfg (s.modify r fun _ => q) r .waiting
    | [] =>
      let s := s.modify r fun _ => { q with status := .waitingForStreamingReq }
      enqueueWaitingRequest cfg
        { s with numWaitingForStreamingInput := s.numWaitingForStreamingInput+1 } r
        .waitingForStreamingReq

def drainInFlight (n : ℤ) (q : Request) : Request :=
  { q with
    numInFlightTokens := q.numInFlightTokens-n
    numStaleOutputTokens := if 0 < q.numStaleOutputTokens then q.numStaleOutputTokens-n
      else q.numStaleOutputTokens }

def rollBackRejected (e : Scheduled) (generated : ℕ) (isStale : Bool) (q : Request) : Request :=
  if 0 < e.numDraftTokens ∧ 0 < generated ∧ !isStale then
    let numRejected : ℤ := e.numDraftTokens-(generated-1:ℕ)
    { q with
      numComputedTokens := if 0 < q.numComputedTokens then q.numComputedTokens-numRejected
        else q.numComputedTokens
      numOutputPlaceholders := if 0 < q.numOutputPlaceholders then q.numOutputPlaceholders-numRejected
        else q.numOutputPlaceholders }
  else q

/-- `AsyncScheduler._update_request_with_output`: the request and whether it stopped; `none` when
the placeholders would become negative. -/
def updateRequestWithOutput (maxModelLen : ℕ) (tokens : List Token) (isStale : Bool) (q : Request) :
    Option (Request × Bool) :=
  let (q,kept,stopped) := appendUntilStop maxModelLen tokens q
  if isStale then some (q,stopped)
  else
    let placeholders := q.numOutputPlaceholders-kept
    if placeholders < 0 then none
    else some ({ q with numOutputPlaceholders := placeholders },stopped)

structure UpdateLoop where
  sched : Scheduler
  stoppedRunning : List ReqId := []
  stoppedPreempted : List ReqId := []

/-- The request's own part of one iteration: the updated request and whether it stopped.
`none` when an assertion fails. -/
def processOutput (maxModelLen : ℕ) (e : Scheduled) (tokens : List Token) (grammarRejects : Bool)
    (q : Request) : Option (Request × Bool) :=
  let isStale := decide (0 < q.numStaleOutputTokens)
  let q := drainInFlight e.numScheduledTokens q
  if isStale ∧ q.numStaleOutputTokens < 0 then none
  else if q.status.isFinished then some (q,false)
  else if isStale ∧ q.dropStaleOutput then some (q,false)
  else
    let q := rollBackRejected e tokens.length isStale q
    if tokens = [] then some (q,false)
    else match updateRequestWithOutput maxModelLen tokens isStale q with
      | none => none
      | some (q,stopped) =>
        if grammarRejects then some ({ q with status := .finishedError, resumable := false },true)
        else some (q,stopped)

def processScheduled (s : UpdateLoop) (e : Scheduled) : Option UpdateLoop :=
  if e.numScheduledTokens ≤ 0 then none
  else match s.sched.requests e.reqId with
    | none => some s
    | some q =>
      match processOutput cfg.maxModelLen e (out.sampledTokenIds e.reqId)
          (out.grammarRejects e.reqId) q with
      | none => none
      | some (q',stopped) =>
        if stopped then
          let sched := handleStopped cfg s.sched e.reqId q' (out.keepsBlocks e.reqId)
          some (if q.status = .running then
            { s with sched := sched, stoppedRunning := s.stoppedRunning ++ [e.reqId] }
          else { s with sched := sched, stoppedPreempted := s.stoppedPreempted ++ [e.reqId] })
        else some { s with sched := s.sched.modify e.reqId fun _ => q' }

def takeOut (fromRunning fromWaiting : List ReqId) (s : Scheduler) : Scheduler :=
  { s with
    running := removeAll s.running fromRunning
    waiting := if fromWaiting.isEmpty then s.waiting
      else removeRequests cfg.policy s.lt s.waiting fromWaiting
    skippedWaiting := if fromWaiting.isEmpty then s.skippedWaiting
      else removeRequests cfg.policy s.lt s.skippedWaiting fromWaiting }

def finishAll (status : RequestStatus) (keep : Scheduler → ReqId → Bool) (ids : List ReqId)
    (s : Scheduler) : Scheduler :=
  ids.foldl (fun s r => freeRequest (s.modify r fun q => { q with status := status }) r (keep s r)) s

def finishRequests (ids : List ReqId) (status : RequestStatus) (keepsBlocks : ReqId → Bool)
    (s : Scheduler) : Scheduler :=
  let hasStatus (st : RequestStatus) (r : ReqId) : Bool := (s.requests r).any (·.status = st)
  let valid := ids.filter fun r => (s.requests r).any fun q => !q.status.isFinished
  let fromWaiting := valid.filter fun r => !hasStatus .running r
  let keep (t : Scheduler) (r : ReqId) : Bool := keepsBlocks r ||
    (hasStatus .waitingForRemoteKvs r && !t.finishedRecvingKvReqIds.contains r)
  finishAll status keep valid
    { takeOut cfg (valid.filter (hasStatus .running)) fromWaiting s with
      numWaitingForStreamingInput := s.numWaitingForStreamingInput-
        (fromWaiting.filter (hasStatus .waitingForStreamingReq)).length }

def freeSent (r : ReqId) : Option Scheduler :=
  match s.requests r with
  | some q => if q.status.isFinished then
      some { s with requests := Function.update s.requests r none } else none
  | none => none

def receiveKv (r : ReqId) : Option Scheduler :=
  if (s.requests r).any (·.status = .waitingForRemoteKvs) then
    some { s with finishedRecvingKvReqIds := s.finishedRecvingKvReqIds ++ [r] }
  else freeSent s r

def kvTransferFinished : Option Scheduler :=
  (out.finishedRecving.foldlM receiveKv s).bind fun s => out.finishedSending.foldlM freeSent s

/-- `update_from_output` without KV load failures; `none` when an assertion fails. -/
def updateFromOutput (step : SchedulerOutput) (out : ModelRunnerOutput) (s : Scheduler) :
    Option Scheduler :=
  (step.scheduled.foldlM (processScheduled cfg out) ⟨s,[],[]⟩).bind fun loop =>
    let s := takeOut cfg loop.stoppedRunning loop.stoppedPreempted loop.sched
    let errors := s.grammarCompileErrorReqs.dedup
    let s := { s with grammarCompileErrorReqs := [] }
    kvTransferFinished out (finishRequests cfg errors .finishedError out.keepsBlocks s)

def addNewRequest (q : Request) (s : Scheduler) : Option Scheduler :=
  match s.requests q.requestId with
  | none => some (enqueueWaitingRequest cfg
      { s with requests := Function.update s.requests q.requestId (some q) } q.requestId q.status)
  | some existing =>
    let update : Option StreamingUpdate := if q.resumable then
      some ⟨q.promptTokenIds,q.hasEncoderInputs,q.arrivalTime,q.samplingParams⟩ else none
    if existing.status ≠ .waitingForStreamingReq then
      if existing.resumable then
        some (s.modify q.requestId fun x => { x with streamingQueue := x.streamingQueue ++ [update] })
      else none
    else match update with
      | some u => some { s.modify q.requestId fun x => updateRequestAsSession x u with
          numWaitingForStreamingInput := s.numWaitingForStreamingInput-1 }
      | none => some (finishRequests cfg [q.requestId] .finishedAborted (fun _ => false) s)

/-- `reset_prefix_cache(reset_running_requests=True)`: every running request is preempted, from
the last one on. -/
def resetRunningRequests : Scheduler :=
  s.running.reverse.foldl (preempt cfg true) { s with running := [] }

structure NewRequest where
  requestId : ReqId
  promptTokenIds : List Token
  nonempty : promptTokenIds ≠ [] := by decide
  maxTokens : ℕ
  samplingParams : SamplingParams := {}
  priority : ℤ := 0
  arrivalTime : ℤ := 0
  loraIntId : Option ℕ := none
  hasEncoderInputs : Bool := false
  resumable : Bool := false
  useStructuredOutput : Bool := false

def NewRequest.toRequest (n : NewRequest) : Request where
  requestId := n.requestId
  promptTokenIds := n.promptTokenIds
  maxTokens := n.maxTokens
  samplingParams := n.samplingParams
  priority := n.priority
  arrivalTime := n.arrivalTime
  loraIntId := n.loraIntId
  hasEncoderInputs := n.hasEncoderInputs
  resumable := n.resumable
  status := if n.useStructuredOutput then .waitingForStructuredOutputGrammar else .waiting

inductive Event
  | addRequest (n : NewRequest)
  | schedule (env : Environment)
  | updateFromOutput (out : ModelRunnerOutput)
  | finishRequests (ids : List ReqId) (status : RequestStatus) (keepsBlocks : ReqId → Bool)
  | resetPrefixCache

/-- A step the workers have not answered yet, with the requests as they were when it was
scheduled. -/
structure InFlight where
  output : SchedulerOutput
  snapshot : ReqId → Option Request

structure System where
  sched : Scheduler := {}
  inFlight : List InFlight := []

def ModelRunnerOutput.fits (step : SchedulerOutput) : Bool :=
  step.scheduled.all fun e => (out.sampledTokenIds e.reqId).length ≤ 1+e.numDraftTokens

/-- `none` when a call raises or cannot be made. -/
def System.step (s : System) : Event → Option System
  | .addRequest n => (addNewRequest cfg n.toRequest s.sched).map fun sched => { s with sched := sched }
  | .schedule env => (schedule cfg env s.sched).map fun (sched,out) =>
      { sched := sched
        inFlight := if out.scheduled.isEmpty then s.inFlight
          else s.inFlight ++ [⟨out,sched.requests⟩] }
  | .updateFromOutput out => match s.inFlight with
    | [] => none
    | f :: rest => if out.fits f.output then
        (updateFromOutput cfg f.output out s.sched).map fun sched => ⟨sched,rest⟩
      else none
  | .finishRequests ids status keepsBlocks => if status.isFinished then
      some { s with sched := finishRequests cfg ids.dedup status keepsBlocks s.sched }
    else none
  | .resetPrefixCache => some { s with sched := resetRunningRequests cfg s.sched }

end MetaZenith.Sched
