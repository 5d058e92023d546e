import MetaZenith.SchedUpdate

/-! `Scheduler` and `AsyncScheduler` share `schedule` and `update_from_output`; the second class
overrides what happens to a request after it was scheduled and when its tokens arrive. -/

namespace MetaZenith.Sched

variable (adv : ℕ → ℕ → Scheduled → Request → Request) (cfg : Config)

def updateAfterScheduleBy (out : SchedulerOutput) (s : Scheduler) : Scheduler :=
  let s := out.scheduled.foldl (fun s e =>
    s.modify e.reqId (adv s.currentStep out.numSpecTokensToSchedule e)) s
  { s with finishedReqIds := [], resetPreemptedReqIds := [] }

def commitScheduleBy (loop : Loop) : Option (Scheduler × SchedulerOutput) :=
  let total : ℤ := (loop.scheduled.map (·.numScheduledTokens)).sum
  if total ≤ cfg.maxNumScheduledTokens ∧ 0 ≤ loop.tokenBudget ∧
      loop.sched.running.length ≤ cfg.maxNumRunningReqs ∧
      loop.scheduled.length ≤ loop.sched.running.length then
    let out : SchedulerOutput := ⟨loop.scheduled,
      numSpecTokensToSchedule cfg loop.scheduled.length,loop.sched.finishedReqIds,
      loop.sched.resetPreemptedReqIds,fun r => (loop.sched.requests r).map (·.data)⟩
    some (updateAfterScheduleBy adv out loop.sched,out)
  else none

def scheduleBy (env : Environment) (s : Scheduler) : Option (Scheduler × SchedulerOutput) :=
  let s := { s with currentStep := s.currentStep+1 }
  (waitingPass cfg env (longPrefillThreshold cfg s) (deferPrefills env s)
    (runningPass cfg env s)).bind (commitScheduleBy adv cfg)

/-- The request's own part of one iteration of `update_from_output`, where `update` is
`_update_request_with_output`. -/
def processOutputBy (update : List Token → Bool → Request → Option (Request × Bool)) (e : Scheduled)
    (tokens : List Token) (grammarRejects : Bool) (q : Request) : Option (Request × Bool) :=
  let isStale := decide (0 < q.numStaleOutputTokens)
  let q := drainInFlight e.numScheduledTokens q
  if isStale ∧ q.numStaleOutputTokens < 0 then none
  else if q.status.isFinished then some (q,false)
  else if isStale ∧ q.dropStaleOutput then some (q,false)
  else
    let q := rollBackRejected e tokens.length isStale q
    if tokens = [] then some (q,false)
    else match update tokens isStale q with
      | none => none
      | some (q,stopped) =>
        if grammarRejects then some ({ q with status := .finishedError, resumable := false },true)
        else some (q,stopped)

def processScheduledBy (process : Scheduled → Request → Option (Request × Bool)) (cfg : Config)
    (out : ModelRunnerOutput) (s : UpdateLoop) (e : Scheduled) : Option UpdateLoop :=
  if e.numScheduledTokens ≤ 0 then none
  else match s.sched.requests e.reqId with
    | none => some s
    | some q =>
      match process e q with
      | none => none
      | some (q',stopped) =>
        if stopped then
          let sched := handleStopped cfg s.sched e.reqId q' (out.keepsBlocks e.reqId)
          some (if q.status = .running then
            { s with sched := sched, stoppedRunning := s.stoppedRunning ++ [e.reqId] }
          else { s with sched := sched, stoppedPreempted := s.stoppedPreempted ++ [e.reqId] })
        else some { s with sched := s.sched.modify e.reqId fun _ => q' }

def updateFromOutputBy (process : Scheduled → Request → Option (Request × Bool)) (cfg : Config)
    (step : SchedulerOutput) (out : ModelRunnerOutput) (s : Scheduler) : Option Scheduler :=
  (step.scheduled.foldlM (processScheduledBy process cfg out) ⟨s,[],[]⟩).bind fun loop =>
    let s := takeOut cfg loop.stoppedRunning loop.stoppedPreempted loop.sched
    let errors := s.grammarCompileErrorReqs.dedup
    let s := { s with grammarCompileErrorReqs := [] }
    kvTransferFinished out (finishRequests cfg errors .finishedError out.keepsBlocks s)

inductive SchedulerClass
  | scheduler | asyncScheduler
  deriving DecidableEq

namespace SchedulerClass

def advance (cls : SchedulerClass) (cfg : Config) (step placeholders : ℕ) (e : Scheduled)
    (q : Request) : Request :=
  match cls with
  | scheduler =>
    let computed := q.numComputedTokens+e.numScheduledTokens
    { q with
      numComputedTokens := computed
      numInFlightTokens := q.numInFlightTokens+e.numScheduledTokens
      isPrefillChunk := decide (computed < q.numTokens+q.numOutputPlaceholders) }
  | asyncScheduler => Sched.advance cfg step placeholders e q

def updateRequestWithOutput (cls : SchedulerClass) (maxModelLen : ℕ) (tokens : List Token)
    (isStale : Bool) (q : Request) : Option (Request × Bool) :=
  match cls with
  | scheduler =>
    let (q,_,stopped) := appendUntilStop maxModelLen tokens q
    some (q,stopped)
  | asyncScheduler => Sched.updateRequestWithOutput maxModelLen tokens isStale q

variable (cls : SchedulerClass)

def processOutput (maxModelLen : ℕ) (e : Scheduled) (tokens : List Token) (grammarRejects : Bool)
    (q : Request) : Option (Request × Bool) :=
  processOutputBy (cls.updateRequestWithOutput maxModelLen) e tokens grammarRejects q

def answer (cfg : Config) (out : ModelRunnerOutput) (e : Scheduled) (q : Request) :
    Option (Request × Bool) :=
  cls.processOutput cfg.maxModelLen e (out.sampledTokenIds e.reqId) (out.grammarRejects e.reqId) q

def schedule (cfg : Config) (env : Environment) (s : Scheduler) :
    Option (Scheduler × SchedulerOutput) :=
  scheduleBy (cls.advance cfg) cfg env s

def updateFromOutput (cfg : Config) (step : SchedulerOutput) (out : ModelRunnerOutput)
    (s : Scheduler) : Option Scheduler :=
  updateFromOutputBy (cls.answer cfg out) cfg step out s

end SchedulerClass

/-- `update_draft_token_ids` for one request, with as many drafts as its grammar lets through. -/
def updateDrafts (drafts : ℕ) (q : Request) : Request :=
  if q.status.isFinished then q
  else if q.isPrefillChunk then { q with numSpecTokenIds := 0 }
  else { q with numSpecTokenIds := drafts }

def updateDraftTokenIds (drafts : ReqId → Option ℕ) (s : Scheduler) : Scheduler :=
  { s with requests := fun r => (s.requests r).map fun q => ((drafts r).map (updateDrafts · q)).getD q }

inductive EngineCall
  | event (e : Event)
  | updateDraftTokenIds (drafts : ReqId → Option ℕ)

/-- A call to a scheduler of either class; `none` when it raises or cannot be made. -/
def System.stepOf (cls : SchedulerClass) (cfg : Config) (s : System) : EngineCall → Option System
  | .event (.schedule env) => (cls.schedule cfg env s.sched).map fun (sched,out) =>
      { sched := sched
        inFlight := if out.scheduled.isEmpty then s.inFlight
          else s.inFlight ++ [⟨out,sched.requests⟩] }
  | .event (.updateFromOutput out) => match s.inFlight with
    | [] => none
    | f :: rest => if out.fits f.output then
        (cls.updateFromOutput cfg f.output out s.sched).map fun sched => ⟨sched,rest⟩
      else none
  | .event e => s.step cfg e
  | .updateDraftTokenIds drafts => some { s with sched := updateDraftTokenIds drafts s.sched }

end MetaZenith.Sched
