import MetaZenith.SchedQueue

/-! `AsyncScheduler.schedule`: the running loop with its preemptions, the waiting loop with its
padded admissions, and the counters advanced afterwards. The KV cache manager, the encoder cache
and the connectors answer through an environment. -/

namespace MetaZenith.Sched

structure Config where
  maxNumScheduledTokens : ℕ
  maxModelLen : ℕ
  maxNumRunningReqs : ℕ
  numSpecTokens : ℕ
  dynamicSdLookup : Option (ℕ → ℕ) := none
  longPrefillTokenThreshold : ℕ := 0
  adaptiveLongPrefillThreshold : Bool := false
  enableChunkedPrefill : Bool := true
  policy : SchedulingPolicy := .fcfs
  maxLoras : Option ℕ := none
  requiresKvDelivery : Bool := false
  useV2ModelRunner : Bool := false
  ppSize : ℕ := 1
  needMambaBlockAlignedSplit : Bool := false
  mambaPartialCacheHit : Bool := false
  blockSize : ℕ := 16
  blockSize_pos : 0 < blockSize := by decide
  hashBlockSize : ℕ := 16
  useEagle : Bool := false

/-- A small configuration, for runs with a few requests. -/
def fourRequests (maxModelLen numSpecTokens : ℕ) : Config where
  maxNumScheduledTokens := 64
  maxModelLen := maxModelLen
  maxNumRunningReqs := 4
  numSpecTokens := numSpecTokens
  blockSize_pos := Nat.two_pow_pos 4

inductive PauseState
  | unpaused | pausedNew | pausedAll
  deriving DecidableEq

inductive GrammarState
  | pending | ready | failed

structure PrefixLookup where
  localHit : ℕ
  external : ℕ := 0
  loadKvAsync : Bool := false
  sharedPrefixBoundary : ℤ := 0

/-- The collaborators' answers during one call, numbered by a clock. `prefixLookup` is `none`
when the connector cannot tell yet, `encoderLimit` is how far the encoder inputs let the
request go. -/
structure Environment where
  throttlePrefills : Bool := false
  pauseState : PauseState := .unpaused
  allocateSlots : ℕ → Bool := fun _ => true
  encoderLimit : ℕ → ℕ := fun _ => 0
  grammar : ℕ → GrammarState := fun _ => .ready
  prefixLookup : ℕ → Option PrefixLookup := fun _ => some { localHit := 0 }
  ecAvailable : ℕ → Bool := fun _ => true

structure Scheduler where
  requests : ReqId → Option Request := fun _ => none
  running : List ReqId := []
  waiting : List ReqId := []
  skippedWaiting : List ReqId := []
  currentStep : ℕ := 0
  prefillCapacityBound : Bool := false
  numWaitingForStreamingInput : ℤ := 0
  finishedRecvingKvReqIds : List ReqId := []
  grammarCompileErrorReqs : List ReqId := []
  finishedReqIds : List ReqId := []
  resetPreemptedReqIds : List ReqId := []

inductive ScheduledKind
  | running | new | resumed
  deriving DecidableEq, Repr

structure Scheduled where
  reqId : ReqId
  numComputedTokens : ℤ
  numScheduledTokens : ℤ
  numDraftTokens : ℕ
  kind : ScheduledKind
  deriving DecidableEq, Repr

structure RequestData where
  numPromptTokens : ℕ
  numOutputTokens : ℤ
  numTokens : ℕ
  deriving DecidableEq, Repr

structure SchedulerOutput where
  scheduled : List Scheduled
  numSpecTokensToSchedule : ℕ
  finishedReqIds : List ReqId
  preemptedReqIds : List ReqId
  requestData : ReqId → Option RequestData

namespace Scheduler

def modify (s : Scheduler) (r : ReqId) (f : Request → Request) : Scheduler :=
  { s with requests := Function.update s.requests r ((s.requests r).map f) }

@[simp] theorem modify_requests_self (s : Scheduler) (r : ReqId) (f : Request → Request) :
    (s.modify r f).requests r = (s.requests r).map f := Function.update_self ..

theorem modify_requests_of_ne (s : Scheduler) {r x : ReqId} (f : Request → Request) (h : x ≠ r) :
    (s.modify r f).requests x = s.requests x := Function.update_of_ne h ..

theorem modify_requests_of_some {s : Scheduler} {r : ReqId} {q : Request} (f : Request → Request)
    (h : s.requests r = some q) :
    (s.modify r f).requests = Function.update s.requests r (some (f q)) := by
  rw [modify, h, Option.map_some]

def lt (s : Scheduler) (a b : ReqId) : Bool :=
  match s.requests a, s.requests b with
  | some x, some y => x.lt y
  | _, _ => false

end Scheduler

structure Loop where
  sched : Scheduler
  tokenBudget : ℤ
  reqIndex : ℕ := 0
  scheduled : List Scheduled := []
  preempted : List ReqId := []
  prefillScheduled : Bool := false
  scheduledLoras : List ℕ := []
  stepSkippedWaiting : List ReqId := []
  clock : ℕ := 0

namespace Loop

def tick (s : Loop) : Loop := { s with clock := s.clock+1 }

def modify (s : Loop) (r : ReqId) (f : Request → Request) : Loop :=
  { s with sched := s.sched.modify r f }

end Loop

/-- A chunk that does not finish the prefill ends on a block boundary, unless a block is too
wide for one chunk. -/
def mambaAlignedEnd (cfg : Config) (prefillEnd start stop : ℤ) : ℤ :=
  if stop < prefillEnd then
    let maxPrefillTokens : ℤ := if 0 < cfg.longPrefillTokenThreshold then
      min cfg.maxNumScheduledTokens cfg.longPrefillTokenThreshold else cfg.maxNumScheduledTokens
    let aligned := stop/cfg.blockSize*cfg.blockSize
    if start < aligned ∨ cfg.blockSize ≤ maxPrefillTokens then aligned else stop
  else stop

def mambaStops (cfg : Config) (q : Request) (start stop : ℤ) : List ℤ :=
  let B : ℤ := cfg.blockSize
  let lastCachePosition := q.numTokens-q.numTokens%B
  let lastCachePosition := if cfg.useEagle then max (lastCachePosition-B) 0 else lastCachePosition
  let tail : ℤ := if cfg.mambaPartialCacheHit then
    q.numPromptTokens/cfg.hashBlockSize*cfg.hashBlockSize else 0
  let boundary := q.sharedPrefixBoundary
  [if start%B ≠ 0 then (start/B+1)*B else 0, lastCachePosition,
    if lastCachePosition < tail ∧ tail < q.numPromptTokens then tail else 0,
    if start < boundary ∧ boundary < stop then start+(boundary-start)/B*B else 0]

def mambaBlockAlignedSplit (cfg : Config) (q : Request) (start numNewTokens : ℤ) : ℤ :=
  let prefillEnd := max (q.numPromptTokens:ℤ) (q.numTokens-1)
  if prefillEnd ≤ start then numNewTokens
  else
    let stop := mambaAlignedEnd cfg prefillEnd start (start+numNewTokens)
    let stop := (((mambaStops cfg q start stop).filter fun x => start < x ∧ x < stop).min?).getD stop
    max (stop-start) 0

def longPrefillThreshold (cfg : Config) (s : Scheduler) : ℤ :=
  let threshold : ℤ := cfg.longPrefillTokenThreshold
  let prefilling (r : ReqId) : Bool :=
    (s.requests r).any fun q => decide (q.numComputedTokens < q.numTokens-1)
  if threshold = 0 ∨ !cfg.adaptiveLongPrefillThreshold then threshold
  else
    let runningPrefills : ℤ := s.running.countP prefilling
    let runningDecodes := s.running.length-runningPrefills
    let slots := max (cfg.maxNumRunningReqs-s.numWaitingForStreamingInput-runningDecodes) 0
    let waitingPrefills : ℤ := (s.skippedWaiting ++ s.waiting).countP prefilling
    let active := min (runningPrefills+waitingPrefills) slots
    if slots = 0 ∨ active = 0 then threshold
    else max threshold (cfg.maxNumScheduledTokens/active)

section Running

variable (cfg : Config) (env : Environment)

def laterOf (s : Scheduler) (best x : ReqId) : ReqId :=
  match s.requests best, s.requests x with
  | some b, some q =>
    if b.priority < q.priority ∨ b.priority = q.priority ∧ b.arrivalTime < q.arrivalTime then x
    else best
  | _, _ => best

def lowestPriority (s : Scheduler) : Option ReqId :=
  match s.running with
  | [] => none
  | r :: rs => some (rs.foldl (laterOf s) r)

def preempt (drop : Bool) (s : Scheduler) (r : ReqId) : Scheduler :=
  let s := s.modify r (preemptRequest drop)
  { s with
    waiting := prependRequest cfg.policy s.lt s.waiting r
    resetPreemptedReqIds := s.resetPreemptedReqIds ++ [r] }

/-- Choose and preempt one request to make room. Under PRIORITY it may have been scheduled in
this step already, which is then undone. -/
def preemptOne (s : Loop) : Option (ReqId × Loop) :=
  match cfg.policy with
  | .fcfs => s.sched.running.getLast?.map fun v =>
    (v,{ s with
      sched := preempt cfg cfg.requiresKvDelivery
        { s.sched with running := s.sched.running.dropLast } v
      preempted := s.preempted ++ [v] })
  | .priority => (lowestPriority s.sched).map fun v =>
    let undone := s.scheduled.filter fun e => e.reqId = v
    (v,{ s with
      sched := preempt cfg cfg.requiresKvDelivery
        { s.sched with running := s.sched.running.erase v } v
      tokenBudget := s.tokenBudget+(undone.map (·.numScheduledTokens)).sum
      scheduled := s.scheduled.filter fun e => e.reqId ≠ v
      reqIndex := if undone.isEmpty then s.reqIndex else s.reqIndex-1
      preempted := s.preempted ++ [v] })

/-- The `while True` around `allocate_slots`: preempt until it succeeds or the request itself
had to go. -/
def allocateRunning (r : ReqId) : ℕ → Loop → Loop × Bool
  | 0, s => (s,false)
  | fuel+1, s =>
    if env.allocateSlots s.clock then (s.tick,true)
    else match preemptOne cfg s.tick with
      | none => (s,false)
      | some (v,s') => if v = r then (s',false) else allocateRunning r fuel s'

def cutByThreshold (threshold n : ℤ) : ℤ := if 0 < threshold ∧ threshold < n then threshold else n

def cutByEncoder (clock : ℕ) (q : Request) (n : ℤ) : ℤ :=
  if q.hasEncoderInputs then min n (env.encoderLimit clock) else n

def cutByMamba (q : Request) (start n : ℤ) : ℤ :=
  if cfg.needMambaBlockAlignedSplit then mambaBlockAlignedSplit cfg q start n else n

def runningCount (threshold budget : ℤ) (deferPrefills : Bool) (step clock : ℕ) (q : Request) :
    Option ℤ :=
  if 0 < q.numOutputPlaceholders ∧
      q.numPromptTokens+q.maxTokens ≤ q.numComputedTokens+2-q.numOutputPlaceholders then none
  else if step < q.nextDecodeEligibleStep then none
  else if deferPrefills && q.isPrefillChunk then none
  else
    let n := q.numTokensWithSpec+q.numOutputPlaceholders-q.numComputedTokens
    let n := min (cutByThreshold threshold n) budget
    let n := min n (cfg.maxModelLen-q.numComputedTokens-1)
    let n := cutByMamba cfg q q.numComputedTokens (cutByEncoder env clock q n)
    if n = 0 then none else some n

def runningDrafts (q : Request) (n : ℤ) : ℕ :=
  min q.numSpecTokenIds (n+q.numComputedTokens-q.numTokens-q.numOutputPlaceholders).toNat

def recordRunning (s : Loop) (q : Request) (r : ReqId) (n : ℤ) : Loop :=
  { s.modify r fun q => { q with numSpecTokenIds := 0 } with
    scheduled := s.scheduled ++ [⟨r,q.numComputedTokens,n,runningDrafts q n,.running⟩]
    prefillScheduled := s.prefillScheduled || q.isPrefillChunk
    tokenBudget := s.tokenBudget-n
    reqIndex := s.reqIndex+1 }

def runningLoop (threshold : ℤ) (deferPrefills : Bool) : ℕ → Loop → Loop
  | 0, s => s
  | fuel+1, s =>
    if s.tokenBudget ≤ 0 then s
    else match s.sched.running[s.reqIndex]? with
      | none => s
      | some r => match s.sched.requests r with
        | none => s
        | some q =>
          match runningCount cfg env threshold s.tokenBudget deferPrefills s.sched.currentStep
              s.clock q with
          | none => runningLoop threshold deferPrefills fuel
              { s.tick with reqIndex := s.reqIndex+1 }
          | some n =>
            match allocateRunning cfg env r (s.sched.running.length+1) s.tick with
            | (s',false) => s'
            | (s',true) => runningLoop threshold deferPrefills fuel (recordRunning s' q r n)

end Running

section Waiting

variable (cfg : Config) (env : Environment)

/-- How an iteration of the waiting loop ends: `continue`, `break` or an exception. -/
inductive Outcome (α : Type)
  | next (a : α)
  | stop (a : α)
  | raise

/-- `_select_waiting_queue_for_scheduling` with the request at the head: whether it comes from
the skipped queue, and what that queue is without it. -/
def selectWaiting (s : Scheduler) : Option (Bool × ReqId × List ReqId) :=
  let skipped := (popRequest cfg.policy s.lt s.skippedWaiting).map (true,·)
  let waiting := (popRequest cfg.policy s.lt s.waiting).map (false,·)
  match cfg.policy, waiting, skipped with
  | .fcfs, _, _ => skipped.orElse fun _ => waiting
  | .priority, some w, some k => if s.lt w.2.1 k.2.1 then some w else some k
  | .priority, _, _ => waiting.orElse fun _ => skipped

def popSelected (s : Scheduler) (fromSkipped : Bool) (rest : List ReqId) : Scheduler :=
  if fromSkipped then { s with skippedWaiting := rest } else { s with waiting := rest }

variable (threshold : ℤ) (deferPrefills : Bool) (s : Loop) (q : Request)

def skipWaiting (fromSkipped : Bool) (r : ReqId) (rest : List ReqId) : Loop :=
  let sched := popSelected s.sched fromSkipped rest
  { s with
    sched := sched
    stepSkippedWaiting := prependRequest cfg.policy sched.lt s.stepSkippedWaiting r }

/-- A request whose remote KV has arrived. On a full hit the last token is computed again. -/
def kvReceived : Request :=
  { q with
    numComputedTokens := if q.numComputedTokens = q.numTokens then q.numTokens-1
      else q.numComputedTokens
    status := if q.numPreemptions ≠ 0 then .preempted else .waiting }

/-- `_try_promote_blocked_waiting_request`: `next` when the request may be considered, `stop`
when it stays blocked. -/
def tryPromote (s : Scheduler) (clock : ℕ) (r : ReqId) (q : Request) : Outcome Scheduler :=
  match q.status with
  | .waitingForRemoteKvs =>
    if r ∈ s.finishedRecvingKvReqIds then
      .next { s.modify r kvReceived with
        finishedRecvingKvReqIds := s.finishedRecvingKvReqIds.erase r }
    else .stop s
  | .waitingForStructuredOutputGrammar =>
    match env.grammar clock with
    | .pending => .stop s
    | .failed => .stop { s with grammarCompileErrorReqs := s.grammarCompileErrorReqs ++ [r] }
    | .ready => .next (s.modify r fun q => { q with status := .waiting })
  | .waitingForStreamingReq => if q.streamingQueue.isEmpty then .stop s else .raise
  | _ => .next s

structure Start where
  numComputedTokens : ℤ
  loadKvAsync : Bool

/-- The prefix-cache part: `stop` when the request is skipped for this pass. -/
def lookupPrefix (clock : ℕ) (q : Request) : Outcome (Start × ℤ) :=
  if q.numComputedTokens = 0 then
    match env.prefixLookup clock with
    | none => .stop (⟨0,false⟩,q.sharedPrefixBoundary)
    | some hit =>
      -- a lookup never covers the last token
      let start := min (hit.localHit:ℤ) (q.numTokens-1)+hit.external
      if q.numTokens < start then .raise
      else if hit.loadKvAsync ∧ hit.external = 0 then .raise
      else if !env.ecAvailable clock then .stop (⟨start,hit.loadKvAsync⟩,hit.sharedPrefixBoundary)
      else .next (⟨start,hit.loadKvAsync⟩,hit.sharedPrefixBoundary)
  else .next (⟨q.numComputedTokens,false⟩,q.sharedPrefixBoundary)

def padsSpecDecode (n : ℤ) : Bool :=
  decide (0 < cfg.numSpecTokens) && cfg.dynamicSdLookup.isNone && decide (n = 1) &&
    s.scheduled.any (·.kind = .running) && !s.prefillScheduled

/-- Tokens of an admission that starts at `start`, and whether it is padded, before the encoder
inputs and the Mamba blocks are looked at. -/
def uncutCount (start : ℤ) : Outcome (ℤ × Bool) :=
  if deferPrefills ∧ start < q.numTokens-1 then .stop (0,false)
  else
    let n := q.numTokens-start
    let pad := padsSpecDecode cfg s n
    let n := if pad then 1+(cfg.numSpecTokens:ℤ) else n
    if pad ∧ (s.tokenBudget < n ∨ cfg.maxModelLen < start+n) then .stop (0,false)
    else
      let n := cutByThreshold threshold n
      if !cfg.enableChunkedPrefill ∧ s.tokenBudget < n then .stop (0,false)
      else
        let n := min n s.tokenBudget
        if n ≤ 0 then .raise else .next (n,pad)

def admissionCount (start : ℤ) : Outcome (ℤ × Bool) :=
  match uncutCount cfg threshold deferPrefills s q start with
  | .raise => .raise
  | .stop a => .stop a
  | .next (n,pad) =>
    let n := cutByEncoder env s.clock q n
    if n = 0 then .stop (0,false)
    else
      let n := cutByMamba cfg q start n
      if n = 0 then .stop (0,false) else .next (n,pad)

def admitPopped (r : ReqId) (start n : ℤ) (pad : Bool) : Outcome Loop :=
  if q.status = .waiting ∨ q.status = .preempted then
    let s := s.modify r fun q => { q with status := .running, numComputedTokens := start }
    .next { s with
      sched := { s.sched with running := s.sched.running ++ [r] }
      scheduled := s.scheduled ++ [⟨r,start,n,if pad then cfg.numSpecTokens else 0,
        if q.status = .waiting then .new else .resumed⟩]
      scheduledLoras := match q.loraIntId with
        | some l => if cfg.maxLoras.isSome ∧ l ∉ s.scheduledLoras then s.scheduledLoras ++ [l]
          else s.scheduledLoras
        | none => s.scheduledLoras
      tokenBudget := s.tokenBudget-n }
  else .raise

def mustSkip : Bool :=
  decide (0 < q.numStaleOutputTokens ∧ !q.dropStaleOutput) ||
    match cfg.maxLoras, q.loraIntId with
    | some m, some l => s.scheduledLoras.length == m && !s.scheduledLoras.contains l
    | _, _ => false

def admitWaiting (fromSkipped : Bool) (r : ReqId) (rest : List ReqId) (q : Request)
    (start : Start) : Outcome Loop :=
  if start.loadKvAsync then
    if !env.allocateSlots s.clock then .stop s
    else
      -- the blocks are held while the transfer runs; no token is scheduled
      let s := s.modify r fun q => { q with
        status := .waitingForRemoteKvs, numComputedTokens := start.numComputedTokens }
      .next (skipWaiting cfg s fromSkipped r rest)
  else match admissionCount cfg env threshold deferPrefills s q start.numComputedTokens with
    | .stop _ => .stop s
    | .raise => .raise
    | .next (n,pad) =>
      if !env.allocateSlots s.clock then .stop s
      else admitPopped cfg { s with sched := popSelected s.sched fromSkipped rest } q r
        start.numComputedTokens n pad

def considerWaiting (fromSkipped : Bool) (r : ReqId) (rest : List ReqId) (q : Request) :
    Outcome Loop :=
  if mustSkip cfg s q then .next (skipWaiting cfg s fromSkipped r rest)
  else match lookupPrefix env s.clock q with
    | .raise => .raise
    | .stop (_,boundary) =>
      .next (skipWaiting cfg (s.modify r fun q => { q with sharedPrefixBoundary := boundary })
        fromSkipped r rest)
    | .next (start,boundary) =>
      admitWaiting cfg env threshold deferPrefills
        (s.modify r fun q => { q with sharedPrefixBoundary := boundary }) fromSkipped r rest
        { q with sharedPrefixBoundary := boundary } start

def waitingStep : Outcome Loop :=
  if (cfg.maxNumRunningReqs:ℤ) ≤ s.sched.running.length+s.sched.numWaitingForStreamingInput then
    .stop s
  else match selectWaiting cfg s.sched with
    | none => .stop s
    | some (fromSkipped,r,rest) => match s.sched.requests r with
      | none => .raise
      | some q => match tryPromote env s.sched s.clock r q with
        | .raise => .raise
        | .stop sched => .next (skipWaiting cfg { s.tick with sched := sched } fromSkipped r rest)
        | .next sched => match sched.requests r with
          | none => .raise
          | some q =>
            considerWaiting cfg env threshold deferPrefills { s.tick with sched := sched }
              fromSkipped r rest q

def waitingLoop (threshold : ℤ) (deferPrefills : Bool) : ℕ → Loop → Option Loop
  | 0, s => some s
  | fuel+1, s =>
    if s.tokenBudget ≤ 0 then some s
    else match waitingStep cfg env threshold deferPrefills s with
      | .next s' => waitingLoop threshold deferPrefills fuel s'
      | .stop s' => some s'
      | .raise => none

end Waiting

def advance (cfg : Config) (step placeholders : ℕ) (e : Scheduled) (q : Request) : Request :=
  let computed := q.numComputedTokens+e.numScheduledTokens
  let q := { q with
    numComputedTokens := computed
    numInFlightTokens := q.numInFlightTokens+e.numScheduledTokens
    isPrefillChunk := decide (computed < q.numTokens+q.numOutputPlaceholders) }
  if q.isPrefillChunk then q
  else { q with
    numOutputPlaceholders := q.numOutputPlaceholders+1+e.numDraftTokens
    numSpecTokenIds := placeholders
    nextDecodeEligibleStep := if cfg.useV2ModelRunner then step+cfg.ppSize
      else q.nextDecodeEligibleStep }

def updateAfterSchedule (cfg : Config) (out : SchedulerOutput) (s : Scheduler) : Scheduler :=
  let s := out.scheduled.foldl (fun s e =>
    s.modify e.reqId (advance cfg s.currentStep out.numSpecTokensToSchedule e)) s
  { s with finishedReqIds := [], resetPreemptedReqIds := [] }

/-- The waiting pass with the skipped requests put back. It does not run after a preemption. -/
def waitingPass (cfg : Config) (env : Environment) (threshold : ℤ) (deferPrefills : Bool)
    (s : Loop) : Option Loop :=
  if s.preempted ≠ [] ∨ env.pauseState ≠ .unpaused then some s
  else
    (waitingLoop cfg env threshold deferPrefills
      (s.sched.waiting.length+s.sched.skippedWaiting.length) s).map fun s =>
    { s with sched := { s.sched with
        skippedWaiting :=
          prependRequests cfg.policy s.sched.lt s.sched.skippedWaiting s.stepSkippedWaiting
        prefillCapacityBound := if deferPrefills then s.sched.prefillCapacityBound
          else !s.sched.waiting.isEmpty } }

def deferPrefills (env : Environment) (s : Scheduler) : Bool :=
  env.throttlePrefills && !s.prefillCapacityBound &&
    s.running.any fun r => (s.requests r).any fun q => !q.isPrefillChunk

def runningPass (cfg : Config) (env : Environment) (s : Scheduler) : Loop :=
  let budget : ℤ := if env.pauseState = .pausedAll then 0 else cfg.maxNumScheduledTokens
  let loop := runningLoop cfg env (longPrefillThreshold cfg s) (deferPrefills env s) s.running.length
    { sched := s, tokenBudget := budget }
  let loras := ((loop.scheduled.filterMap fun e => (loop.sched.requests e.reqId).bind
    (·.loraIntId)).filter (0 < ·)).dedup
  { loop with scheduledLoras := if cfg.maxLoras.isSome then loras else [] }

def numSpecTokensToSchedule (cfg : Config) (numReqs : ℕ) : ℕ :=
  match cfg.dynamicSdLookup with
  | some lookup => if numReqs = 0 then cfg.numSpecTokens else min cfg.numSpecTokens (lookup numReqs)
  | none => cfg.numSpecTokens

def Request.data (q : Request) : RequestData where
  numPromptTokens := q.numPromptTokens
  numOutputTokens := q.numOutputTokens+q.numOutputPlaceholders
  numTokens := q.allTokenIds.length

def commitSchedule (cfg : Config) (loop : Loop) : Option (Scheduler × SchedulerOutput) :=
  let total : ℤ := (loop.scheduled.map (·.numScheduledTokens)).sum
  if total ≤ cfg.maxNumScheduledTokens ∧ 0 ≤ loop.tokenBudget ∧
      loop.sched.running.length ≤ cfg.maxNumRunningReqs ∧
      loop.scheduled.length ≤ loop.sched.running.length then
    let out : SchedulerOutput := ⟨loop.scheduled,
      numSpecTokensToSchedule cfg loop.scheduled.length,loop.sched.finishedReqIds,
      loop.sched.resetPreemptedReqIds,fun r => (loop.sched.requests r).map (·.data)⟩
    some (updateAfterSchedule cfg out loop.sched,out)
  else none

def schedule (cfg : Config) (env : Environment) (s : Scheduler) :
    Option (Scheduler × SchedulerOutput) :=
  let s := { s with currentStep := s.currentStep+1 }
  (waitingPass cfg env (longPrefillThreshold cfg s) (deferPrefills env s)
    (runningPass cfg env s)).bind (commitSchedule cfg)

end MetaZenith.Sched
