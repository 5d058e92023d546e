import MetaZenith.SchedLegalCounts

/-! No request is lost: an unfinished request is in exactly one place of one list, as long as no
session is stopped by an output that arrives while it is not running. -/

namespace MetaZenith.Sched

open RequestStatus List Option Function

structure Loop.Keeps (s s' : Loop) : Prop where
  ids : (s'.sched.running ++ s'.queue).Perm (s.sched.running ++ s.queue)
  num : s'.sched.numWaitingForStreamingInput = s.sched.numWaitingForStreamingInput

namespace Loop.Keeps

variable {s s' s'' : Loop}

theorem refl (s : Loop) : s.Keeps s := ⟨.refl _,rfl⟩

theorem trans (h : s.Keeps s') (h' : s'.Keeps s'') : s.Keeps s'' :=
  ⟨h'.ids.trans h.ids,h'.num.trans h.num⟩

theorem of_eq (hrun : s'.sched.running = s.sched.running) (hque : s'.queue = s.queue)
    (hnum : s'.sched.numWaitingForStreamingInput = s.sched.numWaitingForStreamingInput) :
    s.Keeps s' :=
  ⟨.of_eq (by rw [hrun, hque]),hnum⟩

theorem tick (s : Loop) : s.Keeps s.tick := of_eq rfl rfl rfl

end Loop.Keeps

section ScheduleKeeps

variable {cfg : Config} {env : Environment} {threshold : ℤ} {deferPrefills : Bool}

theorem preemptOne_keeps {s s' : Loop} {v : ReqId} (h : preemptOne cfg s = some (v,s')) :
    s.Keeps s' := by
  have hmoved {running : List ReqId} (hrun : s.sched.running.Perm (v :: running))
      {lt : ReqId → ReqId → Bool} :
      (running ++ (prependRequest cfg.policy lt s.sched.waiting v ++ s.sched.skippedWaiting ++
        s.stepSkippedWaiting)).Perm (s.sched.running ++ s.queue) := by
    have hque := ((prependRequest_perm cfg.policy lt s.sched.waiting v).append_right
      s.sched.skippedWaiting).append_right s.stepSkippedWaiting
    exact (hque.append_left running).trans
      (perm_middle.trans (hrun.symm.append_right s.queue))
  rw [preemptOne] at h
  split at h
  · obtain ⟨w,hw,heq⟩ := map_eq_some_iff.mp h
    obtain ⟨rfl,rfl⟩ := Prod.mk.inj heq
    have hlast := dropLast_append_getLast? w hw
    refine ⟨hmoved ?_,rfl⟩
    conv_lhs => rw [← hlast]
    exact perm_append_singleton w _
  · obtain ⟨w,hw,heq⟩ := map_eq_some_iff.mp h
    obtain ⟨rfl,rfl⟩ := Prod.mk.inj heq
    exact ⟨hmoved (perm_cons_erase (lowestPriority_mem hw)),rfl⟩

theorem runningLoop_keeps (fuel : ℕ) (s : Loop) :
    s.Keeps (runningLoop cfg env threshold deferPrefills fuel s) := by
  have hsame {t t' : Loop} (h : s.Keeps t) (hsched : t'.sched.running = t.sched.running)
      (hqueue : t'.queue = t.queue) (hnum : t'.sched.numWaitingForStreamingInput =
        t.sched.numWaitingForStreamingInput) : s.Keeps t' :=
    h.trans (.of_eq hsched hqueue hnum)
  exact runningLoop_invariant (P := s.Keeps) (fun _ h => hsame h rfl rfl rfl)
    (fun _ _ _ h hp => h.trans (preemptOne_keeps hp)) (fun _ _ h => hsame h rfl rfl rfl)
    (fun _ _ _ _ h => hsame h rfl rfl rfl) fuel (.refl s)

theorem skipWaiting_keeps {s : Loop} {fromSkipped : Bool} {r : ReqId} {rest : List ReqId}
    (hsel : Selected s.sched fromSkipped r rest) :
    s.Keeps (skipWaiting cfg s fromSkipped r rest) := by
  obtain ⟨-,hrun,hnum⟩ := popSelected_kept s.sched fromSkipped rest
  exact ⟨(List.Perm.of_eq hrun).append (queue_skipWaiting hsel),hnum⟩

theorem waitingStep_keeps {s s' : Loop} (h : WaitingStep cfg s s') : s.Keeps s' := by
  cases h with
  | idle => exact .refl s
  | head hroom hselect hq hmove =>
    have hsel := selectWaiting_spec hselect
    have hlooks {t : Loop} {r : ReqId} {q : Request} (hl : LooksAt s t r q) : s.Keeps t :=
      .of_eq hl.running hl.queue hl.num
    cases hmove with
    | stays hw hl => exact hlooks hl
    | skipped hw hl => exact (hlooks hl).trans (skipWaiting_keeps (hl.selected hsel))
    | admitted hw hl hadm h =>
      refine (hlooks hl).trans ⟨?_,h.num⟩
      rw [h.running, append_assoc]
      exact (h.queue (hl.selected hsel)).append_left _

end ScheduleKeeps

def Scheduler.ids (s : Scheduler) : List ReqId := s.running ++ (s.waiting ++ s.skippedWaiting)

theorem runningPass_keeps (cfg : Config) (env : Environment) (s : Scheduler) :
    ((runningPass cfg env s).sched.running ++ (runningPass cfg env s).queue).Perm s.ids ∧
      (runningPass cfg env s).sched.numWaitingForStreamingInput = s.numWaitingForStreamingInput := by
  let start : Loop :=
    { sched := s
      tokenBudget := if env.pauseState = .pausedAll then 0 else cfg.maxNumScheduledTokens }
  have hkeep : start.Keeps (runningLoop cfg env (longPrefillThreshold cfg s) (deferPrefills env s)
      s.running.length start) := runningLoop_keeps _ start
  refine ⟨hkeep.ids.trans (.of_eq ?_),hkeep.num⟩
  show s.running ++ (s.waiting ++ s.skippedWaiting ++ []) = s.ids
  rw [append_nil]
  rfl

variable {env : Environment}

theorem waitingPass_keeps {cfg : Config} {threshold : ℤ} {deferPrefills : Bool}
    {before : ReqId → Option Request} {s s' : Loop} (hinv : RunningInv cfg before s)
    (h : waitingPass cfg env threshold deferPrefills s = some s') :
    s'.sched.ids.Perm (s.sched.running ++ s.queue) ∧
      s'.sched.numWaitingForStreamingInput = s.sched.numWaitingForStreamingInput := by
  rcases waitingPass_invariant (P := s.Keeps) (fun _ _ _ ht hstep => ht.trans (waitingStep_keeps hstep))
    hinv (.refl s) h with rfl | ⟨t,bound,-,hkeep,rfl⟩
  · rw [Loop.queue, hinv.noneSkipped, append_nil]
    exact ⟨.refl _,rfl⟩
  · exact ⟨((t.mergeSkipped_perm cfg bound).append_left _).trans hkeep.ids,hkeep.num⟩

theorem advanceAll_num (cfg : Config) (step placeholders : ℕ) (es : List Scheduled) (s : Scheduler) :
    (advanceAll cfg step placeholders es s).numWaitingForStreamingInput =
      s.numWaitingForStreamingInput := by
  induction es generalizing s with
  | nil => rfl
  | cons e es ih => exact ih _

variable {s s' : Scheduler}

theorem schedule_keeps {cfg : Config} {out : SchedulerOutput}
    (hw : s.WellQueued) (h : schedule cfg env s = some (s',out)) :
    s'.ids.Perm s.ids ∧ s'.numWaitingForStreamingInput = s.numWaitingForStreamingInput := by
  obtain ⟨loop,hloop,hcommit⟩ := bind_eq_some_iff.mp h
  have hw' : ({ s with currentStep := s.currentStep+1 } : Scheduler).WellQueued := hw
  obtain ⟨hids,hnum⟩ := runningPass_keeps cfg env { s with currentStep := s.currentStep+1 }
  obtain ⟨hids',hnum'⟩ := waitingPass_keeps (runningPass_spec hw') hloop
  rw [commitSchedule] at hcommit
  simp only at hcommit
  split at hcommit
  · cases hcommit
    rw [updateAfterSchedule_eq]
    obtain ⟨hrun,hwait,hskip⟩ := advanceAll_queues cfg loop.sched.currentStep
      (numSpecTokensToSchedule cfg loop.scheduled.length) loop.scheduled loop.sched
    constructor
    · rw [Scheduler.ids, hrun, hwait, hskip]
      exact hids'.trans hids
    · exact (advanceAll_num ..).trans (hnum'.trans hnum)
  · cases hcommit

def streaming (requests : ReqId → Option Request) : Set ReqId :=
  {r | ∃ q, requests r = some q ∧ q.status = .waitingForStreamingReq}

section Streaming

variable {requests requests' : ReqId → Option Request} {r : ReqId} {o : Option Request}

theorem mem_streaming_of_some {q : Request} (hq : requests r = some q) :
    r ∈ streaming requests ↔ q.status = .waitingForStreamingReq := by
  constructor
  · rintro ⟨q',hq',hs⟩
    cases hq.symm.trans hq'
    exact hs
  · exact fun hs => ⟨q,hq,hs⟩

theorem mem_streaming_update_of_ne {x : ReqId} (hx : x ≠ r) :
    x ∈ streaming (update requests r o) ↔ x ∈ streaming requests := by
  simp [streaming, update_of_ne hx]

theorem streaming_update_same (h : r ∈ streaming requests ↔ r ∈ streaming (update requests r o)) :
    streaming (update requests r o) = streaming requests := by
  ext x
  by_cases hx : x = r
  · rw [hx]
    exact h.symm
  · exact mem_streaming_update_of_ne hx

theorem ncard_streaming_insert (hfin : (streaming requests).Finite) (hr : r ∉ streaming requests)
    (hr' : r ∈ streaming (update requests r o)) :
    (streaming (update requests r o)).ncard = (streaming requests).ncard+1 := by
  have hset : streaming (update requests r o) = insert r (streaming requests) := by
    ext x
    rw [Set.mem_insert_iff]
    by_cases hx : x = r
    · exact ⟨fun _ => .inl hx,fun _ => hx ▸ hr'⟩
    · rw [mem_streaming_update_of_ne hx]
      exact ⟨.inr,fun h => h.resolve_left hx⟩
  rw [hset, Set.ncard_insert_of_notMem hr hfin]

theorem ncard_streaming_remove {gone : List ReqId} (hn : gone.Nodup)
    (hfin : (streaming requests).Finite) (hgone : ∀ x ∈ gone, x ∈ streaming requests)
    (hset : ∀ x, x ∈ streaming requests' ↔ x ∈ streaming requests ∧ x ∉ gone) :
    ((streaming requests').ncard : ℤ) = (streaming requests).ncard-gone.length := by
  have hdiff : streaming requests' = streaming requests \ {x | x ∈ gone} := by
    ext x
    exact hset x
  have hcard : ({x | x ∈ gone} : Set ReqId).ncard = gone.length := by
    rw [← coe_toFinset, Set.ncard_coe_finset, toFinset_card_of_nodup hn]
  have hsub : {x | x ∈ gone} ⊆ streaming requests := hgone
  have hle := Set.ncard_le_ncard hsub hfin
  rw [hdiff, Set.ncard_sdiff hsub (finite_toSet gone), hcard]
  omega

end Streaming

structure Listed (requests : ReqId → Option Request) (running queue : List ReqId) (num : ℤ) :
    Prop where
  complete : ∀ r q, requests r = some q → q.status.isFinished = false → r ∈ running ++ queue
  num : num = ((streaming requests).ncard : ℤ)

variable {requests : ReqId → Option Request}

theorem Listed.finite {running queue : List ReqId} {num : ℤ}
    (h : Listed requests running queue num) : (streaming requests).Finite := by
  refine (finite_toSet (running ++ queue)).subset ?_
  rintro r ⟨q,hq,hs⟩
  exact h.complete r q hq (by rw [hs]; rfl)

/-- The lists are permuted and no request changes between the kinds of status told apart. -/
theorem Listed.of_statuses {requests requests' : ReqId → Option Request}
    {running queue running' queue' : List ReqId} {num : ℤ} (h : Listed requests running queue num)
    (hids : (running' ++ queue').Perm (running ++ queue))
    (hun : ∀ r q', requests' r = some q' → q'.status.isFinished = false →
      ∃ q, requests r = some q ∧ q.status.isFinished = false)
    (hstream : streaming requests' = streaming requests) :
    Listed requests' running' queue' num where
  complete r q' hq' hf := by
    obtain ⟨q,hq,hf'⟩ := hun r q' hq' hf
    exact hids.mem_iff.mpr (h.complete r q hq hf')
  num := by rw [hstream, h.num]

structure Scheduler.Complete (s : Scheduler) : Prop where
  queued : s.WellQueued
  listed : Listed s.requests s.running (s.waiting ++ s.skippedWaiting) s.numWaitingForStreamingInput

variable {out : ModelRunnerOutput} {status : RequestStatus} {es : List Scheduled} {q' : Request}

theorem RequestStatus.isFinished_of_isWaiting (h : status.isWaiting = true) :
    status.isFinished = false := by
  cases status <;> simp_all [isWaiting, isFinished]

/-- The kinds of status that `schedule` keeps apart. -/
def KeepsStatus (o o' : Option Request) : Prop :=
  (∀ q', o' = some q' → q'.status.isFinished = false →
    ∃ q, o = some q ∧ q.status.isFinished = false) ∧
  ((∃ q', o' = some q' ∧ q'.status = .waitingForStreamingReq) ↔
    ∃ q, o = some q ∧ q.status = .waitingForStreamingReq)

variable {r : ReqId}

theorem LoopEffect.statuses {cfg : Config} {preempted : List ReqId}
    {o o' : Option Request} (h : LoopEffect cfg preempted r o o' es) : KeepsStatus o o' := by
  cases h with
  | same => exact ⟨fun q' hq' hf => ⟨q',hq',hf⟩,.rfl⟩
  | running hs hn => exact ⟨fun _ _ _ => ⟨_,rfl,by rw [hs]; rfl⟩,by simp [hs]⟩
  | preempt hs hr =>
    exact ⟨fun _ _ _ => ⟨_,rfl,by rw [hs]; rfl⟩,by simp [hs, preemptRequest]⟩
  | waits h =>
    exact ⟨fun _ _ _ => ⟨_,rfl,isFinished_of_isWaiting h.before⟩,
      by simp [h.streaming]⟩
  | admission hk hnew h =>
    exact ⟨fun _ _ _ => ⟨_,rfl,isFinished_of_isWaiting h.waiting⟩,
      by simp [h.notStreaming]⟩

theorem ScheduleEffect.statuses {cfg : Config} {data : Option RequestData}
    {o o' : Option Request} (h : ScheduleEffect cfg r data o o' es) : KeepsStatus o o' := by
  cases h with
  | unscheduled h => exact h.statuses
  | scheduled h step hp hd =>
    obtain ⟨hun,hstream⟩ := h.statuses
    refine ⟨fun q' hq' hf => ?_,?_⟩
    · cases hq'
      rw [advance_status] at hf
      exact hun _ rfl hf
    · rw [← hstream]
      simp [advance_status]

theorem schedule_streaming {cfg : Config}
    {out : SchedulerOutput} (hw : s.WellQueued) (h : Sched.schedule cfg env s = some (s',out)) :
    streaming s'.requests = streaming s.requests := by
  ext r
  exact ((schedule_spec hw h).2 r).statuses.2

theorem Scheduler.Complete.schedule {cfg : Config}
    {out : SchedulerOutput} (hc : s.Complete) (h : Sched.schedule cfg env s = some (s',out)) :
    s'.Complete := by
  obtain ⟨hw,heff⟩ := schedule_spec hc.queued h
  obtain ⟨hids,hnum⟩ := schedule_keeps hc.queued h
  refine ⟨hw,?_⟩
  rw [hnum]
  exact hc.listed.of_statuses hids (fun r => (heff r).statuses.1) (schedule_streaming hc.queued h)

theorem finishAll_of_mem (keep : Scheduler → ReqId → Bool) {ids : List ReqId} (s : Scheduler)
    {x : ReqId} (h : x ∈ ids) {q : Request}
    (hq : (finishAll status keep ids s).requests x = some q) : q.status = status := by
  induction ids generalizing s with
  | nil => cases h
  | cons r ids ih =>
    by_cases hx : x ∈ ids
    · exact ih _ hx hq
    · obtain rfl : x = r := (mem_cons.mp h).resolve_right hx
      change (finishAll status keep ids _).requests x = some q at hq
      rw [finishAll_of_notMem _ _ hx, freeRequest_requests_self, Scheduler.modify_requests_self] at hq
      split at hq
      · obtain ⟨q0,-,rfl⟩ := map_eq_some_iff.mp hq
        rfl
      · cases hq

theorem finishAll_num (status : RequestStatus) (keep : Scheduler → ReqId → Bool)
    (ids : List ReqId) (s : Scheduler) :
    (finishAll status keep ids s).numWaitingForStreamingInput = s.numWaitingForStreamingInput := by
  induction ids generalizing s with
  | nil => rfl
  | cons r ids ih => exact ih _

theorem mem_takeOut {cfg : Config} {fromRunning fromWaiting : List ReqId} {s : Scheduler}
    (hn : s.running.Nodup) (x : ReqId) : x ∈ (takeOut cfg fromRunning fromWaiting s).ids ↔
      x ∈ without fromRunning s.running ++ without fromWaiting (s.waiting ++ s.skippedWaiting) := by
  have hperm (l : List ReqId) :
      (if fromWaiting.isEmpty then l else removeRequests cfg.policy s.lt l fromWaiting).Perm
        (without fromWaiting l) := by
    split
    · rename_i hempty
      rw [isEmpty_iff.mp hempty]
      simp [without]
    · exact removeRequests_perm cfg.policy s.lt l fromWaiting
  rw [without_append]
  refine List.Perm.mem_iff ?_
  rw [Scheduler.ids, takeOut, removeAll_eq_filter hn]
  exact ((hperm _).append (hperm _)).append_left _

/-- The counter goes down by the sessions among the finished requests that waited for input. -/
theorem finishRequests_streaming {cfg : Config} {ids : List ReqId} {keepsBlocks : ReqId → Bool}
    {s : Scheduler} (hfin : (streaming s.requests).Finite) (hids : ids.Nodup)
    (hstatus : status.isFinished = true) :
    ∃ k : ℕ, (finishRequests cfg ids status keepsBlocks s).numWaitingForStreamingInput =
        s.numWaitingForStreamingInput-k ∧
      streaming (finishRequests cfg ids status keepsBlocks s).requests ⊆ streaming s.requests ∧
      ((streaming (finishRequests cfg ids status keepsBlocks s).requests).ncard : ℤ) =
        (streaming s.requests).ncard-k := by
  set valid := ids.filter fun r => (s.requests r).any fun q => !q.status.isFinished
  set hasStatus : RequestStatus → ReqId → Bool := fun st r => (s.requests r).any (·.status = st)
    with hhas
  set gone := (valid.filter fun r => !hasStatus .running r).filter
    (hasStatus .waitingForStreamingReq) with hgone
  have hmemgone (x : ReqId) : x ∈ gone ↔ x ∈ valid ∧ x ∈ streaming s.requests := by
    simp only [hgone, mem_filter, hhas, and_assoc]
    refine and_congr_right fun _ => ?_
    cases hsx : s.requests x with
    | none => simp [streaming, hsx]
    | some q =>
      rw [mem_streaming_of_some hsx]
      simp only [any_some, Bool.not_eq_true', decide_eq_false_iff_not, decide_eq_true_eq]
      exact ⟨And.right,fun h => ⟨by rw [h]; simp,h⟩⟩
  have hset (x : ReqId) : x ∈ streaming (finishRequests cfg ids status keepsBlocks s).requests ↔
      x ∈ streaming s.requests ∧ x ∉ gone := by
    by_cases hx : x ∈ valid
    · refine iff_of_false ?_ fun h => h.2 ((hmemgone x).mpr ⟨hx,h.1⟩)
      rintro ⟨q,hq,hst⟩
      have hq' : q.status = status := finishAll_of_mem _ _ hx hq
      rw [← hq', hst] at hstatus
      cases hstatus
    · have hout : x ∉ gone := fun h => hx ((hmemgone x).mp h).1
      have hnot : (finishRequests cfg ids status keepsBlocks s).requests x = s.requests x :=
        finishAll_of_notMem _ _ hx
      rw [and_iff_left hout]
      simp [streaming, hnot]
  refine ⟨gone.length,finishAll_num ..,fun x hx => ((hset x).mp hx).1,?_⟩
  exact ncard_streaming_remove (((hids.filter _).filter _).filter _) hfin
    (fun x hx => ((hmemgone x).mp hx).2) hset

theorem Scheduler.Complete.finishRequests {cfg : Config} {ids : List ReqId}
    {keepsBlocks : ReqId → Bool} {s : Scheduler} (hc : s.Complete) (hids : ids.Nodup)
    (hstatus : status.isFinished = true) :
    (finishRequests cfg ids status keepsBlocks s).Complete := by
  refine ⟨finishRequests_wellQueued hc.queued,?_⟩
  set valid := ids.filter fun r => (s.requests r).any fun q => !q.status.isFinished
  set hasStatus : RequestStatus → ReqId → Bool := fun st r => (s.requests r).any (·.status = st)
  obtain ⟨hr,hq,hk⟩ := @finishAll_queues status (fun t r => keepsBlocks r ||
    (hasStatus .waitingForRemoteKvs r && !t.finishedRecvingKvReqIds.contains r)) valid
    { takeOut cfg (valid.filter (hasStatus .running))
        (valid.filter fun r => !hasStatus .running r) s with
      numWaitingForStreamingInput := s.numWaitingForStreamingInput-
        ((valid.filter fun r => !hasStatus .running r).filter
          (hasStatus .waitingForStreamingReq)).length }
  constructor
  · intro x q hxq hf
    have hx : x ∉ valid := by
      intro hx
      have hq' : q.status = status := finishAll_of_mem _ _ hx hxq
      rw [hq', hstatus] at hf
      cases hf
    have hnot : (Sched.finishRequests cfg ids status keepsBlocks s).requests x = s.requests x :=
      finishAll_of_notMem _ _ hx
    rw [hnot] at hxq
    have hold := hc.listed.complete x q hxq hf
    change x ∈ (Sched.finishRequests cfg ids status keepsBlocks s).ids
    rw [Scheduler.ids, show (Sched.finishRequests cfg ids status keepsBlocks s).running = _ from hr,
      show (Sched.finishRequests cfg ids status keepsBlocks s).waiting = _ from hq,
      show (Sched.finishRequests cfg ids status keepsBlocks s).skippedWaiting = _ from hk]
    refine (mem_takeOut hc.queued.nodup_running x).mpr ?_
    rcases mem_append.mp hold with hold | hold
    · exact mem_append_left _ (mem_without.mpr ⟨hold,fun h => hx (mem_filter.mp h).1⟩)
    · exact mem_append_right _ (mem_without.mpr ⟨hold,fun h => hx (mem_filter.mp h).1⟩)
  · obtain ⟨k,hnum,-,hcard⟩ := @finishRequests_streaming status cfg ids keepsBlocks s
      hc.listed.finite hids hstatus
    rw [hnum, hcard, hc.listed.num]

def Request.Ends (q : Request) : Prop :=
  q.resumable = false ∨ q.streamingQueue.head?.any Option.isNone = true

instance (q : Request) : Decidable q.Ends := inferInstanceAs (Decidable (_ ∨ _))

/-- A stopped request that ends leaves the lists alone, any other one is queued once more. -/
theorem handleStopped_cases (cfg : Config) {s : Scheduler} {q0 : Request} (q : Request)
    (keep : Bool) (hq0 : s.requests r = some q0) :
    (q.Ends ∧ ∃ o : Option Request, (∀ q', o = some q' → q'.status = q.status) ∧
      (handleStopped cfg s r q keep).requests = update s.requests r o ∧
      (handleStopped cfg s r q keep).running = s.running ∧
      (handleStopped cfg s r q keep).waiting = s.waiting ∧
      (handleStopped cfg s r q keep).skippedWaiting = s.skippedWaiting ∧
      (handleStopped cfg s r q keep).numWaitingForStreamingInput = s.numWaitingForStreamingInput) ∨
    (¬q.Ends ∧ ∃ q' : Request, (handleStopped cfg s r q keep).requests = update s.requests r (some q') ∧
      (handleStopped cfg s r q keep).running = s.running ∧
      ((handleStopped cfg s r q keep).waiting ++ (handleStopped cfg s r q keep).skippedWaiting).Perm
        (r :: (s.waiting ++ s.skippedWaiting)) ∧
      (handleStopped cfg s r q keep).numWaitingForStreamingInput = s.numWaitingForStreamingInput+
        if q'.status = .waitingForStreamingReq then 1 else 0) := by
  have hfree (q' : Request) (hst : q'.status = q.status) :
      ∃ o : Option Request, (∀ q', o = some q' → q'.status = q.status) ∧
        (freeRequest (s.modify r fun _ => q') r keep).requests = update s.requests r o := by
    have hreq := Scheduler.modify_requests_of_some (fun _ => q') hq0
    cases keep with
    | true => exact ⟨some q',fun x hx => by cases hx; exact hst,hreq⟩
    | false =>
      refine ⟨none,by simp,?_⟩
      show update (s.modify r fun _ => q').requests r none = _
      rw [hreq, update_idem]
  have hqueue (t : Scheduler) (status : RequestStatus) :
      (enqueueWaitingRequest cfg t r status).numWaitingForStreamingInput =
        t.numWaitingForStreamingInput := by
    rw [enqueueWaitingRequest]
    split <;> rfl
  rw [handleStopped]
  split
  · rename_i hres
    obtain ⟨o,ho,hreq⟩ := hfree q rfl
    exact .inl ⟨.inl (by simpa using hres),o,ho,hreq,rfl,rfl,rfl,rfl⟩
  rename_i hres
  split
  · rename_i rest hsq
    obtain ⟨o,ho,hreq⟩ := hfree { q with streamingQueue := rest } rfl
    exact .inl ⟨.inr (by simp [hsq]),o,ho,hreq,rfl,rfl,rfl,rfl⟩
  · rename_i u rest hsq
    have hreq := Scheduler.modify_requests_of_some
      (fun _ => updateRequestAsSession { q with streamingQueue := rest } u) hq0
    refine .inr ⟨by simp_all [Request.Ends],
      updateRequestAsSession { q with streamingQueue := rest } u,?_,?_,
      enqueueWaitingRequest_queue ..,?_⟩
    · exact (enqueueWaitingRequest_requests ..).1.trans hreq
    · exact (enqueueWaitingRequest_requests ..).2
    · rw [hqueue]
      simp [updateRequestAsSession, Scheduler.modify]
  · rename_i hsq
    have hreq := Scheduler.modify_requests_of_some
      (fun _ => { q with status := waitingForStreamingReq }) hq0
    refine .inr ⟨by simp_all [Request.Ends], { q with status := waitingForStreamingReq },?_,?_,
      enqueueWaitingRequest_queue ..,?_⟩
    · exact (enqueueWaitingRequest_requests ..).1.trans hreq
    · exact (enqueueWaitingRequest_requests ..).2
    · rw [hqueue]
      simp [Scheduler.modify]

theorem processOutput_stops {maxModelLen : ℕ} {e : Scheduled} {tokens : List Token}
    {grammarRejects : Bool} {q : Request}
    (h : processOutput maxModelLen e tokens grammarRejects q = some (q',true)) :
    q'.status.isFinished = true := by
  rcases processOutput_spec h with ⟨-,-,hf⟩ | ⟨-,kept,habs⟩
  · cases hf
  · exact habs.stops rfl

def stopsRunning (cfg : Config) (out : ModelRunnerOutput) (requests : ReqId → Option Request)
    (e : Scheduled) : Bool :=
  (requests e.reqId).all fun q =>
    (processOutput cfg.maxModelLen e (out.sampledTokenIds e.reqId) (out.grammarRejects e.reqId)
      q).all fun (q',stopped) => !stopped || decide (q.status = .running) ||
        decide (q.status ≠ .waitingForStreamingReq ∧ q'.Ends)

section Update

variable {requests : ReqId → Option Request} {running queue queue' gone gone' : List ReqId}
  {num : ℤ} {r : ReqId} {q : Request}

theorem mem_without_concat {x : ReqId} {l : List ReqId} (hx : x ≠ r) (h : x ∈ without gone l) :
    x ∈ without (gone ++ [r]) l := by
  rw [mem_without] at h ⊢
  refine ⟨h.1,fun hmem => (mem_append.mp hmem).elim h.2 fun hr => hx (mem_singleton.mp hr)⟩

section

variable (h : Listed requests running queue num)

include h

theorem Listed.ended {o : Option Request} {running' queue' : List ReqId} (hq : requests r = some q)
    (hs : q.status ≠ .waitingForStreamingReq) (ho : ∀ q', o = some q' → q'.status.isFinished = true)
    (hlists : ∀ x, x ≠ r → x ∈ running ++ queue → x ∈ running' ++ queue') :
    Listed (update requests r o) running' queue' num where
  complete x q' hq' hf := by
    by_cases hx : x = r
    · subst hx
      rw [update_self] at hq'
      rw [ho q' hq'] at hf
      cases hf
    · rw [update_of_ne hx] at hq'
      exact hlists x hx (h.complete x q' hq' hf)
  num := by
    rw [streaming_update_same, h.num]
    refine iff_of_false (fun hmem => hs ((mem_streaming_of_some hq).mp hmem)) ?_
    rintro ⟨q',hq',hs'⟩
    rw [update_self] at hq'
    have := ho q' hq'
    rw [hs'] at this
    cases this

theorem Listed.continued (hq : requests r = some q)
    (hs : q.status = .running) {running' queue' : List ReqId} (hr : r ∈ running' ++ queue')
    (hlists : ∀ x, x ≠ r → x ∈ running ++ queue → x ∈ running' ++ queue') :
    Listed (update requests r (some q')) running' queue'
      (num+if q'.status = .waitingForStreamingReq then 1 else 0) where
  complete x p hp hf := by
    by_cases hx : x = r
    · rwa [hx]
    · rw [update_of_ne hx] at hp
      exact hlists x hx (h.complete x p hp hf)
  num := by
    have hout : r ∉ streaming requests := by
      rw [mem_streaming_of_some hq, hs]
      simp
    have hself : update requests r (some q') r = some q' := update_self ..
    split
    · rename_i hstream
      rw [ncard_streaming_insert h.finite hout ((mem_streaming_of_some hself).mpr hstream), h.num]
      push_cast
      rfl
    · rename_i hstream
      rw [streaming_update_same, h.num, add_zero]
      exact iff_of_false hout fun hmem => hstream ((mem_streaming_of_some hself).mp hmem)

theorem Listed.modified (hq : requests r = some q) (hs : q'.status = q.status) :
    Listed (update requests r (some q')) running queue num := by
  have hself : update requests r (some q') r = some q' := update_self ..
  refine h.of_statuses (.refl _) (fun x p hp hf => ?_) (streaming_update_same ?_)
  · by_cases hx : x = r
    · subst hx
      cases hself.symm.trans hp
      exact ⟨q,hq,hs ▸ hf⟩
    · rw [update_of_ne hx] at hp
      exact ⟨p,hp,hf⟩
  · rw [mem_streaming_of_some hq, mem_streaming_of_some hself, hs]

end

end Update

def UpdateLoop.Listed (u : UpdateLoop) : Prop :=
  Sched.Listed u.sched.requests (without u.stoppedRunning u.sched.running)
    (without u.stoppedPreempted (u.sched.waiting ++ u.sched.skippedWaiting))
    u.sched.numWaitingForStreamingInput

theorem UpdateLoop.Listed.step {cfg : Config} {u u' : UpdateLoop} {e : Scheduled} (hl : u.Listed)
    (hfresh : e.reqId ∉ u.stoppedPreempted) (hok : stopsRunning cfg out u.sched.requests e = true)
    (hstep : processScheduled cfg out u e = some u') : u'.Listed := by
  rw [processScheduled] at hstep
  split at hstep
  · cases hstep
  split at hstep
  · cases hstep
    exact hl
  rename_i q hq
  split at hstep
  · cases hstep
  rename_i q' stopped hproc
  cases stopped with
  | false =>
    cases hstep
    show Sched.Listed (u.sched.modify e.reqId fun _ => q').requests _ _ _
    rw [Scheduler.modify_requests_of_some (fun _ => q') hq]
    exact Sched.Listed.modified hl hq (processOutput_status hproc)
  | true =>
    have hfin := processOutput_stops hproc
    have hcases := handleStopped_cases cfg q' (out.keepsBlocks e.reqId) hq
    have hwr (x : ReqId) (hx : x ≠ e.reqId) (hmem : x ∈ without u.stoppedRunning u.sched.running) :=
      mem_without_concat hx hmem
    -- the list to leave depends on the status before the output
    by_cases hrun : q.status = .running
    · simp only [if_true, if_pos hrun, Option.some.injEq] at hstep
      subst hstep
      rw [UpdateLoop.Listed]
      rcases hcases with ⟨-,o,ho,hreq,hrunning,hwait,hskip,hnum⟩ | ⟨-,q1,hreq,hrunning,hque,hnum⟩
      · rw [hreq, hrunning, hwait, hskip, hnum]
        refine Sched.Listed.ended hl hq (by simp [hrun]) (fun p hp => ho p hp ▸ hfin) ?_
        intro x hx hmem
        rcases mem_append.mp hmem with hmem | hmem
        · exact mem_append_left _ (hwr x hx hmem)
        · exact mem_append_right _ hmem
      · rw [hreq, hrunning, hnum]
        refine Sched.Listed.continued hl hq hrun ?_ ?_
        · refine mem_append_right _ (mem_without.mpr ⟨hque.mem_iff.mpr ?_,hfresh⟩)
          exact mem_cons_self
        · intro x hx hmem
          rcases mem_append.mp hmem with hmem | hmem
          · exact mem_append_left _ (hwr x hx hmem)
          · obtain ⟨hin,hout⟩ := mem_without.mp hmem
            refine mem_append_right _ (mem_without.mpr ⟨hque.mem_iff.mpr ?_,hout⟩)
            exact mem_cons_of_mem _ hin
    · simp only [if_true, if_neg hrun, Option.some.injEq] at hstep
      subst hstep
      obtain ⟨hstream,hends⟩ : q.status ≠ .waitingForStreamingReq ∧ q'.Ends := by
        simpa [stopsRunning, hq, hproc, hrun] using hok
      rcases hcases with ⟨-,o,ho,hreq,hrunning,hwait,hskip,hnum⟩ | ⟨hno,-⟩
      · rw [UpdateLoop.Listed, hreq, hrunning, hwait, hskip, hnum]
        refine Sched.Listed.ended hl hq hstream (fun p hp => ho p hp ▸ hfin) ?_
        intro x hx hmem
        rcases mem_append.mp hmem with hmem | hmem
        · exact mem_append_left _ hmem
        · exact mem_append_right _ (mem_without_concat hx hmem)
      · exact absurd hends hno

theorem updateLoop_listed {cfg : Config} {s : Scheduler} {u : UpdateLoop} (hc : s.Complete)
    (hn : (es.map (·.reqId)).Nodup) (hok : ∀ e ∈ es, stopsRunning cfg out s.requests e = true)
    (h : es.foldlM (processScheduled cfg out) ⟨s,[],[]⟩ = some u) : u.Listed := by
  have hstart : UpdateInv cfg out s [] ⟨s,[],[]⟩ :=
    ⟨rfl,by simpa [without, Scheduler.WellQueued] using hc.queued,by simp,fun r => .same _⟩
  have hlisted : UpdateLoop.Listed ⟨s,[],[]⟩ := by
    simpa [UpdateLoop.Listed, without] using hc.listed
  refine (foldlM_option_invariant (P := fun done u => UpdateInv cfg out s done u ∧ u.Listed)
    ?_ ⟨hstart,hlisted⟩ h).2
  rintro done e t t' hpre ⟨hinv,hl⟩ hstep
  have hsub := (hpre.sublist.map Scheduled.reqId).nodup hn
  rw [map_append, nodup_append] at hsub
  have hfresh : e.reqId ∉ done.map (·.reqId) := fun hmem => hsub.2.2 _ hmem _ (by simp) rfl
  -- an entry finds its request as it was before the loop
  have hsame : t.sched.requests e.reqId = s.requests e.reqId := by
    have hnil : entriesOf e.reqId done = [] :=
      entriesOf_eq_nil fun e' he' heq => hfresh (heq ▸ mem_map_of_mem he')
    have heff := hinv.effect e.reqId
    rw [hnil] at heff
    exact heff.eq_of_nil
  refine ⟨hinv.step hfresh hstep,hl.step ?_ ?_ hstep⟩
  · exact fun hmem => hfresh (hinv.ofStopped _ (mem_append_right _ hmem))
  · have he := hok e (hpre.subset (by simp))
    rwa [stopsRunning, ← hsame] at he

theorem freeSent_num (h : freeSent s r = some s') :
    s'.numWaitingForStreamingInput = s.numWaitingForStreamingInput := by
  rw [freeSent] at h
  split at h
  · split at h <;> cases h
    rfl
  · cases h

theorem kvTransferFinished_num (h : kvTransferFinished out s = some s') :
    s'.numWaitingForStreamingInput = s.numWaitingForStreamingInput := by
  obtain ⟨t,hrecv,hsend⟩ := bind_eq_some_iff.mp h
  let Same (t : Scheduler) : Prop := t.numWaitingForStreamingInput = s.numWaitingForStreamingInput
  have hst : Same t := by
    refine foldlM_option_keeps (P := Same) (fun r _ t t' ht hstep => ?_) rfl hrecv
    rw [receiveKv] at hstep
    split at hstep
    · cases hstep
      exact ht
    · exact (freeSent_num hstep).trans ht
  exact foldlM_option_keeps (P := Same) (fun r _ t t' ht hstep => (freeSent_num hstep).trans ht)
    hst hsend

theorem TransferEffect.streaming (h : TransferEffect s s') :
    streaming s'.requests = streaming s.requests := by
  ext r
  rcases h.requests r with hsame | ⟨hnone,q,hq,hf⟩
  · simp [Sched.streaming, hsame]
  · rw [mem_streaming_of_some hq]
    refine iff_of_false ?_ fun hs => by simp [hs, isFinished] at hf
    rintro ⟨q',hq',-⟩
    rw [hnone] at hq'
    cases hq'

theorem Scheduler.Complete.transfer (hc : s.Complete) (h : TransferEffect s s')
    (hnum : s'.numWaitingForStreamingInput = s.numWaitingForStreamingInput) : s'.Complete := by
  refine ⟨h.wellQueued hc.queued,?_⟩
  rw [h.running, h.waiting, h.skippedWaiting, hnum]
  refine hc.listed.of_statuses (.refl _) (fun r q' hq' hf => ?_) h.streaming
  rcases h.requests r with hsame | ⟨hnone,-⟩
  · exact ⟨q',hsame ▸ hq',hf⟩
  · rw [hnone] at hq'
    cases hq'

theorem Scheduler.Complete.updateFromOutput {cfg : Config}
    {step : SchedulerOutput} (hc : s.Complete) (hn : (step.scheduled.map (·.reqId)).Nodup)
    (hok : ∀ e ∈ step.scheduled, stopsRunning cfg out s.requests e = true)
    (h : Sched.updateFromOutput cfg step out s = some s') : s'.Complete := by
  obtain ⟨u,hloop,hrest⟩ := bind_eq_some_iff.mp h
  have hinv := updateLoop_spec hc.queued hn hloop
  have hlisted := updateLoop_listed hc hn hok hloop
  have hnodup : u.sched.running.Nodup := by
    rw [hinv.running]
    exact hc.queued.nodup_running
  have hout : (takeOut cfg u.stoppedRunning u.stoppedPreempted u.sched).Complete := by
    refine ⟨takeOut_wellQueued hnodup hinv.queued,⟨fun r q hq hf => ?_,hlisted.num⟩⟩
    exact (mem_takeOut hnodup r).mpr (hlisted.complete r q hq hf)
  have hclear : ({ takeOut cfg u.stoppedRunning u.stoppedPreempted u.sched with
      grammarCompileErrorReqs := [] } : Scheduler).Complete := ⟨hout.queued,hout.listed⟩
  exact (hclear.finishRequests (nodup_dedup _) rfl).transfer (kvTransferFinished_spec hrest)
    (kvTransferFinished_num hrest)

theorem enqueueWaitingRequest_num (cfg : Config) (s : Scheduler) (r : ReqId)
    (status : RequestStatus) : (enqueueWaitingRequest cfg s r status).numWaitingForStreamingInput =
      s.numWaitingForStreamingInput := by
  rw [enqueueWaitingRequest]
  split <;> rfl

theorem Listed.added {running queue queue' : List ReqId}
    {num : ℤ} {n : Request} (h : Listed requests running queue num)
    (hnone : requests r = none) (hs : n.status ≠ .waitingForStreamingReq)
    (hque : queue'.Perm (r :: queue)) : Listed (update requests r (some n)) running queue' num where
  complete x q hq hf := by
    by_cases hx : x = r
    · rw [hx]
      exact mem_append_right _ (hque.mem_iff.mpr mem_cons_self)
    · rw [update_of_ne hx] at hq
      rcases mem_append.mp (h.complete x q hq hf) with hmem | hmem
      · exact mem_append_left _ hmem
      · exact mem_append_right _ (hque.mem_iff.mpr (mem_cons_of_mem _ hmem))
  num := by
    rw [streaming_update_same, h.num]
    refine iff_of_false ?_ fun hmem => hs ((mem_streaming_of_some (update_self ..)).mp hmem)
    rintro ⟨q,hq,-⟩
    rw [hnone] at hq
    cases hq

theorem Listed.resumed {running queue : List ReqId} {num : ℤ} {q : Request} (h : Listed requests running queue num) (hq : requests r = some q)
    (hs : q.status = .waitingForStreamingReq) (hs' : q'.status = .waiting) :
    Listed (update requests r (some q')) running queue (num-1) where
  complete x p hp hf := by
    by_cases hx : x = r
    · rw [hx]
      exact h.complete r q hq (by rw [hs]; rfl)
    · rw [update_of_ne hx] at hp
      exact h.complete x p hp hf
  num := by
    have hself : update requests r (some q') r = some q' := update_self ..
    have hin : r ∈ streaming requests := (mem_streaming_of_some hq).mpr hs
    have hset (x : ReqId) : x ∈ streaming (update requests r (some q')) ↔
        x ∈ streaming requests ∧ x ∉ [r] := by
      rw [mem_singleton]
      by_cases hx : x = r
      · subst hx
        rw [mem_streaming_of_some hself, hs']
        simp
      · rw [mem_streaming_update_of_ne hx, and_iff_left hx]
    rw [h.num, ncard_streaming_remove (nodup_singleton r) h.finite
      (fun x hx => mem_singleton.mp hx ▸ hin) hset]
    rfl

theorem Scheduler.Complete.addNewRequest {cfg : Config} {n : Request}
    (hc : s.Complete) (hn : n.status.isWaiting = true) (hs : n.status ≠ .waitingForStreamingReq)
    (h : Sched.addNewRequest cfg n s = some s') : s'.Complete := by
  refine ⟨(addNewRequest_spec hc.queued hn h).1,?_⟩
  rw [Sched.addNewRequest] at h
  split at h
  · rename_i hnone
    cases h
    rw [(enqueueWaitingRequest_requests ..).1, (enqueueWaitingRequest_requests ..).2,
      enqueueWaitingRequest_num]
    exact hc.listed.added hnone hs (enqueueWaitingRequest_queue ..)
  rename_i q hq
  simp only at h
  split at h
  · split at h
    · cases h
      rw [modify_requests_of_some _ hq]
      exact hc.listed.modified hq rfl
    · cases h
  · rename_i hst
    have hst : q.status = .waitingForStreamingReq := not_not.mp hst
    split at h
    · rename_i u hu
      cases h
      show Listed (s.modify n.requestId fun x => updateRequestAsSession x u).requests _ _ _
      rw [modify_requests_of_some _ hq]
      exact hc.listed.resumed hq hst rfl
    · cases h
      exact (hc.finishRequests (nodup_singleton _) rfl).listed

theorem foldl_preempt_keeps (cfg : Config) (l : List ReqId) (s : Scheduler) :
    ((l.foldl (preempt cfg true) s).waiting ++ (l.foldl (preempt cfg true) s).skippedWaiting).Perm
        (l ++ (s.waiting ++ s.skippedWaiting)) ∧
      (l.foldl (preempt cfg true) s).numWaitingForStreamingInput = s.numWaitingForStreamingInput := by
  induction l generalizing s with
  | nil => exact ⟨.refl _,rfl⟩
  | cons v l ih =>
    obtain ⟨hids,hnum⟩ := ih (preempt cfg true s v)
    refine ⟨hids.trans ?_,hnum⟩
    have hone : ((preempt cfg true s v).waiting ++ (preempt cfg true s v).skippedWaiting).Perm
        (v :: (s.waiting ++ s.skippedWaiting)) := (prependRequest_perm ..).append_right _
    exact (hone.append_left l).trans perm_middle

theorem resetRunningRequests_streaming (cfg : Config) {s : Scheduler} (hw : s.WellQueued) :
    streaming (resetRunningRequests cfg s).requests = streaming s.requests := by
  ext r
  simp only [streaming, Set.mem_ofPred_eq, (resetRunningRequests_spec cfg hw).2]
  split
  · rename_i hmem
    obtain ⟨q,hq,hst⟩ := hw.ofRunning r hmem
    simp [hq, hst, preemptRequest]
  · rfl

theorem resetRunningRequests_running (cfg : Config) {s : Scheduler} (hw : s.WellQueued) :
    (resetRunningRequests cfg s).running = [] :=
  (foldl_preempt_spec cfg s.running.reverse (s := { s with running := [] })
    (hw.perm (reverse_perm _) (.refl _))).2.1

theorem Scheduler.Complete.reset (cfg : Config) {s : Scheduler} (hc : s.Complete) :
    (resetRunningRequests cfg s).Complete := by
  obtain ⟨hw,hreq⟩ := resetRunningRequests_spec cfg hc.queued
  obtain ⟨hids,hnum⟩ := foldl_preempt_keeps cfg s.running.reverse { s with running := [] }
  refine ⟨hw,?_⟩
  rw [show (resetRunningRequests cfg s).numWaitingForStreamingInput = _ from hnum]
  refine hc.listed.of_statuses ?_ (fun r q' hq' hf => ?_)
    (resetRunningRequests_streaming cfg hc.queued)
  · rw [resetRunningRequests_running cfg hc.queued]
    exact hids.trans ((reverse_perm _).append_right _)
  · rw [hreq] at hq'
    split at hq'
    · rename_i hmem
      obtain ⟨q,hq,hst⟩ := hc.queued.ofRunning r hmem
      exact ⟨q,hq,by rw [hst]; rfl⟩
    · exact ⟨q',hq',hf⟩

def System.stopsRunning (cfg : Config) (s : System) : Event → Bool
  | .updateFromOutput out => s.inFlight.head?.all fun f =>
      f.output.scheduled.all (Sched.stopsRunning cfg out s.sched.requests)
  | _ => true

theorem NewRequest.not_streaming (n : NewRequest) : n.toRequest.status ≠ .waitingForStreamingReq := by
  rw [NewRequest.toRequest]
  simp only
  split <;> simp

theorem Scheduler.Complete.call {cfg : Config} {s s' : System} {e : Event} (hc : s.sched.Complete)
    (hq : s.Queued) (hok : s.stopsRunning cfg e = true) (h : s.Call cfg s' e) :
    s'.sched.Complete := by
  cases h with
  | @addRequest n h hf => exact hc.addNewRequest n.isWaiting n.not_streaming h
  | @schedule env out h hf => exact hc.schedule h
  | @updateFromOutput f out h hf hfits =>
    refine hc.updateFromOutput (hq.distinct f (hf ▸ mem_cons_self)) ?_ h
    simpa [System.stopsRunning, hf] using hok
  | finishRequests hs h hf =>
    rw [h]
    exact hc.finishRequests (nodup_dedup _) hs
  | resetPrefixCache h hf =>
    rw [h]
    exact hc.reset cfg

theorem Scheduler.complete_init : ({} : Scheduler).Complete := by
  refine ⟨System.queued_init.wellQueued,⟨by simp,?_⟩⟩
  simp [streaming]

/-- In every run in which outputs stop only running requests, except to end them, each unfinished
request is on exactly one list, once. -/
theorem unfinished_requests_listed_once (cfg : Config) {s : System}
    (h : Reachable (System.step cfg) (fun s e _ => s.stopsRunning cfg e = true) {} s) :
    (∀ r q, s.sched.requests r = some q → q.status.isFinished = false →
      (s.sched.running ++ (s.sched.waiting ++ s.sched.skippedWaiting)).count r = 1) ∧
    (∀ r ∈ s.sched.running ++ (s.sched.waiting ++ s.sched.skippedWaiting),
      ∃ q, s.sched.requests r = some q ∧ q.status.isFinished = false) ∧
    (∀ r, r ∈ s.sched.running ↔ ∃ q, s.sched.requests r = some q ∧ q.status = .running) ∧
    s.sched.numWaitingForStreamingInput =
      ({r | ∃ q, s.sched.requests r = some q ∧ q.status = .waitingForStreamingReq} : Set ReqId).ncard := by
  have hall : s.Queued ∧ s.sched.Complete := by
    refine h.invariant (P := fun s => s.Queued ∧ s.sched.Complete)
      ⟨System.queued_init,Scheduler.complete_init⟩ ?_
    intro s e s' hs hstep hok
    have hcall := System.step_cases hstep
    exact ⟨hs.1.call hcall,hs.2.call hs.1 hok hcall⟩
  obtain ⟨hqueued,hlisted⟩ := hall.2
  refine ⟨fun r q hq hf => ?_,fun r hr => ?_,fun r => ⟨hqueued.ofRunning r,?_⟩,hlisted.num⟩
  · exact count_eq_one_of_mem hqueued.nodup (hlisted.complete r q hq hf)
  · rcases mem_append.mp hr with hr | hr
    · obtain ⟨q,hq,hst⟩ := hqueued.ofRunning r hr
      exact ⟨q,hq,by rw [hst]; rfl⟩
    · obtain ⟨q,hq,hst⟩ := hqueued.ofQueue r hr
      exact ⟨q,hq,isFinished_of_isWaiting hst⟩
  · rintro ⟨q,hq,hst⟩
    refine (mem_append.mp (hlisted.complete r q hq (by rw [hst]; rfl))).resolve_right ?_
    exact hqueued.not_queued hq hst

def sessionModel : Config := fourRequests 32 0

def sessionInput : NewRequest :=
  { shortPrompt with samplingParams := { stopTokenIds := [7] }, resumable := true }

/-- A session that stops while it runs waits for its next input in the skipped queue. -/
theorem unfinished_requests_listed_once_session :
    ∃ s : System, s.sched.skippedWaiting = [0] ∧ s.sched.numWaitingForStreamingInput = 1 ∧
      (∀ r, r ∈ s.sched.running ↔ ∃ q, s.sched.requests r = some q ∧ q.status = .running) ∧
      ∀ r q, s.sched.requests r = some q → q.status.isFinished = false →
        (s.sched.running ++ (s.sched.waiting ++ s.sched.skippedWaiting)).count r = 1 := by
  obtain ⟨s,hs,hp⟩ := Reachable.exists_of_runGuarded (System.step sessionModel)
    (fun s e _ h => show s.stopsRunning sessionModel e = true from h) {}
    [.addRequest sessionInput,
      .addRequest { requestId := 1, promptTokenIds := [3], maxTokens := 4 },.schedule {},
      .updateFromOutput { sampledTokenIds := fun _ => [7] }]
    (fun s => s.sched.skippedWaiting == [0] && s.sched.numWaitingForStreamingInput == 1)
    (by decide +kernel)
  obtain ⟨hskip,hnum⟩ := Bool.and_eq_true_iff.mp hp
  have hall := unfinished_requests_listed_once sessionModel hs
  exact ⟨s,beq_iff_eq.mp hskip,beq_iff_eq.mp hnum,hall.2.2.1,hall.1⟩

/-- A session preempted with an output in flight, which that output then stops, is on no list,
and no list takes it up again when its next input arrives. -/
theorem preempted_session_lost :
    ∃ s : System, Reachable (System.step sessionModel) (fun _ _ _ => True) {} s ∧
      (∃ q, s.sched.requests 0 = some q ∧ q.status = .waiting) ∧
      s.sched.running = [] ∧ s.sched.waiting = [] ∧ s.sched.skippedWaiting = [] := by
  have hcheck : ∀ (s : System) (e : Event) (s' : System), true = true → True :=
    fun _ _ _ _ => trivial
  obtain ⟨s,hs,hp⟩ := Reachable.exists_of_runGuarded (System.step sessionModel) hcheck {}
    [.addRequest sessionInput,.schedule {},.schedule { allocateSlots := fun _ => false },
      .updateFromOutput { sampledTokenIds := fun _ => [7] },.addRequest sessionInput]
    (fun s => (s.sched.requests 0).any (fun q : Request => decide (q.status = .waiting)) &&
      decide (s.sched.running = [] ∧ s.sched.waiting = [] ∧ s.sched.skippedWaiting = []))
    (by decide +kernel)
  obtain ⟨hreq,hlists⟩ := Bool.and_eq_true_iff.mp hp
  obtain ⟨q,hq,hst⟩ := (Option.any_eq_true ..).mp hreq
  exact ⟨s,hs,⟨q,hq,of_decide_eq_true hst⟩,of_decide_eq_true hlists⟩

end MetaZenith.Sched
