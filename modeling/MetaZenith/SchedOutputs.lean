import MetaZenith.GuardedRuns
import MetaZenith.SchedEffects

/-! What `update_from_output` and the calls from outside can do to a request. -/

namespace MetaZenith.Sched

open Scheduler SchedulerClass List Option Function

variable {requests : ReqId → Option Request} {ids queue running : List ReqId} {s s' : Scheduler}
  {r x : ReqId} {o o' : Option Request} {cfg : Config} {status : RequestStatus}
  {out : ModelRunnerOutput} {q q' q0 : Request} {maxModelLen : ℕ} {e : Scheduled}
  {tokens : List Token} {grammarRejects isStale stopped : Bool} {done es : List Scheduled}
  {u : UpdateLoop}

theorem WellQueued.restrict {requests' : ReqId → Option Request} {running' queue' : List ReqId}
    (h : WellQueued requests running queue) (hn : (running' ++ queue').Nodup)
    (hrun : ∀ x ∈ running', x ∈ running) (hque : ∀ x ∈ queue', x ∈ queue)
    (hsame : ∀ x ∈ running' ++ queue', requests' x = requests x) :
    WellQueued requests' running' queue' where
  nodup := hn
  ofRunning x hx := by
    rw [hsame x (mem_append_left _ hx)]
    exact h.ofRunning x (hrun x hx)
  ofQueue x hx := by
    rw [hsame x (mem_append_right _ hx)]
    exact h.ofQueue x (hque x hx)

inductive FinishEffect (status : RequestStatus) : Option Request → Option Request → Prop
  | same (o : Option Request) : FinishEffect status o o
  | dropped (o : Option Request) : FinishEffect status o none
  | kept (q : Request) : FinishEffect status (some q) (some { q with status := status })

section Finish

variable {status : RequestStatus} (keep : Scheduler → ReqId → Bool)

theorem finishAll_queues (ids : List ReqId) (s : Scheduler) :
    (finishAll status keep ids s).running = s.running ∧
      (finishAll status keep ids s).waiting = s.waiting ∧
      (finishAll status keep ids s).skippedWaiting = s.skippedWaiting := by
  induction ids generalizing s with
  | nil => exact ⟨rfl,rfl,rfl⟩
  | cons r ids ih => exact ih _

theorem freeRequest_requests_of_ne (delay : Bool) (h : x ≠ r) :
    (freeRequest s r delay).requests x = s.requests x := by
  rw [freeRequest]
  cases delay with
  | false => exact update_of_ne h ..
  | true => rfl

theorem freeRequest_requests_self (s : Scheduler) (r : ReqId) (delay : Bool) :
    (freeRequest s r delay).requests r = if delay then s.requests r else none := by
  rw [freeRequest]
  cases delay with
  | false => exact update_self ..
  | true => rfl

theorem finishAll_of_notMem (s : Scheduler) (h : x ∉ ids) :
    (finishAll status keep ids s).requests x = s.requests x := by
  induction ids generalizing s with
  | nil => rfl
  | cons r ids ih =>
    obtain ⟨hx,hids⟩ := not_or.mp (mt mem_cons.mpr h)
    show (finishAll status keep ids _).requests x = _
    rw [ih _ hids, freeRequest_requests_of_ne _ hx, modify_requests_of_ne _ _ hx]

theorem finishAll_effect (ids : List ReqId) (s : Scheduler) (ho : s.requests x = o) :
    FinishEffect status o ((finishAll status keep ids s).requests x) := by
  subst ho
  induction ids generalizing s with
  | nil => exact .same _
  | cons r ids ih =>
    have h := ih (freeRequest (s.modify r fun q => { q with status := status }) r (keep s r))
    show FinishEffect status _ ((finishAll status keep ids _).requests x)
    by_cases hx : x = r
    · subst hx
      rw [freeRequest_requests_self, modify_requests_self] at h
      generalize (finishAll status keep ids _).requests x = o' at h
      cases hs : s.requests x with
      | none =>
        rw [hs, map_none, ite_self] at h
        cases h
        · exact .same _
        · exact .dropped _
      | some q =>
        rw [hs, map_some] at h
        split at h
        · cases h with
          | same => exact .kept q
          | dropped => exact .dropped _
          | kept => exact .kept q
        · cases h
          · exact .dropped _
          · exact .dropped _
    · rwa [freeRequest_requests_of_ne _ hx, modify_requests_of_ne _ _ hx] at h

end Finish

def without (gone l : List ReqId) : List ReqId := l.filter fun x => !gone.contains x

theorem mem_without {gone l : List ReqId} : x ∈ without gone l ↔ x ∈ l ∧ x ∉ gone := by
  simp [without]

theorem without_sublist (gone l : List ReqId) : (without gone l).Sublist l := filter_sublist

theorem without_append (gone l l' : List ReqId) :
    without gone (l ++ l') = without gone l ++ without gone l' := filter_append ..

theorem without_perm {l l' : List ReqId} (gone : List ReqId) (h : l.Perm l') :
    (without gone l).Perm (without gone l') := h.filter _

theorem without_append_nodup (h : (running ++ queue).Nodup) (gone gone' : List ReqId) :
    (without gone running ++ without gone' queue).Nodup :=
  h.sublist ((without_sublist _ _).append (without_sublist _ _))

theorem takeOut_wellQueued {fromRunning fromWaiting : List ReqId} (hn : s.running.Nodup)
    (h : WellQueued requests (without fromRunning s.running)
      (without fromWaiting (s.waiting ++ s.skippedWaiting))) :
    WellQueued requests (takeOut cfg fromRunning fromWaiting s).running
      ((takeOut cfg fromRunning fromWaiting s).waiting ++
        (takeOut cfg fromRunning fromWaiting s).skippedWaiting) := by
  have hperm : ∀ l : List ReqId,
      (if fromWaiting.isEmpty then l else removeRequests cfg.policy s.lt l fromWaiting).Perm
        (without fromWaiting l) := by
    intro l
    split
    · rename_i hempty
      rw [isEmpty_iff.mp hempty]
      simp [without]
    · exact removeRequests_perm cfg.policy s.lt l fromWaiting
  rw [takeOut, removeAll_eq_filter hn]
  rw [without_append] at h
  exact h.perm (.refl _) ((hperm _).append (hperm _))

theorem finishRequests_requests (cfg : Config) (ids : List ReqId) (status : RequestStatus)
    (keepsBlocks : ReqId → Bool) (ho : s.requests r = o) :
    FinishEffect status o ((finishRequests cfg ids status keepsBlocks s).requests r) := by
  rw [finishRequests]
  exact finishAll_effect _ _ _ ho

theorem finishRequests_wellQueued {keepsBlocks : ReqId → Bool} (hw : s.WellQueued) :
    (finishRequests cfg ids status keepsBlocks s).WellQueued := by
  rw [Scheduler.WellQueued, finishRequests]
  simp only
  obtain ⟨hr,hq,hk⟩ := @finishAll_queues status _ _ _
  rw [hr, hq, hk]
  apply takeOut_wellQueued hw.nodup_running
  refine hw.restrict (without_append_nodup hw.nodup _ _) (fun x hx => (mem_without.mp hx).1)
    (fun x hx => (mem_without.mp hx).1) ?_
  intro x hx
  -- what is left on a list is not among the ids that are finished
  apply finishAll_of_notMem
  rcases mem_append.mp hx with hx | hx
  · obtain ⟨hrun,hnot⟩ := mem_without.mp hx
    obtain ⟨q,hsome,hst⟩ := hw.ofRunning x hrun
    simpa [hsome, hst, imp_iff_not_or] using hnot
  · obtain ⟨hque,hnot⟩ := mem_without.mp hx
    obtain ⟨q,hsome,hst⟩ := hw.ofQueue x hque
    have hne : q.status ≠ .running := by
      intro h
      rw [h] at hst
      simp [RequestStatus.isWaiting] at hst
    simpa [hsome, hne, imp_iff_not_or] using hnot

structure TransferEffect (s s' : Scheduler) : Prop where
  running : s'.running = s.running
  waiting : s'.waiting = s.waiting
  skippedWaiting : s'.skippedWaiting = s.skippedWaiting
  requests : ∀ r, s'.requests r = s.requests r ∨
    s'.requests r = none ∧ ∃ q, s.requests r = some q ∧ q.status.isFinished = true

namespace TransferEffect

variable {s s' s'' : Scheduler}

theorem refl (s : Scheduler) : TransferEffect s s := ⟨rfl,rfl,rfl,fun _ => .inl rfl⟩

theorem trans (h : TransferEffect s s') (h' : TransferEffect s' s'') : TransferEffect s s'' where
  running := h'.running.trans h.running
  waiting := h'.waiting.trans h.waiting
  skippedWaiting := h'.skippedWaiting.trans h.skippedWaiting
  requests r := by
    rcases h'.requests r with h' | ⟨hnone,q,hq,hf⟩
    · rw [h']
      exact h.requests r
    · rcases h.requests r with h | ⟨hn,-⟩
      · exact .inr ⟨hnone,q,h ▸ hq,hf⟩
      · rw [hn] at hq
        cases hq

theorem wellQueued (h : TransferEffect s s') (hw : s.WellQueued) : s'.WellQueued := by
  rw [Scheduler.WellQueued, h.running, h.waiting, h.skippedWaiting]
  refine hw.restrict hw.nodup (fun _ hx => hx) (fun _ hx => hx) ?_
  intro x hx
  rcases h.requests x with hsame | ⟨-,q,hq,hf⟩
  · exact hsame
  -- a queued request is not finished
  · rcases mem_append.mp hx with hx | hx
    · obtain ⟨q',hq',hst⟩ := hw.ofRunning x hx
      cases hq.symm.trans hq'
      simp [hst, RequestStatus.isFinished] at hf
    · obtain ⟨q',hq',hst⟩ := hw.ofQueue x hx
      cases hq.symm.trans hq'
      generalize q.status = st at hst hf
      cases st <;> simp [RequestStatus.isWaiting, RequestStatus.isFinished] at hst hf

end TransferEffect

theorem freeSent_spec (h : freeSent s r = some s') : TransferEffect s s' := by
  rw [freeSent] at h
  split at h
  · rename_i q hq
    split at h
    · rename_i hf
      cases h
      refine ⟨rfl,rfl,rfl,fun x => ?_⟩
      by_cases hx : x = r
      · subst hx
        exact .inr ⟨update_self ..,q,hq,hf⟩
      · exact .inl (update_of_ne hx ..)
    · cases h
  · cases h

theorem receiveKv_spec (h : receiveKv s r = some s') : TransferEffect s s' := by
  rw [receiveKv] at h
  split at h
  · cases h
    exact ⟨rfl,rfl,rfl,fun _ => .inl rfl⟩
  · exact freeSent_spec h

theorem kvTransferFinished_spec (h : kvTransferFinished out s = some s') : TransferEffect s s' := by
  obtain ⟨t,hrecv,hsend⟩ := bind_eq_some_iff.mp h
  have hst : TransferEffect s t := foldlM_option_invariant (P := fun _ => TransferEffect s)
    (fun _ _ _ _ _ ht hstep => ht.trans (receiveKv_spec hstep)) (.refl s) hrecv
  exact foldlM_option_invariant (P := fun _ => TransferEffect s)
    (fun _ _ _ _ _ ht hstep => ht.trans (freeSent_spec hstep)) hst hsend

theorem checkStop_isFinished (h : checkStop q maxModelLen = some status) :
    status.isFinished = true := by
  rw [checkStop] at h
  repeat' split at h
  all_goals cases h <;> rfl

structure Appended (tokens : List Token) (q q' : Request) (kept : ℕ) (stopped : Bool) : Prop where
  rest : q' = { q with
    allTokenIds := q'.allTokenIds, outputTokenIds := q'.outputTokenIds, status := q'.status }
  numTokens : q'.numTokens = q.numTokens+kept
  numOutputTokens : q'.numOutputTokens = q.numOutputTokens+kept
  kept_le : kept ≤ tokens.length
  continues : stopped = false → q'.status = q.status ∧ kept = tokens.length
  stops : stopped = true → q'.status.isFinished = true ∧ 1 ≤ kept

theorem appendUntilStop_spec (maxModelLen : ℕ) (tokens : List Token) (q : Request) :
    Appended tokens q (appendUntilStop maxModelLen tokens q).1
      (appendUntilStop maxModelLen tokens q).2.1 (appendUntilStop maxModelLen tokens q).2.2 := by
  induction tokens generalizing q with
  | nil =>
    rw [appendUntilStop]
    exact ⟨rfl,by simp,by simp,le_rfl,fun _ => ⟨rfl,rfl⟩,by simp⟩
  | cons t ts ih =>
    have hlen : (q.appendOutputTokenId t).numTokens = q.numTokens+1 := by
      simp [Request.appendOutputTokenId, Request.numTokens]
    have hout : (q.appendOutputTokenId t).numOutputTokens = q.numOutputTokens+1 := by
      simp [Request.appendOutputTokenId, Request.numOutputTokens]
    rw [appendUntilStop]
    simp only
    split
    · rename_i status hstop
      exact ⟨rfl,hlen,hout,by simp,by simp,fun _ => ⟨checkStop_isFinished hstop,le_rfl⟩⟩
    · have h := ih (q.appendOutputTokenId t)
      refine ⟨?_,?_,?_,?_,fun hs => ?_,fun hs => ⟨(h.stops hs).1,by simp⟩⟩
      · conv_lhs => rw [h.rest]
        rfl
      · rw [h.numTokens, hlen]
        push_cast
        ring
      · rw [h.numOutputTokens, hout]
        ring
      · simpa using h.kept_le
      · obtain ⟨hst,hk⟩ := h.continues hs
        exact ⟨hst,by simp [hk]⟩

theorem checkStop_none (h : checkStop q maxModelLen = none) :
    q.numOutputTokens < q.samplingParams.minTokens ∨ q.numTokens < maxModelLen := by
  rw [checkStop] at h
  split at h
  · exact .inl ‹_›
  right
  split at h
  · cases h
  split at h
  · cases h
  split at h
  · cases h
  · rename_i hlen
    exact not_le.mp fun hle => hlen (.inl hle)

/-- A request that goes on has not got its minimum yet, or is below the model length. -/
theorem appendUntilStop_unstopped (maxModelLen : ℕ) (tokens : List Token) (q : Request)
    (ht : tokens ≠ []) (h : (appendUntilStop maxModelLen tokens q).2.2 = false) :
    (appendUntilStop maxModelLen tokens q).1.numOutputTokens < q.samplingParams.minTokens ∨
      (appendUntilStop maxModelLen tokens q).1.numTokens < maxModelLen := by
  induction tokens generalizing q with
  | nil => exact absurd rfl ht
  | cons t ts ih =>
    rw [appendUntilStop] at h ⊢
    simp only at h ⊢
    split at h
    · cases h
    · rename_i hnone
      simp only
      by_cases hts : ts = []
      · subst hts
        exact checkStop_none hnone
      · exact ih (q.appendOutputTokenId t) hts h

/-- An output whose tokens are taken over: the rejected drafts are rolled back and `kept` tokens
appended. A stale output leaves the placeholders alone. -/
structure Absorbed (e : Scheduled) (tokens : List Token) (isStale : Bool) (q q' : Request)
    (kept : ℕ) (stopped : Bool) : Prop where
  rest : q' = { drainInFlight e.numScheduledTokens q with
    allTokenIds := q'.allTokenIds
    outputTokenIds := q'.outputTokenIds
    status := q'.status
    resumable := q'.resumable
    numComputedTokens := (rollBackRejected e tokens.length isStale q).numComputedTokens
    numOutputPlaceholders := (rollBackRejected e tokens.length isStale q).numOutputPlaceholders-
      (if isStale then 0 else (kept:ℤ)) }
  numTokens : q'.numTokens = q.numTokens+kept
  numOutputTokens : q'.numOutputTokens = q.numOutputTokens+kept
  nonneg : isStale = false → 0 ≤ q'.numOutputPlaceholders
  kept_le : kept ≤ tokens.length
  resumable : q'.resumable = true → q.resumable = true
  continues : stopped = false → q'.status = q.status ∧ kept = tokens.length
  stops : stopped = true → q'.status.isFinished = true

theorem rollBackRejected_drain (e : Scheduled) (generated : ℕ) (isStale : Bool) (n : ℤ)
    (q : Request) : rollBackRejected e generated isStale (drainInFlight n q) =
      drainInFlight n (rollBackRejected e generated isStale q) := by
  rw [rollBackRejected, rollBackRejected]
  split <;> rfl

theorem rollBackRejected_rest (e : Scheduled) (generated : ℕ) (isStale : Bool) (q : Request) :
    rollBackRejected e generated isStale q = { q with
      numComputedTokens := (rollBackRejected e generated isStale q).numComputedTokens
      numOutputPlaceholders := (rollBackRejected e generated isStale q).numOutputPlaceholders } := by
  rw [rollBackRejected]
  split <;> rfl

theorem rollBackRejected_stale (e : Scheduled) (generated : ℕ) (q : Request) :
    rollBackRejected e generated true q = q := by
  rw [rollBackRejected, if_neg (by simp)]

def OnlyDrained (tokens : List Token) (q : Request) : Prop :=
  q.status.isFinished = true ∨ 0 < q.numStaleOutputTokens ∧ q.dropStaleOutput = true ∨ tokens = []

def SchedulerClass.returned (cls : SchedulerClass) (isStale : Bool) (kept : ℕ) : ℤ :=
  if cls = .asyncScheduler ∧ isStale = false then kept else 0

structure Took (cls : SchedulerClass) (maxModelLen : ℕ) (e : Scheduled) (tokens : List Token)
    (isStale : Bool) (q q' : Request) (kept : ℕ) (stopped : Bool) : Prop where
  rest : q' = { drainInFlight e.numScheduledTokens q with
    allTokenIds := q'.allTokenIds
    outputTokenIds := q'.outputTokenIds
    status := q'.status
    resumable := q'.resumable
    numComputedTokens := (rollBackRejected e tokens.length isStale q).numComputedTokens
    numOutputPlaceholders := (rollBackRejected e tokens.length isStale q).numOutputPlaceholders-
      cls.returned isStale kept }
  numTokens : q'.numTokens = q.numTokens+kept
  numOutputTokens : q'.numOutputTokens = q.numOutputTokens+kept
  nonneg : cls = .asyncScheduler → isStale = false → 0 ≤ q'.numOutputPlaceholders
  kept_le : kept ≤ tokens.length
  resumable : q'.resumable = true → q.resumable = true
  continues : stopped = false → q'.status = q.status ∧ kept = tokens.length
  stops : stopped = true → q'.status.isFinished = true
  unstopped : stopped = false →
    q'.numOutputTokens < q.samplingParams.minTokens ∨ q'.numTokens < maxModelLen

theorem Took.absorbed {kept : ℕ}
    (h : Took .asyncScheduler maxModelLen e tokens isStale q q' kept stopped) :
    Absorbed e tokens isStale q q' kept stopped := by
  refine ⟨?_,h.numTokens,h.numOutputTokens,h.nonneg rfl,h.kept_le,h.resumable,h.continues,h.stops⟩
  have hreturned : asyncScheduler.returned isStale kept =
      if isStale then 0 else (kept:ℤ) := by
    cases isStale <;> simp [returned]
  rw [← hreturned]
  exact h.rest

theorem Appended.took (cls : SchedulerClass) {kept : ℕ} (h : Appended tokens
      (drainInFlight e.numScheduledTokens (rollBackRejected e tokens.length isStale q)) q0 kept stopped)
    (hn : cls = .asyncScheduler → isStale = false → 0 ≤ q0.numOutputPlaceholders-kept)
    (hgo : stopped = false →
      q0.numOutputTokens < q.samplingParams.minTokens ∨ q0.numTokens < maxModelLen) :
    Took cls maxModelLen e tokens isStale q { q0 with
      numOutputPlaceholders := q0.numOutputPlaceholders-cls.returned isStale kept } kept stopped := by
  have hroll := rollBackRejected_rest e tokens.length isStale q
  have hres : q0.resumable = q.resumable := by
    rw [h.rest, hroll]
    rfl
  refine ⟨?_,?_,?_,?_,h.kept_le,fun hr => hres ▸ hr,fun hs => ?_,fun hs => (h.stops hs).1,hgo⟩
  · conv_lhs => rw [h.rest, hroll]
    simp [drainInFlight, hres]
  · refine h.numTokens.trans ?_
    rw [hroll]
    rfl
  · refine h.numOutputTokens.trans ?_
    rw [hroll]
    rfl
  · rintro rfl rfl
    simpa [returned] using hn rfl rfl
  · obtain ⟨hst,hk⟩ := h.continues hs
    refine ⟨hst.trans ?_,hk⟩
    rw [hroll]
    rfl

theorem SchedulerClass.updateRequestWithOutput_spec {cls : SchedulerClass} (ht : tokens ≠ [])
    (h : cls.updateRequestWithOutput maxModelLen tokens isStale
      (rollBackRejected e tokens.length isStale (drainInFlight e.numScheduledTokens q)) =
        some (q',stopped)) : ∃ kept, Took cls maxModelLen e tokens isStale q q' kept stopped := by
  rw [rollBackRejected_drain] at h
  have happ := appendUntilStop_spec maxModelLen tokens
    (drainInFlight e.numScheduledTokens (rollBackRejected e tokens.length isStale q))
  have hgo := appendUntilStop_unstopped maxModelLen tokens
    (drainInFlight e.numScheduledTokens (rollBackRejected e tokens.length isStale q)) ht
  have hparams : (drainInFlight e.numScheduledTokens
      (rollBackRejected e tokens.length isStale q)).samplingParams = q.samplingParams := by
    rw [rollBackRejected_rest]
    rfl
  rw [hparams] at hgo
  simp only [updateRequestWithOutput, Sched.updateRequestWithOutput] at h
  generalize appendUntilStop maxModelLen tokens _ = res at h happ hgo
  obtain ⟨q0,kept,stopped0⟩ := res
  cases cls with
  | scheduler =>
    cases h
    refine ⟨kept,?_⟩
    simpa [returned] using happ.took .scheduler (by simp) hgo
  | asyncScheduler =>
    cases isStale with
    | true =>
      cases h
      refine ⟨kept,?_⟩
      simpa [returned] using happ.took .asyncScheduler (by simp) hgo
    | false =>
      simp only [Bool.false_eq_true, if_false] at h
      split at h
      · cases h
      · rename_i hneg
        cases h
        exact ⟨kept,happ.took .asyncScheduler (fun _ _ => not_lt.mp hneg) hgo⟩

theorem SchedulerClass.processOutput_spec {cls : SchedulerClass}
    (h : cls.processOutput maxModelLen e tokens grammarRejects q = some (q',stopped)) :
    OnlyDrained tokens q ∧ q' = drainInFlight e.numScheduledTokens q ∧ stopped = false ∨
      ¬OnlyDrained tokens q ∧ ∃ kept,
        Took cls maxModelLen e tokens (decide (0 < q.numStaleOutputTokens)) q q' kept stopped := by
  rw [processOutput, processOutputBy] at h
  simp only at h
  split at h
  · cases h
  split at h
  · rename_i hf
    cases h
    exact .inl ⟨.inl hf,rfl,rfl⟩
  rename_i hf
  split at h
  · rename_i hd
    cases h
    exact .inl ⟨.inr (.inl ⟨of_decide_eq_true hd.1,hd.2⟩),rfl,rfl⟩
  rename_i hd
  split at h
  · rename_i ht
    cases h
    refine .inl ⟨.inr (.inr ht),?_,rfl⟩
    rw [ht, rollBackRejected, if_neg (by simp)]
  rename_i ht
  right
  refine ⟨?_,?_⟩
  · rintro (h | h | h)
    · exact hf h
    · exact hd ⟨decide_eq_true h.1,h.2⟩
    · exact ht h
  split at h
  · cases h
  rename_i q0 stopped0 hupd
  obtain ⟨kept,htook⟩ := updateRequestWithOutput_spec ht hupd
  refine ⟨kept,?_⟩
  split at h
  · cases h
    have hrest := htook.rest
    refine ⟨?_,htook.numTokens,htook.numOutputTokens,htook.nonneg,htook.kept_le,by simp,by simp,
      fun _ => rfl,by simp⟩
    conv_lhs => rw [hrest]
  · cases h
    exact htook

theorem processOutput_spec
    (h : processOutput maxModelLen e tokens grammarRejects q = some (q',stopped)) :
    OnlyDrained tokens q ∧ q' = drainInFlight e.numScheduledTokens q ∧ stopped = false ∨
      ¬OnlyDrained tokens q ∧
        ∃ kept, Absorbed e tokens (decide (0 < q.numStaleOutputTokens)) q q' kept stopped := by
  have hasync : SchedulerClass.asyncScheduler.processOutput maxModelLen e tokens grammarRejects q =
    some (q',stopped) := h
  rcases SchedulerClass.processOutput_spec hasync with hd | ⟨hd,kept,htook⟩
  · exact .inl hd
  · exact .inr ⟨hd,kept,htook.absorbed⟩

inductive Stopped (q : Request) : Option Request → Prop
  | freed : Stopped q none
  | kept (rest : List (Option StreamingUpdate)) : Stopped q (some { q with streamingQueue := rest })
  | session (hr : q.resumable = true) (rest : List (Option StreamingUpdate)) (u : StreamingUpdate) :
      Stopped q (some (updateRequestAsSession { q with streamingQueue := rest } u))
  | streaming (hr : q.resumable = true) :
      Stopped q (some { q with status := .waitingForStreamingReq })

structure HandledStop (s s' : Scheduler) (r : ReqId) (q : Request) (o : Option Request) : Prop where
  stopped : Stopped q o
  requests : s'.requests = update s.requests r o
  running : s'.running = s.running
  queue : (s'.waiting ++ s'.skippedWaiting).Perm (s.waiting ++ s.skippedWaiting) ∨
    (s'.waiting ++ s'.skippedWaiting).Perm (r :: (s.waiting ++ s.skippedWaiting)) ∧
      ∃ q', o = some q' ∧ q'.status.isWaiting = true

theorem freeRequest_handled {keep : Bool} (hq0 : s.requests r = some q0) (hkept : Stopped q (some q')) :
    ∃ o, HandledStop s (freeRequest (s.modify r fun _ => q') r keep) r q o := by
  have hreq := modify_requests_of_some (fun _ => q') hq0
  cases keep with
  | true => exact ⟨_,hkept,hreq,rfl,.inl (.refl _)⟩
  | false =>
    refine ⟨none,.freed,?_,rfl,.inl (.refl _)⟩
    show update (s.modify r fun _ => q').requests r none = _
    rw [hreq, update_idem]

theorem enqueueWaitingRequest_queue (cfg : Config) (s : Scheduler) (r : ReqId)
    (status : RequestStatus) : ((enqueueWaitingRequest cfg s r status).waiting ++
      (enqueueWaitingRequest cfg s r status).skippedWaiting).Perm
        (r :: (s.waiting ++ s.skippedWaiting)) := by
  rw [enqueueWaitingRequest]
  split
  · exact ((addRequest_perm _ _ _ r).append_left _).trans perm_middle
  · exact (addRequest_perm _ _ _ r).append_right _

theorem enqueueWaitingRequest_requests (cfg : Config) (s : Scheduler) (r : ReqId)
    (status : RequestStatus) : (enqueueWaitingRequest cfg s r status).requests = s.requests ∧
      (enqueueWaitingRequest cfg s r status).running = s.running := by
  rw [enqueueWaitingRequest]
  split <;> exact ⟨rfl,rfl⟩

theorem enqueueWaitingRequest_handled {s1 : Scheduler} (hs : Stopped q (some q'))
    (hw : q'.status.isWaiting = true)
    (hreq : s1.requests = update s.requests r (some q')) (hrun : s1.running = s.running)
    (hque : s1.waiting ++ s1.skippedWaiting = s.waiting ++ s.skippedWaiting) :
    HandledStop s (enqueueWaitingRequest cfg s1 r status) r q (some q') where
  stopped := hs
  requests := (enqueueWaitingRequest_requests cfg s1 r status).1.trans hreq
  running := (enqueueWaitingRequest_requests cfg s1 r status).2.trans hrun
  queue := .inr ⟨hque ▸ enqueueWaitingRequest_queue cfg s1 r status,q',rfl,hw⟩

theorem handleStopped_spec (cfg : Config) (q : Request) (keep : Bool)
    (hq0 : s.requests r = some q0) : ∃ o, HandledStop s (handleStopped cfg s r q keep) r q o := by
  rw [handleStopped]
  split
  · exact freeRequest_handled hq0 (.kept q.streamingQueue)
  rename_i hres
  have hr : q.resumable = true := by simpa using hres
  split
  · rename_i rest hqueue
    exact freeRequest_handled hq0 (.kept rest)
  · rename_i u rest hqueue
    exact ⟨_,enqueueWaitingRequest_handled (.session hr rest u) rfl
      (modify_requests_of_some _ hq0) rfl rfl⟩
  · exact ⟨_,enqueueWaitingRequest_handled (.streaming hr) rfl (modify_requests_of_some _ hq0) rfl rfl⟩

inductive OutputEffectBy (process : Scheduled → Request → Option (Request × Bool)) :
    Option Request → Option Request → List Scheduled → Prop
  | same (o : Option Request) : OutputEffectBy process o o []
  | missing (e : Scheduled) : OutputEffectBy process none none [e]
  | continues {e : Scheduled} {q q' : Request} (hn : 0 < e.numScheduledTokens)
      (h : process e q = some (q',false)) : OutputEffectBy process (some q) (some q') [e]
  | stopped {e : Scheduled} {q q' : Request} {o : Option Request} (hn : 0 < e.numScheduledTokens)
      (h : process e q = some (q',true)) (hs : Stopped q' o) : OutputEffectBy process (some q) o [e]

theorem OutputEffectBy.eq_of_nil {process : Scheduled → Request → Option (Request × Bool)}
    (h : OutputEffectBy process o o' []) : o' = o := by
  cases h
  rfl

inductive OutputEffect (cfg : Config) (out : ModelRunnerOutput) (r : ReqId) :
    Option Request → Option Request → List Scheduled → Prop
  | same (o : Option Request) : OutputEffect cfg out r o o []
  | missing (e : Scheduled) : OutputEffect cfg out r none none [e]
  | continues {e : Scheduled} {q q' : Request} (hn : 0 < e.numScheduledTokens)
      (h : processOutput cfg.maxModelLen e (out.sampledTokenIds r) (out.grammarRejects r) q =
        some (q',false)) : OutputEffect cfg out r (some q) (some q') [e]
  | stopped {e : Scheduled} {q q' : Request} {o : Option Request} (hn : 0 < e.numScheduledTokens)
      (h : processOutput cfg.maxModelLen e (out.sampledTokenIds r) (out.grammarRejects r) q =
        some (q',true)) (hs : Stopped q' o) : OutputEffect cfg out r (some q) o [e]

theorem OutputEffect.eq_of_nil (h : OutputEffect cfg out r o o' []) : o' = o := by
  cases h
  rfl

theorem outputEffect_iff (hes : ∀ e ∈ es, e.reqId = r) : OutputEffect cfg out r o o' es ↔
      OutputEffectBy (asyncScheduler.answer cfg out) o o' es := by
  constructor
  · intro h
    cases h with
    | same => exact .same _
    | missing e => exact .missing e
    | continues hn h =>
      obtain rfl := hes _ (mem_singleton_self _)
      exact .continues hn h
    | stopped hn h hs =>
      obtain rfl := hes _ (mem_singleton_self _)
      exact .stopped hn h hs
  · intro h
    cases h with
    | same => exact .same _
    | missing e => exact .missing e
    | continues hn h =>
      obtain rfl := hes _ (mem_singleton_self _)
      exact .continues hn h
    | stopped hn h hs =>
      obtain rfl := hes _ (mem_singleton_self _)
      exact .stopped hn h hs

section UpdateLoop

variable {cfg : Config} {out : ModelRunnerOutput}
  {process : Scheduled → Request → Option (Request × Bool)}

/-- The stopped requests leave their lists only after the loop, so the lists are read without
them. -/
structure UpdateInvBy (process : Scheduled → Request → Option (Request × Bool)) (s : Scheduler)
    (done : List Scheduled) (u : UpdateLoop) : Prop where
  running : u.sched.running = s.running
  queued : WellQueued u.sched.requests (without u.stoppedRunning u.sched.running)
    (without u.stoppedPreempted (u.sched.waiting ++ u.sched.skippedWaiting))
  ofStopped : ∀ x ∈ u.stoppedRunning ++ u.stoppedPreempted, x ∈ done.map (·.reqId)
  effect : ∀ r, OutputEffectBy process (s.requests r) (u.sched.requests r) (entriesOf r done)

structure UpdateInv (cfg : Config) (out : ModelRunnerOutput) (s : Scheduler)
    (done : List Scheduled) (u : UpdateLoop) : Prop where
  running : u.sched.running = s.running
  queued : WellQueued u.sched.requests (without u.stoppedRunning u.sched.running)
    (without u.stoppedPreempted (u.sched.waiting ++ u.sched.skippedWaiting))
  ofStopped : ∀ x ∈ u.stoppedRunning ++ u.stoppedPreempted, x ∈ done.map (·.reqId)
  effect : ∀ r, OutputEffect cfg out r (s.requests r) (u.sched.requests r) (entriesOf r done)

theorem reqId_of_mem_entriesOf : ∀ e ∈ entriesOf r es, e.reqId = r :=
  fun _ he => of_decide_eq_true (mem_filter.mp he).2

theorem updateInv_iff : UpdateInv cfg out s done u ↔
      UpdateInvBy (asyncScheduler.answer cfg out) s done u :=
  ⟨fun h => ⟨h.running,h.queued,h.ofStopped,
      fun r => (outputEffect_iff reqId_of_mem_entriesOf).mp (h.effect r)⟩,
    fun h => ⟨h.running,h.queued,h.ofStopped,
      fun r => (outputEffect_iff reqId_of_mem_entriesOf).mpr (h.effect r)⟩⟩

theorem WellQueued.not_queued (h : WellQueued requests running queue) (hq : requests r = some q)
    (hs : q.status = .running) : r ∉ queue := by
  intro hmem
  obtain ⟨q',hq',hw⟩ := h.ofQueue r hmem
  cases hq.symm.trans hq'
  simp [hs, RequestStatus.isWaiting] at hw

theorem WellQueued.not_running (h : WellQueued requests running queue) (hq : requests r = some q)
    (hs : q.status ≠ .running) : r ∉ running := by
  intro hmem
  obtain ⟨q',hq',hrun⟩ := h.ofRunning r hmem
  cases hq.symm.trans hq'
  exact hs hrun

theorem without_concat_sublist (gone l : List ReqId) (r : ReqId) :
    (without (gone ++ [r]) l).Sublist (without gone l) := by
  apply monotone_filter_right
  intro x hx
  simp only [Bool.not_eq_true', contains_eq_mem, decide_eq_false_iff_not, mem_append, not_or] at hx ⊢
  exact hx.1

section StoppedLists

variable {requests : ReqId → Option Request} {r : ReqId} {q : Request} {o : Option Request}
  {running queue queue' gone gone' : List ReqId}

theorem WellQueued.stopped_preempted
    (h : WellQueued requests (without gone running) (without gone' queue))
    (hq : requests r = some q) (hs : q.status ≠ .running)
    (hqueue : queue'.Perm queue ∨ queue'.Perm (r :: queue)) :
    WellQueued (update requests r o) (without gone running) (without (gone' ++ [r]) queue') := by
  -- whether or not it was queued again, the id goes
  have hperm : (without (gone' ++ [r]) queue').Perm (without (gone' ++ [r]) queue) := by
    rcases hqueue with hp | hp
    · exact without_perm _ hp
    · refine (without_perm _ hp).trans (.of_eq ?_)
      exact filter_cons_of_neg (by simp)
  have hn := ((without_concat_sublist gone' queue r).append_left (without gone running)).nodup h.nodup
  refine (h.replace hn (fun _ hx _ => hx)
    (fun x hx _ => (without_concat_sublist gone' queue r).mem hx) ?_ ?_).perm (.refl _) hperm
  · exact fun hmem => absurd hmem (h.not_running hq hs)
  · exact fun hmem => absurd (mem_append_right gone' (mem_singleton_self r))
      (mem_without.mp hmem).2

theorem WellQueued.stopped_running
    (h : WellQueued requests (without gone running) (without gone' queue))
    (hq : requests r = some q) (hs : q.status = .running) (hgone : r ∉ gone')
    (hqueue : queue'.Perm queue ∨
      queue'.Perm (r :: queue) ∧ ∃ q', o = some q' ∧ q'.status.isWaiting = true) :
    WellQueued (update requests r o) (without (gone ++ [r]) running) (without gone' queue') := by
  have hsub := without_concat_sublist gone running r
  have hr : r ∉ without (gone ++ [r]) running := fun hmem => (mem_without.mp hmem).2 (by simp)
  have hnq := h.not_queued hq hs
  have hn := (hsub.append_right (without gone' queue)).nodup h.nodup
  rcases hqueue with hp | ⟨hp,q',ho,hw⟩
  · refine (h.replace hn (fun x hx _ => hsub.mem hx) (fun _ hx _ => hx)
      (fun hmem => absurd hmem hr) (fun hmem => absurd hmem hnq)).perm (.refl _) (without_perm _ hp)
  · have hcons : without gone' (r :: queue) = r :: without gone' queue :=
      filter_cons_of_pos (by simpa using hgone)
    have hp' := without_perm gone' hp
    rw [hcons] at hp'
    have hn' : (without (gone ++ [r]) running ++ r :: without gone' queue).Nodup := by
      rw [perm_middle.nodup_iff, nodup_cons]
      exact ⟨fun hmem => (mem_append.mp hmem).elim hr hnq,hn⟩
    exact (h.replace hn' (fun x hx _ => hsub.mem hx)
      (fun x hx hne => (mem_cons.mp hx).resolve_left hne) (fun hmem => absurd hmem hr)
      (fun _ => ⟨q',ho,hw⟩)).perm (.refl _) hp'

end StoppedLists

theorem UpdateInvBy.effect_step (h : UpdateInvBy process s done u)
    (hfresh : e.reqId ∉ done.map (·.reqId)) (hreq : requests = update u.sched.requests e.reqId o)
    (heff : OutputEffectBy process (u.sched.requests e.reqId) o [e]) (r : ReqId) :
    OutputEffectBy process (s.requests r) (requests r) (entriesOf r (done ++ [e])) := by
  by_cases hr : r = e.reqId
  · subst hr
    have hnil : entriesOf e.reqId done = [] :=
      entriesOf_eq_nil fun e' he' heq => hfresh (heq ▸ mem_map_of_mem he')
    have hbefore := h.effect e.reqId
    rw [hnil] at hbefore
    rw [entriesOf_append_self _ rfl, hnil, hreq, update_self, ← hbefore.eq_of_nil]
    exact heff
  · rw [entriesOf_append_of_ne _ hr, hreq, update_of_ne hr]
    exact h.effect r

theorem UpdateInvBy.continued (h : UpdateInvBy process s done u)
    (hfresh : e.reqId ∉ done.map (·.reqId)) (hq : u.sched.requests e.reqId = some q)
    (hst : q'.status = q.status) (heff : OutputEffectBy process (some q) (some q') [e]) :
    UpdateInvBy process s (done ++ [e]) { u with sched := u.sched.modify e.reqId fun _ => q' } := by
  have hreq := modify_requests_of_some (fun _ => q') hq
  refine ⟨h.running,?_,fun x hx => ?_,h.effect_step hfresh hreq (hq ▸ heff)⟩
  · show WellQueued (u.sched.modify e.reqId fun _ => q').requests _ _
    rw [hreq]
    refine h.queued.replace h.queued.nodup (fun _ hx _ => hx) (fun _ hx _ => hx) ?_ ?_
    · intro hmem
      obtain ⟨q0,hq0,hrun⟩ := h.queued.ofRunning _ hmem
      cases hq.symm.trans hq0
      exact ⟨q',rfl,hst.trans hrun⟩
    · intro hmem
      obtain ⟨q0,hq0,hwait⟩ := h.queued.ofQueue _ hmem
      cases hq.symm.trans hq0
      exact ⟨q',rfl,hst ▸ hwait⟩
  · simp [h.ofStopped x hx]

theorem processOutput_status
    (h : processOutput maxModelLen e tokens grammarRejects q = some (q',false)) :
    q'.status = q.status := by
  rcases processOutput_spec h with ⟨-,rfl,-⟩ | ⟨-,kept,habs⟩
  · rfl
  · exact (habs.continues rfl).1

theorem UpdateInvBy.step {u' : UpdateLoop} (h : UpdateInvBy process s done u)
    (hstatus : ∀ e q q', process e q = some (q',false) → q'.status = q.status)
    (hfresh : e.reqId ∉ done.map (·.reqId))
    (hstep : processScheduledBy process cfg out u e = some u') :
    UpdateInvBy process s (done ++ [e]) u' := by
  rw [processScheduledBy] at hstep
  split at hstep
  · cases hstep
  rename_i hn
  split at hstep
  · rename_i hnone
    cases hstep
    have hself : u.sched.requests = update u.sched.requests e.reqId none :=
      (update_eq_self_iff.mpr hnone.symm).symm
    exact ⟨h.running,h.queued,fun x hx => by simp [h.ofStopped x hx],
      h.effect_step hfresh hself (by rw [hnone]; exact .missing e)⟩
  rename_i q hq
  split at hstep
  · cases hstep
  rename_i q' stopped hproc
  have hfresh' : e.reqId ∉ u.stoppedPreempted := fun hmem =>
    hfresh (h.ofStopped _ (mem_append_right _ hmem))
  have hdone : ∀ x ∈ u.stoppedRunning ++ u.stoppedPreempted ++ [e.reqId],
      x ∈ (done ++ [e]).map (·.reqId) := by
    intro x hx
    rw [map_append]
    rcases mem_append.mp hx with hx | hx
    · exact mem_append_left _ (h.ofStopped x hx)
    · exact mem_append_right _ hx
  cases stopped with
  | false =>
    cases hstep
    exact h.continued hfresh hq (hstatus _ _ _ hproc) (.continues (not_le.mp hn) hproc)
  | true =>
    obtain ⟨o,hstop⟩ := handleStopped_spec cfg q' (out.keepsBlocks e.reqId) hq
    have heff : OutputEffectBy process (u.sched.requests e.reqId) o [e] := by
      rw [hq]
      exact .stopped (not_le.mp hn) hproc hstop.stopped
    have heffect := h.effect_step hfresh hstop.requests heff
    -- the lists to leave depend on the status before the output
    by_cases hrun : q.status = .running
    · simp only [if_true, if_pos hrun, Option.some.injEq] at hstep
      subst hstep
      refine ⟨hstop.running.trans h.running,?_,fun x hx => hdone x (by simp at hx ⊢; tauto),heffect⟩
      show WellQueued (handleStopped ..).requests (without _ (handleStopped ..).running) _
      rw [hstop.requests, hstop.running]
      exact h.queued.stopped_running hq hrun hfresh' hstop.queue
    · simp only [if_true, if_neg hrun, Option.some.injEq] at hstep
      subst hstep
      refine ⟨hstop.running.trans h.running,?_,fun x hx => hdone x (by simp at hx ⊢; tauto),heffect⟩
      show WellQueued (handleStopped ..).requests (without _ (handleStopped ..).running) _
      rw [hstop.requests, hstop.running]
      exact h.queued.stopped_preempted hq hrun (hstop.queue.imp_right And.left)

theorem UpdateInv.step {u' : UpdateLoop} (h : UpdateInv cfg out s done u)
    (hfresh : e.reqId ∉ done.map (·.reqId)) (hstep : processScheduled cfg out u e = some u') :
    UpdateInv cfg out s (done ++ [e]) u' :=
  updateInv_iff.mpr ((updateInv_iff.mp h).step (fun _ _ _ => processOutput_status) hfresh hstep)

theorem updateLoopBy_spec
    (hstatus : ∀ e q q', process e q = some (q',false) → q'.status = q.status) (hw : s.WellQueued)
    (hn : (es.map (·.reqId)).Nodup)
    (h : es.foldlM (processScheduledBy process cfg out) ⟨s,[],[]⟩ = some u) :
    UpdateInvBy process s es u := by
  have hstart : UpdateInvBy process s [] ⟨s,[],[]⟩ :=
    ⟨rfl,by simpa [without, Scheduler.WellQueued] using hw,by simp,fun r => .same _⟩
  apply foldlM_option_invariant ?_ hstart h
  intro done e t t' hpre ht hstep
  refine ht.step hstatus ?_ hstep
  have hsub := (hpre.sublist.map Scheduled.reqId).nodup hn
  rw [map_append, nodup_append] at hsub
  exact fun hmem => hsub.2.2 _ hmem _ (by simp) rfl

theorem updateLoop_spec (hw : s.WellQueued) (hn : (es.map (·.reqId)).Nodup)
    (h : es.foldlM (processScheduled cfg out) ⟨s,[],[]⟩ = some u) : UpdateInv cfg out s es u :=
  updateInv_iff.mpr (updateLoopBy_spec (fun _ _ _ => processOutput_status) hw hn h)

/-- What `update_from_output` does to one request: its output, then the failed grammars, then
the finished transfers. -/
def UpdateEffectBy (process : Scheduled → Request → Option (Request × Bool))
    (o o' : Option Request) (es : List Scheduled) : Prop :=
  ∃ o1 o2, OutputEffectBy process o o1 es ∧ FinishEffect .finishedError o1 o2 ∧
    (o' = o2 ∨ o' = none)

def UpdateEffect (cfg : Config) (out : ModelRunnerOutput) (r : ReqId) (o o' : Option Request)
    (es : List Scheduled) : Prop :=
  ∃ o1 o2, OutputEffect cfg out r o o1 es ∧ FinishEffect .finishedError o1 o2 ∧
    (o' = o2 ∨ o' = none)

theorem updateFromOutputBy_spec
    (hstatus : ∀ e q q', process e q = some (q',false) → q'.status = q.status)
    {step : SchedulerOutput} (hw : s.WellQueued) (hn : (step.scheduled.map (·.reqId)).Nodup)
    (h : updateFromOutputBy process cfg step out s = some s') :
    s'.WellQueued ∧ ∀ r, UpdateEffectBy process (s.requests r) (s'.requests r)
      (entriesOf r step.scheduled) := by
  obtain ⟨u,hloop,hrest⟩ := bind_eq_some_iff.mp h
  have hinv := updateLoopBy_spec hstatus hw hn hloop
  have hkv := kvTransferFinished_spec hrest
  constructor
  · apply hkv.wellQueued
    apply finishRequests_wellQueued
    refine takeOut_wellQueued ?_ hinv.queued
    rw [hinv.running]
    exact hw.nodup_running
  · intro r
    refine ⟨_,_,hinv.effect r,?_,(hkv.requests r).imp_right And.left⟩
    exact finishRequests_requests _ _ _ _ rfl

theorem updateFromOutput_spec {step : SchedulerOutput} (hw : s.WellQueued)
    (hn : (step.scheduled.map (·.reqId)).Nodup) (h : updateFromOutput cfg step out s = some s') :
    s'.WellQueued ∧ ∀ r, UpdateEffect cfg out r (s.requests r) (s'.requests r)
      (entriesOf r step.scheduled) := by
  obtain ⟨hqueued,heffect⟩ := updateFromOutputBy_spec (fun _ _ _ => processOutput_status) hw hn h
  refine ⟨hqueued,fun r => ?_⟩
  obtain ⟨o1,o2,hout,hrest⟩ := heffect r
  exact ⟨o1,o2,(outputEffect_iff reqId_of_mem_entriesOf).mpr hout,hrest⟩

end UpdateLoop

inductive AddEffect (n : Request) : Option Request → Option Request → Prop
  | added : AddEffect n none (some n)
  | queued {q : Request} (hr : q.resumable = true) (queue : List (Option StreamingUpdate)) :
      AddEffect n (some q) (some { q with streamingQueue := queue })
  | session {q : Request} (hs : q.status = .waitingForStreamingReq) (hr : n.resumable = true)
      (u : StreamingUpdate) : AddEffect n (some q) (some (updateRequestAsSession q u))
  | aborted {q : Request} {o : Option Request} (hs : q.status = .waitingForStreamingReq)
      (h : FinishEffect .finishedAborted (some q) o) : AddEffect n (some q) o

theorem finishRequests_of_notMem (cfg : Config) (status : RequestStatus)
    (keepsBlocks : ReqId → Bool) (s : Scheduler) (h : r ∉ ids) :
    (finishRequests cfg ids status keepsBlocks s).requests r = s.requests r := by
  rw [finishRequests]
  exact finishAll_of_notMem _ _ fun hmem => h (mem_filter.mp hmem).1

theorem Scheduler.WellQueued.modify_status {f : Request → Request} (hw : s.WellQueued)
    (hq : s.requests r = some q) (hrun : q.status = .running → (f q).status = .running)
    (hwait : q.status.isWaiting = true → (f q).status.isWaiting = true) :
    (s.modify r f).WellQueued := by
  show Sched.WellQueued (s.modify r f).requests _ _
  rw [modify_requests_of_some f hq]
  refine hw.replace hw.nodup (fun _ hx _ => hx) (fun _ hx _ => hx) ?_ ?_
  · intro hmem
    obtain ⟨q',hq',hst⟩ := hw.ofRunning r hmem
    cases hq.symm.trans hq'
    exact ⟨_,rfl,hrun hst⟩
  · intro hmem
    obtain ⟨q',hq',hst⟩ := hw.ofQueue r hmem
    cases hq.symm.trans hq'
    exact ⟨_,rfl,hwait hst⟩

theorem enqueueNew_spec (cfg : Config) {n : Request} {t : Scheduler} (hw : s.WellQueued)
    (hn : n.status.isWaiting = true) (hnone : s.requests n.requestId = none)
    (hreq : t.requests = update s.requests n.requestId (some n)) (hrun : t.running = s.running)
    (hque : t.waiting ++ t.skippedWaiting = s.waiting ++ s.skippedWaiting) :
    (enqueueWaitingRequest cfg t n.requestId n.status).WellQueued ∧
      (enqueueWaitingRequest cfg t n.requestId n.status).requests =
        update s.requests n.requestId (some n) := by
  have hfresh : n.requestId ∉ s.running ++ (s.waiting ++ s.skippedWaiting) := by
    intro hx
    rcases mem_append.mp hx with hx | hx
    · obtain ⟨q,hq,-⟩ := hw.ofRunning _ hx
      simp [hnone] at hq
    · obtain ⟨q,hq,-⟩ := hw.ofQueue _ hx
      simp [hnone] at hq
  have hnodup : (s.running ++ n.requestId :: (s.waiting ++ s.skippedWaiting)).Nodup := by
    rw [perm_middle.nodup_iff, nodup_cons]
    exact ⟨hfresh,hw.nodup⟩
  obtain ⟨hreq',hrun'⟩ := enqueueWaitingRequest_requests cfg t n.requestId n.status
  have hperm := enqueueWaitingRequest_queue cfg t n.requestId n.status
  rw [hque] at hperm
  refine ⟨?_,hreq'.trans hreq⟩
  rw [Scheduler.WellQueued, hreq', hrun', hreq, hrun]
  refine (hw.replace hnodup (fun _ hx _ => hx)
    (fun x hx hne => (mem_cons.mp hx).resolve_left hne) (fun hmem => ?_)
    (fun _ => ⟨n,rfl,hn⟩)).perm (.refl _) hperm
  exact absurd (mem_append_left _ hmem) hfresh

theorem addNewRequest_spec {n : Request} (hw : s.WellQueued) (hn : n.status.isWaiting = true)
    (h : addNewRequest cfg n s = some s') :
    s'.WellQueued ∧ AddEffect n (s.requests n.requestId) (s'.requests n.requestId) ∧
      ∀ r, r ≠ n.requestId → s'.requests r = s.requests r := by
  rw [addNewRequest] at h
  split at h
  · rename_i hnone
    cases h
    obtain ⟨hqueued,hreq⟩ := enqueueNew_spec cfg
      (t := { s with requests := update s.requests n.requestId (some n) }) hw hn hnone rfl rfl rfl
    refine ⟨hqueued,?_,fun r hr => ?_⟩
    · rw [hreq, hnone, update_self]
      exact .added
    · rw [hreq, update_of_ne hr]
  · rename_i q hq
    simp only at h
    split at h
    · split at h
      · rename_i hres
        cases h
        refine ⟨hw.modify_status hq id id,?_,fun r hr => modify_requests_of_ne _ _ hr⟩
        rw [modify_requests_self, hq]
        exact .queued hres _
      · cases h
    · rename_i hst
      have hst : q.status = .waitingForStreamingReq := not_not.mp hst
      split at h
      · rename_i u hu
        cases h
        refine ⟨hw.modify_status hq (by simp [hst]) (fun _ => rfl),?_,
          fun r hr => modify_requests_of_ne _ _ hr⟩
        show AddEffect n _ ((s.modify n.requestId fun x => updateRequestAsSession x u).requests _)
        rw [modify_requests_self, hq]
        refine .session hst ?_ u
        by_contra hres
        rw [if_neg hres] at hu
        cases hu
      · cases h
        refine ⟨finishRequests_wellQueued hw,?_,fun r hr =>
          finishRequests_of_notMem _ _ _ _ (by simpa using hr)⟩
        rw [hq]
        exact .aborted hst (finishRequests_requests _ _ _ _ hq)

theorem foldl_preempt_spec (cfg : Config) (l : List ReqId)
    (hw : WellQueued s.requests l (s.waiting ++ s.skippedWaiting)) :
    WellQueued (l.foldl (preempt cfg true) s).requests []
        ((l.foldl (preempt cfg true) s).waiting ++ (l.foldl (preempt cfg true) s).skippedWaiting) ∧
      (l.foldl (preempt cfg true) s).running = s.running ∧
      ∀ r, (l.foldl (preempt cfg true) s).requests r =
        if r ∈ l then (s.requests r).map (preemptRequest true) else s.requests r := by
  induction l generalizing s with
  | nil => exact ⟨hw,rfl,fun r => by simp⟩
  | cons v l ih =>
    obtain ⟨q,hq,hst⟩ := hw.ofRunning v mem_cons_self
    have hreq : (preempt cfg true s v).requests =
        update s.requests v (some (preemptRequest true q)) :=
      modify_requests_of_some _ hq
    have hnext : WellQueued (preempt cfg true s v).requests l
        ((preempt cfg true s v).waiting ++ (preempt cfg true s v).skippedWaiting) := by
      have hmove := hw.move_to_queue (q := preemptRequest true q) mem_cons_self rfl
      rw [erase_cons_head] at hmove
      rw [hreq]
      exact hmove.perm (.refl _) ((prependRequest_perm _ _ _ v).append_right _)
    obtain ⟨hqueued,hrun,heff⟩ := ih hnext
    refine ⟨hqueued,hrun,fun r => ?_⟩
    have hnot : v ∉ l := (nodup_cons.mp hw.nodup_running).1
    show (l.foldl (preempt cfg true) (preempt cfg true s v)).requests r = _
    rw [heff r, hreq]
    by_cases hr : r = v
    · subst hr
      rw [if_neg hnot, update_self, if_pos mem_cons_self, hq, map_some]
    · rw [update_of_ne hr]
      simp [hr]

theorem resetRunningRequests_spec (cfg : Config) (hw : s.WellQueued) :
    (resetRunningRequests cfg s).WellQueued ∧ ∀ r, (resetRunningRequests cfg s).requests r =
      if r ∈ s.running then (s.requests r).map (preemptRequest true) else s.requests r := by
  have h := foldl_preempt_spec cfg s.running.reverse (s := { s with running := [] })
    (hw.perm (reverse_perm _) (.refl _))
  obtain ⟨hqueued,hrun,heff⟩ := h
  constructor
  · rw [Scheduler.WellQueued, resetRunningRequests, hrun]
    exact hqueued
  · intro r
    have hr := heff r
    simp only [mem_reverse] at hr
    exact hr

end MetaZenith.Sched
