import MetaZenith.SchedConservation

/-! Slots of the model runner. A streaming session keeps its row between two inputs, so a slot is
taken by every request that has been scheduled and has neither finished nor been preempted since.
The waiting loop counts the running requests and the sessions that wait for input. -/

namespace MetaZenith.Sched

open List Option Finset

variable {q : Request} {cfg : Config} {s s' : Scheduler} {out : ModelRunnerOutput}
  {fromSkipped : Bool} {r : ReqId} {rest : List ReqId}

def Scheduler.holdsOn (s : Scheduler) (r : ReqId) : Bool :=
  (s.requests r).any fun q => !q.status.isFinished && q.status != .preempted

def Event.scheduledIds (cfg : Config) (s : Scheduler) : Event → List ReqId
  | .schedule env => ((Sched.schedule cfg env s).map fun out => out.2.scheduled.map (·.reqId)).getD []
  | _ => []

structure SlotTracked where
  sys : System := {}
  holders : Finset ReqId := ∅

namespace SlotTracked

def step (cfg : Config) (t : SlotTracked) (e : Event) : Option SlotTracked :=
  (t.sys.step cfg e).map fun sys =>
    ⟨sys,(t.holders ∪ (e.scheduledIds cfg t.sys.sched).toFinset).filter fun r =>
      sys.sched.holdsOn r = true⟩

def idleSessions (t : SlotTracked) : Finset ReqId :=
  t.holders.filter fun r => r ∉ t.sys.sched.running ∧
    (t.sys.sched.requests r).any (·.resumable) = true

/-- A call that schedules a request without a slot leaves no holder of a slot behind, except the
sessions that wait for input. -/
def LeavesNoneBehind (cfg : Config) (t : SlotTracked) (e : Event) (t' : SlotTracked) : Prop :=
  (∀ r ∈ e.scheduledIds cfg t.sys.sched, r ∈ t.holders) ∨
    ∀ r ∈ t'.holders, r ∈ t'.sys.sched.running ∨
      (t'.sys.sched.requests r).any (·.status = .waitingForStreamingReq) = true

instance (cfg : Config) (t : SlotTracked) (e : Event) (t' : SlotTracked) :
    Decidable (LeavesNoneBehind cfg t e t') := inferInstanceAs (Decidable (_ ∨ _))

end SlotTracked

structure Counted (requests : ReqId → Option Request) (num : ℤ) : Prop where
  finite : (streaming requests).Finite
  le : ((streaming requests).ncard : ℤ) ≤ num

namespace Counted

variable {requests requests' : ReqId → Option Request} {num : ℤ} {r : ReqId} {o : Option Request}

section

variable (h : Counted requests num)

include h

theorem of_eq (heq : streaming requests' = streaming requests) : Counted requests' num := by
  constructor
  · rw [heq]
    exact h.finite
  · rw [heq]
    exact h.le

theorem update {k : ℤ} (hk : 0 ≤ k) (hone : r ∈ streaming (Function.update requests r o) → 1 ≤ k) :
    Counted (Function.update requests r o) (num+k) := by
  have hsub : streaming (Function.update requests r o) ⊆ insert r (streaming requests) := by
    intro x hx
    by_cases hxr : x = r
    · exact .inl hxr
    · exact .inr ((mem_streaming_update_of_ne hxr).mp hx)
  refine ⟨(h.finite.insert r).subset hsub,?_⟩
  have hle := h.le
  by_cases hr : r ∈ streaming (Function.update requests r o)
  · have hcard := Set.ncard_le_ncard hsub (h.finite.insert r)
    have hinsert := Set.ncard_insert_le r (streaming requests)
    have := hone hr
    omega
  · have hsub' : streaming (Function.update requests r o) ⊆ streaming requests := by
      intro x hx
      refine (hsub hx).resolve_left ?_
      rintro rfl
      exact hr hx
    have hcard := Set.ncard_le_ncard hsub' h.finite
    omega

theorem update_not_streaming (ho : ∀ q, o = some q → q.status ≠ .waitingForStreamingReq) :
    Counted (Function.update requests r o) num := by
  have := h.update (r := r) (o := o) le_rfl fun ⟨q,hq,hs⟩ => by
    rw [Function.update_self] at hq
    exact absurd hs (ho q hq)
  rwa [add_zero] at this

theorem modified {q' : Request} (hq : requests r = some q)
    (hs : q'.status = q.status) : Counted (Function.update requests r (some q')) num := by
  refine h.of_eq (streaming_update_same ?_)
  rw [mem_streaming_of_some hq, mem_streaming_of_some (Function.update_self ..), hs]

end

end Counted

theorem Counted.finishRequests {ids : List ReqId} {status : RequestStatus}
    {keepsBlocks : ReqId → Bool} (h : Counted s.requests s.numWaitingForStreamingInput)
    (hids : ids.Nodup) (hstatus : status.isFinished = true) :
    Counted (finishRequests cfg ids status keepsBlocks s).requests
      (finishRequests cfg ids status keepsBlocks s).numWaitingForStreamingInput := by
  obtain ⟨k,hnum,hsub,hcard⟩ := @finishRequests_streaming status cfg ids keepsBlocks s h.finite hids
    hstatus
  refine ⟨h.finite.subset hsub,?_⟩
  have hle := h.le
  rw [hnum, hcard]
  omega

/-- An output that stops a request may make it wait for input, and then the counter goes up, even if
it was waiting already. -/
theorem Counted.processScheduled {u u' : UpdateLoop} {e : Scheduled}
    (h : Counted u.sched.requests u.sched.numWaitingForStreamingInput)
    (hstep : processScheduled cfg out u e = some u') :
    Counted u'.sched.requests u'.sched.numWaitingForStreamingInput := by
  rw [Sched.processScheduled] at hstep
  split at hstep
  · cases hstep
  split at hstep
  · cases hstep
    exact h
  rename_i q hq
  split at hstep
  · cases hstep
  rename_i q' stopped hproc
  cases stopped with
  | false =>
    cases hstep
    change Counted (u.sched.modify e.reqId fun _ => q').requests _
    rw [Scheduler.modify_requests_of_some (fun _ => q') hq]
    exact h.modified hq (processOutput_status hproc)
  | true =>
    have hfin := processOutput_stops hproc
    have hsched : u'.sched = handleStopped cfg u.sched e.reqId q' (out.keepsBlocks e.reqId) := by
      simp only [if_true, Option.some.injEq] at hstep
      subst hstep
      split <;> rfl
    rw [hsched]
    rcases handleStopped_cases cfg q' (out.keepsBlocks e.reqId) hq with
      ⟨-,o,ho,hreq,-,-,-,hnum⟩ | ⟨-,q1,hreq,-,-,hnum⟩
    · rw [hreq, hnum]
      refine h.update_not_streaming fun p hp hs => ?_
      rw [← ho p hp, hs] at hfin
      cases hfin
    · rw [hreq, hnum]
      refine h.update ?_ fun hr => ?_
      · split <;> decide
      · rw [if_pos ((mem_streaming_of_some (Function.update_self ..)).mp hr)]

theorem Counted.updateFromOutput {step : SchedulerOutput}
    (hc : Counted s.requests s.numWaitingForStreamingInput)
    (h : updateFromOutput cfg step out s = some s') :
    Counted s'.requests s'.numWaitingForStreamingInput := by
  obtain ⟨u,hloop,hrest⟩ := bind_eq_some_iff.mp h
  have hu : Counted u.sched.requests u.sched.numWaitingForStreamingInput :=
    foldlM_option_keeps (P := fun u : UpdateLoop => Counted u.sched.requests
      u.sched.numWaitingForStreamingInput) (fun _ _ _ _ ht hstep => ht.processScheduled hstep) hc hloop
  have hclear : Counted ({ takeOut cfg u.stoppedRunning u.stoppedPreempted u.sched with
      grammarCompileErrorReqs := [] } : Scheduler).requests
      ({ takeOut cfg u.stoppedRunning u.stoppedPreempted u.sched with
        grammarCompileErrorReqs := [] } : Scheduler).numWaitingForStreamingInput := hu
  have hfinished := @Counted.finishRequests cfg _
    (takeOut cfg u.stoppedRunning u.stoppedPreempted u.sched).grammarCompileErrorReqs.dedup
    .finishedError out.keepsBlocks hclear (nodup_dedup _) rfl
  rw [kvTransferFinished_num hrest]
  exact hfinished.of_eq (kvTransferFinished_spec hrest).streaming

theorem Counted.addNewRequest {n : Request} (hc : Counted s.requests s.numWaitingForStreamingInput)
    (hs : n.status ≠ .waitingForStreamingReq) (h : addNewRequest cfg n s = some s') :
    Counted s'.requests s'.numWaitingForStreamingInput := by
  rw [Sched.addNewRequest] at h
  split at h
  · cases h
    rw [(enqueueWaitingRequest_requests ..).1, enqueueWaitingRequest_num]
    refine hc.update_not_streaming fun q hq => ?_
    cases hq
    exact hs
  rename_i q hq
  simp only at h
  split at h
  · split at h
    · cases h
      rw [Scheduler.modify_requests_of_some _ hq]
      exact hc.modified hq rfl
    · cases h
  · rename_i hst
    have hin : n.requestId ∈ streaming s.requests :=
      (mem_streaming_of_some hq).mpr (not_not.mp hst)
    split at h
    · rename_i u hu
      cases h
      change Counted (s.modify n.requestId fun x => updateRequestAsSession x u).requests
        (s.numWaitingForStreamingInput-1)
      rw [Scheduler.modify_requests_of_some _ hq]
      have hset (x : ReqId) : x ∈ streaming (Function.update s.requests n.requestId
          (some (updateRequestAsSession q u))) ↔ x ∈ streaming s.requests ∧ x ∉ [n.requestId] := by
        rw [List.mem_singleton]
        by_cases hx : x = n.requestId
        · subst hx
          refine iff_of_false ?_ fun hboth => hboth.2 rfl
          rw [mem_streaming_of_some (Function.update_self ..)]
          simp [updateRequestAsSession]
        · rw [mem_streaming_update_of_ne hx, and_iff_left hx]
      have hcard := ncard_streaming_remove (nodup_singleton n.requestId) hc.finite
        (fun x hx => List.mem_singleton.mp hx ▸ hin) hset
      refine ⟨hc.finite.subset fun x hx => ((hset x).mp hx).1,?_⟩
      have hle := hc.le
      rw [hcard, length_singleton]
      push_cast
      omega
    · cases h
      exact hc.finishRequests (nodup_singleton _) rfl

theorem Counted.call {s s' : System} {e : Event} (hq : s.Queued)
    (hc : Counted s.sched.requests s.sched.numWaitingForStreamingInput) (h : s.Call cfg s' e) :
    Counted s'.sched.requests s'.sched.numWaitingForStreamingInput := by
  cases h with
  | @addRequest n h hf => exact hc.addNewRequest n.not_streaming h
  | @schedule env out h hf =>
    rw [(schedule_keeps hq.wellQueued h).2]
    exact hc.of_eq (schedule_streaming hq.wellQueued h)
  | @updateFromOutput f out h hf hfits => exact hc.updateFromOutput h
  | finishRequests hs h hf =>
    rw [h]
    exact hc.finishRequests (nodup_dedup _) hs
  | resetPrefixCache h hf =>
    have hnum := (foldl_preempt_keeps cfg s.sched.running.reverse { s.sched with running := [] }).2
    rw [h, show (resetRunningRequests cfg s.sched).numWaitingForStreamingInput = _ from hnum]
    exact hc.of_eq (resetRunningRequests_streaming cfg hq.wellQueued)

section Admissions

variable {cfg : Config} {env : Environment} {threshold : ℤ} {deferPrefills : Bool}

/-- A request is admitted only while the running requests and the counted sessions leave room. -/
theorem waitingStep_admits {s s' : Loop} (h : WaitingStep cfg s s') :
    s'.sched.running = s.sched.running ∧ s'.scheduled = s.scheduled ∨
      (s'.sched.running.length:ℤ)+s'.sched.numWaitingForStreamingInput ≤ cfg.maxNumRunningReqs := by
  have hnum := (waitingStep_keeps h).num
  cases h with
  | idle => exact .inl ⟨rfl,rfl⟩
  | @head fromSkipped r rest q t hroom hselect hq hmove =>
    cases hmove with
    | stays hw hl => exact .inl ⟨hl.running,hl.scheduled⟩
    | @skipped t q' hw hl =>
      exact .inl ⟨(popSelected_kept t.sched fromSkipped rest).2.1.trans hl.running,hl.scheduled⟩
    | admitted hw hl hadm h =>
      right
      rw [hnum, h.running, hl.running, length_append]
      push_cast
      exact Int.add_right_comm _ 1 _ ▸ hroom

theorem runningPass_running (cfg : Config) (env : Environment) (s : Scheduler) :
    (runningPass cfg env s).sched.running ⊆ s.running := by
  refine runningLoop_invariant (P := fun t => t.sched.running ⊆ s.running) (fun _ h => h) ?_
    (fun _ _ h => h) (fun _ _ _ _ h => h) _ (List.Subset.refl s.running)
  intro t t' v ht hpre
  rw [preemptOne] at hpre
  split at hpre
  · obtain ⟨w,-,heq⟩ := map_eq_some_iff.mp hpre
    obtain ⟨rfl,rfl⟩ := Prod.mk.inj heq
    exact fun x hx => ht (mem_of_mem_dropLast hx)
  · obtain ⟨w,-,heq⟩ := map_eq_some_iff.mp hpre
    obtain ⟨rfl,rfl⟩ := Prod.mk.inj heq
    exact fun x hx => ht (mem_of_mem_erase hx)

/-- A call schedules running requests only, or the running requests and the counted sessions fit
afterwards. -/
theorem schedule_admits {out : SchedulerOutput} (hw : s.WellQueued)
    (h : schedule cfg env s = some (s',out)) : (∀ e ∈ out.scheduled, e.reqId ∈ s.running) ∨
      (s'.running.length:ℤ)+s'.numWaitingForStreamingInput ≤ cfg.maxNumRunningReqs := by
  obtain ⟨loop,hloop,hcommit⟩ := bind_eq_some_iff.mp h
  -- the call begins by counting the step
  let s₁ : Scheduler := { s with currentStep := s.currentStep+1 }
  have hinv : RunningInv cfg s.requests (runningPass cfg env s₁) :=
    runningPass_spec (show s₁.WellQueued from hw)
  have hpass : (∀ e ∈ loop.scheduled, e.reqId ∈ s.running) ∨
      (loop.sched.running.length:ℤ)+loop.sched.numWaitingForStreamingInput ≤
        cfg.maxNumRunningReqs := by
    have hrunning : ∀ e ∈ (runningPass cfg env s₁).scheduled, e.reqId ∈ s.running := fun e he =>
      runningPass_running cfg env s₁ (mem_of_mem_take (hinv.passed e he))
    refine (waitingPass_invariant (P := fun t => (∀ e ∈ t.scheduled, e.reqId ∈ s.running) ∨
      (t.sched.running.length:ℤ)+t.sched.numWaitingForStreamingInput ≤ cfg.maxNumRunningReqs) ?_ hinv
      (.inl hrunning) hloop).elim (fun h => h ▸ .inl hrunning) ?_
    · intro t t' _ ht hstep
      rcases waitingStep_admits hstep with ⟨hrun,hsched⟩ | hbound
      · rw [hrun, hsched, (waitingStep_keeps hstep).num]
        exact ht
      · exact .inr hbound
    · rintro ⟨t,bound,-,ht,rfl⟩
      exact ht
  rw [commitSchedule] at hcommit
  simp only at hcommit
  split at hcommit
  · cases hcommit
    rw [updateAfterSchedule_eq]
    refine hpass.imp_right fun hbound => ?_
    obtain ⟨hrun,-,-⟩ := advanceAll_queues cfg loop.sched.currentStep
      (numSpecTokensToSchedule cfg loop.scheduled.length) loop.scheduled loop.sched
    rw [hrun, show (Scheduler.numWaitingForStreamingInput _) = _ from advanceAll_num ..]
    exact hbound
  · cases hcommit

end Admissions

theorem removeAll_subset {l : List ReqId} (hn : l.Nodup) (items : List ReqId) :
    removeAll l items ⊆ l := by
  rw [removeAll_eq_filter hn]
  exact filter_sublist.subset

theorem finishRequests_running_subset {ids : List ReqId} {status : RequestStatus}
    {keepsBlocks : ReqId → Bool} (hn : s.running.Nodup) :
    (finishRequests cfg ids status keepsBlocks s).running ⊆ s.running := by
  rw [finishRequests]
  dsimp only
  rw [(finishAll_queues ..).1]
  exact removeAll_subset hn _

theorem updateFromOutput_running_subset {step : SchedulerOutput} (hw : s.WellQueued)
    (hn : (step.scheduled.map (·.reqId)).Nodup) (h : updateFromOutput cfg step out s = some s') :
    s'.running ⊆ s.running := by
  obtain ⟨u,hloop,hrest⟩ := bind_eq_some_iff.mp h
  have hinv := updateLoop_spec hw hn hloop
  have hnodup : u.sched.running.Nodup := by
    rw [hinv.running]
    exact hw.nodup_running
  have hout : (takeOut cfg u.stoppedRunning u.stoppedPreempted u.sched).WellQueued :=
    takeOut_wellQueued hnodup hinv.queued
  have hsub : (takeOut cfg u.stoppedRunning u.stoppedPreempted u.sched).running ⊆ s.running := by
    rw [← hinv.running]
    exact removeAll_subset hnodup _
  rw [(kvTransferFinished_spec hrest).running]
  exact List.Subset.trans (finishRequests_running_subset hout.nodup_running) hsub

theorem addNewRequest_running_subset {n : Request} (hw : s.WellQueued)
    (h : addNewRequest cfg n s = some s') : s'.running ⊆ s.running := by
  rw [addNewRequest] at h
  split at h
  · cases h
    rw [(enqueueWaitingRequest_requests ..).2]
    exact List.Subset.refl _
  simp only at h
  split at h
  · split at h
    · cases h
      exact List.Subset.refl _
    · cases h
  · split at h
    · cases h
      exact List.Subset.refl _
    · cases h
      exact finishRequests_running_subset hw.nodup_running

theorem System.Call.running {s s' : System} {e : Event} (hq : s.Queued) (h : s.Call cfg s' e)
    (hr : r ∈ s'.sched.running) : r ∈ s.sched.running ∨ r ∈ e.scheduledIds cfg s.sched := by
  cases h with
  | addRequest h hf => exact .inl (addNewRequest_running_subset hq.wellQueued h hr)
  | @updateFromOutput f out h hf hfits =>
    exact .inl (updateFromOutput_running_subset hq.wellQueued (hq.distinct f (hf ▸ mem_cons_self)) h hr)
  | finishRequests hs h hf =>
    rw [h] at hr
    exact .inl (finishRequests_running_subset hq.wellQueued.nodup_running hr)
  | resetPrefixCache h hf =>
    rw [h, resetRunningRequests_running cfg hq.wellQueued] at hr
    cases hr
  | @schedule env out h hf =>
    obtain ⟨hw,heff⟩ := schedule_spec hq.wellQueued h
    have hmem : r ∈ s.sched.ids := (schedule_keeps hq.wellQueued h).1.mem_iff.mp
      (mem_append_left _ hr)
    refine (mem_append.mp hmem).imp_right fun hqueue => ?_
    -- it waited before and runs now, so it was admitted
    obtain ⟨q,hqr,hwait⟩ := hq.wellQueued.ofQueue r hqueue
    obtain ⟨q',hqr',hrun⟩ := hw.ofRunning r hr
    have hr := heff r
    have hentry : entriesOf r out.scheduled ≠ [] := by
      intro hnil
      rw [hnil, hqr, hqr'] at hr
      cases hr with
      | unscheduled heffect =>
        cases heffect with
        | same =>
          rw [hrun] at hwait
          cases hwait
        | preempt hs _ =>
          rw [hs] at hwait
          cases hwait
        | waits hw =>
          have := hw.after
          rw [hrun] at this
          cases this
    obtain ⟨e,he⟩ := exists_mem_of_ne_nil _ hentry
    have hid : e.reqId = r := by simpa using (mem_filter.mp he).2
    rw [Event.scheduledIds, h]
    exact hid ▸ mem_map_of_mem (mem_of_mem_entriesOf he)

namespace SlotTracked

structure Within (cfg : Config) (t : SlotTracked) : Prop where
  queued : t.sys.Queued
  counted : Counted t.sys.sched.requests t.sys.sched.numWaitingForStreamingInput
  running : ∀ r ∈ t.sys.sched.running, r ∈ t.holders
  card : t.holders.card ≤ cfg.maxNumRunningReqs

variable {cfg : Config} {t t' : SlotTracked} {e : Event}

theorem holdsOn_of_running (hw : s.WellQueued) (hr : r ∈ s.running) : s.holdsOn r = true := by
  obtain ⟨q,hq,hs⟩ := hw.ofRunning r hr
  rw [Scheduler.holdsOn, hq, any_some, hs]
  rfl

theorem card_holders_le (hw : t.sys.sched.WellQueued)
    (hc : Counted t.sys.sched.requests t.sys.sched.numWaitingForStreamingInput)
    (hbehind : ∀ r ∈ t.holders, r ∈ t.sys.sched.running ∨
      (t.sys.sched.requests r).any (·.status = .waitingForStreamingReq) = true) :
    (t.holders.card:ℤ) ≤ t.sys.sched.running.length+t.sys.sched.numWaitingForStreamingInput := by
  have hsub : t.holders ⊆ t.sys.sched.running.toFinset ∪ hc.finite.toFinset := by
    intro r hr
    rcases hbehind r hr with hrun | hstream
    · exact mem_union_left _ (List.mem_toFinset.mpr hrun)
    · obtain ⟨q,hq,hs⟩ := (Option.any_eq_true ..).mp hstream
      exact Finset.mem_union_right _ (hc.finite.mem_toFinset.mpr ⟨q,hq,of_decide_eq_true hs⟩)
  have hcard := (card_le_card hsub).trans (card_union_le _ _)
  rw [toFinset_card_of_nodup hw.nodup_running, ← Set.ncard_eq_toFinset_card _ hc.finite] at hcard
  have hle := hc.le
  omega

theorem Within.step (h : t.Within cfg) (hstep : t.step cfg e = some t')
    (hok : LeavesNoneBehind cfg t e t') : t'.Within cfg := by
  obtain ⟨sys,hsys,rfl⟩ := map_eq_some_iff.mp hstep
  have hcall := System.step_cases hsys
  have hqueued := h.queued.call hcall
  have hcounted := h.counted.call h.queued hcall
  refine ⟨hqueued,hcounted,fun r hr => ?_,?_⟩
  · refine mem_filter.mpr ⟨mem_union.mpr ?_,holdsOn_of_running hqueued.wellQueued hr⟩
    exact (hcall.running h.queued hr).imp (h.running r) List.mem_toFinset.mpr
  by_cases hold : ∀ r ∈ e.scheduledIds cfg t.sys.sched, r ∈ t.holders
  · -- only holders were scheduled
    refine (card_le_card ?_).trans h.card
    intro r hr
    rcases mem_union.mp (mem_filter.mp hr).1 with hmem | hmem
    · exact hmem
    · exact hold r (List.mem_toFinset.mp hmem)
  · have hbehind := hok.resolve_left hold
    have hcard := card_holders_le hqueued.wellQueued hcounted hbehind
    obtain ⟨r,hr,hnew⟩ := not_forall₂.mp hold
    cases hcall with
    | @schedule env out hsched hf =>
      rw [Event.scheduledIds, hsched] at hr
      obtain ⟨entry,hentry,rfl⟩ := mem_map.mp hr
      rcases schedule_admits h.queued.wellQueued hsched with hall | hbound
      · exact absurd (h.running _ (hall entry hentry)) hnew
      · dsimp only at hcard
        exact_mod_cast hcard.trans hbound
    | addRequest => cases hr
    | updateFromOutput => cases hr
    | finishRequests => cases hr
    | resetPrefixCache => cases hr

end SlotTracked

def slotModel (maxNumRunningReqs : ℕ) : Config := { sessionModel with maxNumRunningReqs }

def otherRequest : NewRequest := { requestId := 1, promptTokenIds := [3], maxTokens := 4 }

end MetaZenith.Sched
