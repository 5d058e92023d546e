import MetaZenith.SchedAccounting

/-! A running request without a step in flight is below the model length and gets at least one new
token, in a scheduler of either class. -/

namespace MetaZenith.Sched

open RequestStatus System SchedulerClass List Option

variable {cls : SchedulerClass} {cfg : Config} {s s' : System} {c : EngineCall} {r : ReqId}
  {o o' : Option Request} {kept : ℕ} {stopped : Bool}

theorem SchedulerClass.advance_status (cls : SchedulerClass) (cfg : Config)
    (step placeholders : ℕ) (e : Scheduled) (q : Request) :
    (cls.advance cfg step placeholders e q).status = q.status := by
  cases cls with
  | scheduler => rfl
  | asyncScheduler => exact Sched.advance_status cfg step placeholders e q

theorem SchedulerClass.answer_status {out : ModelRunnerOutput} (e : Scheduled) (q q' : Request)
    (h : cls.answer cfg out e q = some (q',false)) : q'.status = q.status := by
  rcases processOutput_spec h with ⟨-,rfl,-⟩ | ⟨-,kept,htook⟩
  · rfl
  · exact (htook.continues rfl).1

inductive System.CallOf (cls : SchedulerClass) (cfg : Config) (s s' : System) : EngineCall → Prop
  | schedule {env : Environment} {out : SchedulerOutput}
      (h : cls.schedule cfg env s.sched = some (s'.sched,out))
      (hf : s'.inFlight = if out.scheduled.isEmpty then s.inFlight
        else s.inFlight ++ [⟨out,s'.sched.requests⟩]) : CallOf cls cfg s s' (.event (.schedule env))
  | updateFromOutput {f : InFlight} {out : ModelRunnerOutput}
      (h : cls.updateFromOutput cfg f.output out s.sched = some s'.sched)
      (hf : s.inFlight = f :: s'.inFlight) : CallOf cls cfg s s' (.event (.updateFromOutput out))
  | addRequest {n : NewRequest} (h : addNewRequest cfg n.toRequest s.sched = some s'.sched)
      (hf : s'.inFlight = s.inFlight) : CallOf cls cfg s s' (.event (.addRequest n))
  | finishRequests {ids : List ReqId} {status : RequestStatus} {keepsBlocks : ReqId → Bool}
      (hs : status.isFinished = true)
      (h : s'.sched = Sched.finishRequests cfg ids.dedup status keepsBlocks s.sched)
      (hf : s'.inFlight = s.inFlight) :
      CallOf cls cfg s s' (.event (.finishRequests ids status keepsBlocks))
  | resetPrefixCache (h : s'.sched = resetRunningRequests cfg s.sched)
      (hf : s'.inFlight = s.inFlight) : CallOf cls cfg s s' (.event .resetPrefixCache)
  | updateDraftTokenIds {drafts : ReqId → Option ℕ}
      (h : s'.sched = Sched.updateDraftTokenIds drafts s.sched) (hf : s'.inFlight = s.inFlight) :
      CallOf cls cfg s s' (.updateDraftTokenIds drafts)

theorem System.stepOf_cases (h : s.stepOf cls cfg c = some s') : s.CallOf cls cfg s' c := by
  cases c with
  | updateDraftTokenIds drafts =>
    cases h
    exact .updateDraftTokenIds rfl rfl
  | event e =>
    cases e with
    | schedule env =>
      obtain ⟨⟨sched,out⟩,hsched,rfl⟩ := map_eq_some_iff.mp h
      exact .schedule hsched rfl
    | updateFromOutput out =>
      rw [stepOf] at h
      split at h
      · cases h
      · rename_i f rest hf
        split at h
        · obtain ⟨sched,hupd,rfl⟩ := map_eq_some_iff.mp h
          exact .updateFromOutput hupd hf
        · cases h
    | addRequest n =>
      have hstep : s.step cfg (.addRequest n) = some s' := h
      cases step_cases hstep with
      | addRequest h hf => exact .addRequest h hf
    | finishRequests ids status keepsBlocks =>
      have hstep : s.step cfg (.finishRequests ids status keepsBlocks) = some s' := h
      cases step_cases hstep with
      | finishRequests hs h hf => exact .finishRequests hs h hf
    | resetPrefixCache =>
      have hstep : s.step cfg .resetPrefixCache = some s' := h
      cases step_cases hstep with
      | resetPrefixCache h hf => exact .resetPrefixCache h hf

theorem updateDrafts_status (drafts : Option ℕ) (q : Request) :
    ((drafts.map (updateDrafts · q)).getD q).status = q.status := by
  cases drafts with
  | none => rfl
  | some k =>
    show (updateDrafts k q).status = q.status
    rw [updateDrafts]
    split
    · rfl
    · split <;> rfl

theorem updateDraftTokenIds_requests {s : Scheduler} {q : Request} (drafts : ReqId → Option ℕ)
    (hq : s.requests r = some q) :
    (updateDraftTokenIds drafts s).requests r = some (((drafts r).map (updateDrafts · q)).getD q) := by
  show (s.requests r).map _ = _
  rw [hq, map_some]

theorem updateDraftTokenIds_wellQueued {s : Scheduler} (hw : s.WellQueued)
    (drafts : ReqId → Option ℕ) : (updateDraftTokenIds drafts s).WellQueued := by
  refine ⟨hw.nodup,fun r hr => ?_,fun r hr => ?_⟩
  · obtain ⟨q,hq,hs⟩ := hw.ofRunning r hr
    exact ⟨_,updateDraftTokenIds_requests drafts hq,(updateDrafts_status _ q).trans hs⟩
  · obtain ⟨q,hq,hs⟩ := hw.ofQueue r hr
    exact ⟨_,updateDraftTokenIds_requests drafts hq,by rw [updateDrafts_status, hs]⟩

theorem System.Queued.callOf (hq : s.Queued) (h : s.CallOf cls cfg s' c) : s'.Queued := by
  cases h with
  | @schedule env out h hf =>
    obtain ⟨hqueued,mid,preempted,step,hby⟩ := scheduleBy_spec (cls.advance_status cfg) hq.wellQueued h
    refine ⟨hqueued,fun f hmem => ?_⟩
    rw [hf] at hmem
    split at hmem
    · exact hq.distinct f hmem
    · rcases mem_append.mp hmem with hmem | hmem
      · exact hq.distinct f hmem
      · rw [mem_singleton.mp hmem]
        exact hby.entries_nodup
  | @updateFromOutput f out h hf =>
    have hn := hq.distinct f (hf ▸ mem_cons_self)
    exact ⟨(updateFromOutputBy_spec answer_status hq.wellQueued hn h).1,
      fun g hg => hq.distinct g (hf ▸ mem_cons_of_mem _ hg)⟩
  | addRequest h hf => exact hq.call (.addRequest h hf)
  | finishRequests hs h hf => exact hq.call (.finishRequests hs h hf)
  | resetPrefixCache h hf => exact hq.call (.resetPrefixCache h hf)
  | updateDraftTokenIds h hf =>
    refine ⟨?_,hf ▸ hq.distinct⟩
    rw [h]
    exact updateDraftTokenIds_wellQueued hq.wellQueued _

structure Steady (cls : SchedulerClass) (q : Request) (ps : List Pending) : Prop
    extends Entered q ps where
  prompt : q.numPromptTokens = q.promptTokenIds.length
  split : q.numTokens ≤ q.numPromptTokens+q.numOutputTokens
  placeholders : 0 ≤ q.numOutputPlaceholders
  sync : cls = .scheduler → q.numOutputPlaceholders = 0

structure Alive (cfg : Config) (q : Request) (ps : List Pending) : Prop where
  fits : q.numPromptTokens+q.samplingParams.minTokens ≤ cfg.maxModelLen
  below : q.numTokens < cfg.maxModelLen
  running : q.status = .running →
    q.numComputedTokens < q.numTokens+owed q.numPreemptions ps ∧
      q.numOutputPlaceholders ≤ owed q.numPreemptions ps
  waiting : q.status.isWaiting = true →
    q.numOutputPlaceholders = 0 ∧ ∀ p ∈ ps, p.epoch < q.numPreemptions

structure Moving (cls : SchedulerClass) (cfg : Config) (q : Request) (ps : List Pending) : Prop
    extends Steady cls q ps where
  alive : q.status.isFinished = false → Alive cfg q ps

section Moving

variable {cls : SchedulerClass} {cfg : Config} {q q' : Request} {ps : List Pending}

theorem RequestStatus.not_waiting_of_running {st : RequestStatus} (h : st = .running) :
    st.isFinished = false ∧ ¬st.isWaiting = true := by
  subst h
  exact ⟨rfl,by simp [isWaiting]⟩

theorem Moving.added {n : NewRequest} (hlt : n.promptTokenIds.length < cfg.maxModelLen)
    (hfits : n.promptTokenIds.length+n.samplingParams.minTokens ≤ cfg.maxModelLen) :
    Moving cls cfg n.toRequest [] where
  inFlight := rfl
  stale := rfl
  epochs := by simp
  sorted := .nil
  positive := by simp
  prompt := rfl
  split := (add_zero _).ge
  placeholders := le_rfl
  sync _ := rfl
  alive _ := by
    refine ⟨hfits,?_,fun hs => ?_,fun _ => ⟨rfl,by simp⟩⟩
    · show (n.promptTokenIds.length:ℤ) < cfg.maxModelLen
      omega
    · exact absurd n.isWaiting (not_waiting_of_running hs).2

theorem Steady.finish (h : Steady cls q ps) {status : RequestStatus} (hs : status.isFinished = true) :
    Moving cls cfg { q with status := status } ps where
  toEntered := h.toEntered.congr rfl rfl rfl
  prompt := h.prompt
  split := h.split
  placeholders := h.placeholders
  sync := h.sync
  alive hf := absurd (hs.symm.trans hf) (by simp)

theorem Moving.preempt (h : Moving cls cfg q ps) (hs : q.status = .running) (drop : Bool) :
    Moving cls cfg (preemptRequest drop q) ps where
  toEntered := h.toEntered.preempt drop
  prompt := h.prompt
  split := h.split
  placeholders := le_rfl
  sync _ := rfl
  alive _ := by
    have ha := h.alive (not_waiting_of_running hs).1
    exact ⟨ha.fits,ha.below,by simp [preemptRequest], fun _ => ⟨rfl,h.toEntered.stale_of_preempted⟩⟩

theorem Moving.waits (h : Moving cls cfg q ps) (hw : Waits q q') : Moving cls cfg q' ps := by
  have ha := h.alive (Tracked.not_running_of_waiting hw.before).2
  have hafter := hw.after
  rw [hw.rest] at hafter ⊢
  refine ⟨⟨h.toEntered.congr rfl rfl rfl,h.prompt,h.split,h.placeholders,h.sync⟩,fun _ => ?_⟩
  refine ⟨ha.fits,ha.below,fun hs => ?_,fun _ => ha.waiting hw.before⟩
  exact absurd hafter (not_waiting_of_running hs).2

theorem Moving.congr (h : Moving cls cfg q ps) (drafts : ℕ) (queue : List (Option StreamingUpdate)) :
    Moving cls cfg { q with numSpecTokenIds := drafts, streamingQueue := queue } ps where
  toEntered := h.toEntered.congr rfl rfl rfl
  prompt := h.prompt
  split := h.split
  placeholders := h.placeholders
  sync := h.sync
  alive hf := ⟨(h.alive hf).fits,(h.alive hf).below,(h.alive hf).running,(h.alive hf).waiting⟩

/-- Only the asynchronous scheduler adds placeholders, and only for a step that samples. -/
theorem SchedulerClass.advance_spec (cls : SchedulerClass) (cfg : Config) (step placeholders : ℕ)
    (e : Scheduled) (q : Request) :
    ∃ added drafts eligible, cls.advance cfg step placeholders e q = { q with
      numComputedTokens := q.numComputedTokens+e.numScheduledTokens
      numInFlightTokens := q.numInFlightTokens+e.numScheduledTokens
      isPrefillChunk :=
        decide (q.numComputedTokens+e.numScheduledTokens < q.numTokens+q.numOutputPlaceholders)
      numOutputPlaceholders := q.numOutputPlaceholders+added
      numSpecTokenIds := drafts
      nextDecodeEligibleStep := eligible } ∧
      0 ≤ added ∧ (cls = .scheduler → added = 0) ∧
      (q.numComputedTokens+e.numScheduledTokens < q.numTokens+q.numOutputPlaceholders → added = 0) ∧
      added ≤ 1+e.numDraftTokens := by
  by_cases hc : q.numComputedTokens+e.numScheduledTokens < q.numTokens+q.numOutputPlaceholders
  · refine ⟨0,q.numSpecTokenIds,q.nextDecodeEligibleStep,?_,le_rfl,fun _ => rfl,fun _ => rfl,
      by positivity⟩
    cases cls with
    | scheduler => simp [advance]
    | asyncScheduler =>
      rw [advance, Sched.advance_chunk _ _ hc]
      simp [hc]
  · cases cls with
    | scheduler =>
      refine ⟨0,q.numSpecTokenIds,q.nextDecodeEligibleStep,?_,le_rfl,fun _ => rfl,fun _ => rfl,
        by positivity⟩
      simp [advance]
    | asyncScheduler =>
      refine ⟨1+e.numDraftTokens,placeholders,if cfg.useV2ModelRunner then step+cfg.ppSize
        else q.nextDecodeEligibleStep,?_,by positivity,by simp,fun h => absurd h hc,le_rfl⟩
      rw [advance, Sched.advance_decode _ _ hc]
      simp [hc, add_assoc]

/-- The step that is added covers what it schedules past the tokens and placeholders. -/
theorem Steady.advance (h : Steady cls q ps) {e : Scheduled} (step placeholders : ℕ)
    (hs : q.status = .running) (hn : 1 ≤ e.numScheduledTokens)
    (hfits : q.numPromptTokens+q.samplingParams.minTokens ≤ cfg.maxModelLen)
    (hbelow : q.numTokens < cfg.maxModelLen)
    (howed : q.numOutputPlaceholders ≤ owed q.numPreemptions ps)
    (hdrafts : q.numTokens+q.numOutputPlaceholders ≤ q.numComputedTokens+e.numScheduledTokens →
      q.numComputedTokens+e.numScheduledTokens ≤ q.numTokens+q.numOutputPlaceholders+e.numDraftTokens) :
    Moving cls cfg (cls.advance cfg step placeholders e q)
      (ps ++ [pendingEntry e (cls.advance cfg step placeholders e q)]) := by
  obtain ⟨added,drafts,eligible,heq,hnonneg,hsync,hchunk,hle⟩ :=
    cls.advance_spec cfg step placeholders e q
  have hplace := h.placeholders
  rw [heq]
  refine ⟨⟨h.toEntered.scheduled hn _ rfl rfl rfl,h.prompt,h.split,?_,fun hc => ?_⟩,fun _ => ?_⟩
  · show 0 ≤ q.numOutputPlaceholders+added
    omega
  · show q.numOutputPlaceholders+added = 0
    rw [h.sync hc, hsync hc, add_zero]
  refine ⟨hfits,hbelow,fun _ => ?_,fun hw => ?_⟩
  · show q.numComputedTokens+e.numScheduledTokens < q.numTokens+owed q.numPreemptions _ ∧
      q.numOutputPlaceholders+added ≤ owed q.numPreemptions _
    by_cases hc : q.numComputedTokens+e.numScheduledTokens < q.numTokens+q.numOutputPlaceholders
    · have hold : owed q.numPreemptions (ps ++ [⟨e,true,q.numPreemptions⟩]) =
        owed q.numPreemptions ps := owed_append_chunk ps rfl
      have hadded := hchunk hc
      simp only [pendingEntry, hc, decide_true, hold]
      omega
    · have hnew : owed q.numPreemptions (ps ++ [⟨e,false,q.numPreemptions⟩]) =
        owed q.numPreemptions ps+1+e.numDraftTokens := owed_append ps rfl rfl
      have hd := hdrafts (not_lt.mp hc)
      simp only [pendingEntry, hc, decide_false, hnew]
      omega
  · exact absurd hw (not_waiting_of_running hs).2

/-- Without a step in flight the computed tokens are short of the tokens, and there are no
placeholders. -/
theorem Moving.idle (h : Moving cls cfg q []) (hs : q.status = .running) :
    q.numOutputPlaceholders = 0 ∧ q.numComputedTokens < q.numTokens ∧
      q.numTokens < cfg.maxModelLen := by
  have ha := h.alive (not_waiting_of_running hs).1
  obtain ⟨hcomputed,hplace⟩ := ha.running hs
  have hnil : owed q.numPreemptions [] = 0 := rfl
  have hnonneg := h.placeholders
  have hbelow := ha.below
  omega

theorem LoopEffect.moving {preempted : List ReqId} {es : List Scheduled}
    (h : LoopEffect cfg preempted r o o' es) (step placeholders : ℕ)
    (hq : ∀ q ∈ o, Moving cls cfg q ps) (hasks : ∀ q ∈ o, q.status = .running → ps ≠ [] →
      0 ≤ q.want ∧ q.numComputedTokens < cfg.maxModelLen) {o'' : Option Request}
    (ho : o'' = es.foldl (fun o e => o.map (cls.advance cfg step placeholders e)) o') :
    ∀ q ∈ o'', Moving cls cfg q (ps ++ newPending o'' es) := by
  subst ho
  cases h with
  | same =>
    simp only [foldl_nil, newPending, map_nil, append_nil]
    exact hq
  | @running q n hs hn =>
    have hm := hq q rfl
    have ha := hm.alive (not_waiting_of_running hs).1
    have hask : 0 ≤ q.want ∧ q.numComputedTokens < cfg.maxModelLen := by
      by_cases hps : ps = []
      · subst hps
        obtain ⟨hplace,hcomputed,hbelow⟩ := hm.idle hs
        rw [Request.want, Request.numTokensWithSpec]
        omega
      · exact hasks q rfl hs hps
    obtain ⟨hpos,hwant,-⟩ := hn hask.1 hask.2
    rintro _ ⟨⟩
    have hsteady : Steady cls { q with numSpecTokenIds := 0 } ps := (hm.congr 0 _).toSteady
    have hnext := hsteady.advance (e := ⟨r,q.numComputedTokens,n,runningDrafts q n,.running⟩) step
      placeholders hs hpos ha.fits ha.below (ha.running hs).2 fun _ => runningDrafts_ge hwant
    exact hnext
  | preempt hs hr =>
    simp only [foldl_nil, newPending, map_nil, append_nil]
    rintro _ ⟨⟩
    exact (hq _ rfl).preempt hs _
  | waits h =>
    simp only [foldl_nil, newPending, map_nil, append_nil]
    rintro _ ⟨⟩
    exact (hq _ rfl).waits h
  | @admission q start n boundary pad kind hk hnew h =>
    have hm := hq q rfl
    have ha := hm.alive (Tracked.not_running_of_waiting h.waiting).2
    obtain ⟨hplace,-⟩ := ha.waiting h.waiting
    have hnonneg := owed_nonneg q.numPreemptions ps
    rintro _ ⟨⟩
    have hsteady : Steady cls { q with
        status := .running, numComputedTokens := start, sharedPrefixBoundary := boundary } ps :=
      ⟨hm.toEntered.congr rfl rfl rfl,hm.prompt,hm.split,hm.placeholders,hm.sync⟩
    have howed : q.numOutputPlaceholders ≤ owed q.numPreemptions ps := by omega
    have hdrafts : start+n ≤ q.numTokens+q.numOutputPlaceholders+
        ((if pad = true then cfg.numSpecTokens else 0:ℕ):ℤ) := by
      cases pad with
      | false =>
        have hle := h.unpadded rfl
        simp only [Bool.false_eq_true, if_false]
        omega
      | true =>
        have hle := h.padded rfl
        simp only [if_true]
        omega
    have hnext := hsteady.advance (e := ⟨r,start,n,if pad then cfg.numSpecTokens else 0,kind⟩) step
      placeholders rfl h.pos ha.fits ha.below howed fun _ => hdrafts
    exact hnext

variable {p : Pending} {tokens : List Token}

theorem Took.below {e : Scheduled} {isStale : Bool}
    (h : Took cls cfg.maxModelLen e tokens isStale q q' kept false) (hq : Steady cls q ps)
    (hfits : q.numPromptTokens+q.samplingParams.minTokens ≤ cfg.maxModelLen) :
    q'.numTokens < cfg.maxModelLen := by
  rcases h.unstopped rfl with hmin | hlt
  · have hsplit := hq.split
    have hlen := h.numTokens
    have hout := h.numOutputTokens
    omega
  · exact hlt

theorem Took.steady {isStale : Bool} (h : Steady cls q (p :: ps))
    (htook : Took cls cfg.maxModelLen p.entry tokens isStale q q' kept stopped)
    (hplace : 0 ≤ q'.numOutputPlaceholders)
    (hsync : cls = .scheduler → q'.numOutputPlaceholders = 0) : Steady cls q' ps := by
  have hd := h.toEntered.drain
  have hin : q'.numInFlightTokens = (drainInFlight p.entry.numScheduledTokens q).numInFlightTokens := by
    rw [htook.rest]
  have hst : q'.numStaleOutputTokens =
      (drainInFlight p.entry.numScheduledTokens q).numStaleOutputTokens := by rw [htook.rest]
  have hpre : q'.numPreemptions = (drainInFlight p.entry.numScheduledTokens q).numPreemptions := by
    rw [htook.rest]
  have hprompt : q'.numPromptTokens = q.numPromptTokens := by
    rw [htook.rest]
    rfl
  have hids : q'.promptTokenIds = q.promptTokenIds := by
    rw [htook.rest]
    rfl
  refine ⟨hd.congr hin hst hpre,?_,?_,hplace,hsync⟩
  · rw [hprompt, hids, h.prompt]
  · have hsplit := h.split
    rw [htook.numTokens, htook.numOutputTokens, hprompt]
    push_cast
    omega

section

variable (h : Moving cls cfg q (p :: ps))

include h

theorem Moving.only_drained (ha : Answers p tokens) (hd : OnlyDrained tokens q) :
    Moving cls cfg (drainInFlight p.entry.numScheduledTokens q) ps := by
  refine ⟨⟨h.toEntered.drain,h.prompt,h.split,h.placeholders,h.sync⟩,fun hf => ?_⟩
  have hlive := h.alive hf
  have hold : owed q.numPreemptions (p :: ps) = owed q.numPreemptions ps := by
    apply owed_cons_other
    rintro ⟨hepoch,hchunk⟩
    rcases hd with hfin | ⟨hst,-⟩ | hnil
    · exact absurd (hfin.symm.trans hf) (by simp)
    · have hlt := h.toEntered.stale_iff.mp hst
      omega
    · exact ha.decode hchunk hnil
  refine ⟨hlive.fits,hlive.below,fun hs => ?_,fun hw => ?_⟩
  · exact hold ▸ hlive.running hs
  · exact ⟨(hlive.waiting hw).1,fun x hx => (hlive.waiting hw).2 x (mem_cons_of_mem _ hx)⟩

theorem Moving.took_stale (hf : q.status.isFinished = false) (hst : 0 < q.numStaleOutputTokens)
    (htook : Took cls cfg.maxModelLen p.entry tokens true q q' kept stopped) :
    Moving cls cfg q' ps := by
  have hplace : q'.numOutputPlaceholders = q.numOutputPlaceholders := by
    rw [htook.rest, rollBackRejected_stale]
    simp [returned]
  have hsteady := htook.steady h.toSteady (hplace ▸ h.placeholders) fun hc => hplace.trans (h.sync hc)
  refine ⟨hsteady,fun hf' => ?_⟩
  have hlive := h.alive hf
  cases stopped with
  | true => exact absurd (htook.stops rfl) (by simp [hf'])
  | false =>
    have hcomp : q'.numComputedTokens = q.numComputedTokens := by
      rw [htook.rest, rollBackRejected_stale]
    have hpre : q'.numPreemptions = q.numPreemptions := by rw [htook.rest]; rfl
    have hparams : q'.samplingParams = q.samplingParams := by rw [htook.rest]; rfl
    have hprompt : q'.numPromptTokens = q.numPromptTokens := by rw [htook.rest]; rfl
    have hlt := h.toEntered.stale_iff.mp hst
    have hold : owed q.numPreemptions (p :: ps) = owed q.numPreemptions ps :=
      owed_cons_other ps fun hc => by omega
    have hlen := htook.numTokens
    have hstatus := (htook.continues rfl).1
    refine ⟨by rw [hprompt, hparams]; exact hlive.fits,htook.below h.toSteady hlive.fits,
      fun hs => ?_,fun hw => ?_⟩
    · have hrun := hlive.running (hstatus ▸ hs)
      rw [hold] at hrun
      rw [hcomp, hplace, hpre, hlen]
      omega
    · have hwait := hlive.waiting (hstatus ▸ hw)
      rw [hplace, hpre]
      exact ⟨hwait.1,fun x hx => hwait.2 x (mem_cons_of_mem _ hx)⟩

/-- A fresh answer with tokens takes back what its step was scheduled for and did not confirm. -/
theorem Moving.took_fresh (ha : Answers p tokens)
    (hf : q.status.isFinished = false) (hst : ¬0 < q.numStaleOutputTokens) (ht : tokens ≠ [])
    (htook : Took cls cfg.maxModelLen p.entry tokens false q q' kept stopped) :
    Moving cls cfg q' ps := by
  have hg := length_pos_of_ne_nil ht
  have hepoch : p.epoch = q.numPreemptions :=
    le_antisymm (h.epochs p mem_cons_self) (not_lt.mp (mt h.toEntered.stale_iff.mpr hst))
  have hchunk : p.chunk = false := by
    by_contra hne
    exact ht (ha.chunk (by simpa using hne))
  have howed := owed_cons ps hepoch hchunk
  have hnonneg := owed_nonneg q.numPreemptions ps
  obtain ⟨hroll,hrollp⟩ := rollBackRejected_counters (q := q) hg ha.length_le
  have hcomp : q'.numComputedTokens =
      (rollBackRejected p.entry tokens.length false q).numComputedTokens := by rw [htook.rest]
  have hplace : q'.numOutputPlaceholders =
      (rollBackRejected p.entry tokens.length false q).numOutputPlaceholders-
        cls.returned false kept := by rw [htook.rest]
  have hsync (hc : cls = .scheduler) : q'.numOutputPlaceholders = 0 := by
    have hzero := h.sync hc
    rw [if_neg (by omega)] at hrollp
    rw [hplace, hrollp, hzero, returned, if_neg (by simp [hc]), sub_zero]
  have hpos : 0 ≤ q'.numOutputPlaceholders := by
    cases hc : cls with
    | scheduler => exact (hsync hc).ge
    | asyncScheduler => exact htook.nonneg hc rfl
  refine ⟨htook.steady h.toSteady hpos hsync,fun hf' => ?_⟩
  have hlive := h.alive hf
  cases stopped with
  | true => exact absurd (htook.stops rfl) (by simp [hf'])
  | false =>
    have hpre : q'.numPreemptions = q.numPreemptions := by rw [htook.rest]; rfl
    have hparams : q'.samplingParams = q.samplingParams := by rw [htook.rest]; rfl
    have hprompt : q'.numPromptTokens = q.numPromptTokens := by rw [htook.rest]; rfl
    obtain ⟨hstatus,hkept⟩ := htook.continues rfl
    have hlen := htook.numTokens
    refine ⟨by rw [hprompt, hparams]; exact hlive.fits,htook.below h.toSteady hlive.fits,
      fun hs => ?_,fun hw => ?_⟩
    · obtain ⟨hrun,hcover⟩ := hlive.running (hstatus ▸ hs)
      rw [howed] at hrun hcover
      have htokens : 0 ≤ q.numTokens := Int.natCast_nonneg _
      have hplaceq := h.placeholders
      constructor
      · rw [hpre, hcomp, hroll, hlen]
        split <;> omega
      · -- the tokens kept are given back by the asynchronous scheduler only
        cases hc : cls with
        | scheduler =>
          rw [hsync hc, hpre]
          exact hnonneg
        | asyncScheduler =>
          have hreturn : cls.returned false kept = kept := by simp [returned, hc]
          rw [hreturn, hrollp] at hplace
          rw [hpre]
          split at hplace <;> omega
    · exact absurd ((hlive.waiting (hstatus ▸ hw)).2 p mem_cons_self) (by omega)

theorem Moving.output {grammarRejects : Bool} (ha : Answers p tokens)
    (hproc : cls.processOutput cfg.maxModelLen p.entry tokens grammarRejects q = some (q',stopped)) :
    Moving cls cfg q' ps := by
  rcases SchedulerClass.processOutput_spec hproc with ⟨hd,rfl,-⟩ | ⟨hd,kept,htook⟩
  · exact h.only_drained ha hd
  have hf : q.status.isFinished = false := by
    by_contra hne
    exact hd (.inl (by simpa using hne))
  by_cases hst : 0 < q.numStaleOutputTokens
  · rw [decide_eq_true hst] at htook
    exact h.took_stale hf hst htook
  · rw [decide_eq_false hst] at htook
    exact h.took_fresh ha hf hst (fun ht => hd (.inr (.inr ht))) htook

end

/-- A session between two inputs: nothing of its last turn is in flight any more, all its
placeholders are given back, and the next turn fits. -/
structure Request.Settled (cfg : Config) (q : Request) (ps : List Pending) : Prop where
  fits : q.numPromptTokens+q.samplingParams.minTokens ≤ cfg.maxModelLen
  below : q.numTokens < cfg.maxModelLen
  placeholders : q.numOutputPlaceholders = 0
  drained : ∀ p ∈ ps, p.epoch < q.numPreemptions

instance (cfg : Config) (q : Request) (ps : List Pending) : Decidable (q.Settled cfg ps) :=
  decidable_of_iff (q.numPromptTokens+q.samplingParams.minTokens ≤ cfg.maxModelLen ∧
      q.numTokens < cfg.maxModelLen ∧ q.numOutputPlaceholders = 0 ∧
      ∀ p ∈ ps, p.epoch < q.numPreemptions)
    ⟨fun h => ⟨h.1,h.2.1,h.2.2.1,h.2.2.2⟩,fun h => ⟨h.fits,h.below,h.placeholders,h.drained⟩⟩

theorem Request.Settled.alive (h : q.Settled cfg ps) (hw : q.status.isWaiting = true) :
    Alive cfg q ps :=
  ⟨h.fits,h.below,fun hs => absurd hw (not_waiting_of_running hs).2,
    fun _ => ⟨h.placeholders,h.drained⟩⟩

theorem Steady.session (h : Steady cls q ps) (u : StreamingUpdate) :
    Steady cls (updateRequestAsSession q u) ps := by
  refine ⟨h.toEntered.congr rfl rfl rfl,rfl,?_,h.placeholders,h.sync⟩
  have hprompt := h.prompt
  simp only [updateRequestAsSession, Request.numTokens, Request.numOutputTokens,
    length_append, length_drop, length_take, length_nil]
  omega

theorem Stopped.steady (h : Stopped q o) (hq : Steady cls q ps) (hf : q.status.isFinished = true) :
    ∀ q' ∈ o, Steady cls q' ps ∧
      (q'.status.isFinished = true ∨ q'.resumable = true ∧ q'.status.isWaiting = true) := by
  cases h with
  | freed => simp
  | kept rest =>
    rintro _ ⟨⟩
    exact ⟨⟨hq.toEntered.congr rfl rfl rfl,hq.prompt,hq.split,hq.placeholders,hq.sync⟩,.inl hf⟩
  | session hr rest u =>
    rintro _ ⟨⟩
    have hrest : Steady cls { q with streamingQueue := rest } ps :=
      ⟨hq.toEntered.congr rfl rfl rfl,hq.prompt,hq.split,hq.placeholders,hq.sync⟩
    exact ⟨hrest.session u,.inr ⟨hr,rfl⟩⟩
  | streaming hr =>
    rintro _ ⟨⟩
    exact ⟨⟨hq.toEntered.congr rfl rfl rfl,hq.prompt,hq.split,hq.placeholders,hq.sync⟩,.inr ⟨hr,rfl⟩⟩

theorem FinishEffect.moving {status : RequestStatus} (hs : status.isFinished = true)
    (h : FinishEffect status o o') (hsteady : ∀ q ∈ o, Steady cls q ps)
    (hq : o' = o → ∀ q ∈ o, Moving cls cfg q ps) : ∀ q ∈ o', Moving cls cfg q ps := by
  cases h with
  | same => exact hq rfl
  | dropped => simp
  | kept q =>
    rintro _ ⟨⟩
    exact (hsteady q rfl).finish hs

theorem UpdateEffectBy.moving {out : ModelRunnerOutput} {snapshot : Option Request}
    {es : List Scheduled} (h : UpdateEffectBy (cls.answer cfg out) o o' es)
    (hes : ∀ e ∈ es, e.reqId = r)
    (ha : ∀ p ∈ newPending snapshot es, Answers p (out.sampledTokenIds r))
    (hsettled : es ≠ [] → ∀ q ∈ o', q.resumable = true → q.status.isWaiting = true →
      q.Settled cfg ps) (hq : ∀ q ∈ o, Moving cls cfg q (newPending snapshot es ++ ps)) :
    ∀ q ∈ o', Moving cls cfg q ps := by
  obtain ⟨o1,o2,hout,hfin,hlast⟩ := h
  rcases hlast with rfl | rfl
  swap
  · simp
  cases hout with
  | same => exact hfin.moving rfl (fun q hmem => (hq q hmem).toSteady) fun _ => hq
  | missing => exact hfin.moving rfl (by simp) (by simp)
  | @continues e q q' hn h =>
    obtain rfl := hes e (mem_singleton_self e)
    have hm : ∀ x ∈ some q', Moving cls cfg x ps := by
      rintro _ ⟨⟩
      exact (hq q rfl).output (ha _ (mem_singleton_self _)) h
    exact hfin.moving rfl (fun x hmem => (hm x hmem).toSteady) fun _ => hm
  | @stopped e q q' o1 hn h hs =>
    obtain rfl := hes e (mem_singleton_self e)
    have hm : Moving cls cfg q' ps := (hq q rfl).output (ha _ (mem_singleton_self _)) h
    have hf : q'.status.isFinished = true := by
      rcases SchedulerClass.processOutput_spec h with ⟨-,-,hno⟩ | ⟨-,kept,htook⟩
      · cases hno
      · exact htook.stops rfl
    have hstop := hs.steady hm.toSteady hf
    refine hfin.moving rfl (fun x hmem => (hstop x hmem).1) fun heq x hmem => ?_
    obtain ⟨hsteady,hcase⟩ := hstop x hmem
    refine ⟨hsteady,fun hlive => ?_⟩
    rcases hcase with hfx | ⟨hr,hw⟩
    · exact absurd (hfx.symm.trans hlive) (by simp)
    · exact (hsettled (by simp) x (heq ▸ hmem) hr hw).alive hw

theorem AddEffect.moving {n : NewRequest} (h : AddEffect n.toRequest o o')
    (hunused : o = none → ps = [])
    (hshort : ∀ q ∈ o', q.status.isFinished = false → q.numPromptTokens < cfg.maxModelLen)
    (hfits : ∀ q ∈ o', q.status.isFinished = false →
      q.numPromptTokens+q.samplingParams.minTokens ≤ cfg.maxModelLen)
    (hq : ∀ q ∈ o, Moving cls cfg q ps) : ∀ q ∈ o', Moving cls cfg q ps := by
  cases h with
  | added =>
    rintro _ ⟨⟩
    have hlive := (Tracked.not_running_of_waiting n.isWaiting).2
    rw [hunused rfl]
    exact .added (hshort _ rfl hlive) (hfits _ rfl hlive)
  | queued hr queue =>
    rintro _ ⟨⟩
    exact (hq _ rfl).congr _ queue
  | @session q hs hr u =>
    rintro _ ⟨⟩
    have hm := hq q rfl
    have hw : q.status.isWaiting = true := by rw [hs]; rfl
    have hwait := (hm.alive (Tracked.not_running_of_waiting hw).2).waiting hw
    have hsteady := hm.toSteady.session u
    refine ⟨hsteady,fun hlive => ⟨hfits _ rfl hlive,?_,(fun hrun => nomatch hrun),fun _ => hwait⟩⟩
    have hsplit := hsteady.split
    have hlt := hshort _ rfl hlive
    have hout : (updateRequestAsSession q u).numOutputTokens = 0 := rfl
    omega
  | aborted hs h =>
    exact h.moving rfl (fun q hmem => (hq q hmem).toSteady) fun _ => hq

end Moving

/-- What the front end and the workers promise: a new id is not used by anything in flight, the
sampling parameters are valid, prompts are shorter than the model length, and every entry of a
step is answered. -/
def EngineCall.Valid (cfg : Config) (s : System) (c : EngineCall) (s' : System) : Prop :=
  match c with
  | .event (.addRequest n) =>
    ((s.sched.requests n.requestId).isNone = true → (s.pending n.requestId).isEmpty = true) ∧
      n.samplingParams.minTokens ≤ n.maxTokens ∧
      ∀ q ∈ s'.sched.requests n.requestId, q.status.isFinished = false →
        q.numPromptTokens < cfg.maxModelLen
  | .event (.updateFromOutput out) => ∀ f ∈ s.inFlight.head?, ∀ e ∈ f.output.scheduled,
      ∀ p ∈ f.pending e.reqId, Answers p (out.sampledTokenIds e.reqId)
  | _ => True

/-- The minimum of tokens fits into the model length, no count asked for while a step is in flight
is negative, and sessions are settled before their next turn. -/
def EngineCall.Guarded (cfg : Config) (s : System) (c : EngineCall) (s' : System) : Prop :=
  match c with
  | .event (.addRequest n) => ∀ q ∈ s'.sched.requests n.requestId, q.status.isFinished = false →
      q.numPromptTokens+q.samplingParams.minTokens ≤ cfg.maxModelLen
  | .event (.schedule _) => ∀ f ∈ s.inFlight, ∀ e ∈ f.output.scheduled,
      ∀ q ∈ s.sched.requests e.reqId, q.status = .running →
        0 ≤ q.want ∧ q.numComputedTokens < cfg.maxModelLen
  | .event (.updateFromOutput _) => ∀ f ∈ s.inFlight.head?, ∀ e ∈ f.output.scheduled,
      ∀ q ∈ s'.sched.requests e.reqId, q.resumable = true → q.status.isWaiting = true →
        q.Settled cfg (s'.pending e.reqId)
  | _ => True

instance (cfg : Config) (s : System) (c : EngineCall) (s' : System) : Decidable (c.Valid cfg s s') :=
  match c with
  | .event (.addRequest _) => inferInstanceAs (Decidable (_ ∧ _ ∧ _))
  | .event (.updateFromOutput _) => inferInstanceAs (Decidable (∀ f ∈ s.inFlight.head?, _))
  | .event (.schedule _) | .event (.finishRequests ..) | .event .resetPrefixCache
  | .updateDraftTokenIds _ => inferInstanceAs (Decidable True)

instance (cfg : Config) (s : System) (c : EngineCall) (s' : System) : Decidable (c.Guarded cfg s s') :=
  match c with
  | .event (.addRequest n) => inferInstanceAs (Decidable (∀ q ∈ s'.sched.requests n.requestId, _))
  | .event (.schedule _) => inferInstanceAs (Decidable (∀ f ∈ s.inFlight, _))
  | .event (.updateFromOutput _) => inferInstanceAs (Decidable (∀ f ∈ s.inFlight.head?, _))
  | .event (.finishRequests ..) | .event .resetPrefixCache
  | .updateDraftTokenIds _ => inferInstanceAs (Decidable True)

structure System.Moving (cls : SchedulerClass) (cfg : Config) (s : System) : Prop where
  queued : s.Queued
  requests : ∀ r, ∀ q ∈ s.sched.requests r, Sched.Moving cls cfg q (s.pending r)

theorem System.exists_entry (h : s.pending r ≠ []) :
    ∃ f ∈ s.inFlight, ∃ e ∈ f.output.scheduled, e.reqId = r := by
  obtain ⟨p,hp⟩ := exists_mem_of_ne_nil _ h
  obtain ⟨f,hf,hpf⟩ := mem_flatMap.mp hp
  obtain ⟨e,he,-⟩ := mem_map.mp hpf
  exact ⟨f,hf,e,mem_of_mem_entriesOf he,reqId_of_mem_entriesOf e he⟩

theorem System.Moving.callOf (hs : s.Moving cls cfg) (h : s.CallOf cls cfg s' c)
    (hvalid : c.Valid cfg s s') (hguard : c.Guarded cfg s s') : s'.Moving cls cfg := by
  have hq := hs.queued.wellQueued
  refine ⟨hs.queued.callOf h,fun r => ?_⟩
  have hm := hs.requests r
  cases h with
  | @schedule env out h hf =>
    obtain ⟨-,mid,preempted,step,hby⟩ := scheduleBy_spec (cls.advance_status cfg) hq h
    rw [pending_schedule hf]
    refine (hby.loops r).moving step _ hm (fun q hmem hrun hps => ?_) (hby.advanced r)
    obtain ⟨f,hfm,e,he,rfl⟩ := exists_entry hps
    exact hguard f hfm e he q hmem hrun
  | @updateFromOutput f out h hf =>
    have hn := hs.queued.distinct f (hf ▸ mem_cons_self)
    have heffect := (updateFromOutputBy_spec answer_status hq hn h).2 r
    have hhead : f ∈ s.inFlight.head? := by rw [hf]; rfl
    rw [pending_cons hf] at hm
    refine heffect.moving (r := r) reqId_of_mem_entriesOf (fun p hp => ?_) (fun hne q hmem => ?_) hm
    · obtain ⟨e,he,-⟩ := mem_map.mp hp
      obtain rfl := reqId_of_mem_entriesOf e he
      exact hvalid f hhead e (mem_of_mem_entriesOf he) p hp
    · obtain ⟨e,he⟩ := exists_mem_of_ne_nil _ hne
      obtain rfl := reqId_of_mem_entriesOf e he
      exact hguard f hhead e (mem_of_mem_entriesOf he) q hmem
  | @addRequest n h hf =>
    obtain ⟨-,hadd,hrest⟩ := addNewRequest_spec hq n.isWaiting h
    rw [pending_of_inFlight hf]
    by_cases hr : r = n.toRequest.requestId
    · subst hr
      refine hadd.moving (fun hnone => ?_) hvalid.2.2 hguard hm
      exact isEmpty_iff.mp (hvalid.1 (isNone_iff_eq_none.mpr hnone))
    · rw [hrest r hr]
      exact hm
  | finishRequests hfin h hf =>
    rw [pending_of_inFlight hf, h]
    exact (finishRequests_requests _ _ _ _ rfl).moving hfin (fun q hmem => (hm q hmem).toSteady)
      fun _ => hm
  | resetPrefixCache h hf =>
    rw [pending_of_inFlight hf, h, (resetRunningRequests_spec cfg hq).2 r]
    split
    · rename_i hrun
      intro q hmem
      obtain ⟨q0,hq0,rfl⟩ := map_eq_some_iff.mp hmem
      obtain ⟨q1,hq1,hstatus⟩ := hq.ofRunning r hrun
      cases hq0.symm.trans hq1
      exact (hm q0 hq0).preempt hstatus true
    · exact hm
  | @updateDraftTokenIds drafts h hf =>
    rw [pending_of_inFlight hf, h]
    intro q hmem
    obtain ⟨q0,hq0,rfl⟩ := map_eq_some_iff.mp hmem
    have hq0' := hm q0 hq0
    cases drafts r with
    | none => exact hq0'
    | some k =>
      show Sched.Moving cls cfg (updateDrafts k q0) _
      rw [updateDrafts]
      split
      · exact hq0'
      · split
        · exact hq0'.congr 0 _
        · exact hq0'.congr k _

def newTokens (cfg : Config) (threshold : ℤ) (q : Request) : ℤ :=
  min (cutByThreshold threshold q.want) (cfg.maxModelLen-q.numComputedTokens-1)

structure Progress (cfg : Config) (s : System) : Prop where
  below : ∀ r q, s.sched.requests r = some q → q.status.isFinished = false →
    q.numTokens < cfg.maxModelLen
  idle : ∀ r q, s.sched.requests r = some q → q.status = .running → s.pending r = [] →
    q.numOutputPlaceholders = 0 ∧ ∀ threshold, 1 ≤ newTokens cfg threshold q

theorem System.Moving.progress (h : s.Moving cls cfg) : Progress cfg s where
  below r q hq hlive := ((h.requests r q hq).alive hlive).below
  idle r q hq hrun hnone := by
    have hm := h.requests r q hq
    rw [hnone] at hm
    obtain ⟨hplace,hcomputed,hbelow⟩ := hm.idle hrun
    refine ⟨hplace,fun threshold => ?_⟩
    have hwant : 1 ≤ q.want := by
      rw [Request.want, Request.numTokensWithSpec]
      omega
    have hcut : 1 ≤ cutByThreshold threshold q.want := by
      rw [cutByThreshold]
      split <;> omega
    rw [newTokens]
    omega

def fiveAtLeast : NewRequest where
  requestId := 0
  promptTokenIds := [1,2,3]
  maxTokens := 5
  samplingParams := { minTokens := 5 }

def firstToken : List EngineCall :=
  [.event (.addRequest fiveAtLeast),
    .event (.schedule {}),
    .event (.updateFromOutput { sampledTokenIds := fun _ => [7] })]

def smallModel (maxModelLen : ℕ) : Config := fourRequests maxModelLen 2

def StuckAtLength (cls : SchedulerClass) : Prop :=
  ∃ s, Reachable (stepOf cls (smallModel 4)) (fun s c s' => c.Valid (smallModel 4) s s') {} s ∧
    s.inFlight = [] ∧ ∃ q, s.sched.requests 0 = some q ∧ q.status = .running ∧
      q.numTokens = 4 ∧ ∀ threshold, newTokens (smallModel 4) threshold q = 0

theorem stuckAtLength (cls : SchedulerClass) : StuckAtLength cls := by
  have hcheck : ∀ (s : System) (c : EngineCall) (s' : System),
      decide (c.Valid (smallModel 4) s s') = true → c.Valid (smallModel 4) s s' :=
    fun _ _ _ => of_decide_eq_true
  obtain ⟨s,hs,hp⟩ := Reachable.exists_of_runGuarded (stepOf cls (smallModel 4)) hcheck
    {} firstToken (fun s => s.inFlight.isEmpty && (s.sched.requests 0).any fun q =>
      q.status = .running ∧ q.numTokens = 4 ∧ q.numComputedTokens = 3 ∧ 1 ≤ q.want)
    (by cases cls <;> decide +kernel)
  obtain ⟨hempty,hany⟩ := Bool.and_eq_true_iff.mp hp
  obtain ⟨q,hq,hbad⟩ := (Option.any_eq_true ..).mp hany
  obtain ⟨hrun,hlen,hcomputed,hwant⟩ := of_decide_eq_true hbad
  refine ⟨s,hs,isEmpty_iff.mp hempty,q,hq,hrun,hlen,fun threshold => ?_⟩
  have hcut : 1 ≤ cutByThreshold threshold q.want := by
    rw [cutByThreshold]
    split <;> omega
  have hroom : ((smallModel 4).maxModelLen:ℤ)-q.numComputedTokens-1 = 0 := by
    rw [hcomputed]
    rfl
  rw [newTokens, hroom]
  omega

end MetaZenith.Sched
