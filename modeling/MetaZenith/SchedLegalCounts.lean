import MetaZenith.SchedOutputs

/-! Scheduled counts are positive and stay within the model length, as long as every admission
leaves room for one more token. -/

namespace MetaZenith.Sched

open List Option

variable {cfg : Config} {s s' : System} {e : Scheduled} {r : ReqId} {o o' : Option Request}
  {out : ModelRunnerOutput}

structure System.Queued (s : System) : Prop where
  wellQueued : s.sched.WellQueued
  distinct : ∀ f ∈ s.inFlight, (f.output.scheduled.map (·.reqId)).Nodup

theorem NewRequest.isWaiting (n : NewRequest) : n.toRequest.status.isWaiting = true := by
  rw [NewRequest.toRequest]
  simp only
  split <;> rfl

theorem NewRequest.aged (n : NewRequest) : n.toRequest.Aged := by
  refine ⟨fun _ => rfl,fun hs => ?_⟩
  rw [NewRequest.toRequest] at hs
  simp only at hs
  split at hs <;> cases hs

inductive System.Call (cfg : Config) (s s' : System) : Event → Prop
  | addRequest {n : NewRequest} (h : addNewRequest cfg n.toRequest s.sched = some s'.sched)
      (hf : s'.inFlight = s.inFlight) : Call cfg s s' (.addRequest n)
  | schedule {env : Environment} {out : SchedulerOutput}
      (h : schedule cfg env s.sched = some (s'.sched,out))
      (hf : s'.inFlight = if out.scheduled.isEmpty then s.inFlight
        else s.inFlight ++ [⟨out,s'.sched.requests⟩]) : Call cfg s s' (.schedule env)
  | updateFromOutput {f : InFlight} {out : ModelRunnerOutput}
      (h : updateFromOutput cfg f.output out s.sched = some s'.sched)
      (hf : s.inFlight = f :: s'.inFlight) (hfits : out.fits f.output = true) :
      Call cfg s s' (.updateFromOutput out)
  | finishRequests {ids : List ReqId} {status : RequestStatus} {keepsBlocks : ReqId → Bool}
      (hs : status.isFinished = true)
      (h : s'.sched = Sched.finishRequests cfg ids.dedup status keepsBlocks s.sched)
      (hf : s'.inFlight = s.inFlight) : Call cfg s s' (.finishRequests ids status keepsBlocks)
  | resetPrefixCache (h : s'.sched = resetRunningRequests cfg s.sched)
      (hf : s'.inFlight = s.inFlight) : Call cfg s s' .resetPrefixCache

theorem System.step_cases {e : Event} (h : s.step cfg e = some s') : s.Call cfg s' e := by
  cases e with
  | addRequest n =>
    obtain ⟨sched,hadd,rfl⟩ := map_eq_some_iff.mp h
    exact .addRequest hadd rfl
  | schedule env =>
    obtain ⟨⟨sched,out⟩,hsched,rfl⟩ := map_eq_some_iff.mp h
    exact .schedule hsched rfl
  | updateFromOutput out =>
    rw [System.step] at h
    split at h
    · cases h
    · rename_i f rest hf
      split at h
      · rename_i hfits
        obtain ⟨sched,hupd,rfl⟩ := map_eq_some_iff.mp h
        exact .updateFromOutput hupd hf hfits
      · cases h
  | finishRequests ids status keepsBlocks =>
    rw [System.step] at h
    split at h
    · rename_i hs
      cases h
      exact .finishRequests hs rfl rfl
    · cases h
  | resetPrefixCache =>
    cases h
    exact .resetPrefixCache rfl rfl

theorem System.Queued.call {e : Event} (hq : s.Queued) (h : s.Call cfg s' e) : s'.Queued := by
  cases h with
  | @addRequest n h hf =>
    exact ⟨(addNewRequest_spec hq.wellQueued n.isWaiting h).1,hf ▸ hq.distinct⟩
  | @schedule env out h hf =>
    refine ⟨(schedule_spec hq.wellQueued h).1,fun f hmem => ?_⟩
    rw [hf] at hmem
    split at hmem
    · exact hq.distinct f hmem
    · rcases mem_append.mp hmem with hmem | hmem
      · exact hq.distinct f hmem
      · rw [mem_singleton.mp hmem]
        exact schedule_entries_nodup hq.wellQueued h
  | @updateFromOutput f out h hf hfits =>
    have hn := hq.distinct f (hf ▸ mem_cons_self)
    exact ⟨(updateFromOutput_spec hq.wellQueued hn h).1,
      fun g hg => hq.distinct g (hf ▸ mem_cons_of_mem _ hg)⟩
  | finishRequests hs h hf =>
    refine ⟨?_,hf ▸ hq.distinct⟩
    rw [h]
    exact finishRequests_wellQueued hq.wellQueued
  | resetPrefixCache h hf =>
    refine ⟨?_,hf ▸ hq.distinct⟩
    rw [h]
    exact (resetRunningRequests_spec cfg hq.wellQueued).1

theorem System.queued_init : ({} : System).Queued :=
  ⟨⟨by simp,by simp,by simp⟩,by simp⟩

/-- A running request has not been scheduled past its tokens, and not up to the model length. -/
structure CountsLegal (cfg : Config) (q : Request) : Prop where
  drafts : q.numSpecTokenIds ≤ cfg.numSpecTokens
  placeholders : 0 ≤ q.numOutputPlaceholders
  within : q.status = .running → q.numComputedTokens ≤ q.numTokens+q.numOutputPlaceholders
  below : q.status = .running → q.numComputedTokens < cfg.maxModelLen

structure LegalEntry (cfg : Config) (e : Scheduled) : Prop where
  pos : 1 ≤ e.numScheduledTokens
  within : e.numComputedTokens+e.numScheduledTokens ≤ cfg.maxModelLen
  drafts : e.numDraftTokens ≤ cfg.numSpecTokens

section Counters

variable {cfg : Config} {q q' : Request}

theorem CountsLegal.of_not_running (hd : q.numSpecTokenIds ≤ cfg.numSpecTokens)
    (h : 0 ≤ q.numOutputPlaceholders) (hs : q.status ≠ .running) :
    CountsLegal cfg q := ⟨hd,h,fun h => absurd h hs,fun h => absurd h hs⟩

theorem advance_numTokens (step placeholders : ℕ) (e : Scheduled) (q : Request) :
    (advance cfg step placeholders e q).numTokens = q.numTokens := by
  rw [advance]
  simp only
  split <;> rfl

theorem advance_numComputedTokens (step placeholders : ℕ) (e : Scheduled) (q : Request) :
    (advance cfg step placeholders e q).numComputedTokens =
      q.numComputedTokens+e.numScheduledTokens := by
  rw [advance]
  simp only
  split <;> rfl

theorem advance_numOutputPlaceholders (step placeholders : ℕ) (e : Scheduled) (q : Request) :
    (advance cfg step placeholders e q).numOutputPlaceholders =
      if q.numComputedTokens+e.numScheduledTokens < q.numTokens+q.numOutputPlaceholders then
        q.numOutputPlaceholders else q.numOutputPlaceholders+1+e.numDraftTokens := by
  rw [advance]
  simp only
  split
  · rename_i h
    exact (if_pos (of_decide_eq_true h)).symm
  · rename_i h
    exact (if_neg (by simpa using h)).symm

theorem advance_numSpecTokenIds_le (step : ℕ) {placeholders : ℕ} (e : Scheduled)
    (hp : placeholders ≤ cfg.numSpecTokens) (hq : q.numSpecTokenIds ≤ cfg.numSpecTokens) :
    (advance cfg step placeholders e q).numSpecTokenIds ≤ cfg.numSpecTokens := by
  rw [advance]
  simp only
  split
  · exact hq
  · exact hp

theorem CountsLegal.advance (step : ℕ) {placeholders : ℕ} (hk : placeholders ≤ cfg.numSpecTokens)
    (hd : q.numSpecTokenIds ≤ cfg.numSpecTokens) (hp : 0 ≤ q.numOutputPlaceholders)
    (hw : q.numComputedTokens+e.numScheduledTokens ≤
      q.numTokens+q.numOutputPlaceholders+1+e.numDraftTokens)
    (hb : q.numComputedTokens+e.numScheduledTokens < cfg.maxModelLen) :
    CountsLegal cfg (advance cfg step placeholders e q) := by
  refine ⟨advance_numSpecTokenIds_le step e hk hd,?_,fun _ => ?_,fun _ => ?_⟩
  · rw [advance_numOutputPlaceholders]
    split <;> omega
  · rw [advance_numComputedTokens, advance_numTokens, advance_numOutputPlaceholders]
    split <;> omega
  · rwa [advance_numComputedTokens]

theorem runningDrafts_ge {n : ℤ} (hn : n ≤ q.want) :
    q.numComputedTokens+n ≤ q.numTokens+q.numOutputPlaceholders+runningDrafts q n := by
  rw [Request.want, Request.numTokensWithSpec] at hn
  rw [runningDrafts]
  omega

theorem CountsLegal.want_nonneg (h : CountsLegal cfg q) (hs : q.status = .running) : 0 ≤ q.want := by
  have hw := h.within hs
  rw [Request.want, Request.numTokensWithSpec]
  omega

theorem ScheduleEffect.legal {data : Option RequestData} {es : List Scheduled}
    (h : ScheduleEffect cfg r data o o' es) (hq : ∀ q ∈ o, CountsLegal cfg q)
    (hroom : ∀ e ∈ es, e.kind ≠ .running → e.numComputedTokens+e.numScheduledTokens < cfg.maxModelLen) :
    (∀ q ∈ o', CountsLegal cfg q) ∧ ∀ e ∈ es, LegalEntry cfg e := by
  cases h with
  | unscheduled h =>
    refine ⟨?_,by simp⟩
    cases h with
    | same => exact hq
    | preempt hs hr =>
      rintro _ ⟨⟩
      exact .of_not_running (Nat.zero_le _) le_rfl (by simp [preemptRequest])
    | @waits q q' h =>
      rintro _ ⟨⟩
      have hp : q'.numOutputPlaceholders = q.numOutputPlaceholders := by rw [h.rest]
      have hd : q'.numSpecTokenIds = q.numSpecTokenIds := by rw [h.rest]
      refine .of_not_running (hd ▸ (hq q rfl).drafts) (hp ▸ (hq q rfl).placeholders) ?_
      intro hs
      have hwait := h.after
      simp [hs, RequestStatus.isWaiting] at hwait
  | scheduled h step hplace hd =>
    simp only [mem_def, Option.some.injEq, forall_eq', mem_singleton, forall_eq]
      at hroom ⊢
    cases h with
    | @running q n hs hn =>
      have hlegal := hq q rfl
      obtain ⟨hpos,hwant,hlt⟩ := hn (hlegal.want_nonneg hs) (hlegal.below hs)
      have hover := runningDrafts_ge hwant
      refine ⟨.advance step hplace (Nat.zero_le _) hlegal.placeholders ?_ hlt,hpos,hlt.le,
        (min_le_left _ _).trans hlegal.drafts⟩
      show q.numComputedTokens+n ≤ q.numTokens+q.numOutputPlaceholders+1+runningDrafts q n
      omega
    | @admission q start n boundary pad kind hk hnew h =>
      have hlegal := hq q rfl
      have hlt := hroom hk
      refine ⟨.advance step hplace hlegal.drafts hlegal.placeholders ?_ hlt,h.pos,hlt.le,
        by split <;> simp⟩
      show start+n ≤ q.numTokens+q.numOutputPlaceholders+1+(if pad then cfg.numSpecTokens else 0 : ℕ)
      have hp := hlegal.placeholders
      cases pad with
      | false =>
        have hle := h.unpadded rfl
        simp only [Bool.false_eq_true, if_false]
        omega
      | true =>
        obtain ⟨hstart,hn,-⟩ := h.padded rfl
        simp only [if_true]
        omega

theorem FinishEffect.legal {status : RequestStatus} (hs : status.isFinished = true)
    (h : FinishEffect status o o') (hq : ∀ q ∈ o, CountsLegal cfg q) :
    ∀ q ∈ o', CountsLegal cfg q := by
  cases h with
  | same => exact hq
  | dropped => simp
  | kept q =>
    rintro _ ⟨⟩
    refine .of_not_running (hq q rfl).drafts (hq q rfl).placeholders ?_
    rintro rfl
    simp [RequestStatus.isFinished] at hs

theorem AddEffect.legal {n : NewRequest} (h : AddEffect n.toRequest o o')
    (hq : ∀ q ∈ o, CountsLegal cfg q) : ∀ q ∈ o', CountsLegal cfg q := by
  cases h with
  | added =>
    rintro _ ⟨⟩
    refine .of_not_running (Nat.zero_le _) le_rfl ?_
    intro hs
    have hwait := n.isWaiting
    simp [hs, RequestStatus.isWaiting] at hwait
  | @queued q hr queue =>
    rintro _ ⟨⟩
    exact ⟨(hq q rfl).drafts,(hq q rfl).placeholders,(hq q rfl).within,(hq q rfl).below⟩
  | @session q hs hr u =>
    rintro _ ⟨⟩
    exact .of_not_running (hq q rfl).drafts (hq q rfl).placeholders
      (by simp [updateRequestAsSession])
  | aborted hs h => exact h.legal rfl hq

theorem rollBackRejected_numComputedTokens_le {generated : ℕ} (isStale : Bool)
    (hg : generated ≤ 1+e.numDraftTokens) (q : Request) :
    (rollBackRejected e generated isStale q).numComputedTokens ≤ q.numComputedTokens := by
  rw [rollBackRejected]
  split
  · simp only
    split <;> omega
  · exact le_rfl

/-- Placeholders and computed tokens are taken back together, unless one of them has been reset. -/
theorem rollBackRejected_within {generated : ℕ} {isStale : Bool} (hg : generated ≤ 1+e.numDraftTokens)
    (h : q.numComputedTokens ≤ q.numTokens+q.numOutputPlaceholders)
    (hp : 0 ≤ (rollBackRejected e generated isStale q).numOutputPlaceholders) :
    (rollBackRejected e generated isStale q).numComputedTokens ≤
      q.numTokens+(rollBackRejected e generated isStale q).numOutputPlaceholders := by
  have hlen : 0 ≤ q.numTokens := Int.natCast_nonneg _
  rw [rollBackRejected] at hp ⊢
  split
  · rename_i hcond
    rw [if_pos hcond] at hp
    simp only at hp ⊢
    split at hp <;> split <;> simp_all <;> omega
  · exact h

theorem Absorbed.legal {tokens : List Token} {isStale stopped : Bool} {kept : ℕ}
    (h : Absorbed e tokens isStale q q' kept stopped) (hg : tokens.length ≤ 1+e.numDraftTokens)
    (hq : CountsLegal cfg q) : CountsLegal cfg q' := by
  have hcomp : q'.numComputedTokens =
      (rollBackRejected e tokens.length isStale q).numComputedTokens := by rw [h.rest]
  have hph : q'.numOutputPlaceholders =
      (rollBackRejected e tokens.length isStale q).numOutputPlaceholders-
        (if isStale then 0 else (kept:ℤ)) := by rw [h.rest]
  have hnonneg : 0 ≤ q'.numOutputPlaceholders := by
    cases isStale with
    | false => exact h.nonneg rfl
    | true =>
      rw [hph, rollBackRejected_stale]
      simpa using hq.placeholders
  have hrun : q'.status = .running → q.status = .running := by
    intro hs
    cases stopped with
    | false => exact (h.continues rfl).1.symm.trans hs
    | true =>
      have hf := h.stops rfl
      simp [hs, RequestStatus.isFinished] at hf
  have hdrafts : q'.numSpecTokenIds = q.numSpecTokenIds := by
    rw [h.rest]
    rfl
  refine ⟨hdrafts ▸ hq.drafts,hnonneg,fun hs => ?_,fun hs => ?_⟩
  · have hroll : 0 ≤ (rollBackRejected e tokens.length isStale q).numOutputPlaceholders := by
      split at hph <;> omega
    have hwithin := rollBackRejected_within hg (hq.within (hrun hs)) hroll
    rw [hcomp, hph, h.numTokens]
    split <;> omega
  · rw [hcomp]
    exact (rollBackRejected_numComputedTokens_le isStale hg q).trans_lt (hq.below (hrun hs))

theorem processOutput_legal {tokens : List Token} {grammarRejects stopped : Bool}
    (h : processOutput cfg.maxModelLen e tokens grammarRejects q = some (q',stopped))
    (hg : tokens.length ≤ 1+e.numDraftTokens) (hq : CountsLegal cfg q) : CountsLegal cfg q' := by
  rcases processOutput_spec h with ⟨-,rfl,-⟩ | ⟨-,kept,habs⟩
  · exact ⟨hq.drafts,hq.placeholders,hq.within,hq.below⟩
  · exact habs.legal hg hq

theorem Stopped.legal (h : Stopped q o) (hq : CountsLegal cfg q) : ∀ q' ∈ o, CountsLegal cfg q' := by
  cases h with
  | freed => simp
  | kept rest =>
    rintro _ ⟨⟩
    exact ⟨hq.drafts,hq.placeholders,hq.within,hq.below⟩
  | session hr rest u =>
    rintro _ ⟨⟩
    exact .of_not_running hq.drafts hq.placeholders (by simp [updateRequestAsSession])
  | streaming hr =>
    rintro _ ⟨⟩
    exact .of_not_running hq.drafts hq.placeholders (by simp)

theorem UpdateEffect.legal {es : List Scheduled} (h : UpdateEffect cfg out r o o' es)
    (hfits : ∀ e ∈ es, (out.sampledTokenIds r).length ≤ 1+e.numDraftTokens)
    (hq : ∀ q ∈ o, CountsLegal cfg q) : ∀ q ∈ o', CountsLegal cfg q := by
  obtain ⟨o1,o2,hout,hfin,hlast⟩ := h
  have h1 : ∀ q ∈ o1, CountsLegal cfg q := by
    cases hout with
    | same => exact hq
    | missing => exact hq
    | continues hn h =>
      rintro _ ⟨⟩
      exact processOutput_legal h (hfits _ (mem_singleton_self _)) (hq _ rfl)
    | stopped hn h hs =>
      exact hs.legal (processOutput_legal h (hfits _ (mem_singleton_self _)) (hq _ rfl))
  rcases hlast with rfl | rfl
  · exact hfin.legal rfl h1
  · simp

end Counters

def System.LeavesRoom (cfg : Config) (s : System) : Prop :=
  ∀ f ∈ s.inFlight, ∀ e ∈ f.output.scheduled, e.kind ≠ .running →
    e.numComputedTokens+e.numScheduledTokens < cfg.maxModelLen

instance (cfg : Config) (s : System) : Decidable (s.LeavesRoom cfg) :=
  inferInstanceAs (Decidable (∀ f ∈ s.inFlight, _))

structure System.Legal (cfg : Config) (s : System) : Prop where
  queued : s.Queued
  requests : ∀ r, ∀ q ∈ s.sched.requests r, CountsLegal cfg q
  entries : ∀ f ∈ s.inFlight, ∀ e ∈ f.output.scheduled, LegalEntry cfg e

theorem mem_inFlight_of_schedule {out : SchedulerOutput}
    (hf : s'.inFlight = if out.scheduled.isEmpty then s.inFlight
      else s.inFlight ++ [⟨out,s'.sched.requests⟩]) (he : e ∈ out.scheduled) :
    (⟨out,s'.sched.requests⟩ : InFlight) ∈ s'.inFlight := by
  have hne : out.scheduled.isEmpty = false := by
    rw [isEmpty_eq_false_iff]
    exact ne_nil_of_mem he
  rw [hf, hne]
  simp

theorem System.Legal.schedule {env : Environment} {out : SchedulerOutput} (hl : s.Legal cfg)
    (h : schedule cfg env s.sched = some (s'.sched,out))
    (hf : s'.inFlight = if out.scheduled.isEmpty then s.inFlight
      else s.inFlight ++ [⟨out,s'.sched.requests⟩]) (hroom : s'.LeavesRoom cfg) (r : ReqId) :
    (∀ q ∈ s'.sched.requests r, CountsLegal cfg q) ∧
      ∀ e ∈ entriesOf r out.scheduled, LegalEntry cfg e := by
  refine ((schedule_spec hl.queued.wellQueued h).2 r).legal (hl.requests r) ?_
  intro e he
  have he' := mem_of_mem_entriesOf he
  exact hroom _ (mem_inFlight_of_schedule hf he') e he'

theorem ModelRunnerOutput.fits_spec {step : SchedulerOutput} (h : out.fits step = true)
    (he : e ∈ entriesOf r step.scheduled) : (out.sampledTokenIds r).length ≤ 1+e.numDraftTokens := by
  obtain ⟨hmem,hr⟩ := mem_filter.mp he
  have hall := all_eq_true.mp h e hmem
  rw [of_decide_eq_true hr] at hall
  exact of_decide_eq_true hall

theorem System.Legal.call {e : Event} (hl : s.Legal cfg) (h : s.Call cfg s' e)
    (hroom : s'.LeavesRoom cfg) : s'.Legal cfg := by
  have hq := hl.queued.wellQueued
  refine ⟨hl.queued.call h,?_,?_⟩
  · intro r
    cases h with
    | @addRequest n h hf =>
      obtain ⟨-,hadd,hrest⟩ := addNewRequest_spec hq n.isWaiting h
      by_cases hr : r = n.toRequest.requestId
      · rw [hr]
        exact hadd.legal (hl.requests _)
      · rw [hrest r hr]
        exact hl.requests r
    | schedule h hf => exact (hl.schedule h hf hroom r).1
    | @updateFromOutput f out h hf hfits =>
      have hn := hl.queued.distinct f (hf ▸ mem_cons_self)
      exact ((updateFromOutput_spec hq hn h).2 r).legal (fun e he => out.fits_spec hfits he)
        (hl.requests r)
    | finishRequests hs h hf =>
      rw [h]
      exact (finishRequests_requests _ _ _ _ rfl).legal hs (hl.requests r)
    | resetPrefixCache h hf =>
      rw [h, (resetRunningRequests_spec cfg hq).2 r]
      split
      · intro q hmem
        obtain ⟨q0,-,rfl⟩ := map_eq_some_iff.mp hmem
        exact .of_not_running (Nat.zero_le _) le_rfl (by simp [preemptRequest])
      · exact hl.requests r
  · intro f hmem e he
    cases h with
    | addRequest h hf => exact hl.entries f (hf ▸ hmem) e he
    | @schedule env out h hf =>
      have hmem' := hmem
      rw [hf] at hmem'
      split at hmem'
      · exact hl.entries f hmem' e he
      · rcases mem_append.mp hmem' with hold | hnew
        · exact hl.entries f hold e he
        · rw [mem_singleton.mp hnew] at he
          exact (hl.schedule h hf hroom e.reqId).2 e (mem_filter.mpr ⟨he,by simp⟩)
    | updateFromOutput h hf hfits => exact hl.entries f (hf ▸ mem_cons_of_mem _ hmem) e he
    | finishRequests hs h hf => exact hl.entries f (hf ▸ hmem) e he
    | resetPrefixCache h hf => exact hl.entries f (hf ▸ hmem) e he

def shortPrompt : NewRequest where
  requestId := 0
  promptTokenIds := [1,2]
  maxTokens := 8

def longPrompt : NewRequest where
  requestId := 1
  promptTokenIds := [1,2,3,4,5,6,7,8,9]
  maxTokens := 3

def paddedAdmission : List Event :=
  [.addRequest shortPrompt,
    .schedule {},
    .updateFromOutput { sampledTokenIds := fun _ => [7] },
    .addRequest longPrompt,
    .schedule { prefixLookup := fun _ => some { localHit := 8 } },
    .schedule {}]

def shortModel (maxModelLen : ℕ) : Config where
  maxNumScheduledTokens := 64
  maxModelLen := maxModelLen
  maxNumRunningReqs := 4
  numSpecTokens := 3
  blockSize := 8

/-- `update_from_output` only accepts positive counts. -/
theorem updateFromOutput_pos {step : SchedulerOutput} {s s' : Scheduler}
    (h : updateFromOutput cfg step out s = some s') :
    ∀ e ∈ step.scheduled, 0 < e.numScheduledTokens := by
  obtain ⟨u,hloop,-⟩ := bind_eq_some_iff.mp h
  refine foldlM_option_invariant
    (P := fun done (_ : UpdateLoop) => ∀ e ∈ done, 0 < e.numScheduledTokens) ?_ (by simp) hloop
  intro done e t t' _ hdone hstep e' he'
  rcases mem_append.mp he' with he' | he'
  · exact hdone e' he'
  · rw [mem_singleton.mp he']
    by_contra hn
    rw [processScheduled, if_pos (not_lt.mp hn)] at hstep
    cases hstep

end MetaZenith.Sched
