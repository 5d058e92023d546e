import MetaZenith.HeapOrder
import MetaZenith.SchedConservation

/-! Under the PRIORITY policy the head of each waiting queue is least, as long as no streaming
update changes how a queued session compares with the requests beside it. -/

namespace MetaZenith.Sched

open Scheduler List Option Function

variable {r x : ReqId} {s s' : Scheduler} {fromSkipped : Bool} {rest : List ReqId} {q : Request}

def Request.key (q : Request) : ℤ ×ₗ ℤ ×ₗ ReqId := toLex (q.priority,toLex (q.arrivalTime,q.requestId))

theorem Request.lt_iff (a b : Request) : a.lt b = true ↔ a.key < b.key := by
  rw [Request.key, Request.key, Prod.Lex.toLex_lt_toLex, Prod.Lex.toLex_lt_toLex, Request.lt]
  by_cases hp : a.priority = b.priority
  · by_cases ht : a.arrivalTime = b.arrivalTime
    · simp [hp, ht]
    · simp [hp, ht]
  · simp [hp]

theorem Request.lt_congr {a a' b b' : Request} (ha : a'.key = a.key) (hb : b'.key = b.key) :
    a'.lt b' = a.lt b := by
  rw [Bool.eq_iff_iff, Request.lt_iff, Request.lt_iff, ha, hb]

theorem Request.not_lt_iff {a b : Request} : a.lt b = false ↔ b.key ≤ a.key := by
  rw [Bool.eq_false_iff, ne_eq, Request.lt_iff, not_lt]

namespace Scheduler

def key (s : Scheduler) (r : ReqId) : Option (ℤ ×ₗ ℤ ×ₗ ReqId) := (s.requests r).map Request.key

variable {s s' : Scheduler} {r : ReqId}

theorem lt_congr {a b : ReqId} (ha : s'.key a = s.key a) (hb : s'.key b = s.key b) :
    s'.lt a b = s.lt a b := by
  rw [key, key] at ha hb
  rw [lt, lt]
  cases hx : s.requests a with
  | none =>
    rw [hx, map_none, map_eq_none_iff] at ha
    rw [ha]
  | some x =>
    rw [hx, map_some] at ha
    obtain ⟨x',hx',hkey⟩ := map_eq_some_iff.mp ha
    rw [hx']
    cases hy : s.requests b with
    | none =>
      rw [hy, map_none, map_eq_none_iff] at hb
      rw [hb]
    | some y =>
      rw [hy, map_some] at hb
      obtain ⟨y',hy',hkey'⟩ := map_eq_some_iff.mp hb
      rw [hy']
      exact Request.lt_congr hkey hkey'

theorem lt_eq_of_key (h : s'.key = s.key) : s'.lt = s.lt := by
  funext a b
  exact lt_congr (congrFun h a) (congrFun h b)

theorem weakOrderOn {l : List ReqId} (h : ∀ x ∈ l, (s.key x).isSome = true) : WeakOrderOn s.lt l := by
  have hsome (x : ReqId) (hx : x ∈ l) : ∃ q, s.requests x = some q := by
    have := h x hx
    rw [key, isSome_map] at this
    exact isSome_iff_exists.mp this
  constructor
  · intro a ha b hb
    obtain ⟨x,hx⟩ := hsome a ha
    obtain ⟨y,hy⟩ := hsome b hb
    simp only [lt, hx, hy]
    intro hlt
    exact Request.not_lt_iff.mpr ((Request.lt_iff x y).mp hlt).le
  · intro a ha b hb c hc
    obtain ⟨x,hx⟩ := hsome a ha
    obtain ⟨y,hy⟩ := hsome b hb
    obtain ⟨z,hz⟩ := hsome c hc
    simp only [lt, hx, hy, hz, Request.not_lt_iff]
    exact le_trans

theorem key_of_requests (h : s'.requests r = s.requests r) : s'.key r = s.key r := by
  rw [key, key, h]

theorem key_modify {f : Request → Request} (hf : ∀ q, (f q).key = q.key) :
    (s.modify r f).key = s.key := by
  funext x
  by_cases hx : x = r
  · subst hx
    rw [key, modify_requests_self, key, Option.map_map]
    exact Option.map_congr fun q _ => hf q
  · exact key_of_requests (modify_requests_of_ne s f hx)

theorem WellQueued.present (hw : s.WellQueued)
    (hx : x ∈ s.running ++ (s.waiting ++ s.skippedWaiting)) : (s.key x).isSome = true := by
  rw [key, isSome_map]
  rcases mem_append.mp hx with hx | hx
  · obtain ⟨q,hq,-⟩ := hw.ofRunning x hx
    rw [hq]
    rfl
  · obtain ⟨q,hq,-⟩ := hw.ofQueue x hx
    rw [hq]
    rfl

end Scheduler

structure Heaps (s : Scheduler) (aside : List ReqId) : Prop where
  present : ∀ x ∈ s.waiting ++ s.skippedWaiting ++ aside, (s.key x).isSome = true
  waiting : IsHeap s.lt s.waiting
  skipped : IsHeap s.lt s.skippedWaiting
  aside : IsHeap s.lt aside

theorem prependRequests_isHeap {lt : ReqId → ReqId → Bool} {queue requests : List ReqId}
    (hw : WeakOrderOn lt (requests ++ queue)) (h : IsHeap lt queue) :
    IsHeap lt (prependRequests .priority lt queue requests) := by
  have hfold (l queue : List ReqId) (hw : WeakOrderOn lt (l ++ queue)) (h : IsHeap lt queue) :
      IsHeap lt (l.foldl (prependRequest .priority lt) queue) := by
    induction l generalizing queue with
    | nil => exact h
    | cons r l ih =>
      have hperm := heappush_perm lt queue r
      refine ih _ (hw.perm ((hperm.append_left l).trans perm_middle)) ?_
      refine heappush_isHeap (hw.subset fun x hx => ?_) h
      rcases mem_cons.mp hx with rfl | hx
      · exact mem_cons_self
      · exact mem_append_right _ hx
  exact hfold _ queue (hw.perm ((iterRequests_perm _ _ requests).append_right queue)) h

namespace Heaps

variable {cfg : Config} {env : Environment} {s s' : Scheduler} {aside : List ReqId} {r : ReqId}

section

variable (h : Heaps s aside)

include h

theorem mem_waiting (hx : x ∈ s.waiting) : (s.key x).isSome = true := h.present x (by simp [hx])

theorem mem_skipped (hx : x ∈ s.skippedWaiting) : (s.key x).isSome = true := h.present x (by simp [hx])

theorem mem_aside (hx : x ∈ aside) : (s.key x).isSome = true :=
  h.present x (by simp [hx])

theorem congr
    (hkey : ∀ x ∈ s.waiting ++ s.skippedWaiting ++ aside, (s'.key x).isSome = (s.key x).isSome)
    (hlt : ∀ l ∈ [s.waiting,s.skippedWaiting,aside], ∀ x ∈ l, ∀ y ∈ l, s'.lt x y = s.lt x y)
    (hw : s'.waiting = s.waiting) (hk : s'.skippedWaiting = s.skippedWaiting) : Heaps s' aside := by
  constructor
  · intro x hx
    rw [hw, hk] at hx
    rw [hkey x hx]
    exact h.present x hx
  · rw [hw]
    exact h.waiting.congr (hlt _ (by simp))
  · rw [hk]
    exact h.skipped.congr (hlt _ (by simp))
  · exact h.aside.congr (hlt _ (by simp))

theorem of_keys (hkey : ∀ x ∈ s.waiting ++ s.skippedWaiting ++ aside, s'.key x = s.key x)
    (hw : s'.waiting = s.waiting) (hk : s'.skippedWaiting = s.skippedWaiting) : Heaps s' aside := by
  refine h.congr (fun x hx => by rw [hkey x hx]) (fun l hl x hx y hy => ?_) hw hk
  have hmem {z : ReqId} (hz : z ∈ l) : z ∈ s.waiting ++ s.skippedWaiting ++ aside := by
    simp only [mem_cons, not_mem_nil, or_false] at hl
    rcases hl with rfl | rfl | rfl <;> simp [hz]
  exact lt_congr (hkey x (hmem hx)) (hkey y (hmem hy))

theorem push_waiting (hr : (s.key r).isSome = true) :
    Heaps { s with waiting := heappush s.lt s.waiting r } aside := by
  refine ⟨fun x hx => ?_,?_,h.skipped,h.aside⟩
  · have hperm := heappush_perm s.lt s.waiting r
    simp only [mem_append, hperm.mem_iff, mem_cons] at hx
    rcases hx with ((rfl | hx) | hx) | hx
    · exact hr
    · exact h.mem_waiting hx
    · exact h.mem_skipped hx
    · exact h.mem_aside hx
  · refine heappush_isHeap (weakOrderOn fun x hx => ?_) h.waiting
    rcases mem_cons.mp hx with rfl | hx
    · exact hr
    · exact h.mem_waiting hx

theorem push_skipped (hr : (s.key r).isSome = true) :
    Heaps { s with skippedWaiting := heappush s.lt s.skippedWaiting r } aside := by
  refine ⟨fun x hx => ?_,h.waiting,?_,h.aside⟩
  · have hperm := heappush_perm s.lt s.skippedWaiting r
    simp only [mem_append, hperm.mem_iff, mem_cons] at hx
    rcases hx with (hx | rfl | hx) | hx
    · exact h.mem_waiting hx
    · exact hr
    · exact h.mem_skipped hx
    · exact h.mem_aside hx
  · refine heappush_isHeap (weakOrderOn fun x hx => ?_) h.skipped
    rcases mem_cons.mp hx with rfl | hx
    · exact hr
    · exact h.mem_skipped hx

theorem push_aside (hr : (s.key r).isSome = true) : Heaps s (heappush s.lt aside r) := by
  refine ⟨fun x hx => ?_,h.waiting,h.skipped,?_⟩
  · have hperm := heappush_perm s.lt aside r
    simp only [mem_append, hperm.mem_iff, mem_cons] at hx
    rcases hx with (hx | hx) | rfl | hx
    · exact h.mem_waiting hx
    · exact h.mem_skipped hx
    · exact hr
    · exact h.mem_aside hx
  · refine heappush_isHeap (weakOrderOn fun x hx => ?_) h.aside
    rcases mem_cons.mp hx with rfl | hx
    · exact hr
    · exact h.mem_aside hx

theorem enqueue (hp : cfg.policy = .priority) (hr : (s.key r).isSome = true)
    (status : RequestStatus) : Heaps (enqueueWaitingRequest cfg s r status) aside := by
  rw [enqueueWaitingRequest, hp]
  split
  · exact h.push_skipped hr
  · exact h.push_waiting hr

theorem preempt (hp : cfg.policy = .priority) (hr : (s.key r).isSome = true)
    (drop : Bool) (running : List ReqId) :
    Heaps (preempt cfg drop { s with running := running } r) aside := by
  have hkey : ({ s with running := running }.modify r (preemptRequest drop)).key = s.key :=
    key_modify fun _ => rfl
  have hmod : Heaps ({ s with running := running }.modify r (preemptRequest drop)) aside :=
    h.of_keys (fun x _ => congrFun hkey x) rfl rfl
  rw [Sched.preempt, hp]
  exact (hmod.push_waiting (by rw [hkey]; exact hr)).of_keys (fun _ _ => rfl) rfl rfl

end

end Heaps

section Schedule

variable {cfg : Config} {env : Environment} {threshold : ℤ} {deferPrefills : Bool}

def Loop.Heaped (s : Loop) : Prop :=
  (∀ x ∈ s.sched.running, (s.sched.key x).isSome = true) ∧ Heaps s.sched s.stepSkippedWaiting

theorem preemptOne_heaped (hp : cfg.policy = .priority) {s s' : Loop} {v : ReqId} (h : s.Heaped)
    (hs : preemptOne cfg s = some (v,s')) : s'.Heaped := by
  rw [preemptOne, hp] at hs
  obtain ⟨w,hw,heq⟩ := map_eq_some_iff.mp hs
  obtain ⟨rfl,rfl⟩ := Prod.mk.inj heq
  refine ⟨fun x hx => ?_,h.2.preempt hp (h.1 w (lowestPriority_mem hw)) _ _⟩
  have hkey : (preempt cfg cfg.requiresKvDelivery
      { s.sched with running := s.sched.running.erase w } w).key = s.sched.key :=
    (key_modify (s := { s.sched with running := s.sched.running.erase w })
      (f := preemptRequest cfg.requiresKvDelivery) fun _ => rfl :)
  rw [hkey]
  exact h.1 x (mem_of_mem_erase hx)

theorem runningPass_heaped (hp : cfg.policy = .priority) (hw : s.WellQueued) (h : Heaps s []) :
    (runningPass cfg env s).Heaped := by
  have hstart : ({ sched := s
                   tokenBudget := if env.pauseState = .pausedAll then 0
                     else cfg.maxNumScheduledTokens } : Loop).Heaped :=
    ⟨fun x hx => hw.present (mem_append_left _ hx),h⟩
  refine runningLoop_invariant (P := Loop.Heaped) (fun _ h => h)
    (fun _ _ _ h hs => preemptOne_heaped hp h hs) (fun _ _ h => h) (fun t q r n h => ?_) _ hstart
  have hkey : (t.sched.modify r fun q => { q with numSpecTokenIds := 0 }).key = t.sched.key :=
    key_modify fun _ => rfl
  exact ⟨fun x hx => (congrFun hkey x ▸ h.1 x hx :),h.2.of_keys (fun x _ => congrFun hkey x) rfl rfl⟩

def Popped (s : Scheduler) (fromSkipped : Bool) (r : ReqId) (rest : List ReqId) : Prop :=
  heappop s.lt (if fromSkipped then s.skippedWaiting else s.waiting) = some (r,rest)

theorem selectWaiting_popped (hp : cfg.policy = .priority)
    (h : selectWaiting cfg s = some (fromSkipped,r,rest)) : Popped s fromSkipped r rest := by
  have hpops := selectWaiting_pops h
  rwa [hp] at hpops

structure SameQueues (s s' : Scheduler) : Prop where
  key : s'.key = s.key
  waiting : s'.waiting = s.waiting
  skipped : s'.skippedWaiting = s.skippedWaiting

theorem SameQueues.modify (s : Scheduler) (r : ReqId) {f : Request → Request}
    (hf : ∀ q, (f q).key = q.key) : SameQueues s (s.modify r f) :=
  ⟨key_modify hf,rfl,rfl⟩

theorem Heaps.same {aside : List ReqId} (h : Heaps s aside) (hs : SameQueues s s') : Heaps s' aside :=
  h.of_keys (fun x _ => congrFun hs.key x) hs.waiting hs.skipped

theorem Popped.same (h : Popped s fromSkipped r rest) (hs : SameQueues s s') :
    Popped s' fromSkipped r rest := by
  rw [Popped, lt_eq_of_key hs.key, hs.waiting, hs.skipped]
  exact h

theorem Heaps.popped {aside : List ReqId} (h : Heaps s aside) (hpop : Popped s fromSkipped r rest) :
    Heaps (popSelected s fromSkipped rest) aside ∧
      ((popSelected s fromSkipped rest).key r).isSome = true := by
  have hperm := heappop_perm _ hpop
  cases fromSkipped with
  | false =>
    have hmem {x : ReqId} (hx : x ∈ r :: rest) : (s.key x).isSome = true :=
      h.mem_waiting (hperm.mem_iff.mp hx)
    refine ⟨⟨fun x hx => ?_,?_,h.skipped,h.aside⟩,hmem mem_cons_self⟩
    · simp only [popSelected, Bool.false_eq_true, if_false, mem_append] at hx
      rcases hx with (hx | hx) | hx
      · exact hmem (mem_cons_of_mem _ hx)
      · exact h.mem_skipped hx
      · exact h.mem_aside hx
    · exact heappop_isHeap (weakOrderOn fun x => h.mem_waiting) h.waiting hpop
  | true =>
    have hmem {x : ReqId} (hx : x ∈ r :: rest) : (s.key x).isSome = true :=
      h.mem_skipped (hperm.mem_iff.mp hx)
    refine ⟨⟨fun x hx => ?_,h.waiting,?_,h.aside⟩,hmem mem_cons_self⟩
    · simp only [popSelected, if_true, mem_append] at hx
      rcases hx with (hx | hx) | hx
      · exact h.mem_waiting hx
      · exact hmem (mem_cons_of_mem _ hx)
      · exact h.mem_aside hx
    · exact heappop_isHeap (weakOrderOn fun x => h.mem_skipped) h.skipped hpop

theorem skipWaiting_heaps (hp : cfg.policy = .priority) {s : Loop}
    (h : Heaps s.sched s.stepSkippedWaiting) (hpop : Popped s.sched fromSkipped r rest) :
    Heaps (skipWaiting cfg s fromSkipped r rest).sched
      (skipWaiting cfg s fromSkipped r rest).stepSkippedWaiting := by
  obtain ⟨hrest,hr⟩ := h.popped hpop
  rw [skipWaiting, hp]
  exact hrest.push_aside hr

theorem Scheduler.key_update {q' : Request} (hq : s.requests r = some q) (hkey : q'.key = q.key)
    (h : s'.requests = update s.requests r (some q')) : s'.key = s.key := by
  funext x
  rw [key, h, key]
  by_cases hx : x = r
  · subst hx
    rw [update_self, hq]
    exact congrArg some hkey
  · rw [update_of_ne hx]

theorem LooksAt.sameQueues {s t : Loop} {q' : Request} (hq : s.sched.requests r = some q)
    (hw : Waits q q') (h : LooksAt s t r q') : SameQueues s.sched t.sched :=
  ⟨key_update hq (by rw [hw.rest]; rfl) h.requests,h.waiting,h.skipped⟩

theorem waitingStep_heaps (hp : cfg.policy = .priority) {s s' : Loop}
    (h : Heaps s.sched s.stepSkippedWaiting) (hs : WaitingStep cfg s s') :
    Heaps s'.sched s'.stepSkippedWaiting := by
  cases hs with
  | idle => exact h
  | head hroom hselect hq hmove =>
    have hpop := selectWaiting_popped hp hselect
    have hlooks {t : Loop} (hsame : SameQueues s.sched t.sched)
        (haside : t.stepSkippedWaiting = s.stepSkippedWaiting) :
        Heaps t.sched t.stepSkippedWaiting := by
      rw [haside]
      exact h.same hsame
    cases hmove with
    | stays hw hl => exact hlooks (hl.sameQueues hq hw) hl.aside
    | skipped hw hl =>
      have hsame := hl.sameQueues hq hw
      exact skipWaiting_heaps hp (hlooks hsame hl.aside) (hpop.same hsame)
    | @admitted t t' q' start n pad hw hl hadm hs =>
      have hsame := hl.sameQueues hq hw
      have hkey : s'.sched.key = t.sched.key := key_update hl.request (by rfl) hs.requests
      rw [hs.aside]
      refine ((hlooks hsame hl.aside).popped (hpop.same hsame)).1.of_keys (fun x _ => ?_) hs.waiting
        hs.skipped
      rw [hkey, key, key, (popSelected_kept ..).1]

theorem schedule_heaps (hp : cfg.policy = .priority) {out : SchedulerOutput} (hw : s.WellQueued)
    (h : Heaps s []) (hs : schedule cfg env s = some (s',out)) : Heaps s' [] := by
  obtain ⟨loop,hloop,hcommit⟩ := bind_eq_some_iff.mp hs
  have hw' : ({ s with currentStep := s.currentStep+1 } : Scheduler).WellQueued := hw
  have h' : Heaps { s with currentStep := s.currentStep+1 } [] := h.of_keys (fun _ _ => rfl) rfl rfl
  have hrun : (runningPass cfg env { s with currentStep := s.currentStep+1 }).Heaped :=
    runningPass_heaped hp hw' h'
  have hskipped : (runningPass cfg env { s with currentStep := s.currentStep+1 }).stepSkippedWaiting =
      [] := (runningPass_spec hw').noneSkipped
  have hpass : Heaps loop.sched [] := by
    rcases waitingPass_invariant (P := fun t => Heaps t.sched t.stepSkippedWaiting)
      (fun _ _ _ ht hstep => waitingStep_heaps hp ht hstep) (runningPass_spec hw') hrun.2 hloop with
      rfl | ⟨t,bound,-,hend,rfl⟩
    · have hend := hrun.2
      rw [hskipped] at hend
      exact hend
    · have hperm := prependRequests_perm .priority t.sched.lt t.sched.skippedWaiting
        t.stepSkippedWaiting
      simp only [Loop.mergeSkipped, hp]
      refine ⟨fun x hx => hend.present x ?_,hend.waiting,?_,isHeap_nil⟩
      · simp only [append_nil, mem_append, hperm.mem_iff] at hx ⊢
        tauto
      · refine prependRequests_isHeap (weakOrderOn fun x hx => ?_) hend.skipped
        refine hend.present x ?_
        simp only [mem_append] at hx ⊢
        tauto
  rw [commitSchedule] at hcommit
  simp only at hcommit
  split at hcommit
  · cases hcommit
    rw [updateAfterSchedule_eq]
    have hkey (step placeholders : ℕ) (es : List Scheduled) (t : Scheduler) :
        (advanceAll cfg step placeholders es t).key = t.key := by
      induction es generalizing t with
      | nil => rfl
      | cons e es ih =>
        refine (ih _).trans (key_modify fun q => ?_)
        rw [advance]
        simp only
        split <;> rfl
    obtain ⟨-,hwait,hskip⟩ := advanceAll_queues cfg loop.sched.currentStep
      (numSpecTokensToSchedule cfg loop.scheduled.length) loop.scheduled loop.sched
    exact hpass.of_keys (fun x _ => congrFun (hkey _ _ _ _) x) hwait hskip
  · cases hcommit

end Schedule

section Calls

variable {cfg : Config}

theorem processOutput_key {maxModelLen : ℕ} {e : Scheduled} {tokens : List Token}
    {grammarRejects stopped : Bool} {q' : Request}
    (h : processOutput maxModelLen e tokens grammarRejects q = some (q',stopped)) :
    q'.key = q.key := by
  rcases processOutput_spec h with ⟨-,rfl,-⟩ | ⟨-,kept,habs⟩
  · rfl
  · conv_lhs => rw [habs.rest]
    rfl

section

variable (hp : cfg.policy = .priority)

include hp

theorem handleStopped_heaps {q0 : Request} (q : Request)
    (keep : Bool) (h : Heaps s []) (hq0 : s.requests r = some q0)
    (hr : r ∉ s.waiting ++ s.skippedWaiting) : Heaps (handleStopped cfg s r q keep) [] := by
  have helse {s' : Scheduler} (hreq : ∀ x, x ≠ r → s'.requests x = s.requests x)
      (hw : s'.waiting = s.waiting) (hk : s'.skippedWaiting = s.skippedWaiting) : Heaps s' [] := by
    refine h.of_keys (fun x hx => key_of_requests (hreq x ?_)) hw hk
    rintro rfl
    rw [append_nil] at hx
    exact hr hx
  have hfreed (q' : Request) : Heaps (freeRequest (s.modify r fun _ => q') r keep) [] := by
    refine helse (fun x hx => ?_) rfl rfl
    rw [freeRequest_requests_of_ne _ hx, modify_requests_of_ne _ _ hx]
  have hmod (q' : Request) : Heaps (s.modify r fun _ => q') [] :=
    helse (fun x hx => modify_requests_of_ne _ _ hx) rfl rfl
  have hkey (q' : Request) : ((s.modify r fun _ => q').key r).isSome = true := by
    rw [key, modify_requests_self, hq0]
    rfl
  rw [handleStopped]
  split
  · exact hfreed q
  split
  · exact hfreed _
  · exact (hmod _).enqueue hp (hkey _) _
  · apply Heaps.enqueue
    · exact (hmod _).of_keys (fun _ _ => rfl) rfl rfl
    · exact hp
    · exact hkey _

theorem processScheduled_heaps {out : ModelRunnerOutput}
    {done : List Scheduled} {u u' : UpdateLoop} {e : Scheduled}
    (hinv : UpdateInv cfg out s done u) (h : u.stoppedPreempted = [] → Heaps u.sched [])
    (hs : processScheduled cfg out u e = some u') (hnone : u'.stoppedPreempted = []) :
    Heaps u'.sched [] := by
  rw [processScheduled] at hs
  split at hs
  · cases hs
  split at hs
  · cases hs
    exact h hnone
  rename_i q hq
  split at hs
  · cases hs
  rename_i q' stopped hproc
  cases stopped with
  | false =>
    cases hs
    refine (h hnone).of_keys (fun x _ => ?_) rfl rfl
    by_cases hx : x = e.reqId
    · subst hx
      rw [key, modify_requests_self, key, hq]
      exact congrArg some (processOutput_key hproc)
    · exact key_of_requests (modify_requests_of_ne _ _ hx)
  | true =>
    by_cases hrun : q.status = .running
    · simp only [if_true, if_pos hrun, Option.some.injEq] at hs
      subst hs
      have hqueued := hinv.queued
      rw [show u.stoppedPreempted = [] from hnone] at hqueued
      refine handleStopped_heaps hp q' _ (h hnone) hq fun hmem => ?_
      refine hqueued.not_queued hq hrun (mem_without.mpr ⟨hmem,not_mem_nil⟩)
    · simp only [if_true, if_neg hrun, Option.some.injEq] at hs
      subst hs
      exact absurd hnone (by simp)

theorem takeOut_heaps {fromRunning fromWaiting : List ReqId}
    (hpresent : ∀ x ∈ without fromWaiting (s.waiting ++ s.skippedWaiting), (s.key x).isSome = true)
    (h : fromWaiting = [] → Heaps s []) : Heaps (takeOut cfg fromRunning fromWaiting s) [] := by
  cases fromWaiting with
  | nil => exact (h rfl).of_keys (fun _ _ => rfl) rfl rfl
  | cons a gone =>
    have hrebuilt (l : List ReqId) (hl : ∀ x ∈ l, x ∈ s.waiting ++ s.skippedWaiting) :
        IsHeap s.lt (removeRequests .priority s.lt l (a :: gone)) ∧
          ∀ x ∈ removeRequests .priority s.lt l (a :: gone), (s.key x).isSome = true := by
      have hmem (x : ReqId) (hx : x ∈ without (a :: gone) l) : (s.key x).isSome = true :=
        hpresent x (mem_without.mpr ⟨hl x (mem_without.mp hx).1,(mem_without.mp hx).2⟩)
      exact ⟨heapify_isHeap (weakOrderOn hmem),fun x hx =>
        hmem x ((removeRequests_perm .priority s.lt l (a :: gone)).mem_iff.mp hx)⟩
    obtain ⟨hw,hw'⟩ := hrebuilt s.waiting fun x hx => mem_append_left _ hx
    obtain ⟨hk,hk'⟩ := hrebuilt s.skippedWaiting fun x hx => mem_append_right _ hx
    rw [takeOut, hp]
    refine ⟨fun x hx => ?_,hw,hk,isHeap_nil⟩
    rw [append_nil] at hx
    exact (mem_append.mp hx).elim (hw' x) (hk' x)

theorem finishRequests_heaps {ids : List ReqId}
    {status : RequestStatus} {keepsBlocks : ReqId → Bool} (hw : s.WellQueued) (h : Heaps s []) :
    Heaps (finishRequests cfg ids status keepsBlocks s) [] := by
  set valid := ids.filter fun r => (s.requests r).any fun q => !q.status.isFinished with hvalid
  set fromWaiting := valid.filter fun r => !(s.requests r).any (·.status = .running) with hfrom
  have htaken : Heaps (takeOut cfg (valid.filter fun r => (s.requests r).any (·.status = .running))
      fromWaiting s) [] :=
    takeOut_heaps hp (fun x hx => hw.present (mem_append_right _ (mem_without.mp hx).1))
      fun _ => h
  rw [finishRequests]
  obtain ⟨-,hwait,hskip⟩ := @finishAll_queues status (fun t r => keepsBlocks r ||
    ((s.requests r).any (·.status = .waitingForRemoteKvs) &&
      !t.finishedRecvingKvReqIds.contains r)) valid
    { takeOut cfg (valid.filter fun r => (s.requests r).any (·.status = .running)) fromWaiting s with
      numWaitingForStreamingInput := s.numWaitingForStreamingInput-(fromWaiting.filter
        fun r => (s.requests r).any (·.status = .waitingForStreamingReq)).length }
  refine htaken.of_keys (fun x hx => key_of_requests ?_) hwait hskip
  -- what is left on a queue is not among the ids that are finished
  refine finishAll_of_notMem _ _ fun hmem => ?_
  rw [append_nil] at hx
  have hout : x ∈ (takeOut cfg (valid.filter fun r => (s.requests r).any (·.status = .running))
      fromWaiting s).ids := mem_append_right _ hx
  rcases mem_append.mp ((mem_takeOut hw.nodup_running x).mp hout) with hrun | hque
  · have hw' : (takeOut cfg (valid.filter fun r => (s.requests r).any (·.status = .running))
        fromWaiting s).WellQueued := takeOut_wellQueued hw.nodup_running
      (hw.restrict (without_append_nodup hw.nodup _ _) (fun y hy => (mem_without.mp hy).1)
        (fun y hy => (mem_without.mp hy).1) fun _ _ => rfl)
    obtain ⟨q,hq,hst⟩ := hw.ofRunning x (mem_without.mp hrun).1
    exact hw'.not_queued hq hst hx
  · obtain ⟨hqueue,hnot⟩ := mem_without.mp hque
    obtain ⟨q,hq,hst⟩ := hw.ofQueue x hqueue
    have hne : q.status ≠ .running := by
      intro hrun
      rw [hrun] at hst
      cases hst
    exact hnot (mem_filter.mpr ⟨hmem,by simp [hq, hne]⟩)

end

theorem TransferEffect.heaps (ht : TransferEffect s s') (hw : s.WellQueued) (h : Heaps s []) :
    Heaps s' [] := by
  refine h.of_keys (fun x hx => key_of_requests ?_) ht.waiting ht.skippedWaiting
  rw [append_nil] at hx
  rcases ht.requests x with hsame | ⟨-,q,hq,hf⟩
  · exact hsame
  · obtain ⟨q',hq',hst⟩ := hw.ofQueue x hx
    obtain rfl : q = q' := Option.some.inj (hq.symm.trans hq')
    rw [RequestStatus.isFinished_of_isWaiting hst] at hf
    cases hf

theorem updateFromOutput_heaps (hp : cfg.policy = .priority) {out : ModelRunnerOutput}
    {step : SchedulerOutput} (hw : s.WellQueued) (hn : (step.scheduled.map (·.reqId)).Nodup)
    (h : Heaps s []) (hs : updateFromOutput cfg step out s = some s') : Heaps s' [] := by
  obtain ⟨u,hloop,hrest⟩ := bind_eq_some_iff.mp hs
  have hinv := updateLoop_spec hw hn hloop
  have hheaps : u.stoppedPreempted = [] → Heaps u.sched [] := by
    -- along the loop, with the description of the prefix passed
    refine (foldlM_option_invariant (P := fun done t => UpdateInv cfg out s done t ∧
      (t.stoppedPreempted = [] → Heaps t.sched [])) ?_
      ⟨updateLoop_spec hw nodup_nil rfl,fun _ => h⟩ hloop).2
    rintro done e t t' hpre ⟨ht,hheap⟩ hstep
    have hsub := (hpre.sublist.map Scheduled.reqId).nodup hn
    rw [map_append, nodup_append] at hsub
    exact ⟨ht.step (fun hmem => hsub.2.2 _ hmem _ (by simp) rfl) hstep,
      processScheduled_heaps hp ht hheap hstep⟩
  have hnodup : u.sched.running.Nodup := by
    rw [hinv.running]
    exact hw.nodup_running
  have hpresent (x : ReqId)
      (hx : x ∈ without u.stoppedPreempted (u.sched.waiting ++ u.sched.skippedWaiting)) :
      (u.sched.key x).isSome = true := by
    obtain ⟨q,hq,-⟩ := hinv.queued.ofQueue x hx
    rw [key, hq]
    rfl
  have htaken : Heaps (takeOut cfg u.stoppedRunning u.stoppedPreempted u.sched) [] :=
    takeOut_heaps hp hpresent hheaps
  have hw' : (takeOut cfg u.stoppedRunning u.stoppedPreempted u.sched).WellQueued :=
    takeOut_wellQueued hnodup hinv.queued
  have hcleared : Heaps { takeOut cfg u.stoppedRunning u.stoppedPreempted u.sched with
      grammarCompileErrorReqs := [] } [] := htaken.of_keys (fun _ _ => rfl) rfl rfl
  exact (kvTransferFinished_spec hrest).heaps (finishRequests_wellQueued hw')
    (finishRequests_heaps hp hw' hcleared)

theorem resetRunningRequests_heaps (hp : cfg.policy = .priority) (hw : s.WellQueued)
    (h : Heaps s []) : Heaps (resetRunningRequests cfg s) [] := by
  have hfold (l : List ReqId) (t : Scheduler) (hl : ∀ x ∈ l, (t.key x).isSome = true)
      (ht : Heaps t []) : Heaps (l.foldl (preempt cfg true) t) [] := by
    induction l generalizing t with
    | nil => exact ht
    | cons v l ih =>
      have hkey : (preempt cfg true t v).key = t.key :=
        (key_modify (f := preemptRequest true) fun _ => rfl :)
      refine ih _ (fun x hx => ?_) (ht.preempt hp (hl v mem_cons_self) true t.running)
      rw [hkey]
      exact hl x (mem_cons_of_mem _ hx)
  refine hfold _ _ (fun x hx => ?_) (h.of_keys (fun _ _ => rfl) rfl rfl)
  exact hw.present (mem_append_left _ (mem_reverse.mp hx))

/-- The next input of a session that waits for it leaves the session's place in the order of its
queue. -/
def KeepsOrder (n : NewRequest) (s : Scheduler) : Prop :=
  ∀ q ∈ s.requests n.requestId, q.status = .waitingForStreamingReq → n.resumable = true →
    ∀ l ∈ [s.waiting,s.skippedWaiting], n.requestId ∈ l → ∀ x ∈ l, x ≠ n.requestId →
      ∀ other ∈ s.requests x, ({ q with arrivalTime := n.arrivalTime } : Request).lt other =
        q.lt other ∧ other.lt { q with arrivalTime := n.arrivalTime } = other.lt q

instance (n : NewRequest) (s : Scheduler) : Decidable (KeepsOrder n s) :=
  inferInstanceAs (Decidable (∀ q ∈ s.requests n.requestId, _))

theorem updateRequestAsSession_key (q : Request) (u : StreamingUpdate) :
    (updateRequestAsSession q u).key = ({ q with arrivalTime := u.arrivalTime } : Request).key := rfl

theorem Heaps.session {n : NewRequest} {u : StreamingUpdate} (h : Heaps s [])
    (hq : s.requests n.requestId = some q) (hst : q.status = .waitingForStreamingReq)
    (hr : n.resumable = true) (hu : u.arrivalTime = n.arrivalTime) (hok : KeepsOrder n s) :
    Heaps (s.modify n.requestId fun x => updateRequestAsSession x u) [] := by
  set s' := s.modify n.requestId fun x => updateRequestAsSession x u with hs'
  have hself : s'.requests n.requestId = some (updateRequestAsSession q u) := by
    rw [hs', modify_requests_self, hq]
    rfl
  have helse {x : ReqId} (hx : x ≠ n.requestId) : s'.requests x = s.requests x :=
    modify_requests_of_ne _ _ hx
  have hnew (other : Request) : (updateRequestAsSession q u).lt other =
      ({ q with arrivalTime := n.arrivalTime } : Request).lt other := by
    rw [← hu]
    exact Request.lt_congr (updateRequestAsSession_key q u) rfl
  have hnew' (other : Request) : other.lt (updateRequestAsSession q u) =
      other.lt { q with arrivalTime := n.arrivalTime } := by
    rw [← hu]
    exact Request.lt_congr rfl (updateRequestAsSession_key q u)
  -- both orders between the session and another request of its queue
  have hcompare (l : List ReqId) (hl : l ∈ [s.waiting,s.skippedWaiting]) (hmem : n.requestId ∈ l)
      (x : ReqId) (hx : x ∈ l) (hne : x ≠ n.requestId) :
      s'.lt n.requestId x = s.lt n.requestId x ∧ s'.lt x n.requestId = s.lt x n.requestId := by
    have hcond := hok q hq hst hr l hl hmem x hx hne
    simp only [lt, hself, helse hne, hq]
    cases hother : s.requests x with
    | none => exact ⟨rfl,rfl⟩
    | some other => exact ⟨(hnew other).trans (hcond other hother).1,
        (hnew' other).trans (hcond other hother).2⟩
  refine h.congr (fun x _ => ?_) (fun l hl x hx y hy => ?_) rfl rfl
  · rw [key, key, isSome_map, isSome_map]
    by_cases hxn : x = n.requestId
    · rw [hxn, hself, hq]
      rfl
    · rw [helse hxn]
  · have hl' : l ∈ [s.waiting,s.skippedWaiting] := by
      simp only [mem_cons, not_mem_nil, or_false] at hl ⊢
      rcases hl with rfl | rfl | rfl
      · exact .inl rfl
      · exact .inr rfl
      · exact absurd hx not_mem_nil
    by_cases hxn : x = n.requestId
    · by_cases hyn : y = n.requestId
      · rw [hxn, hyn]
        simp only [lt, hself, hq]
        rw [Bool.eq_iff_iff, Request.lt_iff, Request.lt_iff]
        exact iff_of_false (lt_irrefl _) (lt_irrefl _)
      · rw [hxn] at hx ⊢
        exact (hcompare l hl' hx y hy hyn).1
    · by_cases hyn : y = n.requestId
      · rw [hyn] at hy ⊢
        exact (hcompare l hl' hy x hx hxn).2
      · exact lt_congr (key_of_requests (helse hxn))
          (key_of_requests (helse hyn))

theorem addNewRequest_heaps (hp : cfg.policy = .priority) {n : NewRequest} (hw : s.WellQueued)
    (h : Heaps s []) (hok : KeepsOrder n s) (hs : addNewRequest cfg n.toRequest s = some s') :
    Heaps s' [] := by
  rw [addNewRequest] at hs
  split at hs
  · rename_i hnone
    cases hs
    apply Heaps.enqueue
    · refine h.of_keys (fun x hx => key_of_requests ?_) rfl rfl
      refine update_of_ne ?_ ..
      rintro rfl
      have := h.present _ hx
      rw [key, hnone] at this
      cases this
    · exact hp
    · rw [key, isSome_map]
      show (update s.requests _ (some n.toRequest) _).isSome = true
      rw [update_self]
      rfl
  · rename_i q hq
    simp only at hs
    split at hs
    · split at hs
      · cases hs
        exact h.same (.modify s _ fun _ => rfl)
      · cases hs
    · rename_i hst
      split at hs
      · rename_i u hu
        cases hs
        obtain ⟨hr,heq⟩ := ite_none_right_eq_some.mp hu
        have htime : u.arrivalTime = n.arrivalTime := by rw [← Option.some.inj heq]; rfl
        exact (h.session hq (not_not.mp hst) hr htime hok).of_keys (fun _ _ => rfl) rfl rfl
      · cases hs
        exact finishRequests_heaps hp hw h

end Calls

def Event.KeepsOrder (s : System) : Event → Prop
  | .addRequest n => Sched.KeepsOrder n s.sched
  | _ => True

instance (s : System) (e : Event) : Decidable (e.KeepsOrder s) :=
  match e with
  | .addRequest n => inferInstanceAs (Decidable (Sched.KeepsOrder n s.sched))
  | .schedule _ | .updateFromOutput _ | .finishRequests _ _ _ | .resetPrefixCache => .isTrue trivial

theorem Heaps.call {cfg : Config} (hp : cfg.policy = .priority) {s s' : System} {e : Event}
    (hq : s.Queued) (h : Heaps s.sched []) (hok : e.KeepsOrder s) (hcall : s.Call cfg s' e) :
    Heaps s'.sched [] := by
  cases hcall with
  | addRequest hadd hf => exact addNewRequest_heaps hp hq.wellQueued h hok hadd
  | schedule hs hf => exact schedule_heaps hp hq.wellQueued h hs
  | @updateFromOutput f out hs hf hfits =>
    exact updateFromOutput_heaps hp hq.wellQueued (hq.distinct f (hf ▸ mem_cons_self)) h hs
  | finishRequests hst hs hf =>
    rw [hs]
    exact finishRequests_heaps hp hq.wellQueued h
  | resetPrefixCache hs hf =>
    rw [hs]
    exact resetRunningRequests_heaps hp hq.wellQueued h

def peekRequest (queue : List ReqId) : Option ReqId := queue[0]?

def LeastFirst (lt : ReqId → ReqId → Bool) (queue : List ReqId) : Prop :=
  ∀ r, peekRequest queue = some r ∨ (popRequest .priority lt queue).map Prod.fst = some r →
    ∀ x ∈ queue, lt x r = false

theorem IsHeap.leastFirst {lt : ReqId → ReqId → Bool} {queue : List ReqId} (h : IsHeap lt queue)
    (hw : WeakOrderOn lt queue) : LeastFirst lt queue := by
  rintro r (hr | hr) x hx
  · exact h.root_least hw hr hx
  · obtain ⟨⟨r',rest⟩,hpop,rfl⟩ := map_eq_some_iff.mp hr
    exact h.root_least hw (heappop_head hpop) hx

def IterationStart (cfg : Config) (env : Environment) (s : Scheduler) (t : Loop) : Prop :=
  let s := { s with currentStep := s.currentStep+1 }
  Relation.ReflTransGen (fun a b => 0 < a.tokenBudget ∧ waitingStep cfg env
    (longPrefillThreshold cfg s) (deferPrefills env s) a = .next b) (runningPass cfg env s) t

/-- In every run in which no next input changes the order of the queue its session stands in,
whatever is peeked or popped is least in its queue. -/
theorem priority_order_respected (cfg : Config) (hp : cfg.policy = .priority) {s : System}
    (h : Reachable (System.step cfg) (fun s e _ => e.KeepsOrder s) {} s) {env : Environment}
    {t : Loop} (ht : IterationStart cfg env s.sched t) :
    LeastFirst t.sched.lt t.sched.waiting ∧ LeastFirst t.sched.lt t.sched.skippedWaiting := by
  have hall : s.Queued ∧ Heaps s.sched [] := by
    refine h.invariant (P := fun s => s.Queued ∧ Heaps s.sched [])
      ⟨System.queued_init,⟨by simp,isHeap_nil,isHeap_nil,isHeap_nil⟩⟩ ?_
    rintro s e s' ⟨hq,hheap⟩ hstep hok
    have hcall := System.step_cases hstep
    exact ⟨hq.call hcall,hheap.call hp hq hok hcall⟩
  obtain ⟨hq,hheap⟩ := hall
  have hend : t.Queued ∧ Heaps t.sched t.stepSkippedWaiting := by
    have hw' : ({ s.sched with currentStep := s.sched.currentStep+1 } : Scheduler).WellQueued :=
      hq.wellQueued
    have hstart : Heaps { s.sched with currentStep := s.sched.currentStep+1 } [] :=
      hheap.of_keys (fun _ _ => rfl) rfl rfl
    -- along the iterations of the loop
    induction ht with
    | refl => exact ⟨(runningPass_spec hw').loopQueued,(runningPass_heaped hp hw' hstart).2⟩
    | tail _ hstep ih =>
      have hcases := (congrArg (Outcome.Holds (WaitingStep cfg _)) hstep.2).mp (waitingStep_cases ih.1)
      exact ⟨hcases.queued ih.1,waitingStep_heaps hp ih.2 hcases⟩
  obtain ⟨-,hend⟩ := hend
  exact ⟨hend.waiting.leastFirst (weakOrderOn fun x => hend.mem_waiting),
    hend.skipped.leastFirst (weakOrderOn fun x => hend.mem_skipped)⟩

def prioritySessions : Config := { sessionModel with policy := .priority }

def prioritySession (r : ReqId) (arrivalTime : ℤ) : NewRequest :=
  { sessionInput with requestId := r, arrivalTime := arrivalTime }

def waitingSessions : List Event :=
  [.addRequest (prioritySession 0 1),.addRequest (prioritySession 1 2),.schedule {},
    .updateFromOutput { sampledTokenIds := fun _ => [7] }]

/-- The later session is given its next input and stays behind the other one. -/
theorem priority_order_respected_sessions : ∃ (s : System) (t : Loop),
    IterationStart prioritySessions {} s.sched t ∧ t.sched.skippedWaiting = [0,1] ∧
    LeastFirst t.sched.lt t.sched.skippedWaiting := by
  obtain ⟨s,hs,hp⟩ := Reachable.exists_of_runGuarded (System.step prioritySessions)
    (fun s e _ h => show e.KeepsOrder s from of_decide_eq_true h) {}
    (waitingSessions ++ [.addRequest (prioritySession 1 3)])
    (fun s => (runningPass prioritySessions {}
      { s.sched with currentStep := s.sched.currentStep+1 }).sched.skippedWaiting == [0,1])
    (by decide +kernel)
  have hstart : IterationStart prioritySessions {} s.sched _ := .refl
  exact ⟨s,_,hstart,beq_iff_eq.mp hp,(priority_order_respected prioritySessions rfl hs hstart).2⟩

/-- The earlier session gets an input that arrives later than the other session's first one. -/
theorem pop_not_least : ∃ (s : System) (t : Loop),
    Reachable (System.step prioritySessions) (fun _ _ _ => True) {} s ∧
    IterationStart prioritySessions {} s.sched t ∧
    (popRequest .priority t.sched.lt t.sched.skippedWaiting).map Prod.fst = some 0 ∧
    1 ∈ t.sched.skippedWaiting ∧ t.sched.lt 1 0 = true := by
  have hcheck : ∀ (s : System) (e : Event) (s' : System), true = true → True :=
    fun _ _ _ _ => trivial
  obtain ⟨s,hs,hp⟩ := Reachable.exists_of_runGuarded (System.step prioritySessions) hcheck {}
    (waitingSessions ++ [.addRequest (prioritySession 0 4),.addRequest (prioritySession 1 3)])
    (fun s =>
      let t := (runningPass prioritySessions {}
        { s.sched with currentStep := s.sched.currentStep+1 }).sched
      decide ((popRequest .priority t.lt t.skippedWaiting).map Prod.fst = some 0 ∧
        1 ∈ t.skippedWaiting ∧ t.lt 1 0 = true)) (by decide +kernel)
  exact ⟨s,_,hs,.refl,of_decide_eq_true hp⟩

end MetaZenith.Sched
