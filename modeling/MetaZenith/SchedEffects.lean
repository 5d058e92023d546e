import MetaZenith.SchedulerClass

/-! What one call of `schedule` can do to a request, whatever the environment answers, and
that ids stay in the queue their status says. -/

namespace MetaZenith.Sched

open List Option Function

variable {l : List ℕ} {clock k v : ℕ} {r : ReqId} {q q' : Request} {es : List Scheduled}
  {n start threshold : ℤ} {cfg : Config} {env : Environment}
  {deferPrefills fromSkipped pad : Bool} {s s' : Loop} {e : Scheduled} {rest : List ReqId}
  {out : SchedulerOutput}

theorem erase_take_of_mem (hv : v ∈ l.take k) : (l.erase v).take (k-1) = (l.take k).erase v := by
  have hlen : ((l.take k).erase v).length = (l.take k).length-1 := length_erase_of_mem hv
  have hpos := length_pos_of_mem hv
  conv_lhs => rw [← take_append_drop k l, erase_append_left _ hv]
  rw [length_take] at hlen hpos
  by_cases hk : k ≤ l.length
  · rw [take_left' (by omega)]
  · rw [drop_eq_nil_of_le (by omega), append_nil, take_of_length_le (by omega)]

theorem mem_erase_take_pred {x : ℕ} (hv : v ∈ l.take k) (hx : x ∈ l.take k) (hne : x ≠ v) :
    x ∈ (l.erase v).take (k-1) := by
  rw [erase_take_of_mem hv]
  exact (mem_erase_of_ne hne).mpr hx

theorem mem_erase_take {x : ℕ} (hx : x ∈ l.take k) (hne : x ≠ v) : x ∈ (l.erase v).take k := by
  by_cases hv : v ∈ l.take k
  · exact take_subset_take_left _ (Nat.sub_le k 1) (mem_erase_take_pred hv hx hne)
  · have hsplit : l.erase v = l.take k ++ (l.drop k).erase v := by
      conv_lhs => rw [← take_append_drop k l, erase_append_right _ hv]
    by_cases hk : k ≤ l.length
    · rwa [hsplit, take_left' (by rw [length_take]; omega)]
    · rw [drop_eq_nil_of_le (by omega), erase_nil, append_nil] at hsplit
      rw [hsplit, take_take]
      simpa using hx

theorem dropLast_eq_erase (hn : l.Nodup) (hv : l.getLast? = some v) : l.dropLast = l.erase v := by
  have hsplit := dropLast_append_getLast? v hv
  have hnot : v ∉ l.dropLast := by
    rw [← hsplit, nodup_append] at hn
    intro hmem
    exact hn.2.2 v hmem v (by simp) rfl
  conv_rhs => rw [← hsplit, erase_append_right _ hnot]
  simp

/-- The last element is not among the first `k` when one of the others comes later. -/
theorem getLast?_notMem_take {r : ℕ} (hn : l.Nodup) (hv : l.getLast? = some v)
    (hr : l[k]? = some r) : v ∉ l.take k := by
  intro hmem
  obtain ⟨i,hi,hiv⟩ := mem_take_iff_getElem.mp hmem
  obtain ⟨hk,-⟩ := List.getElem?_eq_some_iff.mp hr
  rw [List.getLast?_eq_getElem?] at hv
  obtain ⟨hlast,hlv⟩ := List.getElem?_eq_some_iff.mp hv
  have h := hn.getElem_inj_iff.mp (hiv.trans hlv.symm)
  omega

def RequestStatus.isWaiting : RequestStatus → Bool
  | waiting | waitingForStructuredOutputGrammar | waitingForRemoteKvs | waitingForStreamingReq
  | preempted => true
  | _ => false

/-- No id occurs twice, the running ones have status RUNNING and the queued ones wait. -/
structure WellQueued (requests : ReqId → Option Request) (running queue : List ReqId) : Prop where
  nodup : (running ++ queue).Nodup
  ofRunning : ∀ r ∈ running, ∃ q, requests r = some q ∧ q.status = .running
  ofQueue : ∀ r ∈ queue, ∃ q, requests r = some q ∧ q.status.isWaiting = true

namespace WellQueued

variable {requests : ReqId → Option Request} {running queue running' queue' : List ReqId}

section

variable (h : WellQueued requests running queue)

include h

theorem perm (hr : running'.Perm running)
    (hq : queue'.Perm queue) : WellQueued requests running' queue' where
  nodup := (hr.append hq).nodup_iff.mpr h.nodup
  ofRunning r hm := h.ofRunning r (hr.mem_iff.mp hm)
  ofQueue r hm := h.ofQueue r (hq.mem_iff.mp hm)

theorem replace {o : Option Request}
    (hn : (running' ++ queue').Nodup) (hrun : ∀ x ∈ running', x ≠ r → x ∈ running)
    (hque : ∀ x ∈ queue', x ≠ r → x ∈ queue)
    (hr : r ∈ running' → ∃ q, o = some q ∧ q.status = .running)
    (hq : r ∈ queue' → ∃ q, o = some q ∧ q.status.isWaiting = true) :
    WellQueued (update requests r o) running' queue' where
  nodup := hn
  ofRunning x hx := by
    by_cases hxr : x = r
    · subst hxr
      rw [update_self]
      exact hr hx
    · rw [update_of_ne hxr]
      exact h.ofRunning x (hrun x hx hxr)
  ofQueue x hx := by
    by_cases hxr : x = r
    · subst hxr
      rw [update_self]
      exact hq hx
    · rw [update_of_ne hxr]
      exact h.ofQueue x (hque x hx hxr)

theorem running_ne_queue (hr : r ∈ running) : r ∉ queue := by
  intro hq
  exact (nodup_append.mp h.nodup).2.2 r hr r hq rfl

theorem nodup_running : running.Nodup :=
  (nodup_append.mp h.nodup).1

theorem replace_waiting (hr : r ∈ queue) (hs : q.status.isWaiting = true) :
    WellQueued (update requests r (some q)) running queue :=
  h.replace h.nodup (fun _ hx _ => hx) (fun _ hx _ => hx)
    (fun hm => absurd hr (h.running_ne_queue hm)) (fun _ => ⟨q,rfl,hs⟩)

theorem replace_running (hr : r ∈ running) (hs : q.status = .running) :
    WellQueued (update requests r (some q)) running queue :=
  h.replace h.nodup (fun _ hx _ => hx) (fun _ hx _ => hx) (fun _ => ⟨q,rfl,hs⟩)
    (fun hm => absurd hm (h.running_ne_queue hr))

theorem move_to_queue (hr : r ∈ running) (hs : q.status.isWaiting = true) :
    WellQueued (update requests r (some q)) (running.erase r) (r :: queue) := by
  have hn := h.nodup_running
  apply h.replace
  · have hperm : (running.erase r ++ r :: queue).Perm (running ++ queue) :=
      perm_middle.trans ((perm_cons_erase hr).symm.append_right queue)
    exact hperm.nodup_iff.mpr h.nodup
  · exact fun x hx _ => mem_of_mem_erase hx
  · exact fun x hx hne => (mem_cons.mp hx).resolve_left hne
  · exact fun hm => absurd hm hn.not_mem_erase
  · exact fun _ => ⟨q,rfl,hs⟩

end

theorem move_to_running (h : WellQueued requests running (r :: queue)) (hs : q.status = .running) :
    WellQueued (update requests r (some q)) (running ++ [r]) queue := by
  have hperm : (running ++ [r] ++ queue).Perm (running ++ r :: queue) := by
    rw [append_assoc]
    exact .refl _
  have hn := hperm.nodup_iff.mpr h.nodup
  apply h.replace hn
  · intro x hx hne
    rcases mem_append.mp hx with hx | hx
    · exact hx
    · exact absurd (mem_singleton.mp hx) hne
  · exact fun x hx _ => mem_cons_of_mem _ hx
  · exact fun _ => ⟨q,rfl,hs⟩
  · intro hm
    exact absurd rfl ((nodup_append.mp hn).2.2 r (by simp) r hm)

end WellQueued

def Request.want (q : Request) : ℤ :=
  q.numTokensWithSpec+q.numOutputPlaceholders-q.numComputedTokens

def Request.Aged (q : Request) : Prop :=
  (q.status = .waiting ∨ q.status = .waitingForStructuredOutputGrammar → q.numPreemptions = 0) ∧
    (q.status = .preempted → 0 < q.numPreemptions)

structure Waits (q q' : Request) : Prop where
  before : q.status.isWaiting = true
  after : q'.status.isWaiting = true
  rest : q' = { q with
    status := q'.status
    numComputedTokens := q'.numComputedTokens
    sharedPrefixBoundary := q'.sharedPrefixBoundary }
  nonneg : 0 ≤ q.numComputedTokens → 1 ≤ q.numTokens → 0 ≤ q'.numComputedTokens
  aged : q.Aged → q'.Aged
  streaming : q.status = .waitingForStreamingReq ↔ q'.status = .waitingForStreamingReq

theorem Waits.refl (h : q.status.isWaiting = true) : Waits q q :=
  ⟨h,h,rfl,fun h _ => h,id,.rfl⟩

theorem Waits.numTokens (h : Waits q q') : q'.numTokens = q.numTokens := by
  rw [h.rest]
  rfl

theorem Waits.trans {q'' : Request} (h : Waits q q') (h' : Waits q' q'') : Waits q q'' where
  before := h.before
  after := h'.after
  rest := by
    rw [h'.rest, h.rest]
  nonneg h0 h1 := h'.nonneg (h.nonneg h0 h1) (h.numTokens ▸ h1)
  aged := h'.aged ∘ h.aged
  streaming := h.streaming.trans h'.streaming

structure Admission (cfg : Config) (q : Request) (start n : ℤ) (pad : Bool) : Prop where
  waiting : q.status.isWaiting = true
  notStreaming : q.status ≠ .waitingForStreamingReq
  notStale : ¬(0 < q.numStaleOutputTokens ∧ q.dropStaleOutput = false)
  pos : 1 ≤ n
  start_nonneg : 0 ≤ q.numComputedTokens → 1 ≤ q.numTokens → 0 ≤ start
  unpadded : pad = false → start+n ≤ q.numTokens
  padded : pad = true → start+1 = q.numTokens ∧ n ≤ 1+cfg.numSpecTokens ∧
    start+1+cfg.numSpecTokens ≤ cfg.maxModelLen

inductive LoopEffect (cfg : Config) (preempted : List ReqId) (r : ReqId) :
    Option Request → Option Request → List Scheduled → Prop
  | same (q : Option Request) : LoopEffect cfg preempted r q q []
  | running {q : Request} {n : ℤ} (hs : q.status = .running)
      (hn : 0 ≤ q.want → q.numComputedTokens < cfg.maxModelLen →
        1 ≤ n ∧ n ≤ q.want ∧ q.numComputedTokens+n < cfg.maxModelLen) :
      LoopEffect cfg preempted r (some q) (some { q with numSpecTokenIds := 0 })
        [⟨r,q.numComputedTokens,n,runningDrafts q n,.running⟩]
  | preempt {q : Request} (hs : q.status = .running) (hr : r ∈ preempted) :
      LoopEffect cfg preempted r (some q) (some (preemptRequest cfg.requiresKvDelivery q)) []
  | waits {q q' : Request} (h : Waits q q') : LoopEffect cfg preempted r (some q) (some q') []
  | admission {q : Request} {start n boundary : ℤ} {pad : Bool} {kind : ScheduledKind}
      (hk : kind ≠ .running) (hnew : q.Aged → (kind = .new ↔ q.numPreemptions = 0))
      (h : Admission cfg q start n pad) :
      LoopEffect cfg preempted r (some q)
        (some { q with
          status := .running
          numComputedTokens := start
          sharedPrefixBoundary := boundary })
        [⟨r,start,n,if pad then cfg.numSpecTokens else 0,kind⟩]

namespace LoopEffect

variable {cfg : Config} {preempted : List ReqId} {r : ReqId} {o : Option Request} {q : Request}

theorem mono {o' : Option Request} {preempted' : List ReqId}
    (h : LoopEffect cfg preempted r o o' es) (hsub : preempted ⊆ preempted') :
    LoopEffect cfg preempted' r o o' es := by
  cases h with
  | same => exact .same _
  | running hs hn => exact .running hs hn
  | preempt hs hr => exact .preempt hs (hsub hr)
  | waits h => exact .waits h
  | admission hk hnew h => exact .admission hk hnew h

theorem eq_of_running (h : LoopEffect cfg preempted r o (some q) []) (hs : q.status = .running) :
    o = some q := by
  cases h with
  | same => rfl
  | preempt => simp [preemptRequest] at hs
  | waits h =>
    have hw := h.after
    rw [hs] at hw
    simp [RequestStatus.isWaiting] at hw

/-- A queued request has at most been promoted, unless it was preempted in this step. -/
theorem waits_of_isWaiting (h : LoopEffect cfg [] r o (some q) es)
    (hs : q.status.isWaiting = true) : es = [] ∧ ∃ q0, o = some q0 ∧ Waits q0 q := by
  cases h with
  | same => exact ⟨rfl,q,rfl,Waits.refl hs⟩
  | running hrun =>
    rw [hrun] at hs
    simp [RequestStatus.isWaiting] at hs
  | preempt _ hr => simp at hr
  | waits h => exact ⟨rfl,_,rfl,h⟩
  | admission => simp [RequestStatus.isWaiting] at hs

theorem preempt_running (h : LoopEffect cfg preempted r o (some q) es) (hs : q.status = .running)
    (hkind : ∀ e ∈ es, e.kind = .running) (hr : r ∈ preempted) :
    LoopEffect cfg preempted r o (some (preemptRequest cfg.requiresKvDelivery q)) [] := by
  cases h with
  | same => exact .preempt hs hr
  | running hrun => exact .preempt hrun hr
  | preempt => simp [preemptRequest] at hs
  | waits h =>
    have hw := h.after
    rw [hs] at hw
    simp [RequestStatus.isWaiting] at hw
  | admission hk => exact absurd (hkind _ (mem_singleton_self _)) hk

end LoopEffect

theorem min?_getD_le {l : List ℤ} {d : ℤ} (h : ∀ x ∈ l, x < d) : l.min?.getD d ≤ d := by
  cases hm : l.min? with
  | none => exact le_rfl
  | some m => exact (h m (min?_mem hm)).le

theorem mambaAlignedEnd_le (cfg : Config) (prefillEnd start stop : ℤ) :
    mambaAlignedEnd cfg prefillEnd start stop ≤ stop := by
  have hfloor := Int.ediv_mul_le stop (Int.natCast_ne_zero.mpr cfg.blockSize_pos.ne')
  unfold mambaAlignedEnd
  simp only
  split_ifs <;> omega

theorem mambaBlockAlignedSplit_bounds (cfg : Config) (q : Request) (start : ℤ) (hn : 0 ≤ n) :
    0 ≤ mambaBlockAlignedSplit cfg q start n ∧ mambaBlockAlignedSplit cfg q start n ≤ n := by
  rw [mambaBlockAlignedSplit]
  simp only
  split
  · exact ⟨hn,le_rfl⟩
  · refine ⟨le_max_right _ _,max_le ?_ hn⟩
    have hend := mambaAlignedEnd_le cfg (max (q.numPromptTokens:ℤ) (q.numTokens-1)) start (start+n)
    generalize mambaAlignedEnd cfg _ start (start+n) = stop at hend ⊢
    have hmin : (((mambaStops cfg q start stop).filter fun x =>
        start < x ∧ x < stop).min?).getD stop ≤ stop :=
      min?_getD_le fun x hx => (of_decide_eq_true (mem_filter.mp hx).2).2
    omega

theorem cutByThreshold_le (threshold n : ℤ) : cutByThreshold threshold n ≤ n := by
  unfold cutByThreshold
  split_ifs <;> omega

theorem cutByThreshold_nonneg (threshold : ℤ) (hn : 0 ≤ n) : 0 ≤ cutByThreshold threshold n := by
  unfold cutByThreshold
  split_ifs <;> omega

theorem cutByEncoder_bounds (env : Environment) (clock : ℕ) (q : Request) (hn : 0 ≤ n) :
    0 ≤ cutByEncoder env clock q n ∧ cutByEncoder env clock q n ≤ n := by
  unfold cutByEncoder
  split_ifs <;> omega

theorem cutByMamba_bounds (cfg : Config) (q : Request) (start : ℤ) (hn : 0 ≤ n) :
    0 ≤ cutByMamba cfg q start n ∧ cutByMamba cfg q start n ≤ n := by
  unfold cutByMamba
  split_ifs
  · exact mambaBlockAlignedSplit_bounds cfg q start hn
  · omega

theorem cut_bounds (cfg : Config) (env : Environment) (clock : ℕ) (q : Request) (start : ℤ)
    (hn : 0 ≤ n) : 0 ≤ cutByMamba cfg q start (cutByEncoder env clock q n) ∧
      cutByMamba cfg q start (cutByEncoder env clock q n) ≤ n := by
  have henc := cutByEncoder_bounds env clock q hn
  have hmamba := cutByMamba_bounds cfg q start henc.1
  exact ⟨hmamba.1,hmamba.2.trans henc.2⟩

theorem runningCount_spec {budget : ℤ} {step : ℕ}
    (h : runningCount cfg env threshold budget deferPrefills step clock q = some n)
    (hb : 0 < budget) (hw : 0 ≤ q.want) (hm : q.numComputedTokens < cfg.maxModelLen) :
    1 ≤ n ∧ n ≤ q.want ∧ q.numComputedTokens+n < cfg.maxModelLen := by
  rw [Request.want] at hw ⊢
  rw [runningCount] at h
  simp only at h
  split_ifs at h
  obtain rfl := Option.some.inj h
  have hthr := cutByThreshold_nonneg threshold hw
  have hle := cutByThreshold_le threshold
    (q.numTokensWithSpec+q.numOutputPlaceholders-q.numComputedTokens)
  have hbase : 0 ≤ min (min (cutByThreshold threshold
      (q.numTokensWithSpec+q.numOutputPlaceholders-q.numComputedTokens)) budget)
      ((cfg.maxModelLen:ℤ)-q.numComputedTokens-1) := by omega
  have hcut := cut_bounds cfg env clock q q.numComputedTokens hbase
  omega

/-! Preempting one request. -/

theorem laterOf_cases (s : Scheduler) (best x : ReqId) :
    laterOf s best x = best ∨ laterOf s best x = x := by
  rw [laterOf]
  split
  · split_ifs
    · exact .inr rfl
    · exact .inl rfl
  · exact .inl rfl

theorem foldl_laterOf_mem (s : Scheduler) (rs : List ReqId) (r : ReqId) :
    rs.foldl (laterOf s) r ∈ r :: rs := by
  induction rs generalizing r with
  | nil => exact mem_singleton_self r
  | cons x rs ih =>
    have h := ih (laterOf s r x)
    rw [foldl_cons]
    rcases laterOf_cases s r x with hx | hx <;> rw [hx] at h ⊢
    · rcases mem_cons.mp h with h | h
      · exact mem_cons.mpr (.inl h)
      · exact mem_cons_of_mem _ (mem_cons_of_mem _ h)
    · exact mem_cons_of_mem _ h

theorem lowestPriority_mem {s : Scheduler} {v : ReqId} (h : lowestPriority s = some v) :
    v ∈ s.running := by
  rw [lowestPriority] at h
  split at h
  · cases h
  · rename_i r rs hrun
    rw [hrun, ← Option.some.inj h]
    exact foldl_laterOf_mem s rs r

structure PreemptedOne (cfg : Config) (s s' : Loop) (v : ReqId) : Prop where
  mem : v ∈ s.sched.running
  running : s'.sched.running = s.sched.running.erase v
  requests : s'.sched.requests = update s.sched.requests v
    ((s.sched.requests v).map (preemptRequest cfg.requiresKvDelivery))
  waiting : s'.sched.waiting.Perm (v :: s.sched.waiting)
  skipped : s'.sched.skippedWaiting = s.sched.skippedWaiting
  scheduled : s'.scheduled = s.scheduled.filter fun e => e.reqId ≠ v
  preempted : s'.preempted = s.preempted ++ [v]
  reqIndex : s'.reqIndex = s.reqIndex ∨
    (∃ e ∈ s.scheduled, e.reqId = v) ∧ s'.reqIndex = s.reqIndex-1
  stepSkipped : s'.stepSkippedWaiting = s.stepSkippedWaiting
  last : cfg.policy = .fcfs → s.sched.running.getLast? = some v

theorem preemptOne_spec {v : ReqId} (hn : s.sched.running.Nodup)
    (hlast : cfg.policy = .fcfs → s.sched.running.getLast? = some v →
      ∀ e ∈ s.scheduled, e.reqId ≠ v) (h : preemptOne cfg s = some (v,s')) :
    PreemptedOne cfg s s' v := by
  rw [preemptOne] at h
  split at h
  · rename_i hp
    obtain ⟨w,hw,heq⟩ := map_eq_some_iff.mp h
    obtain ⟨rfl,rfl⟩ := Prod.mk.inj heq
    have hfilter : s.scheduled.filter (fun e => e.reqId ≠ w) = s.scheduled :=
      filter_eq_self.mpr fun e he => by simpa using hlast hp hw e he
    exact ⟨mem_of_getLast? hw,dropLast_eq_erase hn hw,rfl,
      prependRequest_perm _ _ _ _,rfl,hfilter.symm,rfl,.inl rfl,rfl,fun _ => hw⟩
  · rename_i hp
    obtain ⟨w,hw,heq⟩ := map_eq_some_iff.mp h
    obtain ⟨rfl,rfl⟩ := Prod.mk.inj heq
    refine ⟨lowestPriority_mem hw,rfl,rfl,prependRequest_perm _ _ _ _,rfl,rfl,rfl,?_,rfl,
      fun hf => by simp [hp] at hf⟩
    by_cases hempty : (s.scheduled.filter fun e => e.reqId = w).isEmpty
    · exact .inl (if_pos hempty)
    · refine .inr ⟨?_,if_neg hempty⟩
      rw [List.isEmpty_iff, List.filter_eq_nil_iff] at hempty
      push Not at hempty
      simpa using hempty

variable {P : Loop → Prop}

theorem allocateRunning_invariant (env : Environment) (htick : ∀ s, P s → P s.tick)
    (hpreempt : ∀ s s' v, P s → preemptOne cfg s = some (v,s') → P s') (r : ReqId) (fuel : ℕ)
    (h : P s) : P (allocateRunning cfg env r fuel s).1 := by
  induction fuel generalizing s with
  | zero => exact h
  | succ fuel ih =>
    rw [allocateRunning]
    split
    · exact htick s h
    split
    · exact h
    · rename_i v s' hp
      have h' := hpreempt _ _ _ (htick s h) hp
      split
      · exact h'
      · exact ih h'

theorem runningLoop_invariant (htick : ∀ s, P s → P s.tick)
    (hpreempt : ∀ s s' v, P s → preemptOne cfg s = some (v,s') → P s')
    (hindex : ∀ s i, P s → P { s with reqIndex := i })
    (hrecord : ∀ s q r n, P s → P (recordRunning s q r n)) (fuel : ℕ) (h : P s) :
    P (runningLoop cfg env threshold deferPrefills fuel s) := by
  induction fuel generalizing s with
  | zero => exact h
  | succ fuel ih =>
    rw [runningLoop]
    split
    · exact h
    split
    · exact h
    rename_i r hr
    split
    · exact h
    rename_i q hq
    split
    · exact ih (hindex _ _ (htick s h))
    · have halloc := allocateRunning_invariant env htick hpreempt r
        (s.sched.running.length+1) (htick s h)
      split
      · rename_i s' hs'
        rw [hs'] at halloc
        exact halloc
      · rename_i s' hs'
        rw [hs'] at halloc
        exact ih (hrecord _ _ _ _ halloc)

def entriesOf (r : ReqId) (es : List Scheduled) : List Scheduled := es.filter fun e => e.reqId = r

theorem entriesOf_append_self (es : List Scheduled) (h : e.reqId = r) :
    entriesOf r (es ++ [e]) = entriesOf r es ++ [e] := by
  simp [entriesOf, h]

theorem entriesOf_append_of_ne (es : List Scheduled) (h : r ≠ e.reqId) :
    entriesOf r (es ++ [e]) = entriesOf r es := by
  simp [entriesOf, h.symm]

theorem entriesOf_eq_nil (h : ∀ e ∈ es, e.reqId ≠ r) : entriesOf r es = [] :=
  List.filter_eq_nil_iff.mpr fun e he => by simpa using h e he

theorem mem_of_mem_entriesOf (h : e ∈ entriesOf r es) : e ∈ es := mem_of_mem_filter h

/-- Dropping the entries of `v` leaves those of the others. -/
theorem entriesOf_filter_self (v : ReqId) (es : List Scheduled) :
    entriesOf v (es.filter fun e => e.reqId ≠ v) = [] :=
  entriesOf_eq_nil fun e he => by simpa using (mem_filter.mp he).2

theorem entriesOf_filter_of_ne {v : ReqId} (es : List Scheduled) (h : r ≠ v) :
    entriesOf r (es.filter fun e => e.reqId ≠ v) = entriesOf r es := by
  rw [entriesOf, List.filter_filter]
  apply List.filter_congr
  intro e _
  by_cases he : e.reqId = r
  · simp [he, h]
  · simp [he]

/-- What holds at every iteration of the running loop, with `before` the requests at its start.
Entries belong to requests already passed. -/
structure RunningInv (cfg : Config) (before : ReqId → Option Request) (s : Loop) : Prop where
  queued : WellQueued s.sched.requests s.sched.running (s.sched.waiting ++ s.sched.skippedWaiting)
  effect : ∀ r, LoopEffect cfg s.preempted r (before r) (s.sched.requests r)
    (entriesOf r s.scheduled)
  passed : ∀ e ∈ s.scheduled, e.reqId ∈ s.sched.running.take s.reqIndex
  kinds : ∀ e ∈ s.scheduled, e.kind = .running
  noneSkipped : s.stepSkippedWaiting = []

section RunningLoop

variable {cfg : Config} {env : Environment} {before : ReqId → Option Request}

theorem RunningInv.tick (h : RunningInv cfg before s) : RunningInv cfg before s.tick :=
  ⟨h.queued,h.effect,h.passed,h.kinds,h.noneSkipped⟩

theorem RunningInv.preemptedOne {v : ReqId} (h : RunningInv cfg before s)
    (hp : PreemptedOne cfg s s' v) : RunningInv cfg before s' := by
  obtain ⟨q,hq,hrun⟩ := h.queued.ofRunning v hp.mem
  have hreq : s'.sched.requests = update s.sched.requests v
      (some (preemptRequest cfg.requiresKvDelivery q)) := by
    rw [hp.requests, hq]
    rfl
  constructor
  · have hmove := h.queued.move_to_queue (q := preemptRequest cfg.requiresKvDelivery q) hp.mem rfl
    rw [hreq, hp.running, hp.skipped]
    exact hmove.perm (.refl _) (hp.waiting.append_right _)
  · intro r
    rw [hp.scheduled, hreq, hp.preempted]
    have hmono := (h.effect r).mono (subset_append_left s.preempted [v])
    by_cases hr : r = v
    · subst hr
      rw [hq] at hmono
      rw [entriesOf_filter_self, update_self]
      exact hmono.preempt_running hrun (fun e he => h.kinds e (mem_of_mem_entriesOf he)) (by simp)
    · rwa [entriesOf_filter_of_ne _ hr, update_of_ne hr]
  · intro e he
    rw [hp.scheduled] at he
    obtain ⟨hmem,hne⟩ := mem_filter.mp he
    have hpass := h.passed e hmem
    rw [hp.running]
    rcases hp.reqIndex with hi | ⟨⟨e',he',rfl⟩,hi⟩ <;> rw [hi]
    · exact mem_erase_take hpass (by simpa using hne)
    · exact mem_erase_take_pred (h.passed e' he') hpass (by simpa using hne)
  · intro e he
    rw [hp.scheduled] at he
    exact h.kinds e (mem_of_mem_filter he)
  · rw [hp.stepSkipped, h.noneSkipped]

structure Current (cfg : Config) (s : Loop) (r : ReqId) (q : Request) : Prop where
  request : s.sched.requests r = some q
  reached : r ∈ s.sched.running.take (s.reqIndex+1)
  noEntry : ∀ e ∈ s.scheduled, e.reqId ≠ r
  position : cfg.policy = .fcfs → s.sched.running[s.reqIndex]? = some r

theorem Current.preemptedOne {v : ReqId} (hn : s.sched.running.Nodup)
    (h : RunningInv cfg before s) (hc : Current cfg s r q) (hp : PreemptedOne cfg s s' v)
    (hne : v ≠ r) : Current cfg s' r q := by
  constructor
  · rw [hp.requests, update_of_ne hne.symm]
    exact hc.request
  · rw [hp.running]
    rcases hp.reqIndex with hi | ⟨⟨e,he,rfl⟩,hi⟩
    · rw [hi]
      exact mem_erase_take hc.reached hne.symm
    · have hpass := h.passed e he
      have hpos : 0 < s.reqIndex := by
        rcases Nat.eq_zero_or_pos s.reqIndex with h0 | h0
        · simp [h0] at hpass
        · exact h0
      rw [hi, Nat.sub_add_cancel hpos]
      exact mem_erase_take_pred (take_subset_take_left _ (Nat.le_succ _) hpass) hc.reached
        hne.symm
  · intro e he
    rw [hp.scheduled] at he
    exact hc.noEntry e (mem_of_mem_filter he)
  · intro hpol
    have hlast := hp.last hpol
    have hpos := hc.position hpol
    have hindex : s'.reqIndex = s.reqIndex := by
      rcases hp.reqIndex with hi | ⟨⟨e,he,rfl⟩,_⟩
      · exact hi
      · exact absurd (h.passed e he) (getLast?_notMem_take hn hlast hpos)
    rw [hp.running, hindex, ← dropLast_eq_erase hn hlast, getElem?_dropLast, if_pos]
    · exact hpos
    · obtain ⟨hlt,hr⟩ := List.getElem?_eq_some_iff.mp hpos
      rw [List.getLast?_eq_getElem?] at hlast
      by_contra hge
      have hsame : s.sched.running.length-1 = s.reqIndex := by omega
      rw [hsame, hpos] at hlast
      exact hne (Option.some.inj hlast).symm

theorem allocateRunning_spec (env : Environment) (fuel : ℕ) (h : RunningInv cfg before s)
    (hc : Current cfg s r q) : RunningInv cfg before (allocateRunning cfg env r fuel s).1 ∧
      ((allocateRunning cfg env r fuel s).2 = true →
        Current cfg (allocateRunning cfg env r fuel s).1 r q) := by
  induction fuel generalizing s with
  | zero => exact ⟨h,fun hf => by simp [allocateRunning] at hf⟩
  | succ fuel ih =>
    rw [allocateRunning]
    split
    · exact ⟨h.tick,fun _ => ⟨hc.request,hc.reached,hc.noEntry,hc.position⟩⟩
    split
    · exact ⟨h,fun hf => by simp at hf⟩
    · rename_i v s' hp
      have hn := h.queued.nodup_running
      have hlast : cfg.policy = .fcfs → s.tick.sched.running.getLast? = some v →
          ∀ e ∈ s.tick.scheduled, e.reqId ≠ v := by
        rintro hpol hv e he rfl
        exact getLast?_notMem_take hn hv (hc.position hpol) (h.passed e he)
      have hspec : PreemptedOne cfg s.tick s' v := preemptOne_spec hn hlast hp
      have h' := h.tick.preemptedOne hspec
      split
      · exact ⟨h',fun hf => by simp at hf⟩
      · rename_i hne
        have hc' : Current cfg s.tick r q := ⟨hc.request,hc.reached,hc.noEntry,hc.position⟩
        exact ih h' (Current.preemptedOne (s := s.tick) hn h.tick hc' hspec hne)

theorem RunningInv.recordRunning (h : RunningInv cfg before s) (hc : Current cfg s r q)
    (hn : 0 ≤ q.want → q.numComputedTokens < cfg.maxModelLen →
      1 ≤ n ∧ n ≤ q.want ∧ q.numComputedTokens+n < cfg.maxModelLen) :
    RunningInv cfg before (recordRunning s q r n) := by
  have hmem : r ∈ s.sched.running := mem_of_mem_take hc.reached
  obtain ⟨q',hq',hrun⟩ := h.queued.ofRunning r hmem
  obtain rfl : q = q' := Option.some.inj (hc.request.symm.trans hq')
  have hreq : (MetaZenith.Sched.recordRunning s q r n).sched.requests =
      update s.sched.requests r (some { q with numSpecTokenIds := 0 }) := by
    show update s.sched.requests r ((s.sched.requests r).map _) = _
    rw [hc.request]
    rfl
  have hnone := entriesOf_eq_nil hc.noEntry
  constructor
  · rw [hreq]
    exact h.queued.replace_running hmem hrun
  · intro x
    show LoopEffect cfg s.preempted x (before x) _
      (entriesOf x (s.scheduled ++ [⟨r,q.numComputedTokens,n,runningDrafts q n,.running⟩]))
    rw [hreq]
    by_cases hx : x = r
    · subst hx
      have heff := h.effect x
      rw [hnone, hc.request] at heff
      rw [entriesOf_append_self _ (by rfl), hnone, heff.eq_of_running hrun, update_self]
      exact .running hrun hn
    · rw [update_of_ne hx, entriesOf_append_of_ne _ hx]
      exact h.effect x
  · intro e he
    show e.reqId ∈ s.sched.running.take (s.reqIndex+1)
    rcases mem_append.mp he with he | he
    · exact take_subset_take_left _ (Nat.le_succ _) (h.passed e he)
    · obtain rfl := mem_singleton.mp he
      exact hc.reached
  · intro e he
    rcases mem_append.mp he with he | he
    · exact h.kinds e he
    · rw [mem_singleton.mp he]
  · exact h.noneSkipped

theorem runningLoop_spec (env : Environment) (threshold : ℤ) (deferPrefills : Bool) (fuel : ℕ)
    (h : RunningInv cfg before s) :
    RunningInv cfg before (runningLoop cfg env threshold deferPrefills fuel s) := by
  induction fuel generalizing s with
  | zero => exact h
  | succ fuel ih =>
    rw [runningLoop]
    split
    · exact h
    rename_i hbudget
    split
    · exact h
    rename_i r hr
    split
    · exact h
    rename_i q hq
    have hn := h.queued.nodup_running
    obtain ⟨hlt,hget⟩ := List.getElem?_eq_some_iff.mp hr
    split
    · apply ih
      refine ⟨h.queued,h.effect,fun e he => ?_,h.kinds,h.noneSkipped⟩
      exact take_subset_take_left _ (Nat.le_succ _) (h.passed e he)
    · rename_i n hcount
      have hc : Current cfg s.tick r q := by
        refine ⟨hq,?_,?_,fun _ => hr⟩
        · exact mem_take_iff_getElem.mpr ⟨s.reqIndex,by simp [Loop.tick]; omega,hget⟩
        · rintro e he rfl
          obtain ⟨i,hi,hie⟩ := mem_take_iff_getElem.mp (h.passed e he)
          have := hn.getElem_inj_iff.mp (hie.trans hget.symm)
          omega
      obtain ⟨h',hc'⟩ := allocateRunning_spec env (s.sched.running.length+1) h.tick hc
      split
      · rename_i s' hs'
        rw [hs'] at h'
        exact h'
      · rename_i s' hs'
        rw [hs'] at h' hc'
        exact ih (h'.recordRunning (hc' rfl) fun hw hm =>
          runningCount_spec hcount (by omega) hw hm)

end RunningLoop

theorem lookupPrefix_spec {start : Start} {boundary : ℤ}
    (h : lookupPrefix env clock q = .next (start,boundary)) (h0 : 0 ≤ q.numComputedTokens)
    (h1 : 1 ≤ q.numTokens) : 0 ≤ start.numComputedTokens := by
  rw [lookupPrefix] at h
  split at h
  · split at h
    · cases h
    · rename_i hit _
      simp only at h
      split at h
      · cases h
      split at h
      · cases h
      split at h
      · cases h
      cases h
      show 0 ≤ min (hit.localHit:ℤ) (q.numTokens-1)+hit.external
      omega
  · cases h
    exact h0

theorem padsSpecDecode_one (h : padsSpecDecode cfg s n = true) : n = 1 := by
  simp only [padsSpecDecode, Bool.and_eq_true, decide_eq_true_eq] at h
  exact h.1.1.2

theorem uncutCount_spec (h : uncutCount cfg threshold deferPrefills s q start = .next (n,pad)) :
    1 ≤ n ∧ (pad = false → start+n ≤ q.numTokens) ∧
      (pad = true → start+1 = q.numTokens ∧ n ≤ 1+cfg.numSpecTokens ∧
        start+1+cfg.numSpecTokens ≤ cfg.maxModelLen) := by
  rw [uncutCount] at h
  split at h
  · cases h
  simp only at h
  cases hpad : padsSpecDecode cfg s (q.numTokens-start) with
  | false =>
    simp only [hpad, Bool.false_eq_true, false_and, if_false] at h
    split at h
    · cases h
    split at h
    · cases h
    rename_i hpos
    cases h
    have hthr := cutByThreshold_le threshold (q.numTokens-start)
    exact ⟨by omega,fun _ => by omega,fun hf => by simp at hf⟩
  | true =>
    have hone := padsSpecDecode_one hpad
    simp only [hpad, true_and, if_true] at h
    split at h
    · cases h
    rename_i hroom
    split at h
    · cases h
    split at h
    · cases h
    rename_i hpos
    cases h
    have hthr := cutByThreshold_le threshold (1+cfg.numSpecTokens)
    exact ⟨by omega,fun hf => by simp at hf,fun _ => by omega⟩

theorem admissionCount_spec
    (h : admissionCount cfg env threshold deferPrefills s q start = .next (n,pad)) :
    1 ≤ n ∧ (pad = false → start+n ≤ q.numTokens) ∧
      (pad = true → start+1 = q.numTokens ∧ n ≤ 1+cfg.numSpecTokens ∧
        start+1+cfg.numSpecTokens ≤ cfg.maxModelLen) := by
  rw [admissionCount] at h
  split at h
  · cases h
  · cases h
  · rename_i m pad' hm
    obtain ⟨hpos,hunpadded,hpadded⟩ := uncutCount_spec hm
    simp only at h
    split at h
    · cases h
    split at h
    · cases h
    rename_i hne
    cases h
    have hcut := cut_bounds cfg env s.clock q start (by omega : 0 ≤ m)
    exact ⟨by omega,fun hp => by have := hunpadded hp; omega,fun hp => by have := hpadded hp; omega⟩

def Loop.queue (s : Loop) : List ReqId :=
  s.sched.waiting ++ s.sched.skippedWaiting ++ s.stepSkippedWaiting

structure WaitingInv (cfg : Config) (before : ReqId → Option Request) (s : Loop) : Prop where
  queued : WellQueued s.sched.requests s.sched.running s.queue
  effect : ∀ r, LoopEffect cfg [] r (before r) (s.sched.requests r) (entriesOf r s.scheduled)

/-- `r` heads the queue chosen for this iteration, `rest` is the queue without it. -/
def Selected (s : Scheduler) (fromSkipped : Bool) (r : ReqId) (rest : List ReqId) : Prop :=
  if fromSkipped then (r :: rest).Perm s.skippedWaiting else (r :: rest).Perm s.waiting

theorem orElse_eq_some {α : Type} {a b : Option α} {x : α}
    (h : a.orElse (fun _ => b) = some x) : a = some x ∨ b = some x := by
  cases a with
  | none => exact .inr h
  | some y => exact .inl h

theorem selectWaiting_pops {s : Scheduler} (h : selectWaiting cfg s = some (fromSkipped,r,rest)) :
    popRequest cfg.policy s.lt (if fromSkipped then s.skippedWaiting else s.waiting) =
      some (r,rest) := by
  have hpops (b : Bool) (queue : List ReqId) (x : Bool × ReqId × List ReqId)
      (hqueue : (if b then s.skippedWaiting else s.waiting) = queue)
      (hx : (popRequest cfg.policy s.lt queue).map (b,·) = some x) :
      popRequest cfg.policy s.lt (if x.1 then s.skippedWaiting else s.waiting) = some x.2 := by
    obtain ⟨y,hy,rfl⟩ := map_eq_some_iff.mp hx
    rw [hqueue, hy]
  have hskipped := fun x => hpops true s.skippedWaiting x rfl
  have hwaiting := fun x => hpops false s.waiting x rfl
  rw [selectWaiting] at h
  generalize (popRequest cfg.policy s.lt s.skippedWaiting).map (true,·) = skipped at h hskipped
  generalize (popRequest cfg.policy s.lt s.waiting).map (false,·) = waiting at h hwaiting
  split at h
  · exact (orElse_eq_some h).elim (hskipped _) (hwaiting _)
  · split_ifs at h
    · exact hwaiting _ h
    · exact hskipped _ h
  · exact (orElse_eq_some h).elim (hwaiting _) (hskipped _)

theorem selectWaiting_spec {s : Scheduler} (h : selectWaiting cfg s = some (fromSkipped,r,rest)) :
    Selected s fromSkipped r rest := by
  have hperm := popRequest_perm _ _ (selectWaiting_pops h)
  cases fromSkipped <;> exact hperm

theorem Selected.perm (h : Selected s.sched fromSkipped r rest) :
    (r :: ({ s with sched := popSelected s.sched fromSkipped rest } : Loop).queue).Perm s.queue := by
  cases fromSkipped with
  | false => exact (show (r :: rest).Perm s.sched.waiting from h).append_right _ |>.append_right _
  | true =>
    have hperm : (r :: rest).Perm s.sched.skippedWaiting := h
    have hqueue : (r :: (s.sched.waiting ++ rest)).Perm (s.sched.waiting ++ s.sched.skippedWaiting) :=
      perm_middle.symm.trans (hperm.append_left _)
    exact hqueue.append_right _

theorem Selected.mem (h : Selected s.sched fromSkipped r rest) : r ∈ s.queue :=
  h.perm.mem_iff.mp mem_cons_self

def Outcome.Holds {α : Type} (P : α → Prop) : Outcome α → Prop
  | .next a | .stop a => P a
  | .raise => True

/-- The loop has looked at request `r`, which is now `q`, and touched no queue and no entry. -/
structure LooksAt (s t : Loop) (r : ReqId) (q : Request) : Prop where
  requests : t.sched.requests = update s.sched.requests r (some q)
  running : t.sched.running = s.sched.running
  waiting : t.sched.waiting = s.sched.waiting
  skipped : t.sched.skippedWaiting = s.sched.skippedWaiting
  num : t.sched.numWaitingForStreamingInput = s.sched.numWaitingForStreamingInput
  aside : t.stepSkippedWaiting = s.stepSkippedWaiting
  scheduled : t.scheduled = s.scheduled

structure Admits (cfg : Config) (s t : Loop) (fromSkipped : Bool) (r : ReqId) (rest : List ReqId)
    (q : Request) (start n : ℤ) (pad : Bool) : Prop where
  status : q.status = .waiting ∨ q.status = .preempted
  requests : t.sched.requests =
    update s.sched.requests r (some { q with status := .running, numComputedTokens := start })
  running : t.sched.running = s.sched.running ++ [r]
  waiting : t.sched.waiting = (popSelected s.sched fromSkipped rest).waiting
  skipped : t.sched.skippedWaiting = (popSelected s.sched fromSkipped rest).skippedWaiting
  num : t.sched.numWaitingForStreamingInput = s.sched.numWaitingForStreamingInput
  aside : t.stepSkippedWaiting = s.stepSkippedWaiting
  scheduled : t.scheduled = s.scheduled ++ [⟨r,start,n,if pad then cfg.numSpecTokens else 0,
    if q.status = .waiting then .new else .resumed⟩]

/-- What becomes of the head of the chosen queue, a request that waits: it stays where it is and the
loop ends, or it is set aside, or it is admitted. -/
inductive WaitingMove (cfg : Config) (s : Loop) (fromSkipped : Bool) (r : ReqId) (rest : List ReqId)
    (q : Request) : Loop → Prop
  | stays {t : Loop} {q' : Request} (hw : Waits q q') (hl : LooksAt s t r q') :
      WaitingMove cfg s fromSkipped r rest q t
  | skipped {t : Loop} {q' : Request} (hw : Waits q q') (hl : LooksAt s t r q') :
      WaitingMove cfg s fromSkipped r rest q (skipWaiting cfg t fromSkipped r rest)
  | admitted {t t' : Loop} {q' : Request} {start n : ℤ} {pad : Bool} (hw : Waits q q')
      (hl : LooksAt s t r q') (hadm : Admission cfg q' start n pad)
      (h : Admits cfg t t' fromSkipped r rest q' start n pad) :
      WaitingMove cfg s fromSkipped r rest q t'

inductive WaitingStep (cfg : Config) (s : Loop) : Loop → Prop
  | idle : WaitingStep cfg s s
  | head {fromSkipped : Bool} {r : ReqId} {rest : List ReqId} {q : Request} {t : Loop}
      (hroom : (s.sched.running.length:ℤ)+s.sched.numWaitingForStreamingInput < cfg.maxNumRunningReqs)
      (hselect : selectWaiting cfg s.sched = some (fromSkipped,r,rest))
      (hq : s.sched.requests r = some q) (h : WaitingMove cfg s fromSkipped r rest q t) :
      WaitingStep cfg s t

section WaitingLoop

variable {cfg : Config} {env : Environment} {before : ReqId → Option Request} {t : Loop}

namespace LooksAt

theorem tick (h : s.sched.requests r = some q) : LooksAt s s.tick r q :=
  ⟨by rw [← h, update_eq_self]; rfl,rfl,rfl,rfl,rfl,rfl,rfl⟩

theorem request (h : LooksAt s t r q) : t.sched.requests r = some q := by
  rw [h.requests, update_self]

theorem modify (h : LooksAt s t r q) (f : Request → Request) : LooksAt s (t.modify r f) r (f q) := by
  refine ⟨?_,h.running,h.waiting,h.skipped,h.num,h.aside,h.scheduled⟩
  refine (Scheduler.modify_requests_of_some f h.request).trans ?_
  rw [h.requests, update_idem]

theorem queue (h : LooksAt s t r q) : t.queue = s.queue := by
  rw [Loop.queue, h.waiting, h.skipped, h.aside, Loop.queue]

theorem selected (h : LooksAt s t r q) (hsel : Selected s.sched fromSkipped r rest) :
    Selected t.sched fromSkipped r rest := by
  rwa [Selected, h.waiting, h.skipped]

end LooksAt

theorem popSelected_kept (s : Scheduler) (fromSkipped : Bool) (rest : List ReqId) :
    (popSelected s fromSkipped rest).requests = s.requests ∧
      (popSelected s fromSkipped rest).running = s.running ∧
      (popSelected s fromSkipped rest).numWaitingForStreamingInput = s.numWaitingForStreamingInput := by
  rw [popSelected]
  split <;> exact ⟨rfl,rfl,rfl⟩

theorem admitPopped_spec (cfg : Config) (fromSkipped : Bool) (rest : List ReqId) (start n : ℤ)
    (pad : Bool) (hq : s.sched.requests r = some q) :
    (admitPopped cfg { s with sched := popSelected s.sched fromSkipped rest } q r start n pad).Holds
      fun t => Admits cfg s t fromSkipped r rest q start n pad := by
  obtain ⟨hrequests,hrunning,hnum⟩ := popSelected_kept s.sched fromSkipped rest
  rw [admitPopped]
  split
  · rename_i hstatus
    refine ⟨hstatus,?_,congrArg (· ++ [r]) hrunning,rfl,rfl,hnum,rfl,rfl⟩
    rw [← hrequests] at hq ⊢
    exact Scheduler.modify_requests_of_some _ hq
  · trivial

theorem admitWaiting_move {p : Request} {start : Start} (hw : Waits p q) (hl : LooksAt s t r q)
    (hstream : q.status ≠ .waitingForStreamingReq)
    (hstale : ¬(0 < q.numStaleOutputTokens ∧ q.dropStaleOutput = false))
    (hstart : 0 ≤ q.numComputedTokens → 1 ≤ q.numTokens → 0 ≤ start.numComputedTokens) :
    (admitWaiting cfg env threshold deferPrefills t fromSkipped r rest q start).Holds
      (WaitingMove cfg s fromSkipped r rest p) := by
  have hstays : WaitingMove cfg s fromSkipped r rest p t := .stays hw hl
  rw [admitWaiting]
  split
  · split
    · exact hstays
    · have hremote : Waits q { q with
          status := .waitingForRemoteKvs, numComputedTokens := start.numComputedTokens } :=
        ⟨hw.after,rfl,rfl,hstart,fun _ => by simp [Request.Aged],iff_of_false hstream (by simp)⟩
      exact .skipped (hw.trans hremote) (hl.modify _)
  · split
    · exact hstays
    · trivial
    · rename_i n pad hcount
      obtain ⟨hpos,hunpadded,hpadded⟩ := admissionCount_spec hcount
      split
      · exact hstays
      · have hadm : Admission cfg q start.numComputedTokens n pad :=
          ⟨hw.after,hstream,hstale,hpos,hstart,hunpadded,hpadded⟩
        have hadmits := admitPopped_spec cfg fromSkipped rest start.numComputedTokens n pad hl.request
        revert hadmits
        cases admitPopped cfg { t with sched := popSelected t.sched fromSkipped rest } q r
          start.numComputedTokens n pad with
        | raise => exact fun _ => trivial
        | next t' => exact .admitted hw hl hadm
        | stop t' => exact .admitted hw hl hadm

theorem considerWaiting_move {p : Request} (hw : Waits p q) (hl : LooksAt s t r q)
    (hstream : q.status ≠ .waitingForStreamingReq) :
    (considerWaiting cfg env threshold deferPrefills t fromSkipped r rest q).Holds
      (WaitingMove cfg s fromSkipped r rest p) := by
  have hboundary (boundary : ℤ) : Waits p { q with sharedPrefixBoundary := boundary } :=
    hw.trans ⟨hw.after,hw.after,rfl,fun h _ => h,id,.rfl⟩
  rw [considerWaiting]
  split
  · exact .skipped hw hl
  rename_i hskip
  split
  · trivial
  · exact .skipped (hboundary _) (hl.modify _)
  · rename_i start boundary hlookup
    refine admitWaiting_move (hboundary boundary) (hl.modify _) hstream ?_ ?_
    · rintro ⟨hpos,hdrop⟩
      apply hskip
      simp [mustSkip, show 0 < q.numStaleOutputTokens from hpos,
        show q.dropStaleOutput = false from hdrop]
    · exact fun h0 h1 => lookupPrefix_spec hlookup h0 h1

/-- Promotion replaces at most the request in question, and one that may be considered is not
waiting for streaming input. -/
theorem tryPromote_spec (env : Environment) (hq : s.sched.requests r = some q)
    (hwait : q.status.isWaiting = true) :
    match tryPromote env s.sched s.clock r q with
    | .raise => True
    | .stop sched => LooksAt s { s.tick with sched := sched } r q
    | .next sched => ∃ q', Waits q q' ∧ LooksAt s { s.tick with sched := sched } r q' ∧
        q'.status ≠ .waitingForStreamingReq := by
  have hsame := LooksAt.tick hq
  cases hst : q.status
  case waitingForRemoteKvs =>
    simp only [tryPromote, hst]
    split_ifs
    · have hmod := hsame.modify kvReceived
      have hstatus : (kvReceived q).status = .preempted ∨ (kvReceived q).status = .waiting := by
        rw [kvReceived]
        split_ifs <;> simp
      refine ⟨kvReceived q,⟨hwait,?_,rfl,fun h0 h1 => ?_,fun _ => ?_,?_⟩,
        ⟨hmod.requests,rfl,rfl,rfl,rfl,rfl,rfl⟩,?_⟩
      · rcases hstatus with h | h <;> rw [h] <;> rfl
      · show 0 ≤ if q.numComputedTokens = q.numTokens then q.numTokens-1 else q.numComputedTokens
        split_ifs <;> omega
      · by_cases hpre : q.numPreemptions = 0
        · simp [Request.Aged, kvReceived, hpre]
        · simp [Request.Aged, kvReceived, hpre, Nat.pos_of_ne_zero hpre]
      · refine iff_of_false (by simp [hst]) ?_
        rcases hstatus with h | h <;> simp [h]
      · rcases hstatus with h | h <;> simp [h]
    · exact hsame
  case waitingForStructuredOutputGrammar =>
    simp only [tryPromote, hst]
    cases env.grammar s.clock
    case ready =>
      have hage (h : q.Aged) : ({ q with status := .waiting } : Request).Aged :=
        ⟨fun _ => h.1 (.inr hst),by simp⟩
      exact ⟨{ q with status := .waiting },⟨hwait,rfl,rfl,fun h _ => h,hage,by simp [hst]⟩,
        hsame.modify fun q => { q with status := .waiting },by simp⟩
    all_goals exact ⟨hsame.requests,rfl,rfl,rfl,rfl,rfl,rfl⟩
  case waitingForStreamingReq =>
    simp only [tryPromote, hst]
    split_ifs
    · exact hsame
    · trivial
  all_goals
    simp only [tryPromote, hst]
    exact ⟨q,.refl hwait,hsame,by simp [hst]⟩

theorem waitingStep_cases (hqueued : WellQueued s.sched.requests s.sched.running s.queue) :
    (waitingStep cfg env threshold deferPrefills s).Holds (WaitingStep cfg s) := by
  have hholds {fromSkipped : Bool} {r : ReqId} {rest : List ReqId} {q : Request} {o : Outcome Loop}
      (hroom : (s.sched.running.length:ℤ)+s.sched.numWaitingForStreamingInput < cfg.maxNumRunningReqs)
      (hselect : selectWaiting cfg s.sched = some (fromSkipped,r,rest))
      (hq : s.sched.requests r = some q) (h : o.Holds (WaitingMove cfg s fromSkipped r rest q)) :
      o.Holds (WaitingStep cfg s) := by
    cases o with
    | raise => trivial
    | next t => exact .head hroom hselect hq h
    | stop t => exact .head hroom hselect hq h
  rw [waitingStep]
  split
  · exact .idle
  rename_i hroom
  split
  · exact .idle
  rename_i fromSkipped r rest hselect
  split
  · trivial
  rename_i q hq
  refine hholds (not_le.mp hroom) hselect hq ?_
  obtain ⟨q1,hq1,hwait⟩ := hqueued.ofQueue r (Selected.mem (s := s) (selectWaiting_spec hselect))
  obtain rfl : q = q1 := Option.some.inj (hq.symm.trans hq1)
  have hpromote := tryPromote_spec env hq hwait
  split
  · trivial
  · rename_i sched hp
    rw [hp] at hpromote
    exact .skipped (.refl hwait) hpromote
  · rename_i sched hp
    rw [hp] at hpromote
    obtain ⟨q',hw,hl,hstream⟩ := hpromote
    rw [show sched.requests r = some q' from hl.request]
    exact considerWaiting_move hw hl hstream

theorem queue_skipWaiting (hsel : Selected s.sched fromSkipped r rest) :
    (skipWaiting cfg s fromSkipped r rest).queue.Perm s.queue :=
  ((prependRequest_perm _ _ _ _).append_left _).trans (perm_middle.trans hsel.perm)

theorem Admits.queue (h : Admits cfg s t fromSkipped r rest q start n pad)
    (hsel : Selected s.sched fromSkipped r rest) : (r :: t.queue).Perm s.queue := by
  rw [Loop.queue, h.waiting, h.skipped, h.aside]
  exact hsel.perm

def Loop.Queued (s : Loop) : Prop := WellQueued s.sched.requests s.sched.running s.queue

theorem WaitingStep.queued (h : s.Queued) (hs : WaitingStep cfg s s') : s'.Queued := by
  cases hs with
  | idle => exact h
  | @head fromSkipped r rest q t hroom hselect hq hmove =>
    have hsel := selectWaiting_spec hselect
    have hlooks {t : Loop} {q' : Request} (hw : Waits q q') (hl : LooksAt s t r q') : t.Queued := by
      rw [Loop.Queued, hl.requests, hl.running, hl.queue]
      exact h.replace_waiting (Selected.mem (s := s) hsel) hw.after
    cases hmove with
    | stays hw hl => exact hlooks hw hl
    | @skipped t q' hw hl =>
      obtain ⟨hrequests,hrunning,-⟩ := popSelected_kept t.sched fromSkipped rest
      rw [Loop.Queued, skipWaiting, hrequests, hrunning]
      exact (hlooks hw hl).perm (.refl _) (queue_skipWaiting (hl.selected hsel))
    | admitted hw hl hadm hs =>
      rw [Loop.Queued, hs.requests, hs.running]
      exact ((hlooks hw hl).perm (.refl _) (hs.queue (hl.selected hsel))).move_to_running rfl

theorem LoopEffect.admits {o : Option Request} (heff : LoopEffect cfg [] r o (some q) es)
    (hadm : Admission cfg q start n pad) (hstatus : q.status = .waiting ∨ q.status = .preempted) :
    es = [] ∧ LoopEffect cfg [] r o (some { q with status := .running, numComputedTokens := start })
      [⟨r,start,n,if pad then cfg.numSpecTokens else 0,
        if q.status = .waiting then .new else .resumed⟩] := by
  obtain ⟨hnil,q0,h0,hwaits⟩ := heff.waits_of_isWaiting hadm.waiting
  have heq : { q with status := RequestStatus.running, numComputedTokens := start } =
      { q0 with
        status := RequestStatus.running
        numComputedTokens := start
        sharedPrefixBoundary := q.sharedPrefixBoundary } := by
    rw [hwaits.rest]
  rw [heq, h0]
  refine ⟨hnil,.admission (by split_ifs <;> simp) (fun hage => ?_)
    ⟨hwaits.before,hadm.notStreaming ∘ hwaits.streaming.mp,?_,hadm.pos,?_,?_,?_⟩⟩
  · have hpre : q.numPreemptions = q0.numPreemptions := by rw [hwaits.rest]
    have haged := hwaits.aged hage
    rw [← hpre]
    rcases hstatus with hst | hst
    · simp [hst, haged.1 (.inl hst)]
    · simp [hst, (haged.2 hst).ne']
  · have hns := hadm.notStale
    rwa [hwaits.rest] at hns
  · intro h0 h1
    exact hadm.start_nonneg (hwaits.nonneg h0 h1) (hwaits.numTokens ▸ h1)
  · rw [← hwaits.numTokens]
    exact hadm.unpadded
  · rw [← hwaits.numTokens]
    exact hadm.padded

def LoopEffects (cfg : Config) (before : ReqId → Option Request) (s : Loop) : Prop :=
  ∀ r, LoopEffect cfg [] r (before r) (s.sched.requests r) (entriesOf r s.scheduled)

theorem LooksAt.effects (hl : LooksAt s t r q') (h : LoopEffects cfg before s)
    (hq : s.sched.requests r = some q) (hw : Waits q q') : LoopEffects cfg before t := by
  intro x
  rw [hl.requests, hl.scheduled]
  by_cases hx : x = r
  · subst hx
    have heff := h x
    rw [hq] at heff
    obtain ⟨hnil,q0,h0,hwaits⟩ := heff.waits_of_isWaiting hw.before
    rw [update_self, hnil, h0]
    exact .waits (hwaits.trans hw)
  · rw [update_of_ne hx]
    exact h x

theorem WaitingStep.effects (h : LoopEffects cfg before s) (hs : WaitingStep cfg s s') :
    LoopEffects cfg before s' := by
  cases hs with
  | idle => exact h
  | @head fromSkipped r rest q t hroom hselect hq hmove =>
    cases hmove with
    | stays hw hl => exact hl.effects h hq hw
    | @skipped t q' hw hl =>
      intro x
      rw [skipWaiting, (popSelected_kept t.sched fromSkipped rest).1]
      exact hl.effects h hq hw x
    | admitted hw hl hadm hs =>
      intro x
      have heff := hl.effects h hq hw x
      rw [hs.requests, hs.scheduled]
      by_cases hx : x = r
      · subst hx
        rw [hl.request] at heff
        obtain ⟨hnil,heff'⟩ := heff.admits hadm hs.status
        rwa [entriesOf_append_self _ (by rfl), hnil, update_self]
      · rwa [update_of_ne hx, entriesOf_append_of_ne _ hx]

theorem WaitingInv.waitingStep (h : WaitingInv cfg before s) (hs : WaitingStep cfg s s') :
    WaitingInv cfg before s' := ⟨hs.queued h.queued,hs.effects h.effect⟩

theorem waitingLoop_invariant
    (hstep : ∀ s s', WaitingInv cfg before s → P s → WaitingStep cfg s s' → P s') (fuel : ℕ)
    (hinv : WaitingInv cfg before s) (h : P s)
    (hs : waitingLoop cfg env threshold deferPrefills fuel s = some s') :
    WaitingInv cfg before s' ∧ P s' := by
  induction fuel generalizing s with
  | zero =>
    cases hs
    exact ⟨hinv,h⟩
  | succ fuel ih =>
    have hcases : (waitingStep cfg env threshold deferPrefills s).Holds (WaitingStep cfg s) :=
      waitingStep_cases hinv.queued
    rw [waitingLoop] at hs
    split at hs
    · cases hs
      exact ⟨hinv,h⟩
    split at hs
    · rename_i t ht
      rw [ht] at hcases
      exact ih (hinv.waitingStep hcases) (hstep _ _ hinv h hcases) hs
    · rename_i t ht
      rw [ht] at hcases
      cases hs
      exact ⟨hinv.waitingStep hcases,hstep _ _ hinv h hcases⟩
    · cases hs

end WaitingLoop

theorem WellQueued.modify {s : Scheduler} {running queue : List ReqId}
    (h : WellQueued s.requests running queue) (r : ReqId) {f : Request → Request}
    (hf : ∀ q, (f q).status = q.status) : WellQueued (s.modify r f).requests running queue := by
  refine h.replace h.nodup (fun _ hx _ => hx) (fun _ hx _ => hx) (fun hr => ?_) fun hr => ?_
  · obtain ⟨q,hq,hs⟩ := h.ofRunning r hr
    exact ⟨f q,by rw [hq]; rfl,(hf q).trans hs⟩
  · obtain ⟨q,hq,hs⟩ := h.ofQueue r hr
    exact ⟨f q,by rw [hq]; rfl,by rw [hf q, hs]⟩

theorem advance_status (cfg : Config) (step placeholders : ℕ) (e : Scheduled) (q : Request) :
    (advance cfg step placeholders e q).status = q.status := by
  rw [advance]
  simp only
  split <;> rfl

section Advance

variable (adv : Scheduled → Request → Request)

def advanceAllBy (es : List Scheduled) (s : Scheduler) : Scheduler :=
  es.foldl (fun s e => s.modify e.reqId (adv e)) s

theorem advanceAllBy_queues (es : List Scheduled) (s : Scheduler) :
    (advanceAllBy adv es s).running = s.running ∧ (advanceAllBy adv es s).waiting = s.waiting ∧
      (advanceAllBy adv es s).skippedWaiting = s.skippedWaiting := by
  induction es generalizing s with
  | nil => exact ⟨rfl,rfl,rfl⟩
  | cons e es ih => exact ih _

variable {adv} in
theorem advanceAllBy_wellQueued (hadv : ∀ e q, (adv e q).status = q.status) (es : List Scheduled)
    {s : Scheduler} {running queue : List ReqId} (h : WellQueued s.requests running queue) :
    WellQueued (advanceAllBy adv es s).requests running queue := by
  induction es generalizing s with
  | nil => exact h
  | cons e es ih => exact ih (h.modify e.reqId (hadv e))

theorem advanceAllBy_requests (es : List Scheduled) (s : Scheduler) (r : ReqId) :
    (advanceAllBy adv es s).requests r =
      (entriesOf r es).foldl (fun o e => o.map (adv e)) (s.requests r) := by
  induction es generalizing s with
  | nil => rfl
  | cons e es ih =>
    show (advanceAllBy adv es _).requests r = _
    rw [ih]
    by_cases he : e.reqId = r
    · subst he
      have hcons : entriesOf e.reqId (e :: es) = e :: entriesOf e.reqId es := by simp [entriesOf]
      rw [hcons, foldl_cons, Scheduler.modify_requests_self]
    · have hskip : entriesOf r (e :: es) = entriesOf r es := by simp [entriesOf, he]
      rw [hskip, Scheduler.modify_requests_of_ne _ _ (Ne.symm he)]

end Advance

theorem updateAfterScheduleBy_eq (adv : ℕ → ℕ → Scheduled → Request → Request)
    (out : SchedulerOutput) (s : Scheduler) : updateAfterScheduleBy adv out s =
      { advanceAllBy (adv s.currentStep out.numSpecTokensToSchedule) out.scheduled s with
        finishedReqIds := [], resetPreemptedReqIds := [] } := by
  have hfold (es : List Scheduled) (s0 : Scheduler) (hstep : s0.currentStep = s.currentStep) :
      es.foldl (fun s e => s.modify e.reqId (adv s.currentStep out.numSpecTokensToSchedule e)) s0 =
      advanceAllBy (adv s.currentStep out.numSpecTokensToSchedule) es s0 := by
    induction es generalizing s0 with
    | nil => rfl
    | cons e es ih =>
      rw [foldl_cons, hstep]
      exact ih _ hstep
  rw [updateAfterScheduleBy]
  simp [hfold out.scheduled s rfl]

section AdvanceAsync

variable (cfg : Config) (step placeholders : ℕ)

def advanceAll (es : List Scheduled) (s : Scheduler) : Scheduler :=
  es.foldl (fun s e => s.modify e.reqId (advance cfg step placeholders e)) s

theorem advanceAll_queues (es : List Scheduled) (s : Scheduler) :
    (advanceAll cfg step placeholders es s).running = s.running ∧
      (advanceAll cfg step placeholders es s).waiting = s.waiting ∧
      (advanceAll cfg step placeholders es s).skippedWaiting = s.skippedWaiting :=
  advanceAllBy_queues (advance cfg step placeholders) es s

theorem updateAfterSchedule_eq (out : SchedulerOutput) (s : Scheduler) : updateAfterSchedule cfg out s =
      { advanceAll cfg s.currentStep out.numSpecTokensToSchedule out.scheduled s with
        finishedReqIds := [], resetPreemptedReqIds := [] } :=
  updateAfterScheduleBy_eq (advance cfg) out s

end AdvanceAsync

/-- What one call of `schedule` does to a request: the loops, then `_update_after_schedule`. The
workers are told the lengths in between. -/
inductive ScheduleEffect (cfg : Config) (r : ReqId) (data : Option RequestData) :
    Option Request → Option Request → List Scheduled → Prop
  | unscheduled {o o' : Option Request} {preempted : List ReqId}
      (h : LoopEffect cfg preempted r o o' []) : ScheduleEffect cfg r data o o' []
  | scheduled {o : Option Request} {q : Request} {e : Scheduled} {preempted : List ReqId}
      (h : LoopEffect cfg preempted r o (some q) [e]) (step : ℕ) {placeholders : ℕ}
      (hp : placeholders ≤ cfg.numSpecTokens) (hd : data = some q.data) :
      ScheduleEffect cfg r data o (some (advance cfg step placeholders e q)) [e]

theorem LoopEffect.advance {preempted : List ReqId} {o o' : Option Request}
    (h : LoopEffect cfg preempted r o o' es) (step : ℕ) {placeholders : ℕ}
    (hp : placeholders ≤ cfg.numSpecTokens) : ScheduleEffect cfg r (o'.map (·.data)) o
      (es.foldl (fun o e => o.map (advance cfg step placeholders e)) o') es := by
  have h' := h
  cases h with
  | same => exact .unscheduled h'
  | running => exact .scheduled h' step hp rfl
  | preempt => exact .unscheduled h'
  | waits => exact .unscheduled h'
  | admission => exact .scheduled h' step hp rfl

theorem numSpecTokensToSchedule_le (cfg : Config) (numReqs : ℕ) :
    numSpecTokensToSchedule cfg numReqs ≤ cfg.numSpecTokens := by
  rw [numSpecTokensToSchedule]
  split
  · split
    · exact le_rfl
    · exact min_le_left _ _
  · exact le_rfl

def Scheduler.WellQueued (s : Scheduler) : Prop :=
  Sched.WellQueued s.requests s.running (s.waiting ++ s.skippedWaiting)

def Loop.mergeSkipped (cfg : Config) (s : Loop) (prefillCapacityBound : Bool) : Loop :=
  { s with sched := { s.sched with
      skippedWaiting :=
        prependRequests cfg.policy s.sched.lt s.sched.skippedWaiting s.stepSkippedWaiting
      prefillCapacityBound := prefillCapacityBound } }

theorem Loop.mergeSkipped_perm (cfg : Config) (s : Loop) (bound : Bool) :
    ((s.mergeSkipped cfg bound).sched.waiting ++
      (s.mergeSkipped cfg bound).sched.skippedWaiting).Perm s.queue := by
  rw [Loop.queue, append_assoc]
  exact ((prependRequests_perm _ _ _ _).trans perm_append_comm).append_left _

variable {before : ReqId → Option Request}

theorem RunningInv.loopQueued (h : RunningInv cfg before s) : s.Queued := by
  rw [Loop.Queued, Loop.queue, h.noneSkipped, append_nil]
  exact h.queued

theorem waitingPass_invariant
    (hstep : ∀ s s', WaitingInv cfg before s → P s → WaitingStep cfg s s' → P s')
    (hinv : RunningInv cfg before s) (h : P s)
    (hs : waitingPass cfg env threshold deferPrefills s = some s') :
    s' = s ∨ ∃ t bound, WaitingInv cfg before t ∧ P t ∧ s' = t.mergeSkipped cfg bound := by
  rw [waitingPass] at hs
  split at hs
  · cases hs
    exact .inl rfl
  · rename_i hrun
    have hpre : s.preempted = [] := by
      by_contra hne
      exact hrun (.inl hne)
    have hstart : WaitingInv cfg before s := ⟨hinv.loopQueued,fun r => hpre ▸ hinv.effect r⟩
    obtain ⟨t,ht,rfl⟩ := map_eq_some_iff.mp hs
    obtain ⟨hend,hP⟩ := waitingLoop_invariant hstep _ hstart h ht
    exact .inr ⟨t,_,hend,hP,rfl⟩

theorem waitingPass_spec (h : RunningInv cfg before s)
    (hs : waitingPass cfg env threshold deferPrefills s = some s') :
    s'.sched.WellQueued ∧ ∃ preempted, ∀ r, LoopEffect cfg preempted r (before r)
      (s'.sched.requests r) (entriesOf r s'.scheduled) := by
  rcases waitingPass_invariant (P := fun _ => True) (fun _ _ _ _ _ => trivial) h trivial hs with
    rfl | ⟨t,bound,ht,-,rfl⟩
  · exact ⟨h.queued,s'.preempted,h.effect⟩
  · exact ⟨ht.queued.perm (.refl _) (t.mergeSkipped_perm cfg bound),[],ht.effect⟩

theorem runningPass_spec {s : Scheduler} (hw : s.WellQueued) :
    RunningInv cfg s.requests (runningPass cfg env s) := by
  have hstart : RunningInv cfg s.requests
      { sched := s
        tokenBudget := if env.pauseState = .pausedAll then 0 else cfg.maxNumScheduledTokens } :=
    ⟨hw,fun r => .same _,by simp,by simp,rfl⟩
  have h := runningLoop_spec env (longPrefillThreshold cfg s) (deferPrefills env s)
    s.running.length hstart
  exact ⟨h.queued,h.effect,h.passed,h.kinds,h.noneSkipped⟩

/-- What one call does to the requests: the loops leave `mid`, and then every scheduled request is
advanced. -/
structure ScheduledBy (adv : ℕ → ℕ → Scheduled → Request → Request) (cfg : Config)
    (s s' : Scheduler) (out : SchedulerOutput) (mid : ReqId → Option Request)
    (preempted : List ReqId) (step : ℕ) : Prop where
  loops : ∀ r, LoopEffect cfg preempted r (s.requests r) (mid r) (entriesOf r out.scheduled)
  data : ∀ r, out.requestData r = (mid r).map (·.data)
  advanced : ∀ r, s'.requests r = (entriesOf r out.scheduled).foldl
    (fun o e => o.map (adv step out.numSpecTokensToSchedule e)) (mid r)
  drafts : out.numSpecTokensToSchedule ≤ cfg.numSpecTokens

variable {adv : ℕ → ℕ → Scheduled → Request → Request}

variable {s s' : Scheduler}

theorem scheduleBy_spec
    (hadv : ∀ step placeholders e q, (adv step placeholders e q).status = q.status) (hw : s.WellQueued) (h : scheduleBy adv cfg env s = some (s',out)) :
    s'.WellQueued ∧ ∃ mid preempted step, ScheduledBy adv cfg s s' out mid preempted step := by
  obtain ⟨loop,hloop,hcommit⟩ := bind_eq_some_iff.mp h
  have hw' : ({ s with currentStep := s.currentStep+1 } : Scheduler).WellQueued := hw
  obtain ⟨hqueued,preempted,heff⟩ := waitingPass_spec (runningPass_spec hw') hloop
  rw [commitScheduleBy] at hcommit
  simp only at hcommit
  split at hcommit
  · cases hcommit
    rw [updateAfterScheduleBy_eq]
    constructor
    · obtain ⟨hrun,hwait,hskip⟩ := advanceAllBy_queues (adv loop.sched.currentStep
        (numSpecTokensToSchedule cfg loop.scheduled.length)) loop.scheduled loop.sched
      rw [Scheduler.WellQueued, hrun, hwait, hskip]
      exact advanceAllBy_wellQueued (hadv _ _) _ hqueued
    · exact ⟨loop.sched.requests,preempted,loop.sched.currentStep,heff,fun _ => rfl,
        fun r => advanceAllBy_requests _ _ _ r,numSpecTokensToSchedule_le _ _⟩
  · cases hcommit

theorem ScheduledBy.entries_nodup {mid : ReqId → Option Request} {preempted : List ReqId} {step : ℕ}
    (h : ScheduledBy adv cfg s s' out mid preempted step) : (out.scheduled.map (·.reqId)).Nodup := by
  rw [nodup_iff_count_le_one]
  intro r
  have heff := h.loops r
  have hlen : (entriesOf r out.scheduled).length ≤ 1 := by
    generalize entriesOf r out.scheduled = es at heff
    generalize mid r = o' at heff
    generalize s.requests r = o at heff
    cases heff <;> simp
  rw [count_eq_countP, countP_map, countP_eq_length_filter]
  convert hlen using 2
  apply List.filter_congr
  intro e _
  simp [Bool.beq_eq_decide_eq]

/-- One call: the ids stay where their statuses belong, and every request changes in one of the
ways of `ScheduleEffect`. -/
theorem schedule_spec (hw : s.WellQueued) (h : schedule cfg env s = some (s',out)) :
    s'.WellQueued ∧ ∀ r, ScheduleEffect cfg r (out.requestData r) (s.requests r) (s'.requests r)
      (entriesOf r out.scheduled) := by
  obtain ⟨hqueued,mid,preempted,step,hby⟩ := scheduleBy_spec (advance_status cfg) hw h
  refine ⟨hqueued,fun r => ?_⟩
  rw [hby.data r, hby.advanced r]
  exact (hby.loops r).advance step hby.drafts

theorem schedule_entries_nodup (hw : s.WellQueued) (h : schedule cfg env s = some (s',out)) :
    (out.scheduled.map (·.reqId)).Nodup := by
  obtain ⟨-,mid,preempted,step,hby⟩ := scheduleBy_spec (advance_status cfg) hw h
  exact hby.entries_nodup

end MetaZenith.Sched
