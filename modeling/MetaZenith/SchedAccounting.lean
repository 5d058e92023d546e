import MetaZenith.SchedLegalCounts

/-! The counters of `AsyncScheduler` against the steps in flight: placeholders, in-flight and
stale tokens of a request are sums over its pending entries. -/

namespace MetaZenith.Sched

open System List Option

variable {e : Scheduled} {ps : List Pending} {stopped : Bool} {kept : ℕ} {o o' : Option Request}
  {cfg : Config} {r : ReqId} {es : List Scheduled} {s s' : System}

structure Pending where
  entry : Scheduled
  chunk : Bool
  epoch : ℕ

def InFlight.pending (f : InFlight) (r : ReqId) : List Pending :=
  (entriesOf r f.output.scheduled).map fun e =>
    ⟨e,(f.snapshot r).any (·.isPrefillChunk),((f.snapshot r).map (·.numPreemptions)).getD 0⟩

def System.pending (s : System) (r : ReqId) : List Pending := s.inFlight.flatMap (·.pending r)

def inFlightTotal (ps : List Pending) : ℤ := (ps.map (·.entry.numScheduledTokens)).sum

def staleTotal (cur : ℕ) (ps : List Pending) : ℤ := inFlightTotal (ps.filter fun p => p.epoch < cur)

def owed (cur : ℕ) (ps : List Pending) : ℤ :=
  ((ps.filter fun p => p.epoch = cur ∧ p.chunk = false).map fun p =>
    1+(p.entry.numDraftTokens:ℤ)).sum

section Sums

variable {cur : ℕ} {p : Pending} {ps : List Pending}

theorem inFlightTotal_cons (p : Pending) (ps : List Pending) :
    inFlightTotal (p :: ps) = p.entry.numScheduledTokens+inFlightTotal ps := by
  simp [inFlightTotal]

theorem inFlightTotal_append (ps : List Pending) (p : Pending) :
    inFlightTotal (ps ++ [p]) = inFlightTotal ps+p.entry.numScheduledTokens := by
  simp [inFlightTotal]

theorem staleTotal_cons_stale (ps : List Pending) (h : p.epoch < cur) :
    staleTotal cur (p :: ps) = p.entry.numScheduledTokens+staleTotal cur ps := by
  rw [staleTotal, filter_cons_of_pos (by simpa using h), inFlightTotal_cons, staleTotal]

theorem staleTotal_cons_fresh (ps : List Pending) (h : ¬p.epoch < cur) :
    staleTotal cur (p :: ps) = staleTotal cur ps := by
  rw [staleTotal, filter_cons_of_neg (by simpa using h), staleTotal]

theorem staleTotal_append_fresh (ps : List Pending) (h : ¬p.epoch < cur) :
    staleTotal cur (ps ++ [p]) = staleTotal cur ps := by
  simp [staleTotal, inFlightTotal, h]

theorem staleTotal_of_all (h : ∀ p ∈ ps, p.epoch < cur) : staleTotal cur ps = inFlightTotal ps := by
  rw [staleTotal, filter_eq_self.mpr (by simpa using h)]

theorem owed_cons (ps : List Pending) (h : p.epoch = cur) (hc : p.chunk = false) :
    owed cur (p :: ps) = 1+p.entry.numDraftTokens+owed cur ps := by
  simp [owed, h, hc]

theorem owed_cons_other (ps : List Pending) (h : ¬(p.epoch = cur ∧ p.chunk = false)) :
    owed cur (p :: ps) = owed cur ps := by
  rw [owed, filter_cons_of_neg (by simpa using h), owed]

theorem owed_append (ps : List Pending) (h : p.epoch = cur) (hc : p.chunk = false) :
    owed cur (ps ++ [p]) = owed cur ps+1+p.entry.numDraftTokens := by
  simp [owed, h, hc, add_assoc]

theorem owed_append_chunk (ps : List Pending) (hc : p.chunk = true) :
    owed cur (ps ++ [p]) = owed cur ps := by
  simp [owed, hc]

theorem owed_nonneg (cur : ℕ) (ps : List Pending) : 0 ≤ owed cur ps := by
  apply sum_nonneg
  intro x hx
  obtain ⟨p,-,rfl⟩ := mem_map.mp hx
  positivity

theorem owed_of_stale (h : ∀ p ∈ ps, p.epoch < cur) : owed cur ps = 0 := by
  rw [owed, filter_eq_nil_iff.mpr fun p hp => by simp [(h p hp).ne]]
  rfl

theorem inFlightTotal_nonneg (h : ∀ p ∈ ps, 1 ≤ p.entry.numScheduledTokens) : 0 ≤ inFlightTotal ps := by
  apply sum_nonneg
  intro x hx
  obtain ⟨p,hp,rfl⟩ := mem_map.mp hx
  have hpos := h p hp
  omega

theorem staleTotal_pos_iff (hpos : ∀ x ∈ p :: ps, 1 ≤ x.entry.numScheduledTokens)
    (hsorted : (p :: ps).Pairwise fun a b => a.epoch ≤ b.epoch) :
    0 < staleTotal cur (p :: ps) ↔ p.epoch < cur := by
  have hrest : ∀ x ∈ ps.filter fun x => x.epoch < cur, 1 ≤ x.entry.numScheduledTokens :=
    fun x hx => hpos x (mem_cons_of_mem _ (mem_filter.mp hx).1)
  by_cases hp : p.epoch < cur
  · have hn := inFlightTotal_nonneg hrest
    have h1 := hpos p mem_cons_self
    rw [staleTotal_cons_stale ps hp, staleTotal]
    exact iff_of_true (by omega) hp
  · refine iff_of_false ?_ hp
    have hnone : ps.filter (fun x => x.epoch < cur) = [] := by
      rw [filter_eq_nil_iff]
      intro x hx
      have hle := rel_of_pairwise_cons hsorted hx
      simp only [decide_eq_true_eq]
      omega
    rw [staleTotal_cons_fresh ps hp, staleTotal, hnone]
    simp [inFlightTotal]

end Sums

structure Entered (q : Request) (ps : List Pending) : Prop where
  inFlight : q.numInFlightTokens = inFlightTotal ps
  stale : q.numStaleOutputTokens = staleTotal q.numPreemptions ps
  epochs : ∀ p ∈ ps, p.epoch ≤ q.numPreemptions
  sorted : ps.Pairwise fun a b => a.epoch ≤ b.epoch
  positive : ∀ p ∈ ps, 1 ≤ p.entry.numScheduledTokens

namespace Entered

variable {q q' : Request} {ps : List Pending} {p : Pending}

theorem congr (h : Entered q ps) (hin : q'.numInFlightTokens = q.numInFlightTokens)
    (hst : q'.numStaleOutputTokens = q.numStaleOutputTokens)
    (hpre : q'.numPreemptions = q.numPreemptions) : Entered q' ps where
  inFlight := hin.trans h.inFlight
  stale := by rw [hst, hpre, h.stale]
  epochs := hpre ▸ h.epochs
  sorted := h.sorted
  positive := h.positive

theorem stale_of_preempted (h : Entered q ps) : ∀ p ∈ ps, p.epoch < q.numPreemptions+1 :=
  fun p hp => Nat.lt_succ_of_le (h.epochs p hp)

theorem preempt (h : Entered q ps) (drop : Bool) : Entered (preemptRequest drop q) ps where
  inFlight := h.inFlight
  stale := by
    show q.numInFlightTokens = staleTotal (q.numPreemptions+1) ps
    rw [staleTotal_of_all h.stale_of_preempted, h.inFlight]
  epochs p hp := (h.stale_of_preempted p hp).le
  sorted := h.sorted
  positive := h.positive

theorem scheduled (h : Entered q ps) (hn : 1 ≤ e.numScheduledTokens) (chunk : Bool)
    (hin : q'.numInFlightTokens = q.numInFlightTokens+e.numScheduledTokens)
    (hst : q'.numStaleOutputTokens = q.numStaleOutputTokens)
    (hpre : q'.numPreemptions = q.numPreemptions) :
    Entered q' (ps ++ [⟨e,chunk,q'.numPreemptions⟩]) where
  inFlight := by rw [inFlightTotal_append, ← h.inFlight, hin]
  stale := by
    have hold : staleTotal q'.numPreemptions (ps ++ [⟨e,chunk,q'.numPreemptions⟩]) =
      staleTotal q'.numPreemptions ps := staleTotal_append_fresh ps (lt_irrefl _)
    rw [hold, hst, hpre, h.stale]
  epochs p hp := by
    rcases mem_append.mp hp with hp | hp
    · exact hpre ▸ h.epochs p hp
    · rw [mem_singleton.mp hp]
  sorted := by
    refine pairwise_append.mpr ⟨h.sorted,pairwise_singleton _ _,fun a ha b hb => ?_⟩
    rw [mem_singleton.mp hb]
    exact hpre ▸ h.epochs a ha
  positive p hp := by
    rcases mem_append.mp hp with hp | hp
    · exact h.positive p hp
    · rw [mem_singleton.mp hp]
      exact hn

theorem stale_iff (h : Entered q (p :: ps)) :
    0 < q.numStaleOutputTokens ↔ p.epoch < q.numPreemptions := by
  rw [h.stale]
  exact staleTotal_pos_iff h.positive h.sorted

theorem drain (h : Entered q (p :: ps)) : Entered (drainInFlight p.entry.numScheduledTokens q) ps where
  inFlight := by
    have hin := h.inFlight
    rw [inFlightTotal_cons] at hin
    show q.numInFlightTokens-p.entry.numScheduledTokens = _
    omega
  stale := by
    have hst := h.stale
    show (if 0 < q.numStaleOutputTokens then
      q.numStaleOutputTokens-p.entry.numScheduledTokens else q.numStaleOutputTokens) =
        staleTotal q.numPreemptions ps
    by_cases hp : p.epoch < q.numPreemptions
    · rw [staleTotal_cons_stale ps hp] at hst
      rw [if_pos (h.stale_iff.mpr hp)]
      omega
    · rw [staleTotal_cons_fresh ps hp] at hst
      rw [if_neg (mt h.stale_iff.mp hp), hst]
  epochs x hx := h.epochs x (mem_cons_of_mem _ hx)
  sorted := h.sorted.of_cons
  positive x hx := h.positive x (mem_cons_of_mem _ hx)

end Entered

inductive Live (q : Request) (ps : List Pending) : Prop
  | waiting (hs : q.status.isWaiting = true) (hplaceholders : q.numOutputPlaceholders = 0)
      (hspec : q.numSpecTokenIds = 0) (hstale : ∀ p ∈ ps, p.epoch < q.numPreemptions)
      (haged : q.Aged) (hfirst : q.numPreemptions = 0 → q.numOutputTokens = 0)
  | prefilling (hs : q.status = .running) (hchunk : q.isPrefillChunk = true)
      (hplaceholders : q.numOutputPlaceholders = 0) (howed : owed q.numPreemptions ps = 0)
      (hspec : q.numSpecTokenIds = 0) (hcomputed : q.numComputedTokens < q.numTokens)
      (hdrop : 0 < q.numStaleOutputTokens → q.dropStaleOutput = true)
  | decoding (hs : q.status = .running) (hchunk : q.isPrefillChunk = false)
      (howed : q.numOutputPlaceholders = owed q.numPreemptions ps)
      (hcomputed : q.numComputedTokens = q.numTokens+q.numOutputPlaceholders-1)
      (hdrop : 0 < q.numStaleOutputTokens → q.dropStaleOutput = true)

structure Booked (q : Request) (ps : List Pending) : Prop where
  resumable : q.resumable = false
  nonempty : 1 ≤ q.numTokens
  split : q.numTokens = q.numPromptTokens+q.numOutputTokens
  inFlight : q.numInFlightTokens = inFlightTotal ps
  stale : q.numStaleOutputTokens = staleTotal q.numPreemptions ps
  epochs : ∀ p ∈ ps, p.epoch ≤ q.numPreemptions
  sorted : ps.Pairwise fun a b => a.epoch ≤ b.epoch
  positive : ∀ p ∈ ps, 1 ≤ p.entry.numScheduledTokens

theorem Booked.entered {q : Request} (h : Booked q ps) : Entered q ps :=
  ⟨h.inFlight,h.stale,h.epochs,h.sorted,h.positive⟩

structure Tracked (q : Request) (ps : List Pending) : Prop extends Booked q ps where
  placeholders : 0 ≤ q.numOutputPlaceholders
  live : q.status.isFinished = true ∨ Live q ps

section Tracked

variable {cfg : Config} {q q' : Request} {ps : List Pending}

theorem Tracked.added (n : NewRequest) (hr : n.resumable = false) : Tracked n.toRequest [] where
  resumable := hr
  nonempty := by
    have h := length_pos_of_ne_nil n.nonempty
    show 1 ≤ (n.promptTokenIds.length:ℤ)
    omega
  split := (add_zero _).symm
  placeholders := le_rfl
  inFlight := rfl
  stale := rfl
  epochs := by simp
  sorted := .nil
  positive := by simp
  live := .inr (.waiting n.isWaiting rfl rfl (by simp) n.aged fun _ => rfl)

theorem Tracked.finish (h : Tracked q ps) {status : RequestStatus} (hs : status.isFinished = true) :
    Tracked { q with status := status } ps :=
  ⟨⟨h.resumable,h.nonempty,h.split,h.inFlight,h.stale,h.epochs,h.sorted,h.positive⟩,h.placeholders,.inl hs⟩

theorem Tracked.preempt (h : Tracked q ps) (drop : Bool) : Tracked (preemptRequest drop q) ps := by
  have he := h.toBooked.entered.preempt drop
  refine ⟨⟨h.resumable,h.nonempty,h.split,he.inFlight,he.stale,he.epochs,he.sorted,he.positive⟩,
    le_rfl,.inr (.waiting rfl rfl rfl h.toBooked.entered.stale_of_preempted ?_
      fun h0 => absurd h0 (Nat.succ_ne_zero _))⟩
  simp [Request.Aged, preemptRequest]

theorem Tracked.not_running_of_waiting (hw : q.status.isWaiting = true) :
    q.status ≠ .running ∧ q.status.isFinished = false := by
  generalize q.status = st at hw ⊢
  cases st <;> simp_all [RequestStatus.isWaiting, RequestStatus.isFinished]

theorem Tracked.waits (h : Tracked q ps) (hw : Waits q q') : Tracked q' ps := by
  obtain ⟨hne,hnf⟩ := Tracked.not_running_of_waiting hw.before
  have hlive : Live q ps := h.live.resolve_left (by simp [hnf])
  cases hlive with
  | waiting hs hp hspec hstale haged hfirst =>
    have hlen := hw.numTokens
    have haged' := hw.aged haged
    rw [hw.rest] at hlen haged' ⊢
    exact ⟨⟨h.resumable,hlen ▸ h.nonempty,h.split,h.inFlight,h.stale,h.epochs,h.sorted,h.positive⟩,
      h.placeholders,.inr (.waiting hw.after hp hspec hstale haged' hfirst)⟩
  | prefilling hs => exact absurd hs hne
  | decoding hs => exact absurd hs hne

theorem Booked.scheduled (h : Booked q ps) (hn : 1 ≤ e.numScheduledTokens) (chunk : Bool)
    (hres : q'.resumable = q.resumable) (hlen : q'.numTokens = q.numTokens)
    (hprompt : q'.numPromptTokens = q.numPromptTokens) (hout : q'.numOutputTokens = q.numOutputTokens)
    (hin : q'.numInFlightTokens = q.numInFlightTokens+e.numScheduledTokens)
    (hst : q'.numStaleOutputTokens = q.numStaleOutputTokens)
    (hpre : q'.numPreemptions = q.numPreemptions) :
    Booked q' (ps ++ [⟨e,chunk,q'.numPreemptions⟩]) := by
  have he := h.entered.scheduled hn chunk hin hst hpre
  refine ⟨hres.trans h.resumable,hlen ▸ h.nonempty,?_,he.inFlight,he.stale,he.epochs,he.sorted,
    he.positive⟩
  rw [hlen, hprompt, hout, h.split]

theorem advance_chunk (step placeholders : ℕ)
    (h : q.numComputedTokens+e.numScheduledTokens < q.numTokens+q.numOutputPlaceholders) :
    advance cfg step placeholders e q = { q with
      numComputedTokens := q.numComputedTokens+e.numScheduledTokens
      numInFlightTokens := q.numInFlightTokens+e.numScheduledTokens
      isPrefillChunk := true } := by
  rw [advance]
  simp only [h, decide_true, if_true]

theorem advance_decode (step placeholders : ℕ)
    (h : ¬q.numComputedTokens+e.numScheduledTokens < q.numTokens+q.numOutputPlaceholders) :
    advance cfg step placeholders e q = { q with
      numComputedTokens := q.numComputedTokens+e.numScheduledTokens
      numInFlightTokens := q.numInFlightTokens+e.numScheduledTokens
      isPrefillChunk := false
      numOutputPlaceholders := q.numOutputPlaceholders+1+e.numDraftTokens
      numSpecTokenIds := placeholders
      nextDecodeEligibleStep := if cfg.useV2ModelRunner then step+cfg.ppSize
        else q.nextDecodeEligibleStep } := by
  rw [advance]
  simp only [h, decide_false, Bool.false_eq_true, if_false]

def pendingEntry (e : Scheduled) (q : Request) : Pending := ⟨e,q.isPrefillChunk,q.numPreemptions⟩

theorem Booked.advance_chunk (h : Booked q ps) (step placeholders : ℕ) (hs : q.status = .running)
    (hn : 1 ≤ e.numScheduledTokens) (hp : q.numOutputPlaceholders = 0)
    (howed : owed q.numPreemptions ps = 0) (hspec : q.numSpecTokenIds = 0)
    (hdrop : 0 < q.numStaleOutputTokens → q.dropStaleOutput = true)
    (hlt : q.numComputedTokens+e.numScheduledTokens < q.numTokens) :
    Tracked (advance cfg step placeholders e q)
      (ps ++ [pendingEntry e (advance cfg step placeholders e q)]) := by
  rw [Sched.advance_chunk _ _ (by omega)]
  refine ⟨h.scheduled hn true rfl rfl rfl rfl rfl rfl rfl,hp.ge,.inr ?_⟩
  exact .prefilling hs rfl hp ((owed_append_chunk ps rfl).trans howed) hspec hlt hdrop

theorem Booked.advance_decode (h : Booked q ps) (step placeholders : ℕ) (hs : q.status = .running)
    (hn : 1 ≤ e.numScheduledTokens) (howed : q.numOutputPlaceholders = owed q.numPreemptions ps)
    (hdrop : 0 < q.numStaleOutputTokens → q.dropStaleOutput = true)
    (heq : q.numComputedTokens+e.numScheduledTokens =
      q.numTokens+q.numOutputPlaceholders+e.numDraftTokens) :
    Tracked (advance cfg step placeholders e q)
      (ps ++ [pendingEntry e (advance cfg step placeholders e q)]) := by
  have hnonneg := owed_nonneg q.numPreemptions ps
  rw [Sched.advance_decode _ _ (by omega)]
  refine ⟨h.scheduled hn false rfl rfl rfl rfl rfl rfl rfl,?_,.inr (.decoding hs rfl ?_ ?_ hdrop)⟩
  · show 0 ≤ q.numOutputPlaceholders+1+e.numDraftTokens
    omega
  · show q.numOutputPlaceholders+1+e.numDraftTokens = _
    rw [howed]
    exact (owed_append (p := ⟨e,false,q.numPreemptions⟩) ps rfl rfl).symm
  · show q.numComputedTokens+e.numScheduledTokens =
      q.numTokens+(q.numOutputPlaceholders+1+e.numDraftTokens)-1
    omega

theorem Tracked.live_of_running (h : Tracked q ps) (hs : q.status = .running) : Live q ps :=
  h.live.resolve_left (by simp [hs, RequestStatus.isFinished])

structure DraftsFit (e : Scheduled) : Prop where
  le : (e.numDraftTokens:ℤ)+1 ≤ e.numScheduledTokens
  eq : 0 < e.numDraftTokens → e.numScheduledTokens = e.numDraftTokens+1

/-- A running request that is scheduled again. Once it decodes, its drafts are all the tokens
after the first. -/
theorem Tracked.scheduled_running (h : Tracked q ps) (hs : q.status = .running) {n : ℤ}
    (hn : 1 ≤ n) (hwant : n ≤ q.want) (kind : ScheduledKind) (r : ReqId) (step placeholders : ℕ) :
    let e : Scheduled := ⟨r,q.numComputedTokens,n,runningDrafts q n,kind⟩
    let q' := advance cfg step placeholders e { q with numSpecTokenIds := 0 }
    Tracked q' (ps ++ [pendingEntry e q']) ∧ DraftsFit e := by
  intro e q'
  have hbook : Booked { q with numSpecTokenIds := 0 } ps :=
    ⟨h.resumable,h.nonempty,h.split,h.inFlight,h.stale,h.epochs,h.sorted,h.positive⟩
  rw [Request.want, Request.numTokensWithSpec] at hwant
  cases h.live_of_running hs with
  | waiting hw => exact absurd hs (Tracked.not_running_of_waiting hw).1
  | prefilling _ hchunk hp howed hspec hcomputed hdrop =>
    have hdrafts : runningDrafts q n = 0 := by simp [runningDrafts, hspec]
    have hfit : DraftsFit e := by
      refine ⟨?_,fun hd => absurd hdrafts hd.ne'⟩
      show (runningDrafts q n:ℤ)+1 ≤ n
      omega
    refine ⟨?_,hfit⟩
    rw [hspec] at hwant
    by_cases hlt : q.numComputedTokens+n < q.numTokens
    · exact hbook.advance_chunk step placeholders hs hn hp howed rfl hdrop hlt
    · refine hbook.advance_decode step placeholders hs hn (hp.trans howed.symm) hdrop ?_
      show q.numComputedTokens+n = q.numTokens+q.numOutputPlaceholders+runningDrafts q n
      omega
  | decoding _ hchunk howed hcomputed hdrop =>
    have hdrafts : (runningDrafts q n:ℤ) = n-1 := by
      rw [runningDrafts]
      omega
    refine ⟨hbook.advance_decode step placeholders hs hn howed hdrop ?_,?_,fun _ => ?_⟩
    · show q.numComputedTokens+n = q.numTokens+q.numOutputPlaceholders+runningDrafts q n
      omega
    · show (runningDrafts q n:ℤ)+1 ≤ n
      omega
    · show n = runningDrafts q n+1
      omega

theorem Tracked.scheduled_admission (h : Tracked q ps) {start n boundary : ℤ} {pad : Bool}
    (ha : Admission cfg q start n pad) (kind : ScheduledKind) (r : ReqId) (step placeholders : ℕ)
    (huncut : ((if pad then cfg.numSpecTokens else 0 : ℕ):ℤ)+1 ≤ n) :
    let e : Scheduled := ⟨r,start,n,if pad then cfg.numSpecTokens else 0,kind⟩
    let q' := advance cfg step placeholders e { q with
      status := .running
      numComputedTokens := start
      sharedPrefixBoundary := boundary }
    Tracked q' (ps ++ [pendingEntry e q']) ∧ DraftsFit e := by
  intro e q'
  obtain ⟨hne,hnf⟩ := Tracked.not_running_of_waiting ha.waiting
  have hdrop : 0 < q.numStaleOutputTokens → q.dropStaleOutput = true := by
    intro hst
    by_contra hd
    exact ha.notStale ⟨hst,by simpa using hd⟩
  have hbook : Booked { q with
      status := .running, numComputedTokens := start, sharedPrefixBoundary := boundary } ps :=
    ⟨h.resumable,h.nonempty,h.split,h.inFlight,h.stale,h.epochs,h.sorted,h.positive⟩
  cases h.live.resolve_left (by simp [hnf]) with
  | prefilling hs => exact absurd hs hne
  | decoding hs => exact absurd hs hne
  | waiting hs hp hspec hstale =>
    have howed := owed_of_stale hstale
    cases pad with
    | false =>
      have hle := ha.unpadded rfl
      refine ⟨?_,huncut,fun hd => absurd hd (lt_irrefl 0)⟩
      by_cases hlt : start+n < q.numTokens
      · exact hbook.advance_chunk step placeholders rfl ha.pos hp howed hspec hdrop hlt
      · refine hbook.advance_decode step placeholders rfl ha.pos (hp.trans howed.symm) hdrop ?_
        show start+n = q.numTokens+q.numOutputPlaceholders+(0:ℕ)
        omega
    | true =>
      obtain ⟨hstart,hn,-⟩ := ha.padded rfl
      simp only [if_true] at huncut
      refine ⟨hbook.advance_decode step placeholders rfl ha.pos (hp.trans howed.symm) hdrop ?_,
        huncut,fun _ => ?_⟩
      · show start+n = q.numTokens+q.numOutputPlaceholders+cfg.numSpecTokens
        omega
      · show n = (cfg.numSpecTokens:ℤ)+1
        omega

variable {p : Pending} {tokens : List Token}

theorem Booked.stale_iff (h : Booked q (p :: ps)) :
    0 < q.numStaleOutputTokens ↔ p.epoch < q.numPreemptions := h.entered.stale_iff

theorem Booked.drain (h : Booked q (p :: ps)) :
    Booked (drainInFlight p.entry.numScheduledTokens q) ps :=
  have he := h.entered.drain
  ⟨h.resumable,h.nonempty,h.split,he.inFlight,he.stale,he.epochs,he.sorted,he.positive⟩

/-- What a step may bring: nothing for a prefill chunk, otherwise one token and at most one more
for each draft. -/
structure Answers (p : Pending) (tokens : List Token) : Prop where
  length_le : tokens.length ≤ 1+p.entry.numDraftTokens
  chunk : p.chunk = true → tokens = []
  decode : p.chunk = false → tokens ≠ []

theorem drainInFlight_stale_pos (q : Request) (n : ℤ)
    (h : 0 < (drainInFlight n q).numStaleOutputTokens) : 0 < q.numStaleOutputTokens := by
  rw [drainInFlight] at h
  simp only at h
  split at h
  · assumption
  · exact h

theorem Live.tail (h : Live q (p :: ps)) (hp : ¬(p.epoch = q.numPreemptions ∧ p.chunk = false)) :
    Live (drainInFlight p.entry.numScheduledTokens q) ps := by
  have hold := owed_cons_other ps hp
  have hstale := drainInFlight_stale_pos q p.entry.numScheduledTokens
  cases h with
  | waiting hs hplace hspec hall haged hfirst =>
    exact .waiting hs hplace hspec (fun x hx => hall x (mem_cons_of_mem _ hx)) haged hfirst
  | prefilling hs hchunk hplace howed hspec hcomputed hdrop =>
    exact .prefilling hs hchunk hplace (hold.symm.trans howed) hspec hcomputed (hdrop ∘ hstale)
  | decoding hs hchunk howed hcomputed hdrop =>
    exact .decoding hs hchunk (howed.trans hold) hcomputed (hdrop ∘ hstale)

theorem Tracked.only_drained (h : Tracked q (p :: ps)) (ha : Answers p tokens)
    (hd : OnlyDrained tokens q) : Tracked (drainInFlight p.entry.numScheduledTokens q) ps := by
  refine ⟨h.toBooked.drain,h.placeholders,?_⟩
  rcases h.live with hf | hlive
  · exact .inl hf
  by_cases hf : q.status.isFinished = true
  · exact .inl hf
  refine .inr (hlive.tail ?_)
  rintro ⟨hepoch,hchunk⟩
  rcases hd with hfin | ⟨hst,-⟩ | hnil
  · exact hf hfin
  · have hlt := h.toBooked.stale_iff.mp hst
    omega
  · exact ha.decode hchunk hnil

/-- A fresh answer of `g` tokens takes back the drafts it does not confirm, from the counters that
are positive. -/
theorem rollBackRejected_counters {g : ℕ} (hg : 0 < g) (hle : g ≤ 1+e.numDraftTokens) :
    (rollBackRejected e g false q).numComputedTokens = (if 0 < q.numComputedTokens then
        q.numComputedTokens-(1+e.numDraftTokens-g) else q.numComputedTokens) ∧
      (rollBackRejected e g false q).numOutputPlaceholders = (if 0 < q.numOutputPlaceholders then
        q.numOutputPlaceholders-(1+e.numDraftTokens-g) else q.numOutputPlaceholders) := by
  rw [rollBackRejected]
  split
  · simp only
    constructor <;> split <;> omega
  · rename_i h
    have hd : e.numDraftTokens = 0 := by
      by_contra hne
      exact h ⟨by omega,hg,rfl⟩
    constructor <;> split <;> omega

theorem rollBackRejected_fresh {g : ℕ} (hg : 0 < g) (hle : g ≤ 1+e.numDraftTokens)
    (hc : 0 < q.numComputedTokens) (hp : 0 < q.numOutputPlaceholders) :
    (rollBackRejected e g false q).numComputedTokens = q.numComputedTokens-(1+e.numDraftTokens-g) ∧
      (rollBackRejected e g false q).numOutputPlaceholders =
        q.numOutputPlaceholders-(1+e.numDraftTokens-g) := by
  obtain ⟨hcomp,hplace⟩ := rollBackRejected_counters (q := q) hg hle
  rw [if_pos hc] at hcomp
  rw [if_pos hp] at hplace
  exact ⟨hcomp,hplace⟩

theorem Absorbed.booked {isStale : Bool} (h : Booked q (p :: ps))
    (habs : Absorbed p.entry tokens isStale q q' kept stopped) : Booked q' ps := by
  have hd := h.drain
  have hlen : 1 ≤ q'.numTokens := by
    rw [habs.numTokens]
    have h1 := h.nonempty
    omega
  have hres : q'.resumable = false := by
    by_contra hne
    exact absurd (habs.resumable (by simpa using hne)) (by simp [h.resumable])
  have hprompt : q'.numPromptTokens = q.numPromptTokens := by
    rw [habs.rest]
    rfl
  refine ⟨hres,hlen,?_,?_,?_,?_,hd.sorted,hd.positive⟩
  · have hsplit := h.split
    rw [habs.numTokens, habs.numOutputTokens, hprompt]
    push_cast
    omega
  · rw [habs.rest]
    exact hd.inFlight
  · rw [habs.rest]
    exact hd.stale
  · rw [habs.rest]
    exact hd.epochs

theorem Tracked.absorbed_stale (h : Tracked q (p :: ps)) (hf : q.status.isFinished = false)
    (hst : 0 < q.numStaleOutputTokens) (hdrop : q.dropStaleOutput = false)
    (habs : Absorbed p.entry tokens true q q' kept stopped) : Tracked q' ps := by
  have hph : q'.numOutputPlaceholders = q.numOutputPlaceholders := by
    rw [habs.rest, rollBackRejected_stale]
    simp
  refine ⟨habs.booked h.toBooked,hph ▸ h.placeholders,?_⟩
  cases stopped with
  | true => exact .inl (habs.stops rfl)
  | false =>
    cases h.live.resolve_left (by simp [hf]) with
    | prefilling _ _ _ _ _ _ hd => exact absurd (hd hst) (by simp [hdrop])
    | decoding _ _ _ _ hd => exact absurd (hd hst) (by simp [hdrop])
    | waiting hs hp hspec hall haged hfirst =>
      have hspec' : q'.numSpecTokenIds = q.numSpecTokenIds := by rw [habs.rest]; rfl
      have hpre : q'.numPreemptions = q.numPreemptions := by rw [habs.rest]; rfl
      have hst' := (habs.continues rfl).1
      have hold := hall p mem_cons_self
      refine .inr (.waiting (hst' ▸ hs) (hph.trans hp) (hspec'.trans hspec) (fun x hx => ?_) ?_ ?_)
      · rw [hpre]
        exact hall x (mem_cons_of_mem _ hx)
      · rw [Request.Aged, hst', hpre]
        exact haged
      · -- something of this request is stale, so it has been preempted
        intro h0
        omega

/-- The request that a fresh answer with tokens belongs to decodes, and owes at least that
step's tokens. -/
theorem Tracked.fresh_decoding (h : Tracked q (p :: ps)) (ha : Answers p tokens)
    (hf : q.status.isFinished = false) (hst : ¬0 < q.numStaleOutputTokens) (ht : tokens ≠ []) :
    q.status = .running ∧ q.isPrefillChunk = false ∧
      q.numOutputPlaceholders = 1+p.entry.numDraftTokens+owed q.numPreemptions ps ∧
      q.numComputedTokens = q.numTokens+q.numOutputPlaceholders-1 := by
  have hepoch : p.epoch = q.numPreemptions :=
    le_antisymm (h.epochs p mem_cons_self) (not_lt.mp (mt h.toBooked.stale_iff.mpr hst))
  have hchunk : p.chunk = false := by
    by_contra hne
    exact ht (ha.chunk (by simpa using hne))
  have hcons := owed_cons ps hepoch hchunk
  have hnonneg := owed_nonneg q.numPreemptions ps
  cases h.live.resolve_left (by simp [hf]) with
  | waiting _ _ _ hall _ _ =>
    have hlt := hall p mem_cons_self
    omega
  | prefilling _ _ _ howed => omega
  | decoding hs hc howed hcomputed _ => exact ⟨hs,hc,howed.trans hcons,hcomputed⟩

theorem Tracked.absorbed_fresh (h : Tracked q (p :: ps)) (ha : Answers p tokens)
    (hf : q.status.isFinished = false) (hst : ¬0 < q.numStaleOutputTokens) (ht : tokens ≠ [])
    (habs : Absorbed p.entry tokens false q q' kept stopped) : Tracked q' ps := by
  obtain ⟨hs,hchunk,howed,hcomputed⟩ := h.fresh_decoding ha hf hst ht
  have hnonneg := owed_nonneg q.numPreemptions ps
  have hlen := h.nonempty
  have hg := length_pos_of_ne_nil ht
  obtain ⟨hroll,hrollp⟩ := rollBackRejected_fresh hg ha.length_le (q := q) (by omega) (by omega)
  have hcomp' : q'.numComputedTokens =
      q.numComputedTokens-(1+p.entry.numDraftTokens-tokens.length) := by
    rw [habs.rest, ← hroll]
  have hph' : q'.numOutputPlaceholders =
      q.numOutputPlaceholders-(1+p.entry.numDraftTokens-tokens.length)-kept := by
    rw [habs.rest, ← hrollp]
    simp
  refine ⟨habs.booked h.toBooked,habs.nonneg rfl,?_⟩
  cases stopped with
  | true => exact .inl (habs.stops rfl)
  | false =>
    obtain ⟨hst',hkept⟩ := habs.continues rfl
    have hpre : q'.numPreemptions = q.numPreemptions := by rw [habs.rest]; rfl
    have hchunk' : q'.isPrefillChunk = q.isPrefillChunk := by rw [habs.rest]; rfl
    have hlen' := habs.numTokens
    refine .inr (.decoding (hst'.trans hs) (hchunk'.trans hchunk) ?_ ?_ fun hpos => ?_)
    · rw [hpre]
      omega
    · omega
    · -- nothing is stale, so nothing is after the drain
      have hdrain : q'.numStaleOutputTokens =
          (drainInFlight p.entry.numScheduledTokens q).numStaleOutputTokens := by rw [habs.rest]
      rw [hdrain] at hpos
      exact absurd (drainInFlight_stale_pos q _ hpos) hst

theorem updateRequestWithOutput_isSome {isStale : Bool} (maxModelLen : ℕ)
    (h : isStale = false → (tokens.length:ℤ) ≤
      (rollBackRejected e tokens.length false q).numOutputPlaceholders) :
    (updateRequestWithOutput maxModelLen tokens isStale
      (rollBackRejected e tokens.length isStale (drainInFlight e.numScheduledTokens q))).isSome =
        true := by
  cases isStale with
  | true => rfl
  | false =>
    rw [rollBackRejected_drain]
    have happ := appendUntilStop_spec maxModelLen tokens
      (drainInFlight e.numScheduledTokens (rollBackRejected e tokens.length false q))
    rw [updateRequestWithOutput]
    generalize appendUntilStop maxModelLen tokens _ = res at happ ⊢
    obtain ⟨q0,kept,stopped⟩ := res
    simp only at happ
    have hph : q0.numOutputPlaceholders =
        (rollBackRejected e tokens.length false q).numOutputPlaceholders := by
      rw [happ.rest]
      rfl
    have hkept := happ.kept_le
    have hle := h rfl
    simp only [Bool.false_eq_true, if_false]
    rw [if_neg (by omega)]
    rfl

theorem Tracked.output_isSome {maxModelLen : ℕ} {grammarRejects : Bool} (h : Tracked q (p :: ps))
    (ha : Answers p tokens) :
    (processOutput maxModelLen p.entry tokens grammarRejects q).isSome = true := by
  have hdrain := h.toBooked.drain
  have hstale : ¬(drainInFlight p.entry.numScheduledTokens q).numStaleOutputTokens < 0 := by
    rw [hdrain.stale, staleTotal]
    exact not_lt.mpr (inFlightTotal_nonneg fun x hx => hdrain.positive x (mem_filter.mp hx).1)
  rw [processOutput]
  simp only
  rw [if_neg (fun hc => hstale hc.2)]
  split
  · rfl
  rename_i hf
  split
  · rfl
  split
  · rfl
  rename_i ht
  have hroom : decide (0 < q.numStaleOutputTokens) = false → (tokens.length:ℤ) ≤
      (rollBackRejected p.entry tokens.length false q).numOutputPlaceholders := by
    intro hst
    obtain ⟨-,-,howed,hcomputed⟩ :=
      h.fresh_decoding ha (by simpa [drainInFlight] using hf) (of_decide_eq_false hst) ht
    have hnonneg := owed_nonneg q.numPreemptions ps
    have hlen := h.nonempty
    have hg := length_pos_of_ne_nil ht
    have hroll := (rollBackRejected_fresh hg ha.length_le (q := q) (by omega) (by omega)).2
    omega
  have hupd := updateRequestWithOutput_isSome maxModelLen hroom
  obtain ⟨⟨q0,stopped⟩,hq0⟩ := isSome_iff_exists.mp hupd
  rw [hq0]
  simp only
  split <;> rfl

theorem Tracked.output {maxModelLen : ℕ} {grammarRejects : Bool} (h : Tracked q (p :: ps))
    (ha : Answers p tokens)
    (hproc : processOutput maxModelLen p.entry tokens grammarRejects q = some (q',stopped)) :
    Tracked q' ps := by
  rcases processOutput_spec hproc with ⟨hd,rfl,-⟩ | ⟨hd,kept,habs⟩
  · exact h.only_drained ha hd
  have hf : q.status.isFinished = false := by
    by_contra hne
    exact hd (.inl (by simpa using hne))
  have ht : tokens ≠ [] := fun ht => hd (.inr (.inr ht))
  by_cases hst : 0 < q.numStaleOutputTokens
  · rw [decide_eq_true hst] at habs
    refine h.absorbed_stale hf hst ?_ habs
    by_contra hne
    exact hd (.inr (.inl ⟨hst,by simpa using hne⟩))
  · rw [decide_eq_false hst] at habs
    exact h.absorbed_fresh ha hf hst ht habs

theorem FinishEffect.tracked {status : RequestStatus} (hs : status.isFinished = true)
    (h : FinishEffect status o o') (hq : ∀ q ∈ o, Tracked q ps) : ∀ q ∈ o', Tracked q ps := by
  cases h with
  | same => exact hq
  | dropped => simp
  | kept q =>
    rintro _ ⟨⟩
    exact (hq q rfl).finish hs

theorem Stopped.tracked (h : Stopped q o) (hq : Tracked q ps) : ∀ q' ∈ o, Tracked q' ps := by
  cases h with
  | freed => simp
  | kept rest =>
    rintro _ ⟨⟩
    refine ⟨⟨hq.resumable,hq.nonempty,hq.split,hq.inFlight,hq.stale,hq.epochs,hq.sorted,hq.positive⟩,
      hq.placeholders,?_⟩
    rcases hq.live with hf | hlive
    · exact .inl hf
    · cases hlive with
      | waiting hs hp hspec hall ha hf => exact .inr (.waiting hs hp hspec hall ha hf)
      | prefilling hs hc hp ho hspec hcomp hd => exact .inr (.prefilling hs hc hp ho hspec hcomp hd)
      | decoding hs hc ho hcomp hd => exact .inr (.decoding hs hc ho hcomp hd)
  | session hr => exact absurd hr (by simp [hq.resumable])
  | streaming hr => exact absurd hr (by simp [hq.resumable])

end Tracked

def System.KeepsPadding (s : System) : Prop :=
  ∀ f ∈ s.inFlight, ∀ e ∈ f.output.scheduled, e.kind ≠ .running →
    (e.numDraftTokens:ℤ)+1 ≤ e.numScheduledTokens

instance (s : System) : Decidable s.KeepsPadding :=
  inferInstanceAs (Decidable (∀ f ∈ s.inFlight, _))

instance (p : Pending) (tokens : List Token) : Decidable (Answers p tokens) :=
  decidable_of_iff (tokens.length ≤ 1+p.entry.numDraftTokens ∧ (p.chunk = true → tokens = []) ∧
    (p.chunk = false → tokens ≠ [])) ⟨fun h => ⟨h.1,h.2.1,h.2.2⟩,fun h => ⟨h.1,h.2,h.3⟩⟩

/-- What the front end and the workers promise: new requests are no streaming sessions and have an
id that nothing in flight uses, and every entry of a step is answered. -/
def Event.Proper (s : System) : Event → Prop
  | .addRequest n => n.resumable = false ∧ (s.pending n.requestId).isEmpty = true
  | .updateFromOutput out => ∀ f ∈ s.inFlight.head?, ∀ e ∈ f.output.scheduled,
      ∀ p ∈ f.pending e.reqId, Answers p (out.sampledTokenIds e.reqId)
  | _ => True

instance (s : System) : (e : Event) → Decidable (e.Proper s)
  | .addRequest _ => inferInstanceAs (Decidable (_ ∧ _))
  | .updateFromOutput _ => inferInstanceAs (Decidable (∀ f ∈ s.inFlight.head?, _))
  | .schedule _ | .finishRequests .. | .resetPrefixCache => inferInstanceAs (Decidable True)

structure System.Accounted (cfg : Config) (s : System) : Prop where
  legal : s.Legal cfg
  tracked : ∀ r, ∀ q ∈ s.sched.requests r, Tracked q (s.pending r)
  drafts : ∀ f ∈ s.inFlight, ∀ e ∈ f.output.scheduled,
    DraftsFit e ∧ (f.snapshot e.reqId).isSome = true

def newPending (o : Option Request) (es : List Scheduled) : List Pending :=
  es.map fun e => ⟨e,o.any (·.isPrefillChunk),(o.map (·.numPreemptions)).getD 0⟩

theorem ScheduleEffect.tracked {data : Option RequestData} (h : ScheduleEffect cfg r data o o' es)
    (hlegal : ∀ q ∈ o, CountsLegal cfg q) (hq : ∀ q ∈ o, Tracked q ps)
    (hpad : ∀ e ∈ es, e.kind ≠ .running → (e.numDraftTokens:ℤ)+1 ≤ e.numScheduledTokens) :
    (∀ q ∈ o', Tracked q (ps ++ newPending o' es)) ∧ ∀ e ∈ es, DraftsFit e ∧ o'.isSome = true := by
  cases h with
  | unscheduled h =>
    refine ⟨?_,by simp⟩
    rw [newPending, map_nil, append_nil]
    cases h with
    | same => exact hq
    | preempt hs hr =>
      rintro _ ⟨⟩
      exact (hq _ rfl).preempt _
    | waits h =>
      rintro _ ⟨⟩
      exact (hq _ rfl).waits h
  | @scheduled _ _ _ h step placeholders hk hd =>
    simp only [mem_def, Option.some.injEq, forall_eq', mem_singleton, forall_eq]
      at hpad ⊢
    cases h with
    | @running q n hs hn =>
      obtain ⟨hpos,hwant,-⟩ := hn ((hlegal q rfl).want_nonneg hs) ((hlegal q rfl).below hs)
      obtain ⟨htracked,hdrafts⟩ :=
        (hq q rfl).scheduled_running hs hpos hwant .running r step placeholders
      exact ⟨htracked,hdrafts,rfl⟩
    | @admission q start n boundary pad kind hkind hnew h =>
      obtain ⟨htracked,hdrafts⟩ :=
        (hq q rfl).scheduled_admission h kind r step placeholders (hpad hkind)
      exact ⟨htracked,hdrafts,rfl⟩

theorem System.pending_schedule {out : SchedulerOutput}
    (hf : s'.inFlight = if out.scheduled.isEmpty then s.inFlight
      else s.inFlight ++ [⟨out,s'.sched.requests⟩]) (r : ReqId) :
    s'.pending r = s.pending r ++ newPending (s'.sched.requests r) (entriesOf r out.scheduled) := by
  rw [pending, hf]
  split
  · rename_i hempty
    rw [isEmpty_iff.mp hempty]
    simp [pending, newPending, entriesOf]
  · rw [flatMap_append]
    simp [pending, newPending, InFlight.pending]

theorem UpdateEffect.tracked {out : ModelRunnerOutput} {snapshot : Option Request}
    (h : UpdateEffect cfg out r o o' es)
    (ha : ∀ p ∈ newPending snapshot es, Answers p (out.sampledTokenIds r))
    (hq : ∀ q ∈ o, Tracked q (newPending snapshot es ++ ps)) : ∀ q ∈ o', Tracked q ps := by
  obtain ⟨o1,o2,hout,hfin,hlast⟩ := h
  have h1 : ∀ q ∈ o1, Tracked q ps := by
    cases hout with
    | same => exact hq
    | missing => simp
    | continues hn h =>
      rintro _ ⟨⟩
      exact (hq _ rfl).output (ha _ (mem_singleton_self _)) h
    | stopped hn h hs => exact hs.tracked ((hq _ rfl).output (ha _ (mem_singleton_self _)) h)
  rcases hlast with rfl | rfl
  · exact hfin.tracked rfl h1
  · simp

theorem AddEffect.tracked {n : NewRequest} (h : AddEffect n.toRequest o o')
    (hr : n.resumable = false) (hps : o = none → ps = []) (hq : ∀ q ∈ o, Tracked q ps) :
    ∀ q ∈ o', Tracked q ps := by
  cases h with
  | added =>
    rintro _ ⟨⟩
    rw [hps rfl]
    exact .added n hr
  | queued hres => exact absurd hres (by simp [(hq _ rfl).resumable])
  | session _ hres => exact absurd hres (by simp [NewRequest.toRequest, hr])
  | aborted hs h => exact h.tracked rfl hq

theorem System.pending_of_inFlight (h : s'.inFlight = s.inFlight) (r : ReqId) :
    s'.pending r = s.pending r := by
  rw [pending, h, pending]

theorem System.pending_cons {f : InFlight} (h : s.inFlight = f :: s'.inFlight) (r : ReqId) :
    s.pending r = newPending (f.snapshot r) (entriesOf r f.output.scheduled) ++ s'.pending r := by
  rw [pending, h, flatMap_cons]
  rfl

theorem System.Accounted.call {e : Event} (hs : s.Accounted cfg) (h : s.Call cfg s' e)
    (hproper : e.Proper s) (hroom : s'.LeavesRoom cfg) (hpad : s'.KeepsPadding) :
    s'.Accounted cfg := by
  have hq := hs.legal.queued.wellQueued
  have hlegal := hs.legal.call h hroom
  cases h with
  | @addRequest n h hf =>
    refine ⟨hlegal,fun r => ?_,hf ▸ hs.drafts⟩
    obtain ⟨-,hadd,hrest⟩ := addNewRequest_spec hq n.isWaiting h
    rw [pending_of_inFlight hf]
    by_cases hr : r = n.toRequest.requestId
    · rw [hr]
      exact hadd.tracked hproper.1 (fun _ => isEmpty_iff.mp hproper.2) (hs.tracked _)
    · rw [hrest r hr]
      exact hs.tracked r
  | @schedule env out h hf =>
    have heffect (r : ReqId) := ((schedule_spec hq h).2 r).tracked (hs.legal.requests r) (hs.tracked r)
      fun x hx => hpad _ (mem_inFlight_of_schedule hf (mem_of_mem_entriesOf hx)) x
        (mem_of_mem_entriesOf hx)
    refine ⟨hlegal,fun r => ?_,fun f hmem x hx => ?_⟩
    · rw [pending_schedule hf]
      exact (heffect r).1
    · rw [hf] at hmem
      split at hmem
      · exact hs.drafts f hmem x hx
      · rcases mem_append.mp hmem with hold | hnew
        · exact hs.drafts f hold x hx
        · rw [mem_singleton.mp hnew] at hx ⊢
          exact (heffect x.reqId).2 x (mem_filter.mpr ⟨hx,by simp⟩)
  | @updateFromOutput f out h hf hfits =>
    have hn := hs.legal.queued.distinct f (hf ▸ mem_cons_self)
    refine ⟨hlegal,fun r => ?_,fun g hg => hs.drafts g (hf ▸ mem_cons_of_mem _ hg)⟩
    have htracked := hs.tracked r
    rw [pending_cons hf] at htracked
    refine ((updateFromOutput_spec hq hn h).2 r).tracked ?_ htracked
    intro p hp
    obtain ⟨x,hx,-⟩ := mem_map.mp hp
    obtain ⟨hmem,hr⟩ := mem_filter.mp hx
    have hanswer := hproper f (by rw [hf]; rfl) x hmem
    rw [of_decide_eq_true hr] at hanswer
    exact hanswer p hp
  | finishRequests hfin h hf =>
    refine ⟨hlegal,fun r => ?_,hf ▸ hs.drafts⟩
    rw [pending_of_inFlight hf, h]
    exact (finishRequests_requests _ _ _ _ rfl).tracked hfin (hs.tracked r)
  | resetPrefixCache h hf =>
    refine ⟨hlegal,fun r => ?_,hf ▸ hs.drafts⟩
    rw [pending_of_inFlight hf, h, (resetRunningRequests_spec cfg hq).2 r]
    split
    · intro q hmem
      obtain ⟨q0,hq0,rfl⟩ := map_eq_some_iff.mp hmem
      exact (hs.tracked r q0 hq0).preempt true
    · exact hs.tracked r

def System.scheduledInFlight (s : System) (r : ReqId) : ℤ :=
  (s.inFlight.map fun f =>
    ((entriesOf r f.output.scheduled).map (·.numScheduledTokens)).sum).sum

structure AsyncAccounting (cfg : Config) (s : System) : Prop where
  decoding : ∀ r q, s.sched.requests r = some q → q.status = .running → q.isPrefillChunk = false →
    q.numComputedTokens = q.numTokens+q.numOutputPlaceholders-1
  placeholders : ∀ r q, s.sched.requests r = some q → 0 ≤ q.numOutputPlaceholders
  inFlight : ∀ r q, s.sched.requests r = some q → q.numInFlightTokens = s.scheduledInFlight r
  /-- The next output is stale exactly when the request was preempted after its step. -/
  stale : ∀ f ∈ s.inFlight.head?, ∀ e ∈ f.output.scheduled, ∀ q, s.sched.requests e.reqId = some q →
    ∃ q0, f.snapshot e.reqId = some q0 ∧
      (0 < q.numStaleOutputTokens ↔ q0.numPreemptions < q.numPreemptions)
  drafts : ∀ f ∈ s.inFlight, ∀ e ∈ f.output.scheduled,
    (e.numDraftTokens:ℤ) ≤ e.numScheduledTokens-1
  /-- No answer makes an assertion about the counters fail. -/
  accepted : ∀ f ∈ s.inFlight.head?, ∀ e ∈ f.output.scheduled, ∀ q,
    s.sched.requests e.reqId = some q → ∀ p ∈ f.pending e.reqId, ∀ tokens, Answers p tokens →
      ∀ grammarRejects, (processOutput cfg.maxModelLen p.entry tokens grammarRejects q).isSome = true

theorem System.inFlightTotal_pending (s : System) (r : ReqId) :
    inFlightTotal (s.pending r) = s.scheduledInFlight r := by
  rw [pending, scheduledInFlight]
  induction s.inFlight with
  | nil => rfl
  | cons f fs ih =>
    rw [flatMap_cons, map_cons, sum_cons, ← ih]
    simp [inFlightTotal, InFlight.pending, Function.comp_def]

theorem length_entriesOf_le (hn : (es.map (·.reqId)).Nodup) (r : ReqId) :
    (entriesOf r es).length ≤ 1 := by
  have hcount := nodup_iff_count_le_one.mp hn r
  rw [count_eq_countP, countP_map, countP_eq_length_filter] at hcount
  exact hcount

theorem System.pending_head {f : InFlight} (hf : f ∈ s.inFlight.head?) {p : Pending}
    (hp : p ∈ f.pending r) (hn : (f.output.scheduled.map (·.reqId)).Nodup) :
    ∃ ps, s.pending r = p :: ps := by
  obtain ⟨rest,hrest⟩ := head?_eq_some_iff.mp hf
  have hlen : (f.pending r).length ≤ 1 := by
    rw [InFlight.pending, length_map]
    exact length_entriesOf_le hn r
  obtain ⟨p',hp'⟩ := length_eq_one_iff.mp (le_antisymm hlen (length_pos_of_mem hp))
  rw [hp', mem_singleton] at hp
  refine ⟨rest.flatMap (·.pending r),?_⟩
  rw [pending, hrest, flatMap_cons, hp', hp]
  rfl

theorem System.Accounted.asyncAccounting (h : s.Accounted cfg) : AsyncAccounting cfg s where
  decoding r q hq hs hc := by
    cases (h.tracked r q hq).live_of_running hs with
    | waiting hw => exact absurd hs (Tracked.not_running_of_waiting hw).1
    | prefilling _ hc' => simp [hc] at hc'
    | decoding _ _ _ hcomputed => exact hcomputed
  placeholders r q hq := (h.tracked r q hq).placeholders
  inFlight r q hq := (h.tracked r q hq).inFlight.trans (s.inFlightTotal_pending r)
  stale f hf e he q hq := by
    have hmem := mem_of_mem_head? hf
    obtain ⟨q0,hq0⟩ := isSome_iff_exists.mp (h.drafts f hmem e he).2
    have hp : (⟨e,(f.snapshot e.reqId).any (·.isPrefillChunk),
        ((f.snapshot e.reqId).map (·.numPreemptions)).getD 0⟩ : Pending) ∈ f.pending e.reqId :=
      mem_map.mpr ⟨e,mem_filter.mpr ⟨he,by simp⟩,rfl⟩
    obtain ⟨ps,hps⟩ := pending_head hf hp (h.legal.queued.distinct f hmem)
    have htracked := h.tracked e.reqId q hq
    rw [hps] at htracked
    refine ⟨q0,hq0,?_⟩
    rw [htracked.toBooked.stale_iff, hq0]
    rfl
  drafts f hf e he := by
    have hd := (h.drafts f hf e he).1.le
    omega
  accepted f hf e he q hq p hp tokens ha grammarRejects := by
    obtain ⟨ps,hps⟩ := pending_head hf hp (h.legal.queued.distinct f (mem_of_mem_head? hf))
    have htracked := h.tracked e.reqId q hq
    rw [hps] at htracked
    exact htracked.output_isSome ha

def preemptedInFlight : List Event :=
  [.addRequest shortPrompt,
    .schedule {},
    .updateFromOutput { sampledTokenIds := fun _ => [7] },
    .addRequest { longPrompt with maxTokens := 8 },
    .schedule { prefixLookup := fun _ => some { localHit := 8 } },
    .schedule {},
    .resetPrefixCache,
    .updateFromOutput { sampledTokenIds := fun _ => [5,6] }]

def cutModel (longPrefillTokenThreshold : ℕ) : Config :=
  { shortModel 32 with longPrefillTokenThreshold := longPrefillTokenThreshold }

end MetaZenith.Sched
