import MetaZenith.EncoderSchedule

/-! The encoder cache over whole runs: the scheduler's manager and the worker's dictionary, with
`GPUModelRunner._gather_mm_embeddings` reading what the steps have left there. -/

namespace MetaZenith.Encoder

open List Option

variable {encoderCache : Finset MmHash} {c n shift : ℕ} {f : MmFeature} {req : MmRequest}
  {s s' : EncoderEngine} {e : ScheduledRequest}

open EncoderCacheManager EncoderPlan

inductive GatherError
  | assertion
  | encoderCacheMiss (h : MmHash)
  deriving DecidableEq

def gatherFeature (encoderCache : Finset MmHash) (c n shift : ℕ) (f : MmFeature) :
    Except GatherError (Option (MmHash × ℕ × ℕ)) :=
  let numComputedTokens := c+shift
  let startIdx := numComputedTokens-f.start
  let endIdx := min f.position.length (numComputedTokens+n-f.start)
  if endIdx ≤ startIdx then .error .assertion
  else
    let (currEmbedsStart,currEmbedsEnd) := f.position.getEmbedsIndicesInRange startIdx endIdx
    if currEmbedsStart = currEmbedsEnd then .ok none
    else if f.identifier ∈ encoderCache then
      .ok (some (f.identifier,currEmbedsStart,currEmbedsEnd))
    -- reached by the look-ahead of the drafter only
    else if c+n ≤ f.start then .ok none
    else .error (.encoderCacheMiss f.identifier)

def gatherFeatures (encoderCache : Finset MmHash) (c n shift : ℕ) :
    List MmFeature → Except GatherError (List (MmHash × ℕ × ℕ))
  | [] => .ok []
  | f :: fs =>
    match gatherFeature encoderCache c n shift f with
    | .error e => .error e
    | .ok slice => (gatherFeatures encoderCache c n shift fs).map (slice.toList ++ ·)

def gatherMmEmbeddings (encoderCache : Finset MmHash) (req : MmRequest) (c n shift : ℕ) :
    Except GatherError (List (MmHash × ℕ × ℕ)) :=
  let window := windowIndices req.mmFeatures (c+shift) (c+shift+n)
  gatherFeatures encoderCache c n shift (window.filterMap fun i => req.mmFeatures[i]?)

def Misses {α : Type} : Except GatherError α → Bool
  | .error (.encoderCacheMiss _) => true
  | _ => false

theorem misses_gatherFeature_iff (hstop : c+shift < f.stop) :
    Misses (gatherFeature encoderCache c n shift f) = true ↔
      f.EmbedsWithin (c+shift) (c+shift+n) ∧ f.identifier ∉ encoderCache ∧ f.start < c+n := by
  have hrange := f.indices_eq_iff hstop (Nat.le_add_right (c+shift) n)
  have hpos : f.EmbedsWithin (c+shift) (c+shift+n) →
      ¬ min f.position.length (c+shift+n-f.start) ≤ c+shift-f.start := by
    rintro ⟨t,hat,htb,hst,hts,-⟩
    have hlen : f.stop = f.start+f.position.length := rfl
    omega
  unfold gatherFeature
  dsimp only
  split_ifs with hassert heq hmem hbeyond
  · simp only [Misses, Bool.false_eq_true, false_iff, not_and]
    exact fun hemb => absurd hassert (hpos hemb)
  · simp [Misses, hrange.mp heq]
  · simp [Misses, hmem]
  · simp [Misses, hbeyond]
  · have hemb := not_not.mp (fun hno => heq (hrange.mpr hno))
    simp [Misses, hemb, hmem, not_le.mp hbeyond]

theorem gatherFeature_ne_assertion (hn : 0 < n) (hstop : c+shift < f.stop)
    (hstart : f.start < c+shift+n) (hlen : 0 < f.position.length) :
    gatherFeature encoderCache c n shift f ≠ .error .assertion := by
  have hstop' : c+shift < f.start+f.position.length := hstop
  unfold gatherFeature
  dsimp only
  split_ifs with hassert
  · omega
  all_goals exact fun h => nomatch h

theorem exists_misses_of_gatherFeatures {fs : List MmFeature}
    (h : Misses (gatherFeatures encoderCache c n shift fs) = true) :
    ∃ f ∈ fs, Misses (gatherFeature encoderCache c n shift f) = true := by
  induction fs with
  | nil => exact Bool.noConfusion h
  | cons f fs ih =>
    rw [gatherFeatures] at h
    cases hf : gatherFeature encoderCache c n shift f with
    | error e =>
      rw [hf] at h
      exact ⟨f,mem_cons_self,by rw [hf]; cases e <;> exact h⟩
    | ok slice =>
      rw [hf] at h
      have hrest : Misses (gatherFeatures encoderCache c n shift fs) = true := by
        cases hfs : gatherFeatures encoderCache c n shift fs with
        | error e =>
          rw [hfs] at h
          cases e <;> exact h
        | ok slices =>
          rw [hfs] at h
          exact Bool.noConfusion h
      obtain ⟨g,hg,hmiss⟩ := ih hrest
      exact ⟨g,mem_cons_of_mem _ hg,hmiss⟩

theorem misses_gatherFeatures {fs : List MmFeature}
    (hok : ∀ f ∈ fs, gatherFeature encoderCache c n shift f ≠ .error .assertion) (hf : f ∈ fs)
    (h : Misses (gatherFeature encoderCache c n shift f) = true) :
    Misses (gatherFeatures encoderCache c n shift fs) = true := by
  induction fs with
  | nil => cases hf
  | cons g fs ih =>
    obtain ⟨hg,hfs⟩ := forall_mem_cons.mp hok
    rw [gatherFeatures]
    cases hgr : gatherFeature encoderCache c n shift g with
    | error e =>
      cases e with
      | assertion => exact absurd hgr hg
      | encoderCacheMiss x => rfl
    | ok slice =>
      have hne : f ∈ fs := by
        rcases mem_cons.mp hf with rfl | hf
        · rw [hgr] at h
          exact Bool.noConfusion h
        · exact hf
      have hrest := ih hfs hne
      cases hgs : gatherFeatures encoderCache c n shift fs with
      | error e =>
        rw [hgs] at hrest
        cases e <;> exact hrest
      | ok slices =>
        rw [hgs] at hrest
        exact Bool.noConfusion hrest

theorem mem_window_iff (req : MmRequest) {a b : ℕ} :
    f ∈ (windowIndices req.mmFeatures a b).filterMap (fun i => req.mmFeatures[i]?) ↔
      f ∈ req.mmFeatures ∧ a < f.stop ∧ f.start < b := by
  rw [mem_filterMap]
  constructor
  · rintro ⟨i,hi,hf⟩
    obtain ⟨g,hg,hwin⟩ := req.mem_windowIndices.mp hi
    obtain rfl : g = f := Option.some.inj (hg.symm.trans hf)
    exact ⟨mem_of_getElem? hf,hwin⟩
  · rintro ⟨hf,hwin⟩
    obtain ⟨i,hi⟩ := mem_iff_getElem?.mp hf
    exact ⟨i,req.mem_windowIndices.mpr ⟨f,hi,hwin⟩,hi⟩

def MissedFeature (encoderCache : Finset MmHash) (c n shift : ℕ) (f : MmFeature) : Prop :=
  f.EmbedsWithin (c+shift) (c+shift+n) ∧ f.identifier ∉ encoderCache ∧ f.start < c+n

theorem MissedFeature.inWindow (h : MissedFeature encoderCache c n shift f) :
    c+shift < f.stop ∧ f.start < c+shift+n := by
  obtain ⟨⟨t,hat,htb,hst,hts,-⟩,-⟩ := h
  omega

theorem exists_missedFeature (h : Misses (gatherMmEmbeddings encoderCache req c n shift) = true) :
    ∃ f ∈ req.mmFeatures, MissedFeature encoderCache c n shift f := by
  obtain ⟨f,hf,hmiss⟩ := exists_misses_of_gatherFeatures h
  obtain ⟨hmem,hstop,-⟩ := (mem_window_iff req).mp hf
  exact ⟨f,hmem,(misses_gatherFeature_iff hstop).mp hmiss⟩

theorem misses_of_missedFeature (hn : 0 < n) (hlen : ∀ f ∈ req.mmFeatures, 0 < f.position.length)
    (hf : f ∈ req.mmFeatures) (h : MissedFeature encoderCache c n shift f) :
    Misses (gatherMmEmbeddings encoderCache req c n shift) = true := by
  refine misses_gatherFeatures ?_ ((mem_window_iff req).mpr ⟨hf,h.inWindow⟩)
    ((misses_gatherFeature_iff h.inWindow.1).mpr h)
  intro g hg
  obtain ⟨hmem,hstop,hstart⟩ := (mem_window_iff req).mp hg
  exact gatherFeature_ne_assertion hn hstop hstart (hlen g hmem)

structure ScheduledRequest where
  req : MmRequest
  numComputedTokens : ℕ
  numScheduledTokens : ℕ
  /-- its entry of `scheduled_encoder_inputs` -/
  encoderInputs : List ℕ

def ScheduledRequest.gather (e : ScheduledRequest) (encoderCache : Finset MmHash) (shift : ℕ) :
    Except GatherError (List (MmHash × ℕ × ℕ)) :=
  gatherMmEmbeddings encoderCache e.req e.numComputedTokens e.numScheduledTokens shift

structure EncoderEngine where
  manager : EncoderCacheManager
  /-- the hashes in the worker's `encoder_cache` -/
  encoderCache : Finset MmHash
  /-- the step that `schedule()` is putting together -/
  scheduled : List ScheduledRequest
  externalLoads : List MmHash
  /-- the step that the worker ran last -/
  executed : List ScheduledRequest

namespace EncoderEngine

def new (cacheSize : ℕ) : EncoderEngine :=
  { manager := .new cacheSize, encoderCache := ∅, scheduled := [], externalLoads := [],
    executed := [] }

def withManager (s : EncoderEngine) (m : EncoderCacheManager) : EncoderEngine :=
  { s with manager := m }

def preempt (s : EncoderEngine) (victim : MmRequest × List ℕ) : Option EncoderEngine :=
  (s.manager.free victim.1 victim.2).map fun m =>
    { s with
      manager := m
      scheduled := s.scheduled.filter (·.req.requestId ≠ victim.1.requestId) }

def admitRequest (s : EncoderEngine) (req : MmRequest) (c k : ℕ) (p : EncoderPlan) :
    Option EncoderEngine := do
  let m ← p.encoderInputsToSchedule.foldlM (fun m i => m.allocate req i) s.manager
  let m ← p.externalLoadEncoderInput.foldlM (fun m i => m.allocate req i) m
  some { s with
    manager := m
    scheduled := s.scheduled ++ [⟨req,c,k,p.encoderInputsToSchedule⟩]
    externalLoads := s.externalLoads ++ p.externalLoadEncoderInput.filterMap req.hashOf }

def incoming (s : EncoderEngine) : List MmHash :=
  s.externalLoads ++ s.scheduled.flatMap fun e => e.encoderInputs.filterMap e.req.hashOf

def execute (s : EncoderEngine) : EncoderEngine :=
  { manager := s.manager.takeFreed
    encoderCache := s.encoderCache.filter (· ∉ s.manager.freed) ∪ s.incoming.toFinset
    scheduled := []
    externalLoads := []
    executed := s.scheduled }

inductive Event
  /-- `schedule()` looks at a request with `n` tokens to compute after `c`: encoder inputs are
  tried, requests are preempted for want of blocks (each with the order in which its cached inputs
  are listed), and the request gets `granted` tokens, at most those the plan allows, or none. -/
  | attempt (req : MmRequest) (c n : ℕ) (budget : ℤ) (victims : List (MmRequest × List ℕ))
      (granted : Option ℕ)
  /-- between two steps a request gives up an input: processed, finished or aborted -/
  | release (req : MmRequest) (i : ℕ)
  | execute

def attempt (cfg : EncoderConfig) (s : EncoderEngine) (req : MmRequest) (c n : ℕ) (budget : ℤ)
    (victims : List (MmRequest × List ℕ)) (granted : Option ℕ) : Option EncoderEngine := do
  let p ← trySchedule cfg s.manager req c n budget
  let s ← victims.foldlM preempt (s.withManager p.manager)
  match granted with
  | none => some s
  | some k =>
    if 0 < k ∧ k ≤ p.numNewTokens ∧ ∀ v ∈ victims, v.1.requestId ≠ req.requestId then
      s.admitRequest req c k p
    else none

def step (cfg : EncoderConfig) (s : EncoderEngine) : Event → Option EncoderEngine
  | .attempt req c n budget victims granted =>
    -- a request is looked at once in a step
    if ∀ e ∈ s.scheduled, e.req.requestId ≠ req.requestId then
      s.attempt cfg req c n budget victims granted
    else none
  | .release req i =>
    if s.scheduled.isEmpty then (s.manager.freeEncoderInput req i).map s.withManager else none
  | .execute => some s.execute

/-- No request is preempted in the step in which encoder inputs were scheduled for it. -/
def KeepsInputs (s : EncoderEngine) (ev : Event) (_ : EncoderEngine) : Prop :=
  match ev with
  | .attempt _ _ _ _ victims _ => ∀ v ∈ victims, ∀ e ∈ s.scheduled,
      e.req.requestId = v.1.requestId → e.encoderInputs = []
  | _ => True

def Held (m : EncoderCacheManager) (e : ScheduledRequest) : Prop :=
  ∀ f ∈ e.req.mmFeatures, f.EmbedsWithin e.numComputedTokens
    (e.numComputedTokens+e.numScheduledTokens) → m.Holds e.req.requestId f.identifier

def Available (encoderCache : Finset MmHash) (e : ScheduledRequest) : Prop :=
  ∀ f ∈ e.req.mmFeatures, f.EmbedsWithin e.numComputedTokens
    (e.numComputedTokens+e.numScheduledTokens) → f.identifier ∈ encoderCache

structure Inv (s : EncoderEngine) : Prop where
  wellFormed : s.manager.WellFormed
  /-- what the scheduler takes for cached is with the worker, or will be after this step -/
  backed : ∀ h, s.manager.Cached h →
    h ∈ s.incoming ∨ (h ∈ s.encoderCache ∧ h ∉ s.manager.freed)
  held : ∀ e ∈ s.scheduled, 0 < e.numScheduledTokens ∧ Held s.manager e
  available : ∀ e ∈ s.executed, 0 < e.numScheduledTokens ∧ Available s.encoderCache e

theorem Inv.new (cacheSize : ℕ) : Inv (new cacheSize) where
  wellFormed := wellFormed_new cacheSize
  backed := fun h hc => by simp [EncoderEngine.new, EncoderCacheManager.new, Cached] at hc
  held := fun _ he => nomatch he
  available := fun _ he => nomatch he

theorem Inv.withManager {m : EncoderCacheManager} {gone : RequestId → Prop} (hs : s.Inv)
    (hm : Follows (fun _ => False) gone s.manager m)
    (hgone : ∀ e ∈ s.scheduled, ¬ gone e.req.requestId) : (s.withManager m).Inv where
  wellFormed := hm.wellFormed
  backed := by
    intro h hc
    obtain ⟨hc',hfreed⟩ := (hm.cached h hc).resolve_left id
    exact (hs.backed h hc').imp_right fun ⟨hmem,hnot⟩ => ⟨hmem,fun hf => hnot (hfreed hf)⟩
  held := fun e he => ⟨(hs.held e he).1,fun f hf hemb =>
    hm.holds _ _ (hgone e he) ((hs.held e he).2 f hf hemb)⟩
  available := hs.available

/-- Entries without encoder inputs leave the step without taking anything away from it. -/
theorem incoming_filter {P : ScheduledRequest → Bool}
    (hempty : ∀ e ∈ s.scheduled, P e = false → e.encoderInputs = []) :
    { s with scheduled := s.scheduled.filter P }.incoming = s.incoming := by
  unfold incoming
  dsimp only
  congr 1
  generalize s.scheduled = entries at hempty ⊢
  induction entries with
  | nil => rfl
  | cons e es ih =>
    obtain ⟨he,hes⟩ := forall_mem_cons.mp hempty
    cases hP : P e with
    | true => rw [filter_cons_of_pos hP, flatMap_cons, flatMap_cons, ih hes]
    | false =>
      rw [filter_cons_of_neg (by simp [hP]), flatMap_cons, ih hes, he hP]
      rfl

theorem Inv.preempt {victim : MmRequest × List ℕ} (hs : s.Inv)
    (hempty : ∀ e ∈ s.scheduled, e.req.requestId = victim.1.requestId → e.encoderInputs = [])
    (h : s.preempt victim = some s') : s'.Inv ∧ s'.scheduled ⊆ s.scheduled ∧
      Follows (fun _ => False) (· = victim.1.requestId) s.manager s'.manager := by
  obtain ⟨m,hm,rfl⟩ := map_eq_some_iff.mp h
  have hfree := hs.wellFormed.free hm
  set kept : ScheduledRequest → Bool := fun e => e.req.requestId ≠ victim.1.requestId
  have hin := incoming_filter (P := kept) (s := s) fun e he hP => hempty e he (by simpa [kept] using hP)
  -- the step without the victim is still sound, and then its references go
  have hkept : Inv { s with scheduled := s.scheduled.filter kept } :=
    { wellFormed := hs.wellFormed
      backed := fun x hx => by rw [hin]; exact hs.backed x hx
      held := fun e he => hs.held e (List.mem_filter.mp he).1
      available := hs.available }
  refine ⟨hkept.withManager hfree ?_,filter_subset_self _,hfree⟩
  intro e he
  simpa [kept] using (List.mem_filter.mp he).2

variable {victims : List (MmRequest × List ℕ)}

theorem Inv.preemptAll (hs : s.Inv)
    (hempty : ∀ v ∈ victims, ∀ e ∈ s.scheduled, e.req.requestId = v.1.requestId →
      e.encoderInputs = []) (h : victims.foldlM EncoderEngine.preempt s = some s') :
    s'.Inv ∧ s'.scheduled ⊆ s.scheduled ∧
      Follows (fun _ => False) (fun r => ∃ v ∈ victims, r = v.1.requestId) s.manager s'.manager := by
  refine foldlM_option_keeps (P := fun t => t.Inv ∧ t.scheduled ⊆ s.scheduled ∧
    Follows (fun _ => False) (fun r => ∃ v ∈ victims, r = v.1.requestId) s.manager t.manager)
    ?_ ⟨hs,List.Subset.refl _,.refl hs.wellFormed⟩ h
  rintro v hv t t' ⟨ht,hsub,hfol⟩ hstep
  obtain ⟨ht',hsub',hfol'⟩ := ht.preempt (fun e he => hempty v hv e (hsub he)) hstep
  exact ⟨ht',fun _ he => hsub (hsub' he),hfol.trans (hfol'.mono (fun _ => id) fun r hr => ⟨v,hv,hr⟩)⟩

theorem follows_allocateAll {is : List ℕ} {hs : List MmHash} {m m' : EncoderCacheManager}
    (hm : m.WellFormed) (hhash : is.map req.hashOf = hs.map some) (hnodup : hs.Nodup)
    (hfresh : ∀ x ∈ hs, ¬ m.Cached x) (h : is.foldlM (fun m i => m.allocate req i) m = some m') :
    Follows (· ∈ hs) (fun _ => False) m m' ∧ ∀ x ∈ hs, m'.Holds req.requestId x := by
  induction is generalizing m hs with
  | nil =>
    obtain rfl : hs = [] := by simpa using hhash.symm
    cases h
    exact ⟨.refl hm,(fun _ hx => nomatch hx)⟩
  | cons i is ih =>
    cases hs with
    | nil => simp at hhash
    | cons x hs =>
      rw [map_cons, map_cons, List.cons.injEq] at hhash
      obtain ⟨f,hf,rfl⟩ := map_eq_some_iff.mp hhash.1
      obtain ⟨hx,hrestfresh⟩ := forall_mem_cons.mp hfresh
      obtain ⟨hnot,hnodup⟩ := nodup_cons.mp hnodup
      rw [foldlM_cons] at h
      obtain ⟨m₁,hm₁,h⟩ := bind_eq_some_iff.mp h
      obtain ⟨hfol₁,hholds₁⟩ := hm.allocate hf hx hm₁
      have hfresh₁ : ∀ y ∈ hs, ¬ m₁.Cached y := by
        intro y hy hc
        rcases hfol₁.cached y hc with rfl | ⟨hc',-⟩
        · exact hnot hy
        · exact hrestfresh y hy hc'
      obtain ⟨hfol,hholds⟩ := ih hfol₁.wellFormed hhash.2 hnodup hfresh₁ h
      have hfirst : Follows (· ∈ f.identifier :: hs) (fun _ => False) m m₁ :=
        hfol₁.mono (fun y hy => hy ▸ mem_cons_self) fun _ => id
      refine ⟨hfirst.trans (hfol.mono (fun _ hy => mem_cons_of_mem _ hy) fun _ => id),?_⟩
      exact forall_mem_cons.mpr ⟨hfol.holds _ _ id hholds₁,hholds⟩

theorem map_filterMap_of_perm {is : List ℕ} {hs : List MmHash}
    (h : (is.map req.hashOf).Perm (hs.map some)) :
    is.map req.hashOf = (is.filterMap req.hashOf).map some ∧ (is.filterMap req.hashOf).Perm hs := by
  have hsome : ∀ i ∈ is, (req.hashOf i).isSome := by
    intro i hi
    obtain ⟨x,-,hx⟩ := mem_map.mp (h.subset (mem_map_of_mem hi))
    rw [← hx]
    rfl
  have heq : is.map req.hashOf = (is.filterMap req.hashOf).map some := by
    clear h
    induction is with
    | nil => rfl
    | cons i is ih =>
      obtain ⟨hi,his⟩ := forall_mem_cons.mp hsome
      obtain ⟨x,hx⟩ := isSome_iff_exists.mp hi
      rw [map_cons, filterMap_cons, hx, ih his]
      rfl
  refine ⟨heq,?_⟩
  rw [heq] at h
  exact (map_perm_map_iff (some_injective _)).mp h

theorem Inv.admitRequest {k : ℕ} {p : EncoderPlan} (hs : s.Inv)
    (hhashes : ((p.encoderInputsToSchedule ++ p.externalLoadEncoderInput).map
      req.hashOf).Perm (p.mmHashesToSchedule.map some)) (hnodup : p.mmHashesToSchedule.Nodup)
    (hfresh : ∀ x ∈ p.mmHashesToSchedule, ¬ s.manager.Cached x) (hk : 0 < k)
    (hprov : ∀ f ∈ req.mmFeatures, f.EmbedsWithin c (c+k) →
      s.manager.Holds req.requestId f.identifier ∨ f.identifier ∈ p.mmHashesToSchedule)
    (h : s.admitRequest req c k p = some s') : s'.Inv := by
  obtain ⟨m₁,hm₁,h⟩ := bind_eq_some_iff.mp h
  obtain ⟨m,hm,h⟩ := bind_eq_some_iff.mp h
  cases h
  have hall : (p.encoderInputsToSchedule ++ p.externalLoadEncoderInput).foldlM
      (fun m i => m.allocate req i) s.manager = some m := by
    rw [foldlM_append, hm₁]
    exact hm
  obtain ⟨heq,hperm⟩ := map_filterMap_of_perm hhashes
  obtain ⟨hfol,hholds⟩ := follows_allocateAll hs.wellFormed heq (hperm.nodup_iff.mpr hnodup)
    (fun x hx => hfresh x (hperm.subset hx)) hall
  refine ⟨hfol.wellFormed,?_,?_,hs.available⟩
  · intro x hx
    rcases hfol.cached x hx with hnew | ⟨hc,hfreed⟩
    · refine .inl ?_
      simp only [incoming, flatMap_append, mem_append]
      rw [filterMap_append, mem_append] at hnew
      rcases hnew with hrun | hload
      · exact .inr (.inr (by simpa using hrun))
      · exact .inl (.inr hload)
    · refine (hs.backed x hc).imp ?_ fun ⟨hmem,hnot⟩ => ⟨hmem,fun hf => hnot (hfreed hf)⟩
      intro hin
      simp only [incoming, flatMap_append, mem_append] at hin ⊢
      exact hin.imp .inl .inl
  · intro e he
    rcases mem_append.mp he with hold | hlast
    · exact ⟨(hs.held e hold).1,fun f hf hemb => hfol.holds _ _ id ((hs.held e hold).2 f hf hemb)⟩
    · rw [mem_singleton.mp hlast]
      refine ⟨hk,fun f hf hemb => ?_⟩
      rcases hprov f hf hemb with hheld | hmem
      · exact hfol.holds _ _ id hheld
      · exact hholds _ (hperm.mem_iff.mpr hmem)

theorem Inv.attempt {cfg : EncoderConfig} {budget : ℤ} {granted : Option ℕ} (hs : s.Inv)
    (hempty : ∀ v ∈ victims, ∀ e ∈ s.scheduled, e.req.requestId = v.1.requestId →
      e.encoderInputs = []) (h : s.attempt cfg req c n budget victims granted = some s') :
    s'.Inv := by
  obtain ⟨p,hp,h⟩ := bind_eq_some_iff.mp h
  obtain ⟨hplan,-,hprov⟩ := trySchedule_provides hs.wellFormed hp
  have hs₁ : (s.withManager p.manager).Inv := hs.withManager hplan.follows fun _ _ => id
  obtain ⟨t,ht,h⟩ := bind_eq_some_iff.mp h
  obtain ⟨htinv,-,htfol⟩ := hs₁.preemptAll hempty ht
  cases granted with
  | none =>
    cases h
    exact htinv
  | some k =>
    obtain ⟨⟨hk,hkn,hother⟩,h⟩ := ite_none_right_eq_some.mp h
    refine htinv.admitRequest hplan.hashes hplan.nodup
      (fun x hx => htfol.not_cached (hplan.fresh x hx)) hk ?_ h
    intro f hf hemb
    refine (hprov f hf (hemb.mono le_rfl (Nat.add_le_add_left hkn c))).imp_left fun hheld => ?_
    exact htfol.holds _ _ (fun ⟨v,hv,heq⟩ => hother v hv heq.symm) hheld

theorem Inv.execute (hs : s.Inv) : s.execute.Inv := by
  have harrived (x : MmHash) (hx : s.manager.Cached x) : x ∈ s.execute.encoderCache := by
    rw [EncoderEngine.execute, Finset.mem_union, List.mem_toFinset, Finset.mem_filter]
    exact (hs.backed x hx).symm
  refine ⟨⟨hs.wellFormed.unreferenced,hs.wellFormed.nodup⟩,?_,(fun _ he => nomatch he),?_⟩
  · intro x hx
    exact .inr ⟨harrived x hx,not_mem_nil⟩
  · intro e he
    obtain ⟨hpos,hheld⟩ := hs.held e he
    exact ⟨hpos,fun f hf hemb => harrived _ (hheld f hf hemb).cached⟩

theorem Inv.step {cfg : EncoderConfig} {ev : Event} (hs : s.Inv) (h : s.step cfg ev = some s')
    (hok : KeepsInputs s ev s') : s'.Inv := by
  cases ev with
  | attempt req c n budget victims granted =>
    obtain ⟨-,h⟩ := ite_none_right_eq_some.mp h
    exact hs.attempt hok h
  | release req i =>
    obtain ⟨hnil,h⟩ := ite_none_right_eq_some.mp h
    obtain ⟨m,hm,rfl⟩ := map_eq_some_iff.mp h
    refine hs.withManager (hs.wellFormed.freeEncoderInput hm) ?_
    rw [isEmpty_iff.mp hnil]
    exact fun _ he => nomatch he
  | execute =>
    cases h
    exact hs.execute

/-- A feature that has begun but takes no embedding among the tokens of the step, and one right
after them, is in the worker's dictionary. -/
def LookaheadCovered (encoderCache : Finset MmHash) (e : ScheduledRequest) : Prop :=
  let boundary := e.numComputedTokens+e.numScheduledTokens
  ∀ f ∈ e.req.mmFeatures, f.start < boundary → f.EmbedsWithin boundary (boundary+1) →
    ¬ f.EmbedsWithin e.numComputedTokens boundary → f.identifier ∈ encoderCache

theorem Available.gather_zero (he : Available encoderCache e) :
    Misses (e.gather encoderCache 0) = false := by
  by_contra hmiss
  obtain ⟨f,hf,hemb,hnot,-⟩ := exists_missedFeature (Bool.not_eq_false _ ▸ hmiss)
  exact hnot (he f hf hemb)

theorem Available.gather_one (he : Available encoderCache e)
    (hcov : LookaheadCovered encoderCache e) : Misses (e.gather encoderCache 1) = false := by
  by_contra hmiss
  obtain ⟨f,hf,hemb,hnot,hstart⟩ := exists_missedFeature (Bool.not_eq_false _ ▸ hmiss)
  have hnone : ¬ f.EmbedsWithin e.numComputedTokens (e.numComputedTokens+e.numScheduledTokens) :=
    fun hin => hnot (he f hf hin)
  refine hnot (hcov f hf hstart ?_ hnone)
  -- the embedding that was read cannot stand before the boundary
  obtain ⟨t,hat,htb,hpos⟩ := hemb
  by_cases ht : t < e.numComputedTokens+e.numScheduledTokens
  · exact absurd ⟨t,by omega,ht,hpos⟩ hnone
  · exact ⟨t,by omega,by omega,hpos⟩

theorem misses_of_not_lookaheadCovered (hpos : 0 < e.numScheduledTokens)
    (hlen : ∀ f ∈ e.req.mmFeatures, 0 < f.position.length)
    (hcov : ¬ LookaheadCovered encoderCache e) : Misses (e.gather encoderCache 1) = true := by
  simp only [LookaheadCovered] at hcov
  push Not at hcov
  obtain ⟨f,hf,hstart,hemb,-,hnot⟩ := hcov
  refine misses_of_missedFeature hpos hlen hf ⟨?_,hnot,hstart⟩
  exact hemb.mono (by omega) (by omega)

/-- In every run in which no request loses scheduled encoder inputs to a preemption, the worker
finds every encoder output of the target model's read. The drafter's read, one token ahead, finds
its outputs exactly if the feature that straddles the end of the step is covered. -/
theorem encoder_outputs_available (cfg : EncoderConfig) (cacheSize : ℕ) {s : EncoderEngine}
    (h : Reachable (EncoderEngine.step cfg) KeepsInputs (.new cacheSize) s)
    {e : ScheduledRequest} (he : e ∈ s.executed) :
    Misses (e.gather s.encoderCache 0) = false ∧
      (cfg.useEagle = true →
        (LookaheadCovered s.encoderCache e → Misses (e.gather s.encoderCache 1) = false) ∧
        ((∀ f ∈ e.req.mmFeatures, 0 < f.position.length) →
          ¬ LookaheadCovered s.encoderCache e → Misses (e.gather s.encoderCache 1) = true)) := by
  have hinv : s.Inv := h.invariant (P := Inv) (Inv.new cacheSize) fun _ _ _ ht => ht.step
  obtain ⟨hpos,havail⟩ := hinv.available e he
  refine ⟨havail.gather_zero,fun _ => ⟨havail.gather_one,?_⟩⟩
  exact fun hlen => misses_of_not_lookaheadCovered hpos hlen

def noVictims (_ : EncoderEngine) (ev : Event) (_ : EncoderEngine) : Bool :=
  match ev with
  | .attempt _ _ _ _ victims _ => victims.isEmpty
  | _ => true

theorem keepsInputs_of_noVictims (s : EncoderEngine) (ev : Event) (s' : EncoderEngine)
    (h : noVictims s ev s' = true) : KeepsInputs s ev s' := by
  cases ev with
  | attempt req c n budget victims granted =>
    intro v hv
    rw [isEmpty_iff.mp h] at hv
    cases hv
  | release req i => trivial
  | execute => trivial

def imageRequest (r : RequestId) : MmRequest where
  requestId := r
  mmFeatures := [⟨7,⟨1,4,none,(fun _ h => nomatch h)⟩⟩]
  ordered := pairwise_singleton ..

def maskedRequest (r : RequestId) : MmRequest where
  requestId := r
  mmFeatures := [⟨7,⟨0,2,some [false,true],(fun _ h => by cases h; rfl)⟩⟩]
  ordered := pairwise_singleton ..

def textRequest (r : RequestId) : MmRequest := ⟨r,[],.nil⟩

def eagleConfig (useEagle : Bool) : EncoderConfig := ⟨false,useEagle,fun _ => false⟩

theorem encoder_outputs_available_image : ∃ s : EncoderEngine, ∃ e ∈ s.executed,
    e.numScheduledTokens = 3 ∧ Misses (e.gather s.encoderCache 0) = false := by
  have hrun : (runGuarded (EncoderEngine.step (eagleConfig true)) noVictims (.new 8)
      [.attempt (imageRequest 0) 0 3 8 [] (some 3),.execute]).any
      (fun s => s.executed.any fun e => e.numScheduledTokens = 3) = true := by decide +kernel
  obtain ⟨s,hs,hp⟩ := Reachable.exists_of_runGuarded _ keepsInputs_of_noVictims _ _ _ hrun
  obtain ⟨e,he,htokens⟩ := any_eq_true.mp hp
  exact ⟨s,e,he,of_decide_eq_true htokens,(encoder_outputs_available (eagleConfig true) 8 hs he).1⟩

/-- The two ways in which a read misses. With the drafter's look-ahead, an item is skipped whose
first embedding stands right after the scheduled tokens. With priority preemption, a request loses
the encoder run of its image to a text request in the same step, but the scheduler goes on taking
the image for cached. -/
theorem encoder_outputs_missing :
    (runGuarded (EncoderEngine.step (eagleConfig true)) (fun _ _ _ => true) (.new 8)
      [.attempt (maskedRequest 0) 0 1 8 [] (some 1),.execute]).any
      (fun s => s.executed.any fun e => Misses (e.gather s.encoderCache 1)) = true ∧
    (runGuarded (EncoderEngine.step (eagleConfig false)) (fun _ _ _ => true) (.new 8)
      [.attempt (imageRequest 0) 0 3 8 [] (some 3),
        .attempt (textRequest 1) 0 1 8 [(imageRequest 0,[0])] (some 1),.execute,
        .attempt (imageRequest 0) 0 3 8 [] (some 3),.execute]).any
      (fun s => s.executed.any fun e => Misses (e.gather s.encoderCache 0)) = true := by
  decide +kernel

end EncoderEngine

end MetaZenith.Encoder
