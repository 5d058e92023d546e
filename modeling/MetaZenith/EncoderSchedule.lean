import MetaZenith.EncoderCacheManager

/-! `Scheduler._try_schedule_encoder_inputs` for decoder-only models: which encoder inputs a step
runs, and how far the step may go without the ones it cannot run. -/

namespace MetaZenith.Encoder

open List Option

variable {req : MmRequest} {m : EncoderCacheManager} {p : EncoderPlan}

open EncoderCacheManager

structure EncoderConfig where
  disableChunkedMmInput : Bool
  useEagle : Bool
  /-- `ec_connector.has_cache_item`; constantly false where there is no connector. -/
  hasCacheItem : MmHash → Bool

def EncoderConfig.shift (cfg : EncoderConfig) : ℕ := if cfg.useEagle then 1 else 0

structure EncoderPlan where
  manager : EncoderCacheManager
  encoderInputsToSchedule : List ℕ
  externalLoadEncoderInput : List ℕ
  mmHashesToSchedule : List MmHash
  numEmbedsToSchedule : ℕ
  encoderComputeBudget : ℤ
  numNewTokens : ℕ

namespace EncoderPlan

def new (m : EncoderCacheManager) (budget : ℤ) (n : ℕ) : EncoderPlan :=
  { manager := m, encoderInputsToSchedule := [], externalLoadEncoderInput := [],
    mmHashesToSchedule := [], numEmbedsToSchedule := 0, encoderComputeBudget := budget,
    numNewTokens := n }

def withManager (p : EncoderPlan) (m : EncoderCacheManager) : EncoderPlan := { p with manager := m }

def rollBack (p : EncoderPlan) (n : ℕ) : EncoderPlan := { p with numNewTokens := n }

def schedule (cfg : EncoderConfig) (p : EncoderPlan) (f : MmFeature) (i : ℕ) : EncoderPlan :=
  let numEncoderEmbeds := f.position.getNumEmbeds
  if cfg.hasCacheItem f.identifier then
    { p with
      mmHashesToSchedule := f.identifier :: p.mmHashesToSchedule
      externalLoadEncoderInput := p.externalLoadEncoderInput ++ [i]
      numEmbedsToSchedule := p.numEmbedsToSchedule+numEncoderEmbeds }
  else
    { p with
      numEmbedsToSchedule := p.numEmbedsToSchedule+numEncoderEmbeds
      encoderComputeBudget := p.encoderComputeBudget-numEncoderEmbeds
      mmHashesToSchedule := f.identifier :: p.mmHashesToSchedule
      encoderInputsToSchedule := p.encoderInputsToSchedule ++ [i] }

def visitMissing (cfg : EncoderConfig) (req : MmRequest) (c i : ℕ) (f : MmFeature)
    (p : EncoderPlan) : Option (EncoderPlan × Bool) :=
  if cfg.disableChunkedMmInput = true ∧ c < f.start ∧ c+p.numNewTokens < f.stop then
    some (p.rollBack (f.start-(c+cfg.shift)),false)
  else do
    let (ok,m) ← p.manager.canAllocate req i p.encoderComputeBudget p.numEmbedsToSchedule
    let p := p.withManager m
    if ok = false then
      -- only the tokens before the item, or none if the item has begun
      some (p.rollBack (if c+cfg.shift < f.start then f.start-(c+cfg.shift) else 0),false)
    else
      let startIdxRel := c-f.start
      let endIdxRel := min f.position.length (c+p.numNewTokens-f.start)
      let (currEmbedsStart,currEmbedsEnd) :=
        f.position.getEmbedsIndicesInRange startIdxRel endIdxRel
      if currEmbedsStart = currEmbedsEnd then some (p,true)
      else some (p.schedule cfg f i,true)

def visit (cfg : EncoderConfig) (req : MmRequest) (c i : ℕ) (p : EncoderPlan) :
    Option (EncoderPlan × Bool) := do
  let f ← req.mmFeatures[i]?
  if f.identifier ∈ p.mmHashesToSchedule then some (p,true)
  else
    let (hit,m) ← p.manager.checkAndUpdateCache req i
    let p := p.withManager m
    if hit = true then some (p,true) else visitMissing cfg req c i f p

def visitAll (cfg : EncoderConfig) (req : MmRequest) (c : ℕ) :
    List ℕ → EncoderPlan → Option EncoderPlan
  | [], p => some p
  | i :: is, p => do
    let (p,goOn) ← visit cfg req c i p
    if goOn = true then visitAll cfg req c is p else some p

end EncoderPlan

def trySchedule (cfg : EncoderConfig) (m : EncoderCacheManager) (req : MmRequest) (c n : ℕ)
    (encoderComputeBudget : ℤ) : Option EncoderPlan :=
  let p := EncoderPlan.new m encoderComputeBudget n
  if n = 0 ∨ req.mmFeatures = [] then some p
  else EncoderPlan.visitAll cfg req c (windowIndices req.mmFeatures c (c+n+cfg.shift)) p

def MmRequest.hashOf (req : MmRequest) (i : ℕ) : Option MmHash :=
  req.mmFeatures[i]?.map MmFeature.identifier

namespace EncoderPlan

structure Planned (req : MmRequest) (m₀ : EncoderCacheManager) (p : EncoderPlan) : Prop where
  follows : Follows (fun _ => False) (fun _ => False) m₀ p.manager
  fresh : ∀ h ∈ p.mmHashesToSchedule, ¬ p.manager.Cached h
  nodup : p.mmHashesToSchedule.Nodup
  hashes : ((p.encoderInputsToSchedule ++ p.externalLoadEncoderInput).map req.hashOf).Perm
    (p.mmHashesToSchedule.map some)

theorem Planned.new (hm : m.WellFormed) (budget : ℤ) (n : ℕ) :
    Planned req m (EncoderPlan.new m budget n) :=
  ⟨.refl hm,(fun _ hh => nomatch hh),nodup_nil,.nil⟩

structure Extends (p p' : EncoderPlan) : Prop where
  follows : Follows (fun _ => False) (fun _ => False) p.manager p'.manager
  subset : p.mmHashesToSchedule ⊆ p'.mmHashesToSchedule

theorem Extends.trans {p' p'' : EncoderPlan} (h : Extends p p') (h' : Extends p' p'') : Extends p p'' :=
  ⟨h.follows.trans h'.follows,fun _ hx => h'.subset (h.subset hx)⟩

def Provides (req : MmRequest) (p : EncoderPlan) (f : MmFeature) : Prop :=
  p.manager.Holds req.requestId f.identifier ∨ f.identifier ∈ p.mmHashesToSchedule

theorem Provides.mono {p' : EncoderPlan} {f : MmFeature} (h : Provides req p f)
    (hp : Extends p p') : Provides req p' f :=
  h.imp (hp.follows.holds _ _ id) (fun hmem => hp.subset hmem)

variable {req : MmRequest} {m₀ : EncoderCacheManager} {cfg : EncoderConfig} {c i : ℕ}
  {f : MmFeature} {p p' : EncoderPlan} {goOn : Bool}

theorem Planned.withManager (hp : Planned req m₀ p)
    (hm : Follows (fun _ => False) (fun _ => False) p.manager m) :
    Planned req m₀ (p.withManager m) ∧ Extends p (p.withManager m) :=
  ⟨⟨hp.follows.trans hm,fun h hh => hm.not_cached (hp.fresh h hh),hp.nodup,hp.hashes⟩,
    ⟨hm,List.Subset.refl _⟩⟩

theorem Planned.rollBack (hp : Planned req m₀ p) (n : ℕ) :
    Planned req m₀ (p.rollBack n) ∧ Extends p (p.rollBack n) :=
  ⟨⟨hp.follows,hp.fresh,hp.nodup,hp.hashes⟩,⟨.refl hp.follows.wellFormed,List.Subset.refl _⟩⟩

theorem Planned.schedule (cfg : EncoderConfig) (hp : Planned req m₀ p) (hf : req.mmFeatures[i]? = some f)
    (hnew : f.identifier ∉ p.mmHashesToSchedule) (hmiss : ¬ p.manager.Cached f.identifier) :
    Planned req m₀ (p.schedule cfg f i) ∧ Extends p (p.schedule cfg f i) ∧
      (p.schedule cfg f i).numNewTokens = p.numNewTokens ∧
      f.identifier ∈ (p.schedule cfg f i).mmHashesToSchedule := by
  have hmanager : (p.schedule cfg f i).manager = p.manager := by
    unfold EncoderPlan.schedule
    split_ifs <;> rfl
  have htokens : (p.schedule cfg f i).numNewTokens = p.numNewTokens := by
    unfold EncoderPlan.schedule
    split_ifs <;> rfl
  have hlist : (p.schedule cfg f i).mmHashesToSchedule = f.identifier :: p.mmHashesToSchedule := by
    unfold EncoderPlan.schedule
    split_ifs <;> rfl
  have hinputs : ((p.schedule cfg f i).encoderInputsToSchedule ++
      (p.schedule cfg f i).externalLoadEncoderInput).Perm
      (i :: (p.encoderInputsToSchedule ++ p.externalLoadEncoderInput)) := by
    unfold EncoderPlan.schedule
    split_ifs
    · rw [← append_assoc]
      exact perm_append_singleton ..
    · rw [append_assoc, singleton_append]
      exact perm_middle
  have hhash : req.hashOf i = some f.identifier := by rw [MmRequest.hashOf, hf]; rfl
  refine ⟨⟨?_,?_,?_,?_⟩,⟨?_,?_⟩,htokens,?_⟩
  · rw [hmanager]
    exact hp.follows
  · rw [hmanager, hlist]
    exact forall_mem_cons.mpr ⟨hmiss,hp.fresh⟩
  · rw [hlist]
    exact hp.nodup.cons hnew
  · rw [hlist, map_cons, ← hhash]
    exact (hinputs.map _).trans (hp.hashes.cons _)
  · rw [hmanager]
    exact .refl hp.follows.wellFormed
  · rw [hlist]
    exact subset_cons_self ..
  · rw [hlist]
    exact mem_cons_self

def Outcome (cfg : EncoderConfig) (req : MmRequest) (c : ℕ) (f : MmFeature) (p p' : EncoderPlan)
    (goOn : Bool) : Prop :=
  (goOn = true ∧ p'.numNewTokens = p.numNewTokens ∧
    (f.EmbedsWithin c (c+p.numNewTokens) → Provides req p' f)) ∨
  (goOn = false ∧ p'.numNewTokens ≤ p.numNewTokens ∧
    (p'.numNewTokens = 0 ∨ c+cfg.shift+p'.numNewTokens ≤ f.start))

theorem Planned.visitMissing (hp : Planned req m₀ p) (hf : req.mmFeatures[i]? = some f)
    (hstop : c < f.stop) (hstart : f.start < c+p.numNewTokens+cfg.shift)
    (hnew : f.identifier ∉ p.mmHashesToSchedule) (hmiss : ¬ p.manager.Cached f.identifier)
    (h : visitMissing cfg req c i f p = some (p',goOn)) :
    Planned req m₀ p' ∧ Extends p p' ∧ Outcome cfg req c f p p' goOn := by
  unfold EncoderPlan.visitMissing at h
  split at h
  · -- chunked input is disabled and the item does not fit
    cases h
    obtain ⟨hp',hext⟩ := hp.rollBack (f.start - (c+cfg.shift))
    refine ⟨hp',hext,.inr ⟨rfl,?_,?_⟩⟩ <;> simp only [EncoderPlan.rollBack] <;> omega
  obtain ⟨⟨ok,m⟩,hcan,h⟩ := bind_eq_some_iff.mp h
  have hm := hp.follows.wellFormed.canAllocate hcan
  obtain ⟨hpm,hextm⟩ := hp.withManager hm
  dsimp only at h
  split at h
  · -- neither budget nor room in the cache
    cases h
    obtain ⟨hp',hext⟩ := hpm.rollBack (if c+cfg.shift < f.start then f.start - (c+cfg.shift) else 0)
    refine ⟨hp',hextm.trans hext,.inr ⟨rfl,?_,?_⟩⟩ <;> simp only [EncoderPlan.rollBack] <;>
      split_ifs <;> omega
  have hrange := f.indices_eq_iff hstop (Nat.le_add_right c p.numNewTokens)
  split at h
  · rename_i heq
    cases h
    refine ⟨hpm,hextm,.inl ⟨rfl,rfl,fun hemb => ?_⟩⟩
    exact absurd hemb (hrange.mp heq)
  · cases h
    obtain ⟨hp',hext,htokens,hmem⟩ := hpm.schedule cfg hf hnew (hm.not_cached hmiss)
    exact ⟨hp',hextm.trans hext,.inl ⟨rfl,htokens,fun _ => .inr hmem⟩⟩

theorem Planned.visit (hp : Planned req m₀ p) (hf : req.mmFeatures[i]? = some f)
    (hstop : c < f.stop) (hstart : f.start < c+p.numNewTokens+cfg.shift)
    (h : visit cfg req c i p = some (p',goOn)) :
    Planned req m₀ p' ∧ Extends p p' ∧ Outcome cfg req c f p p' goOn := by
  simp only [EncoderPlan.visit, hf, bind_eq_bind, bind_some] at h
  split at h
  · -- a duplicate of an item scheduled in this call
    rename_i hdup
    cases h
    exact ⟨hp,⟨.refl hp.follows.wellFormed,List.Subset.refl _⟩,.inl ⟨rfl,rfl,fun _ => .inr hdup⟩⟩
  rename_i hnew
  obtain ⟨⟨hit,m⟩,hcheck,h⟩ := bind_eq_some_iff.mp h
  obtain ⟨hm,hhit,hmiss⟩ := hp.follows.wellFormed.checkAndUpdateCache hf hcheck
  obtain ⟨hpm,hextm⟩ := hp.withManager hm
  dsimp only at h
  split at h
  · rename_i htrue
    cases h
    exact ⟨hpm,hextm,.inl ⟨rfl,rfl,fun _ => .inl (hhit htrue)⟩⟩
  · rename_i hfalse
    obtain ⟨-,hnc⟩ := hmiss (by simpa using hfalse)
    obtain ⟨hp',hext,hout⟩ := hpm.visitMissing hf hstop hstart hnew (hm.not_cached hnc) h
    exact ⟨hp',hextm.trans hext,hout⟩

/-- After the loop every feature it was to look at is provided, or the step ends before it. -/
theorem Planned.visitAll {is : List ℕ} (hp : Planned req m₀ p)
    (hwindow : ∀ j ∈ is, ∃ g, req.mmFeatures[j]? = some g ∧ c < g.stop ∧
      g.start < c+p.numNewTokens+cfg.shift)
    (hsorted : is.Pairwise (· ≤ ·)) (h : visitAll cfg req c is p = some p') :
    Planned req m₀ p' ∧ Extends p p' ∧ p'.numNewTokens ≤ p.numNewTokens ∧
      ∀ j ∈ is, ∀ g, req.mmFeatures[j]? = some g →
        (g.EmbedsWithin c (c+p.numNewTokens) → Provides req p' g) ∨
        (p'.numNewTokens = 0 ∨ c+cfg.shift+p'.numNewTokens ≤ g.start) := by
  induction is generalizing p with
  | nil =>
    cases h
    exact ⟨hp,⟨.refl hp.follows.wellFormed,List.Subset.refl _⟩,le_rfl,(fun _ hj => nomatch hj)⟩
  | cons j is ih =>
    obtain ⟨⟨p₁,goOn⟩,hvisit,h⟩ := bind_eq_some_iff.mp h
    obtain ⟨f,hf,hstop,hstart⟩ := hwindow j mem_cons_self
    obtain ⟨hp₁,hext₁,hout⟩ := hp.visit hf hstop hstart hvisit
    obtain ⟨hle,hsorted⟩ := pairwise_cons.mp hsorted
    dsimp only at h
    rcases hout with ⟨rfl,htokens,hprov⟩ | ⟨rfl,hless,hbefore⟩
    · rw [if_pos rfl] at h
      have hrest := ih hp₁ (fun k hk => by
        rw [htokens]
        exact hwindow k (mem_cons_of_mem _ hk)) hsorted h
      rw [htokens] at hrest
      obtain ⟨hp',hext,hless,hall⟩ := hrest
      refine ⟨hp',hext₁.trans hext,hless,?_⟩
      refine forall_mem_cons.mpr ⟨?_,hall⟩
      intro g hg
      obtain rfl : f = g := Option.some.inj (hf.symm.trans hg)
      exact .inl fun hemb => (hprov hemb).mono hext
    · rw [if_neg Bool.false_ne_true] at h
      cases h
      refine ⟨hp₁,hext₁,hless,fun k hk g hg => .inr ?_⟩
      -- the features after the one that stopped the loop start later still
      have hfg : f.start ≤ g.start := by
        rcases mem_cons.mp hk with rfl | hk
        · rw [Option.some.inj (hf.symm.trans hg)]
        · exact req.start_mono (hle k hk) hf hg
      exact hbefore.imp_right fun hb => hb.trans hfg

end EncoderPlan

open EncoderPlan

/-- Every feature with an embedding among the tokens granted by the call is provided. -/
theorem trySchedule_provides {cfg : EncoderConfig} {c n : ℕ} {budget : ℤ} (hm : m.WellFormed)
    (h : trySchedule cfg m req c n budget = some p) : Planned req m p ∧ p.numNewTokens ≤ n ∧
      ∀ f ∈ req.mmFeatures, f.EmbedsWithin c (c+p.numNewTokens) → Provides req p f := by
  unfold trySchedule at h
  have hp₀ : Planned req m (.new m budget n) := .new hm budget n
  split at h
  · rename_i hnone
    cases h
    refine ⟨hp₀,le_rfl,?_⟩
    rintro f hf ⟨t,hct,htn,-⟩
    rcases hnone with rfl | hnil
    · exact absurd htn (not_lt.mpr hct)
    · rw [hnil] at hf
      cases hf
  · have hsorted : (windowIndices req.mmFeatures c (c+n+cfg.shift)).Pairwise (· ≤ ·) :=
      (pairwise_lt_range' ..).imp le_of_lt
    obtain ⟨hp,-,hle,hall⟩ := hp₀.visitAll
      (fun j hj => req.mem_windowIndices.mp hj) hsorted h
    refine ⟨hp,hle,?_⟩
    intro f hf hemb
    obtain ⟨i,hi⟩ := mem_iff_getElem?.mp hf
    obtain ⟨t,hct,htn,hst,hts,-⟩ := id hemb
    have hmem : i ∈ windowIndices req.mmFeatures c (c+n+cfg.shift) := by
      have hle' : p.numNewTokens ≤ n := hle
      exact req.mem_windowIndices.mpr ⟨f,hi,by omega,by omega⟩
    rcases hall i hmem f hi with hprov | hbefore
    · exact hprov (hemb.mono le_rfl (Nat.add_le_add_left hle c))
    · omega

end MetaZenith.Encoder
