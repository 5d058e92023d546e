import MetaZenith.MmFeatures
import MetaZenith.GuardedRuns

/-! The scheduler's view of the encoder cache (`vllm/v1/core/encoder_cache_manager.py`): which
outputs are cached, which requests reference them, which may be evicted. -/

namespace MetaZenith.Encoder

open List Function Option

variable {m m' : EncoderCacheManager} {r : RequestId} {h : MmHash} {i k : ℕ} {req : MmRequest}

def dictSet (d : List (MmHash × ℕ)) (k : MmHash) (v : ℕ) : List (MmHash × ℕ) :=
  if k ∈ d.map Prod.fst then d.map fun e => if e.1 = k then (k,v) else e else d ++ [(k,v)]

structure EncoderCacheManager where
  numFreeSlots : ℤ
  numFreeableSlots : ℤ
  cached : MmHash → Option (Finset RequestId)
  requestCachedIds : RequestId → Finset ℕ
  /-- oldest entry first -/
  freeable : List (MmHash × ℕ)
  freed : List MmHash

variable {refs : Finset RequestId} {rest : List (MmHash × ℕ)} {f : MmFeature}

namespace EncoderCacheManager

def new (cacheSize : ℕ) : EncoderCacheManager :=
  { numFreeSlots := cacheSize, numFreeableSlots := cacheSize, cached := fun _ => none,
    requestCachedIds := fun _ => ∅, freeable := [], freed := [] }

def popFreeable (m : EncoderCacheManager) (h : MmHash) : Option EncoderCacheManager :=
  (m.freeable.lookup h).map fun k =>
    { m with freeable := m.freeable.filter (·.1 ≠ h), numFreeableSlots := m.numFreeableSlots-k }

def addReference (m : EncoderCacheManager) (h : MmHash) (refs : Finset RequestId) (r : RequestId)
    (i : ℕ) : EncoderCacheManager :=
  { m with
    cached := update m.cached h (some (insert r refs))
    requestCachedIds := update m.requestCachedIds r (insert i (m.requestCachedIds r)) }

def reviveEntry (m : EncoderCacheManager) (h : MmHash) (refs : Finset RequestId) :
    Option EncoderCacheManager :=
  if refs = ∅ then m.popFreeable h else some m

def checkAndUpdateCache (m : EncoderCacheManager) (req : MmRequest) (i : ℕ) :
    Option (Bool × EncoderCacheManager) := do
  let f ← req.mmFeatures[i]?
  match m.cached f.identifier with
  | none => some (false,m)
  | some refs =>
    let m ← m.reviveEntry f.identifier refs
    some (true,m.addReference f.identifier refs req.requestId i)

def evict (m : EncoderCacheManager) (h : MmHash) (k : ℕ) (rest : List (MmHash × ℕ)) :
    EncoderCacheManager :=
  { m with
    freeable := rest
    cached := update m.cached h none
    freed := m.freed ++ [h]
    numFreeSlots := m.numFreeSlots+k }

/-- The eviction loop of `can_allocate`; it fails where the source would raise `KeyError`. -/
def evictUntil (numEmbeds : ℤ) : List (MmHash × ℕ) → EncoderCacheManager → Option EncoderCacheManager
  | [], m => if numEmbeds ≤ m.numFreeSlots then some m else none
  | (h,k) :: rest, m =>
    if numEmbeds ≤ m.numFreeSlots then some m
    else if (m.cached h).isSome then evictUntil numEmbeds rest (m.evict h k rest)
    else none

def canAllocate (m : EncoderCacheManager) (req : MmRequest) (i : ℕ) (encoderComputeBudget : ℤ)
    (numEmbedsToSchedule : ℕ) : Option (Bool × EncoderCacheManager) := do
  let f ← req.mmFeatures[i]?
  let numEmbeds : ℤ := f.position.getNumEmbeds
  if encoderComputeBudget < numEmbeds then some (false,m)
  else
    let numEmbeds := numEmbeds+numEmbedsToSchedule
    if numEmbeds ≤ m.numFreeSlots then some (true,m)
    else if m.numFreeableSlots < numEmbeds then some (false,m)
    else (evictUntil numEmbeds m.freeable m).map fun m => (true,m)

def allocate (m : EncoderCacheManager) (req : MmRequest) (i : ℕ) : Option EncoderCacheManager := do
  let f ← req.mmFeatures[i]?
  let refs := (m.cached f.identifier).getD ∅
  let numEmbeds : ℤ := f.position.getNumEmbeds
  -- the two assertions of the source
  if numEmbeds ≤ m.numFreeSlots ∧ numEmbeds ≤ m.numFreeableSlots then
    some { m.addReference f.identifier refs req.requestId i with
      numFreeSlots := m.numFreeSlots-numEmbeds
      numFreeableSlots := m.numFreeableSlots-numEmbeds }
  else none

def dropReference (m : EncoderCacheManager) (h : MmHash) (refs : Finset RequestId) (r : RequestId)
    (numEmbeds : ℕ) : EncoderCacheManager :=
  let m := { m with cached := update m.cached h (some (refs.erase r)) }
  if refs.erase r = ∅ then
    { m with
      freeable := dictSet m.freeable h numEmbeds
      numFreeableSlots := m.numFreeableSlots+numEmbeds }
  else m

def forgetInput (m : EncoderCacheManager) (r : RequestId) (i : ℕ) : EncoderCacheManager :=
  { m with
    requestCachedIds := update m.requestCachedIds r ((m.requestCachedIds r).erase i) }

def freeEncoderInput (m : EncoderCacheManager) (req : MmRequest) (i : ℕ) :
    Option EncoderCacheManager := do
  let f ← req.mmFeatures[i]?
  let m := m.forgetInput req.requestId i
  match m.cached f.identifier with
  | none => some m
  | some refs =>
    if refs = ∅ then some m
    else some (m.dropReference f.identifier refs req.requestId f.position.getNumEmbeds)

def free (m : EncoderCacheManager) (req : MmRequest) (ids : List ℕ) : Option EncoderCacheManager :=
  ids.foldlM (fun m i => m.freeEncoderInput req i) m

def takeFreed (m : EncoderCacheManager) : EncoderCacheManager := { m with freed := [] }

def Cached (m : EncoderCacheManager) (h : MmHash) : Prop := (m.cached h).isSome

def Holds (m : EncoderCacheManager) (r : RequestId) (h : MmHash) : Prop :=
  ∃ refs, m.cached h = some refs ∧ r ∈ refs

theorem Holds.cached (hr : m.Holds r h) : m.Cached h := by
  obtain ⟨refs,href,-⟩ := hr
  rw [Cached, href]
  rfl

structure WellFormed (m : EncoderCacheManager) : Prop where
  unreferenced : ∀ e ∈ m.freeable, m.cached e.1 = some ∅
  nodup : (m.freeable.map Prod.fst).Nodup

/-- One operation: it caches at most the hash in `added`, it keeps the references of every request
but `gone`, and an entry that stays cached has not been evicted on the way. -/
structure Follows (added : MmHash → Prop) (gone : RequestId → Prop)
    (m m' : EncoderCacheManager) : Prop where
  wellFormed : m'.WellFormed
  cached : ∀ h, m'.Cached h → added h ∨ (m.Cached h ∧ (h ∈ m'.freed → h ∈ m.freed))
  holds : ∀ r h, ¬ gone r → m.Holds r h → m'.Holds r h

namespace Follows

variable {added added' : MmHash → Prop} {gone gone' : RequestId → Prop} {m m' m'' : EncoderCacheManager}

theorem refl (hm : m.WellFormed) : Follows added gone m m :=
  ⟨hm,fun _ hc => .inr ⟨hc,id⟩,fun _ _ _ hh => hh⟩

theorem trans (h : Follows added gone m m') (h' : Follows added gone m' m'') :
    Follows added gone m m'' := by
  refine ⟨h'.wellFormed,?_,fun r x hr hh => h'.holds r x hr (h.holds r x hr hh)⟩
  intro x hx
  rcases h'.cached x hx with hadd | ⟨hx',hfreed'⟩
  · exact .inl hadd
  · exact (h.cached x hx').imp_right fun ⟨hxm,hfreed⟩ => ⟨hxm,fun hmem => hfreed (hfreed' hmem)⟩

theorem mono (h : Follows added gone m m') (ha : ∀ x, added x → added' x)
    (hg : ∀ r, gone r → gone' r) : Follows added' gone' m m' :=
  ⟨h.wellFormed,fun x hx => (h.cached x hx).imp_left (ha x),
    fun r x hr hh => h.holds r x (fun hgr => hr (hg r hgr)) hh⟩

theorem not_cached (h : Follows (fun _ => False) gone m m') {x : MmHash} (hx : ¬ m.Cached x) :
    ¬ m'.Cached x :=
  fun hx' => hx ((h.cached x hx').resolve_left id).1

end Follows

theorem wellFormed_new (cacheSize : ℕ) : (new cacheSize).WellFormed :=
  ⟨(fun _ he => nomatch he),nodup_nil⟩

structure Changes (h : MmHash) (m m' : EncoderCacheManager) : Prop where
  cached : ∀ x, x ≠ h → m'.cached x = m.cached x
  freeable : ∀ e : MmHash × ℕ, e.1 ≠ h → (e ∈ m'.freeable ↔ e ∈ m.freeable)
  self : h ∈ m'.freeable.map Prod.fst → m'.cached h = some ∅
  nodup : (m'.freeable.map Prod.fst).Nodup

theorem WellFormed.notMem_freeable (hm : m.WellFormed) (hc : m.cached h ≠ some ∅) :
    h ∉ m.freeable.map Prod.fst := by
  intro hmem
  obtain ⟨e,he,rfl⟩ := mem_map.mp hmem
  exact hc (hm.unreferenced e he)

namespace Changes

theorem wellFormed (hc : Changes h m m') (hm : m.WellFormed) : m'.WellFormed := by
  refine ⟨fun e he => ?_,hc.nodup⟩
  by_cases heq : e.1 = h
  · rw [heq]
    exact hc.self (heq ▸ mem_map_of_mem he)
  · rw [hc.cached _ heq]
    exact hm.unreferenced e ((hc.freeable e heq).mp he)

theorem trans {m'' : EncoderCacheManager} (h₁ : Changes h m m') (h₂ : Changes h m' m'') :
    Changes h m m'' :=
  ⟨fun x hx => (h₂.cached x hx).trans (h₁.cached x hx),
    fun e he => (h₂.freeable e he).trans (h₁.freeable e he),h₂.self,h₂.nodup⟩

theorem follows {added : MmHash → Prop} {gone : RequestId → Prop} (hc : Changes h m m')
    (hm : m.WellFormed) (hfreed : ∀ x ∈ m'.freed, x ∈ m.freed ∨ x = h)
    (hself : m'.Cached h → added h ∨ m.Cached h ∧ (h ∈ m'.freed → h ∈ m.freed))
    (hholds : ∀ r, ¬ gone r → m.Holds r h → m'.Holds r h) : Follows added gone m m' := by
  refine ⟨hc.wellFormed hm,fun x hx => ?_,fun r x hr hh => ?_⟩
  · by_cases heq : x = h
    · exact heq ▸ hself (heq ▸ hx)
    · rw [Cached, hc.cached x heq] at hx
      exact .inr ⟨hx,fun hmem => (hfreed x hmem).resolve_right heq⟩
  · by_cases heq : x = h
    · exact heq ▸ hholds r hr (heq ▸ hh)
    · rwa [Holds, hc.cached x heq]

theorem addReference (hm : m.WellFormed) (hfree : h ∉ m.freeable.map Prod.fst) :
    Changes h m (m.addReference h refs r i) :=
  ⟨fun _ hx => update_of_ne hx _ _,fun _ _ => .rfl,fun hmem => absurd hmem hfree,hm.nodup⟩

theorem reviveEntry (hm : m.WellFormed) (hc : m.cached h = some refs)
    (hrev : m.reviveEntry h refs = some m') :
    Changes h m m' ∧ h ∉ m'.freeable.map Prod.fst ∧ m'.cached = m.cached ∧ m'.freed = m.freed ∧
      m'.requestCachedIds = m.requestCachedIds := by
  unfold EncoderCacheManager.reviveEntry at hrev
  split at hrev
  · obtain ⟨k,-,rfl⟩ := map_eq_some_iff.mp hrev
    have hout : h ∉ (m.freeable.filter (·.1 ≠ h)).map Prod.fst := by simp
    exact ⟨⟨fun _ _ => rfl,fun e he => by simp [he],fun hmem => absurd hmem hout,
      hm.nodup.sublist (filter_sublist.map _)⟩,hout,rfl,rfl,rfl⟩
  · rename_i hne
    cases hrev
    have hout := hm.notMem_freeable (h := h) (by rw [hc]; exact fun heq => hne (some.inj heq))
    exact ⟨⟨fun _ _ => rfl,fun _ _ => .rfl,fun hmem => absurd hmem hout,hm.nodup⟩,hout,rfl,rfl,rfl⟩

theorem evict (hm : m.WellFormed) (hfree : m.freeable = (h,k) :: rest) :
    Changes h m (m.evict h k rest) := by
  have hnodup := hm.nodup
  rw [hfree, map_cons, nodup_cons] at hnodup
  refine ⟨fun _ hx => update_of_ne hx _ _,fun e he => ?_,fun hmem => absurd hmem hnodup.1,hnodup.2⟩
  rw [hfree, mem_cons]
  exact ⟨.inr,fun hmem => hmem.resolve_left fun heq => he (heq ▸ rfl)⟩

theorem dropReference (hm : m.WellFormed) (hc : m.cached h = some refs) (hne : refs ≠ ∅) :
    Changes h m (m.dropReference h refs r k) := by
  have hout := hm.notMem_freeable (h := h) (by rw [hc]; exact fun heq => hne (some.inj heq))
  have hset : dictSet m.freeable h k = m.freeable ++ [(h,k)] := if_neg hout
  unfold EncoderCacheManager.dropReference
  split_ifs with hlast
  · refine ⟨fun _ hx => update_of_ne hx _ _,fun e he => ?_,fun _ => ?_,?_⟩
    · simp only [hset, mem_append, mem_singleton]
      exact or_iff_left fun heq => he (heq ▸ rfl)
    · simp [hlast]
    · simp only [hset, map_append, map_singleton]
      exact hm.nodup.append (nodup_singleton _) (disjoint_singleton.mpr hout)
  · exact ⟨fun _ hx => update_of_ne hx _ _,fun _ _ => .rfl,fun hmem => absurd hmem hout,hm.nodup⟩

end Changes

theorem checkAndUpdateCache_hit (hm : m.WellFormed) (hf : req.mmFeatures[i]? = some f)
    (h : m.checkAndUpdateCache req i = some (true,m')) :
    ∃ refs m₁, m.cached f.identifier = some refs ∧ m.reviveEntry f.identifier refs = some m₁ ∧
      m' = m₁.addReference f.identifier refs req.requestId i ∧ Changes f.identifier m m' := by
  simp only [checkAndUpdateCache, hf, bind_eq_bind, bind_some] at h
  split at h
  · cases h
  rename_i refs hc
  obtain ⟨m₁,hrev,h⟩ := bind_eq_some_iff.mp h
  cases h
  obtain ⟨hchanges,hout,-⟩ := Changes.reviveEntry hm hc hrev
  exact ⟨refs,m₁,hc,hrev,rfl,hchanges.trans (.addReference (hchanges.wellFormed hm) hout)⟩

theorem holds_addReference (m : EncoderCacheManager) (h : MmHash) (refs : Finset RequestId)
    (r : RequestId) (i : ℕ) : (m.addReference h refs r i).Holds r h :=
  ⟨insert r refs,update_self ..,Finset.mem_insert_self r refs⟩

section

variable (hm : m.WellFormed)

include hm

/-- `check_and_update_cache`: on a hit the request references the entry, on a miss nothing
happens. -/
theorem WellFormed.checkAndUpdateCache {hit : Bool}
    (hf : req.mmFeatures[i]? = some f) (h : m.checkAndUpdateCache req i = some (hit,m')) :
    Follows (fun _ => False) (fun _ => False) m m' ∧
      (hit = true → m'.Holds req.requestId f.identifier) ∧
      (hit = false → m' = m ∧ ¬ m.Cached f.identifier) := by
  cases hit with
  | false =>
    simp only [EncoderCacheManager.checkAndUpdateCache, hf, bind_eq_bind, bind_some] at h
    split at h
    · rename_i hc
      cases h
      exact ⟨.refl hm,(fun hhit => nomatch hhit),fun _ => ⟨rfl,by simp [Cached, hc]⟩⟩
    · obtain ⟨_,-,h⟩ := bind_eq_some_iff.mp h
      cases h
  | true =>
    obtain ⟨refs,m₁,hc,hrev,rfl,hchanges⟩ := checkAndUpdateCache_hit hm hf h
    obtain ⟨-,-,-,hfreed,-⟩ := Changes.reviveEntry hm hc hrev
    refine ⟨hchanges.follows hm (fun x hx => .inl (hfreed ▸ hx)) (fun _ => ?_) ?_,
      fun _ => holds_addReference ..,(fun hhit => nomatch hhit)⟩
    · exact .inr ⟨by rw [Cached, hc]; rfl,fun hmem => hfreed ▸ hmem⟩
    · rintro r - ⟨refs',hrefs',hr⟩
      cases hc.symm.trans hrefs'
      exact ⟨insert req.requestId refs,update_self ..,Finset.mem_insert_of_mem hr⟩

theorem follows_evict (hfree : m.freeable = (h,k) :: rest) :
    Follows (fun _ => False) (fun _ => False) m (m.evict h k rest) := by
  have hunref : m.cached h = some ∅ := hm.unreferenced (h,k) (by rw [hfree]; exact .head _)
  have hgone : (m.evict h k rest).cached h = none := update_self ..
  refine (Changes.evict hm hfree).follows hm (fun x hx => ?_) (fun hc => ?_) ?_
  · exact (mem_append.mp hx).imp_right mem_singleton.mp
  · rw [Cached, hgone] at hc
    cases hc
  · rintro r - ⟨refs,hrefs,hr⟩
    cases hunref.symm.trans hrefs
    exact absurd hr (Finset.notMem_empty r)

theorem WellFormed.evictUntil {numEmbeds : ℤ} (hfree : m.freeable = rest)
    (h : EncoderCacheManager.evictUntil numEmbeds rest m = some m') :
    Follows (fun _ => False) (fun _ => False) m m' := by
  induction rest generalizing m with
  | nil =>
    obtain ⟨-,h⟩ := ite_none_right_eq_some.mp h
    cases h
    exact .refl hm
  | cons e rest ih =>
    obtain ⟨x,k⟩ := e
    rw [EncoderCacheManager.evictUntil] at h
    split at h
    · cases h
      exact .refl hm
    · obtain ⟨-,h⟩ := ite_none_right_eq_some.mp h
      have hstep := follows_evict hm hfree
      exact hstep.trans (ih hstep.wellFormed rfl h)

/-- `can_allocate` evicts unreferenced entries only, whatever it answers. -/
theorem WellFormed.canAllocate {budget : ℤ} {ok : Bool}
    (h : m.canAllocate req i budget k = some (ok,m')) :
    Follows (fun _ => False) (fun _ => False) m m' := by
  obtain ⟨f,-,h⟩ := bind_eq_some_iff.mp h
  dsimp only at h
  split at h
  · cases h
    exact .refl hm
  split at h
  · cases h
    exact .refl hm
  split at h
  · cases h
    exact .refl hm
  obtain ⟨m₁,hm₁,heq⟩ := map_eq_some_iff.mp h
  cases heq
  exact hm.evictUntil rfl hm₁

/-- `allocate` of an output that is not cached yet. -/
theorem WellFormed.allocate (hf : req.mmFeatures[i]? = some f)
    (hnew : ¬ m.Cached f.identifier) (h : m.allocate req i = some m') :
    Follows (· = f.identifier) (fun _ => False) m m' ∧ m'.Holds req.requestId f.identifier := by
  have hnone : m.cached f.identifier = none := by simpa [Cached] using hnew
  simp only [EncoderCacheManager.allocate, hf, bind_eq_bind, bind_some] at h
  obtain ⟨-,h⟩ := ite_none_right_eq_some.mp h
  cases h
  have hchanges : Changes f.identifier m (m.addReference f.identifier
      ((m.cached f.identifier).getD ∅) req.requestId i) :=
    .addReference hm (hm.notMem_freeable (by simp [hnone]))
  refine ⟨Changes.follows (h := f.identifier) ⟨hchanges.cached,hchanges.freeable,hchanges.self,
    hchanges.nodup⟩ hm (fun _ hx => .inl hx) (fun _ => .inl rfl) ?_,
    holds_addReference m f.identifier _ req.requestId i⟩
  exact fun r _ hh => absurd hh.cached hnew

theorem follows_dropReference (hc : m.cached h = some refs) (hne : refs ≠ ∅) :
    Follows (fun _ => False) (· = r) m (m.dropReference h refs r k) := by
  have hself : (m.dropReference h refs r k).cached h = some (refs.erase r) := by
    unfold dropReference
    split_ifs <;> exact update_self ..
  have hfreed : (m.dropReference h refs r k).freed = m.freed := by
    unfold dropReference
    split_ifs <;> rfl
  refine (Changes.dropReference hm hc hne).follows hm (fun x hx => .inl (hfreed ▸ hx)) (fun _ => ?_) ?_
  · exact .inr ⟨by rw [Cached, hc]; rfl,fun hmem => hfreed ▸ hmem⟩
  · rintro r' hr' ⟨refs',hrefs',hmem⟩
    cases hc.symm.trans hrefs'
    exact ⟨refs.erase r,hself,Finset.mem_erase.mpr ⟨hr',hmem⟩⟩

/-- `free_encoder_input` takes away references of this request only. -/
theorem WellFormed.freeEncoderInput (h : m.freeEncoderInput req i = some m') :
    Follows (fun _ => False) (· = req.requestId) m m' := by
  obtain ⟨f,-,h⟩ := bind_eq_some_iff.mp h
  have hwf : (m.forgetInput req.requestId i).WellFormed := ⟨hm.unreferenced,hm.nodup⟩
  have hids : Follows (fun _ => False) (· = req.requestId) m (m.forgetInput req.requestId i) :=
    ⟨hwf,fun _ hx => .inr ⟨hx,id⟩,fun _ _ _ hh => hh⟩
  refine hids.trans ?_
  dsimp only at h
  split at h
  · cases h
    exact .refl hwf
  · rename_i refs hrefs
    split at h
    · cases h
      exact .refl hwf
    · rename_i hne
      cases h
      exact follows_dropReference hwf hrefs hne

theorem WellFormed.free {ids : List ℕ} (h : m.free req ids = some m') :
    Follows (fun _ => False) (· = req.requestId) m m' := by
  refine foldlM_option_keeps (P := Follows (fun _ => False) (· = req.requestId) m) ?_ (.refl hm) h
  intro i _ t t' ht hstep
  exact ht.trans (ht.wellFormed.freeEncoderInput hstep)

end

end EncoderCacheManager

end MetaZenith.Encoder
