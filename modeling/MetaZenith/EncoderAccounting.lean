import MetaZenith.EncoderCacheManager

/-! The counters of `EncoderCacheManager` along every sequence of calls. The scheduler asks
`can_allocate` only for an input that is neither cached nor accepted before, counts the accepted
inputs in, and allocates them afterwards. -/

namespace MetaZenith.Encoder

open List Function

/-- The things with property `p` are finitely many and weigh `v` together. -/
def Weighs (size : MmHash → ℕ) (p : MmHash → Prop) (v : ℤ) : Prop :=
  ∃ E : Finset MmHash, (∀ x, x ∈ E ↔ p x) ∧ v = ∑ x ∈ E, (size x : ℤ)

theorem Weighs.update {size : MmHash → ℕ} {p p' : MmHash → Prop} [DecidablePred p] [DecidablePred p']
    {v v' : ℤ} {h : MmHash} (hw : Weighs size p v) (hother : ∀ x, x ≠ h → (p' x ↔ p x))
    (hv : v'+(if p h then size h else 0) = v+(if p' h then size h else 0)) : Weighs size p' v' := by
  obtain ⟨E,hE,rfl⟩ := hw
  have hsum : ∑ x ∈ E, (size x : ℤ) = ∑ x ∈ E.erase h, (size x : ℤ)+(if p h then size h else 0) := by
    by_cases hp : p h
    · rw [if_pos hp, Finset.sum_erase_add _ _ ((hE h).mpr hp)]
    · rw [if_neg hp, Finset.erase_eq_of_notMem (fun hmem => hp ((hE h).mp hmem))]
      simp
  by_cases hp' : p' h
  · refine ⟨insert h (E.erase h),fun x => ?_,?_⟩
    · by_cases hx : x = h
      · simp [hx, hp']
      · simp [hx, hE, hother x hx]
    · rw [Finset.sum_insert (Finset.notMem_erase h E)]
      rw [if_pos hp'] at hv
      omega
  · refine ⟨E.erase h,fun x => ?_,?_⟩
    · by_cases hx : x = h
      · simp [hx, hp']
      · simp [hx, hE, hother x hx]
    · rw [if_neg hp'] at hv
      omega

namespace EncoderCacheManager

variable {m m' : EncoderCacheManager} {req : MmRequest} {f : MmFeature} {size : MmHash → ℕ}
  {h : MmHash} {i n k : ℕ} {rest : List (MmHash × ℕ)}

instance (m : EncoderCacheManager) : DecidablePred m.Cached := fun _ => decEq _ _

def Referenced (m : EncoderCacheManager) (x : MmHash) : Prop := m.Cached x ∧ m.cached x ≠ some ∅

instance (m : EncoderCacheManager) : DecidablePred m.Referenced := fun _ => instDecidableAnd

structure Accounted (size : MmHash → ℕ) (cacheSize : ℕ) (m : EncoderCacheManager) : Prop
    extends WellFormed m where
  listed : ∀ x, m.cached x = some ∅ → x ∈ m.freeable.map Prod.fst
  sizes : ∀ e ∈ m.freeable, e.2 = size e.1
  slots : Weighs size m.Cached (cacheSize-m.numFreeSlots)
  reclaimable : Weighs size m.Referenced (cacheSize-m.numFreeableSlots)

structure Passed (size : MmHash → ℕ) (cacheSize : ℕ) (m m' : EncoderCacheManager) : Prop where
  accounted : m'.Accounted size cacheSize
  slots : m.numFreeSlots ≤ m'.numFreeSlots
  fresh : ∀ x, ¬ m.Cached x → ¬ m'.Cached x
  evicted : ∃ gone, m'.freed = m.freed ++ gone ∧ ∀ x ∈ gone, ¬ m'.Cached x

theorem Passed.of_freed_eq (hm : m'.Accounted size n) (hs : m.numFreeSlots ≤ m'.numFreeSlots)
    (hc : ∀ x, ¬ m.Cached x → ¬ m'.Cached x) (hf : m'.freed = m.freed) : Passed size n m m' :=
  ⟨hm,hs,hc,[],by rw [hf, append_nil],fun _ hx => nomatch hx⟩

theorem Passed.trans {m'' : EncoderCacheManager} (h : Passed size n m m') (h' : Passed size n m' m'') :
    Passed size n m m'' := by
  refine ⟨h'.accounted,h.slots.trans h'.slots,fun x hx => h'.fresh x (h.fresh x hx),?_⟩
  obtain ⟨a,ha,hax⟩ := h.evicted
  obtain ⟨b,hb,hbx⟩ := h'.evicted
  refine ⟨a ++ b,by rw [hb, ha, append_assoc],fun x hx => ?_⟩
  exact (mem_append.mp hx).elim (fun hx => h'.fresh x (hax x hx)) (hbx x)

namespace Accounted

section

variable (hm : m.Accounted size n)

include hm

theorem passed : Passed size n m m :=
  .of_freed_eq hm le_rfl (fun _ hx => hx) rfl

theorem change (hc : Changes h m m') (hlisted : m'.cached h = some ∅ → h ∈ m'.freeable.map Prod.fst)
    (hsize : ∀ e ∈ m'.freeable, e.1 = h → e.2 = size h)
    (hslots : m'.numFreeSlots+(if m'.Cached h then size h else 0) =
      m.numFreeSlots+(if m.Cached h then size h else 0))
    (hrec : m'.numFreeableSlots+(if m'.Referenced h then size h else 0) =
      m.numFreeableSlots+(if m.Referenced h then size h else 0)) : m'.Accounted size n where
  toWellFormed := hc.wellFormed hm.toWellFormed
  listed x hx := by
    by_cases hxh : x = h
    · exact hxh ▸ hlisted (hxh ▸ hx)
    · obtain ⟨e,he,rfl⟩ := mem_map.mp (hm.listed x (hc.cached x hxh ▸ hx))
      exact mem_map_of_mem ((hc.freeable e hxh).mpr he)
  sizes e he := by
    by_cases heq : e.1 = h
    · exact heq ▸ hsize e he heq
    · exact hm.sizes e ((hc.freeable e heq).mp he)
  slots := hm.slots.update (fun x hx => by rw [Cached, Cached, hc.cached x hx]) (by omega)
  reclaimable := hm.reclaimable.update
    (fun x hx => by rw [Referenced, Referenced, Cached, Cached, hc.cached x hx]) (by omega)

theorem mem_freeable_iff (x : MmHash) : x ∈ m.freeable.map Prod.fst ↔ m.cached x = some ∅ := by
  refine ⟨fun hx => ?_,hm.listed x⟩
  obtain ⟨e,he,rfl⟩ := mem_map.mp hx
  exact hm.unreferenced e he

theorem numFreeableSlots_eq : m.numFreeableSlots = m.numFreeSlots+(m.freeable.map Prod.snd).sum := by
  obtain ⟨E,hE,hfree⟩ := hm.slots
  obtain ⟨R,hR,hrec⟩ := hm.reclaimable
  have hunion : E = R ∪ (m.freeable.map Prod.fst).toFinset := by
    ext x
    rw [Finset.mem_union, mem_toFinset, hm.mem_freeable_iff, hE, hR, Referenced, Cached]
    by_cases hx : m.cached x = some ∅ <;> simp [hx]
  have hdisjoint : Disjoint R (m.freeable.map Prod.fst).toFinset := by
    apply Finset.disjoint_left.mpr
    intro x hx hmem
    exact ((hR x).mp hx).2 ((hm.mem_freeable_iff x).mp (mem_toFinset.mp hmem))
  have hlist : ∑ x ∈ (m.freeable.map Prod.fst).toFinset, (size x : ℤ) =
      (m.freeable.map Prod.snd).sum := by
    rw [sum_toFinset _ hm.nodup, map_map, Nat.cast_list_sum, map_map]
    exact congrArg List.sum (map_congr_left fun e he => by simp [hm.sizes e he])
  rw [hunion, Finset.sum_union hdisjoint, hlist] at hfree
  omega

end

theorem new (size : MmHash → ℕ) (n : ℕ) : (new n).Accounted size n where
  toWellFormed := wellFormed_new n
  listed _ hx := nomatch hx
  sizes _ he := nomatch he
  slots := ⟨∅,by simp [Cached, EncoderCacheManager.new],by simp [EncoderCacheManager.new]⟩
  reclaimable := ⟨∅,by simp [Referenced, Cached, EncoderCacheManager.new],by
    simp [EncoderCacheManager.new]⟩

section

variable (hm : m.Accounted size n)

include hm

theorem checkAndUpdateCache {hit : Bool}
    (h : m.checkAndUpdateCache req i = some (hit,m')) : Passed size n m m' := by
  obtain ⟨f,hf,-⟩ := Option.bind_eq_some_iff.mp h
  obtain ⟨hfollows,-,hmiss⟩ := hm.toWellFormed.checkAndUpdateCache hf h
  cases hit with
  | false => exact (hmiss rfl).1 ▸ hm.passed
  | true =>
    obtain ⟨refs,m₁,hc,hrev,rfl,hchanges⟩ := checkAndUpdateCache_hit hm.toWellFormed hf h
    obtain ⟨-,hout,hcached,hfreed,-⟩ := Changes.reviveEntry hm.toWellFormed hc hrev
    have hin (e : MmHash × ℕ) (he : e ∈ m₁.freeable) (heq : e.1 = f.identifier) :
        e.2 = size f.identifier := absurd (heq ▸ mem_map_of_mem he) hout
    unfold reviveEntry at hrev
    split at hrev
    · rename_i hempty
      obtain ⟨_,hpop,rfl⟩ := Option.map_eq_some_iff.mp hrev
      obtain ⟨k,hk,hcast⟩ := Option.bind_eq_some_iff.mp hpop
      cases hcast
      obtain ⟨_,_,hsplit,-⟩ := lookup_eq_some_iff.mp hk
      have hsize : k = size f.identifier := hm.sizes (f.identifier,k) (by rw [hsplit]; simp)
      refine .of_freed_eq (hm.change hchanges ?_ hin ?_ ?_) le_rfl (fun _ hx => hfollows.not_cached hx) rfl
      all_goals simp [addReference, Cached, Referenced, hc, hsize, hempty]
    · rename_i hne
      cases hrev
      refine .of_freed_eq (hm.change hchanges ?_ hin ?_ ?_) le_rfl (fun _ hx => hfollows.not_cached hx) rfl
      all_goals simp [addReference, Cached, Referenced, hc, hne]

theorem evict (hfree : m.freeable = (h,k) :: rest) : Passed size n m (m.evict h k rest) := by
  have hc := hm.unreferenced (h,k) (by rw [hfree]; exact mem_cons_self)
  have hk : k = size h := hm.sizes (h,k) (by rw [hfree]; exact mem_cons_self)
  have hfollows := follows_evict hm.toWellFormed hfree
  refine ⟨hm.change (.evict hm.toWellFormed hfree) ?_ (fun e he heq => ?_) ?_ ?_,?_,
    fun x hx => hfollows.not_cached hx,[h],rfl,?_⟩
  · simp [EncoderCacheManager.evict]
  · exact heq ▸ hm.sizes e (by rw [hfree]; exact mem_cons_of_mem _ he)
  all_goals simp [EncoderCacheManager.evict, Cached, Referenced, hc, hk]

theorem evictUntil {numEmbeds : ℤ} (hfree : m.freeable = rest)
    (hroom : numEmbeds ≤ m.numFreeableSlots) :
    ∃ m', EncoderCacheManager.evictUntil numEmbeds rest m = some m' ∧ Passed size n m m' ∧
      numEmbeds ≤ m'.numFreeSlots ∧ m'.requestCachedIds = m.requestCachedIds := by
  induction rest generalizing m with
  | nil =>
    have hrec := hm.numFreeableSlots_eq
    rw [hfree, map_nil, sum_nil, Nat.cast_zero] at hrec
    exact ⟨m,if_pos (by omega),hm.passed,by omega,rfl⟩
  | cons e rest ih =>
    rw [EncoderCacheManager.evictUntil]
    split
    · rename_i hle
      exact ⟨m,rfl,hm.passed,hle,rfl⟩
    have hc := hm.unreferenced e (by rw [hfree]; exact mem_cons_self)
    have hev := hm.evict hfree
    obtain ⟨m',hrun,hpass,hrest⟩ := ih hev.accounted rfl hroom
    exact ⟨m',by rwa [if_pos (by rw [hc]; rfl)],hev.trans hpass,hrest⟩

theorem canAllocate (hf : req.mmFeatures[i]? = some f) (budget : ℤ) :
    ∃ ok m', m.canAllocate req i budget k = some (ok,m') ∧ Passed size n m m' ∧
      (ok = true → f.position.getNumEmbeds+(k:ℤ) ≤ m'.numFreeSlots) ∧
      m'.requestCachedIds = m.requestCachedIds := by
  simp only [EncoderCacheManager.canAllocate, hf, Option.bind_eq_bind, Option.bind_some]
  split
  · exact ⟨false,m,rfl,hm.passed,(fun h => nomatch h),rfl⟩
  split
  · rename_i hfits
    exact ⟨true,m,rfl,hm.passed,fun _ => hfits,rfl⟩
  split
  · exact ⟨false,m,rfl,hm.passed,(fun h => nomatch h),rfl⟩
  · rename_i hfull
    obtain ⟨m',hrun,hpass,hneed,hids⟩ := hm.evictUntil rfl (not_lt.mp hfull)
    exact ⟨true,m',by rw [hrun, Option.map_some],hpass,fun _ => hneed,hids⟩

/-- Allocating an input that is not cached, with room for it, passes both assertions. -/
theorem allocate (hf : req.mmFeatures[i]? = some f)
    (hsize : f.position.getNumEmbeds = size f.identifier) (hnew : ¬ m.Cached f.identifier)
    (hroom : (f.position.getNumEmbeds : ℤ) ≤ m.numFreeSlots) :
    ∃ m', m.allocate req i = some m' ∧ m'.Accounted size n ∧
      m'.numFreeSlots = m.numFreeSlots-f.position.getNumEmbeds ∧ m'.freed = m.freed := by
  have hrec := hm.numFreeableSlots_eq
  have hnone : m.cached f.identifier = none := by simpa [Cached] using hnew
  have hresult : m.allocate req i = some { m.addReference f.identifier ∅ req.requestId i with
        numFreeSlots := m.numFreeSlots-f.position.getNumEmbeds
        numFreeableSlots := m.numFreeableSlots-f.position.getNumEmbeds } := by
    simp only [EncoderCacheManager.allocate, hf, hnone, Option.bind_eq_bind, Option.bind_some,
      Option.getD_none]
    exact if_pos ⟨hroom,by omega⟩
  have hout := hm.toWellFormed.notMem_freeable (h := f.identifier) (by simp [hnone])
  have hchanges : Changes f.identifier m (m.addReference f.identifier ∅ req.requestId i) :=
    .addReference hm.toWellFormed hout
  refine ⟨_,hresult,hm.change (h := f.identifier) ⟨hchanges.cached,hchanges.freeable,hchanges.self,
    hchanges.nodup⟩ ?_ (fun e he heq => absurd (heq ▸ mem_map_of_mem he) hout) ?_ ?_,rfl,rfl⟩
  all_goals simp [addReference, Referenced, Cached, hnone, hsize]

theorem freeEncoderInput (hsize : ∀ f ∈ req.mmFeatures, f.position.getNumEmbeds = size f.identifier)
    (h : m.freeEncoderInput req i = some m') : Passed size n m m' := by
  have hfollows := hm.toWellFormed.freeEncoderInput h
  obtain ⟨f,hf,h⟩ := Option.bind_eq_some_iff.mp h
  have hforget : (m.forgetInput req.requestId i).Accounted size n :=
    ⟨⟨hm.unreferenced,hm.nodup⟩,hm.listed,hm.sizes,hm.slots,hm.reclaimable⟩
  dsimp only at h
  split at h
  · cases h
    exact .of_freed_eq hforget le_rfl (fun _ hx => hx) rfl
  rename_i refs hc
  split at h
  · cases h
    exact .of_freed_eq hforget le_rfl (fun _ hx => hx) rfl
  rename_i hne
  cases h
  have hchanges := Changes.dropReference (r := req.requestId) (k := f.position.getNumEmbeds)
    hforget.toWellFormed hc hne
  have hout := hforget.toWellFormed.notMem_freeable (h := f.identifier) (by
    rw [hc]
    exact fun heq => hne (Option.some.inj heq))
  have hset : dictSet m.freeable f.identifier f.position.getNumEmbeds =
      m.freeable ++ [(f.identifier,f.position.getNumEmbeds)] := if_neg hout
  have hsize := hsize f (mem_of_getElem? hf)
  have hc' : m.cached f.identifier = some refs := hc
  unfold dropReference at hchanges hfollows ⊢
  split_ifs at hchanges hfollows ⊢ with hlast
  · refine .of_freed_eq (hforget.change hchanges ?_ ?_ ?_ ?_) le_rfl
      (fun _ hx => hfollows.not_cached hx) rfl
    · simp [forgetInput, hset]
    · simp only [forgetInput, hset, mem_append, mem_singleton]
      rintro e (he | rfl) heq
      · exact heq ▸ hm.sizes e he
      · exact hsize
    all_goals simp [forgetInput, Cached, Referenced, hc', hne, hlast, hsize]
  · refine .of_freed_eq (hforget.change hchanges ?_ (fun e he heq => heq ▸ hm.sizes e he) ?_ ?_)
      le_rfl (fun _ hx => hfollows.not_cached hx) rfl
    all_goals simp [forgetInput, Cached, Referenced, hc', hne, hlast]

theorem free {ids : List ℕ} (hsize : ∀ f ∈ req.mmFeatures, f.position.getNumEmbeds = size f.identifier)
    (h : m.free req ids = some m') : Passed size n m m' := by
  refine foldlM_option_keeps (P := Passed size n m) ?_ hm.passed h
  intro i _ t t' ht hstep
  exact ht.trans (ht.accounted.freeEncoderInput hsize hstep)

end

end Accounted

end EncoderCacheManager

structure Workload where
  request : RequestId → MmRequest
  size : MmHash → ℕ
  requestId_eq : ∀ r, (request r).requestId = r
  size_eq : ∀ r, ∀ f ∈ (request r).mmFeatures, f.position.getNumEmbeds = size f.identifier

def Workload.input (w : Workload) (r : RequestId) (i : ℕ) : Option MmFeature :=
  (w.request r).mmFeatures[i]?

structure CacheRun where
  manager : EncoderCacheManager
  accepted : List (RequestId × ℕ × MmFeature) := []

/-- The calls of the scheduler. After a positive answer of `can_allocate` it may still skip the
input (`schedule` is false), and it may give up the request before it allocates. -/
inductive CacheCall
  | checkAndUpdateCache (r : RequestId) (i : ℕ)
  | canAllocate (r : RequestId) (i : ℕ) (budget : ℤ) (schedule : Bool)
  | allocate (k : ℕ)
  | giveUp
  | freeEncoderInput (r : RequestId) (i : ℕ)
  | free (r : RequestId) (ids : List ℕ)
  | getFreedMmHashes

namespace CacheRun

open EncoderCacheManager (Changes checkAndUpdateCache_hit addReference)

variable {w : Workload} {n : ℕ} {s s' : CacheRun} {call : CacheCall} {m : EncoderCacheManager}

def numEmbedsToSchedule (s : CacheRun) : ℕ :=
  (s.accepted.map fun e => e.2.2.position.getNumEmbeds).sum

def step (w : Workload) (s : CacheRun) : CacheCall → Option CacheRun
  | .checkAndUpdateCache r i =>
    (s.manager.checkAndUpdateCache (w.request r) i).map fun a => ⟨a.2,s.accepted⟩
  | .canAllocate r i budget schedule => (w.input r i).bind fun f =>
    (s.manager.canAllocate (w.request r) i budget s.numEmbedsToSchedule).map fun a =>
      ⟨a.2,if a.1 && schedule then (r,i,f) :: s.accepted else s.accepted⟩
  | .allocate k => s.accepted[k]?.bind fun e =>
    (s.manager.allocate (w.request e.1) e.2.1).map fun m => ⟨m,s.accepted.eraseIdx k⟩
  | .giveUp => some ⟨s.manager,[]⟩
  | .freeEncoderInput r i => (s.manager.freeEncoderInput (w.request r) i).map (⟨·,s.accepted⟩)
  | .free r ids => (s.manager.free (w.request r) ids).map (⟨·,s.accepted⟩)
  | .getFreedMmHashes => some ⟨s.manager.takeFreed,s.accepted⟩

/-- `can_allocate` is called for an input that is neither cached nor accepted, and `free` goes
through the cached inputs of the request. -/
def made (w : Workload) (s : CacheRun) : CacheCall → Bool
  | .canAllocate r i _ _ => (w.input r i).any fun f => !(s.manager.cached f.identifier).isSome &&
      decide (f.identifier ∉ s.accepted.map (·.2.2.identifier))
  | .free r ids => decide (ids.toFinset = s.manager.requestCachedIds r)
  | _ => true

def freesLast (w : Workload) (s : CacheRun) : CacheCall → Bool
  | .freeEncoderInput r i => decide (∀ j ∈ s.manager.requestCachedIds r, j = i ∨
      (w.input r j).map (·.identifier) ≠ (w.input r i).map (·.identifier))
  | _ => true

structure Inv (w : Workload) (n : ℕ) (s : CacheRun) : Prop where
  accounted : s.manager.Accounted w.size n
  known : ∀ e ∈ s.accepted, w.input e.1 e.2.1 = some e.2.2
  fresh : ∀ e ∈ s.accepted, ¬ s.manager.Cached e.2.2.identifier
  nodup : (s.accepted.map (·.2.2.identifier)).Nodup
  room : (s.numEmbedsToSchedule : ℤ) ≤ s.manager.numFreeSlots

theorem Inv.passed (hs : s.Inv w n) (h : s.manager.Passed w.size n m) :
    (⟨m,s.accepted⟩ : CacheRun).Inv w n :=
  ⟨h.accounted,hs.known,fun e he => h.fresh _ (hs.fresh e he),hs.nodup,hs.room.trans h.slots⟩

theorem Inv.allocate {k : ℕ} (hs : s.Inv w n) (hk : k < s.accepted.length) :
    ∃ s', s.step w (.allocate k) = some s' ∧ s'.Inv w n ∧ s'.manager.freed = s.manager.freed := by
  have hmem := getElem_mem hk
  have hknown := hs.known _ hmem
  have hperm := getElem_cons_eraseIdx_perm hk
  have hsum := (hperm.map fun e => e.2.2.position.getNumEmbeds).sum_eq
  have hnodup := nodup_cons.mp ((hperm.map (·.2.2.identifier)).nodup_iff.mpr hs.nodup)
  have hroom := hs.room
  rw [numEmbedsToSchedule, ← hsum, map_cons, sum_cons, Nat.cast_add] at hroom
  obtain ⟨m,hcall,hacc,hslots,hfreed⟩ := hs.accounted.allocate hknown
    (w.size_eq _ _ (mem_of_getElem? hknown)) (hs.fresh _ hmem) (by omega)
  have hfollows := (hs.accounted.toWellFormed.allocate hknown (hs.fresh _ hmem) hcall).1
  refine ⟨⟨m,s.accepted.eraseIdx k⟩,?_,⟨hacc,?_,?_,hnodup.2,?_⟩,hfreed⟩
  · simp [step, getElem?_eq_getElem hk, hcall]
  · exact fun e he => hs.known e (mem_of_mem_eraseIdx he)
  · intro e he hc
    rcases hfollows.cached _ hc with heq | hc
    · exact hnodup.1 (mem_map.mpr ⟨e,he,heq⟩)
    · exact hs.fresh e (mem_of_mem_eraseIdx he) hc.1
  · simp only [numEmbedsToSchedule, hslots]
    omega

theorem Inv.step (hs : s.Inv w n) (hmade : s.made w call = true) (h : s.step w call = some s') :
    s'.Inv w n ∧ ∀ x ∈ s'.manager.freed.drop s.manager.freed.length, ¬ s'.manager.Cached x := by
  have hdrop {m : EncoderCacheManager} (hpass : s.manager.Passed w.size n m) :
      ∀ x ∈ m.freed.drop s.manager.freed.length, ¬ m.Cached x := by
    obtain ⟨gone,hgone,hx⟩ := hpass.evicted
    rwa [hgone, drop_left]
  cases call with
  | checkAndUpdateCache r i =>
    obtain ⟨⟨hit,m⟩,hcall,rfl⟩ := Option.map_eq_some_iff.mp h
    have hpass := hs.accounted.checkAndUpdateCache hcall
    exact ⟨hs.passed hpass,hdrop hpass⟩
  | canAllocate r i budget schedule =>
    obtain ⟨f,hf,h⟩ := Option.bind_eq_some_iff.mp h
    obtain ⟨ok,m,hcall,hpass,hroom,-⟩ := hs.accounted.canAllocate (k := s.numEmbedsToSchedule) hf budget
    simp only [hcall, Option.map_some, Option.some.injEq] at h
    subst h
    refine ⟨?_,hdrop hpass⟩
    split_ifs with hok
    · simp only [made, hf, Option.any_some, Bool.and_eq_true, decide_eq_true_eq] at hmade
      have hnew : ¬ s.manager.Cached f.identifier := by
        simpa [EncoderCacheManager.Cached] using hmade.1
      refine ⟨hpass.accounted,forall_mem_cons.mpr ⟨hf,hs.known⟩,?_,nodup_cons.mpr ⟨hmade.2,hs.nodup⟩,?_⟩
      · exact forall_mem_cons.mpr ⟨hpass.fresh _ hnew,(hs.passed hpass).fresh⟩
      · rw [numEmbedsToSchedule, map_cons, sum_cons, Nat.cast_add]
        exact hroom (Bool.and_eq_true_iff.mp hok).1
    · exact hs.passed hpass
  | allocate k =>
    have hk : k < s.accepted.length := by
      obtain ⟨e,he,-⟩ := Option.bind_eq_some_iff.mp h
      exact (List.getElem?_eq_some_iff.mp he).1
    obtain ⟨t,ht,hinv,hfreed⟩ := hs.allocate hk
    cases h.symm.trans ht
    exact ⟨hinv,by simp [hfreed]⟩
  | giveUp =>
    cases h
    exact ⟨⟨hs.accounted,forall_mem_nil _,forall_mem_nil _,nodup_nil,
      (Nat.cast_nonneg _).trans hs.room⟩,by simp⟩
  | freeEncoderInput r i =>
    obtain ⟨m,hcall,rfl⟩ := Option.map_eq_some_iff.mp h
    have hpass := hs.accounted.freeEncoderInput (w.size_eq r) hcall
    exact ⟨hs.passed hpass,hdrop hpass⟩
  | free r ids =>
    obtain ⟨m,hcall,rfl⟩ := Option.map_eq_some_iff.mp h
    have hpass := hs.accounted.free (w.size_eq r) hcall
    exact ⟨hs.passed hpass,hdrop hpass⟩
  | getFreedMmHashes =>
    cases h
    have hm := hs.accounted
    exact ⟨⟨⟨⟨hm.unreferenced,hm.nodup⟩,hm.listed,hm.sizes,hm.slots,hm.reclaimable⟩,hs.known,hs.fresh,
      hs.nodup,hs.room⟩,by simp [EncoderCacheManager.takeFreed]⟩

def Held (w : Workload) (m : EncoderCacheManager) : Prop :=
  ∀ r i f, i ∈ m.requestCachedIds r → w.input r i = some f → m.Holds r f.identifier

variable {m' : EncoderCacheManager}

theorem Held.add {r : RequestId} {i : ℕ} {f : MmFeature} (hm : Held w m)
    (hf : w.input r i = some f) (hkeep : ∀ x y, m.Holds x y → m'.Holds x y)
    (hself : m'.Holds r f.identifier)
    (hids : m'.requestCachedIds = update m.requestCachedIds r (insert i (m.requestCachedIds r))) :
    Held w m' := by
  intro x j g hj hg
  by_cases hxj : x = r ∧ j = i
  · obtain ⟨rfl,rfl⟩ := hxj
    cases hf.symm.trans hg
    exact hself
  · refine hkeep _ _ (hm x j g ?_ hg)
    by_cases hx : x = r
    · subst hx
      rw [hids, update_self, Finset.mem_insert] at hj
      exact hj.resolve_left fun hji => hxj ⟨rfl,hji⟩
    · rwa [hids, update_of_ne hx] at hj

/-- Dropping an input: the ids of the other inputs and the holders of other entries stay. -/
theorem freeEncoderInput_spec {req : MmRequest} {i : ℕ} {f : MmFeature}
    (hf : req.mmFeatures[i]? = some f) (h : m.freeEncoderInput req i = some m') :
    m'.requestCachedIds = update m.requestCachedIds req.requestId
        ((m.requestCachedIds req.requestId).erase i) ∧
      ∀ r x, x ≠ f.identifier → m.Holds r x → m'.Holds r x := by
  simp only [EncoderCacheManager.freeEncoderInput, hf, Option.bind_eq_bind, Option.bind_some] at h
  split at h
  · cases h
    exact ⟨rfl,fun _ _ _ hx => hx⟩
  split at h <;> cases h
  · exact ⟨rfl,fun _ _ _ hx => hx⟩
  unfold EncoderCacheManager.dropReference
  split_ifs
  all_goals
    refine ⟨rfl,?_⟩
    rintro r x hx ⟨refs,hrefs,hr⟩
    exact ⟨refs,(update_of_ne hx _ _).trans hrefs,hr⟩

theorem free_ids {req : MmRequest} {ids : List ℕ} (h : m.free req ids = some m') (r : RequestId) :
    m'.requestCachedIds r =
      if r = req.requestId then m.requestCachedIds r \ ids.toFinset else m.requestCachedIds r := by
  induction ids generalizing m with
  | nil =>
    cases h
    simp
  | cons i ids ih =>
    obtain ⟨m₁,hfirst,hrest⟩ := Option.bind_eq_some_iff.mp ((foldlM_cons ..).symm.trans h)
    obtain ⟨f,hf,-⟩ := Option.bind_eq_some_iff.mp hfirst
    rw [ih hrest, (freeEncoderInput_spec hf hfirst).1]
    by_cases hr : r = req.requestId
    · subst hr
      rw [if_pos rfl, if_pos rfl, update_self, toFinset_cons, Finset.sdiff_insert,
        Finset.erase_sdiff_comm]
    · rw [if_neg hr, if_neg hr, update_of_ne hr]

theorem Held.step (hs : s.Inv w n) (hheld : Held w s.manager) (hmade : s.made w call = true)
    (hlast : s.freesLast w call = true) (h : s.step w call = some s') : Held w s'.manager := by
  have hwf := hs.accounted.toWellFormed
  cases call with
  | checkAndUpdateCache r i =>
    obtain ⟨⟨hit,m⟩,hcall,rfl⟩ := Option.map_eq_some_iff.mp h
    obtain ⟨f,hf,-⟩ := Option.bind_eq_some_iff.mp hcall
    obtain ⟨hfollows,hhit,hmiss⟩ := hwf.checkAndUpdateCache hf hcall
    cases hit with
    | false => exact (hmiss rfl).1 ▸ hheld
    | true =>
      have hself := hhit rfl
      rw [w.requestId_eq] at hself
      obtain ⟨refs,m₁,hc,hrev,rfl,-⟩ := checkAndUpdateCache_hit hwf hf hcall
      obtain ⟨-,-,-,-,hids⟩ := Changes.reviveEntry hwf hc hrev
      refine hheld.add hf (fun x y => hfollows.holds x y id) hself ?_
      simp [addReference, hids, w.requestId_eq]
  | canAllocate r i budget schedule =>
    obtain ⟨f,hf,h⟩ := Option.bind_eq_some_iff.mp h
    obtain ⟨ok,m,hcall,-,-,hids⟩ := hs.accounted.canAllocate (k := s.numEmbedsToSchedule) hf budget
    simp only [hcall, Option.map_some, Option.some.injEq] at h
    subst h
    intro x j g hj hg
    exact (hwf.canAllocate hcall).holds x _ id (hheld x j g (hids ▸ hj) hg)
  | allocate k =>
    obtain ⟨e,he,h⟩ := Option.bind_eq_some_iff.mp h
    obtain ⟨m,hcall,rfl⟩ := Option.map_eq_some_iff.mp h
    have hmem := mem_of_getElem? he
    have hf := hs.known e hmem
    obtain ⟨hfollows,hself⟩ := hwf.allocate hf (hs.fresh e hmem) hcall
    rw [w.requestId_eq] at hself
    refine hheld.add hf (fun x y => hfollows.holds x y id) hself ?_
    obtain ⟨f,-,hcode⟩ := Option.bind_eq_some_iff.mp hcall
    obtain ⟨-,hcode⟩ := Option.ite_none_right_eq_some.mp hcode
    cases hcode
    simp [EncoderCacheManager.addReference, w.requestId_eq]
  | giveUp =>
    cases h
    exact hheld
  | freeEncoderInput r i =>
    obtain ⟨m,hcall,rfl⟩ := Option.map_eq_some_iff.mp h
    obtain ⟨f,hf,-⟩ := Option.bind_eq_some_iff.mp hcall
    obtain ⟨hids,hkeep⟩ := freeEncoderInput_spec hf hcall
    rw [w.requestId_eq] at hids
    intro x j g hj hg
    by_cases hx : x = r
    · subst hx
      rw [hids, update_self, Finset.mem_erase] at hj
      refine hkeep _ _ (fun heq => ?_) (hheld x j g hj.2 hg)
      -- another cached input with the identifier of the freed one
      have hone := (of_decide_eq_true hlast j hj.2).resolve_left hj.1
      exact hone (by rw [hg, Workload.input, hf]; exact congrArg some heq)
    · rw [hids, update_of_ne hx] at hj
      exact (hwf.freeEncoderInput hcall).holds x _ (by rwa [w.requestId_eq]) (hheld x j g hj hg)
  | free r ids =>
    obtain ⟨m,hcall,rfl⟩ := Option.map_eq_some_iff.mp h
    intro x j g hj hg
    rw [free_ids hcall, w.requestId_eq] at hj
    by_cases hx : x = r
    · subst hx
      rw [if_pos rfl, of_decide_eq_true hmade, Finset.sdiff_self] at hj
      exact absurd hj (Finset.notMem_empty j)
    · rw [if_neg hx] at hj
      exact (hwf.free hcall).holds x _ (by rwa [w.requestId_eq]) (hheld x j g hj hg)
  | getFreedMmHashes =>
    cases h
    exact hheld

theorem Inv.new (w : Workload) (n : ℕ) : (⟨.new n,[]⟩ : CacheRun).Inv w n :=
  ⟨.new _ n,(fun _ he => nomatch he),(fun _ he => nomatch he),nodup_nil,by
    simp [numEmbedsToSchedule, EncoderCacheManager.new]⟩

/-- The counters are right after every sequence of calls, and no accepted input fails to be
allocated. If every input is freed as the last one of its request with its identifier, no entry is
evicted while an input of some request counts as cached through it. -/
theorem encoder_cache_accounting (w : Workload) (n : ℕ)
    (h : Reachable (step w) (fun s call _ => s.made w call = true) ⟨.new n,[]⟩ s) :
    (∃ entries : Finset MmHash, (∀ x, x ∈ entries ↔ s.manager.Cached x) ∧
        s.manager.numFreeSlots = n-∑ x ∈ entries, (w.size x : ℤ)) ∧
      s.manager.numFreeableSlots = s.manager.numFreeSlots+(s.manager.freeable.map Prod.snd).sum ∧
      (∀ x, x ∈ s.manager.freeable.map Prod.fst ↔ s.manager.cached x = some ∅) ∧
      (∀ k < s.accepted.length, (s.step w (.allocate k)).isSome = true) ∧
      (Reachable (step w) (fun s call _ => (s.made w call && s.freesLast w call) = true)
          ⟨.new n,[]⟩ s → ∀ call s', s.made w call = true → s.freesLast w call = true →
        s.step w call = some s' → ∀ x ∈ s'.manager.freed.drop s.manager.freed.length,
          ∀ r i f, i ∈ s'.manager.requestCachedIds r → w.input r i = some f → f.identifier ≠ x) := by
  have hinv : s.Inv w n := by
    refine h.invariant (P := Inv w n) (.new w n) ?_
    intro s call s' hs hstep hmade
    exact (hs.step hmade hstep).1
  have hm := hinv.accounted
  refine ⟨?_,hm.numFreeableSlots_eq,hm.mem_freeable_iff,fun k hk => ?_,?_⟩
  · obtain ⟨E,hE,hslots⟩ := hm.slots
    exact ⟨E,hE,by omega⟩
  · obtain ⟨s',hs',-⟩ := hinv.allocate hk
    rw [hs']
    rfl
  · rintro hlast call s' hmade hfrees hstep x hx r i f hi hf rfl
    have hheld := (hlast.invariant (P := fun s => s.Inv w n ∧ Held w s.manager)
      ⟨.new w n,fun _ _ _ hi => absurd hi (Finset.notMem_empty _)⟩
      fun _ _ _ hs hstep hok => by
        obtain ⟨hmade,hfrees⟩ := Bool.and_eq_true_iff.mp hok
        exact ⟨(hs.1.step hmade hstep).1,hs.2.step hs.1 hmade hfrees hstep⟩).2
    exact (hinv.step hmade hstep).2 _ hx ((hheld.step hinv hmade hfrees hstep) r i f hi hf).cached

def repeatedImage : Workload where
  request r := ⟨r,if r = 0 then [⟨7,⟨0,2,none,nofun⟩⟩,⟨7,⟨2,2,none,nofun⟩⟩] else [⟨8,⟨0,2,none,nofun⟩⟩],
    by split_ifs <;> simp [MmFeature.stop, MmFeature.start]⟩
  size _ := 2
  requestId_eq _ := rfl
  size_eq r f hf := by
    dsimp only at hf
    split_ifs at hf <;> simp at hf
    · rcases hf with rfl | rfl <;> rfl
    · subst hf
      rfl

/-- Request 0 gets its image, which a lookup finds for the second input, gives both back, and the
image of request 1 takes the place. -/
theorem encoder_cache_accounting_eviction : ∃ s : CacheRun, s.manager.freed = [7] ∧
    s.manager.numFreeableSlots = s.manager.numFreeSlots+(s.manager.freeable.map Prod.snd).sum := by
  obtain ⟨s,hs,hp⟩ := Reachable.exists_of_runGuarded (step repeatedImage)
    (fun s call _ h => (h : s.made repeatedImage call = true)) ⟨.new 3,[]⟩
    [.canAllocate 0 0 4 true,.allocate 0,.checkAndUpdateCache 0 1,.free 0 [0,1],
      .canAllocate 1 0 4 true] (fun s => s.manager.freed == [7]) (by decide +kernel)
  exact ⟨s,beq_iff_eq.mp hp,(encoder_cache_accounting repeatedImage 3 hs).2.1⟩

/-- Freeing one of two inputs with the same identifier takes the request's only reference, so the
entry is evicted while the other input still counts as cached. -/
theorem evicted_while_cached : ∃ s s' : CacheRun,
    Reachable (step repeatedImage) (fun s call _ => s.made repeatedImage call = true) ⟨.new 3,[]⟩ s ∧
      s.step repeatedImage (.canAllocate 1 0 4 true) = some s' ∧ s.manager.freed = [] ∧
      s'.manager.freed = [7] ∧ 1 ∈ s'.manager.requestCachedIds 0 ∧
      (repeatedImage.input 0 1).map (·.identifier) = some 7 := by
  obtain ⟨s,hs,hp⟩ := Reachable.exists_of_runGuarded (step repeatedImage)
    (fun s call _ h => (h : s.made repeatedImage call = true)) ⟨.new 3,[]⟩
    [.canAllocate 0 0 4 true,.allocate 0,.checkAndUpdateCache 0 1,.freeEncoderInput 0 0]
    (fun s => decide (s.manager.freed = []) && (s.step repeatedImage (.canAllocate 1 0 4 true)).any
      fun s' : CacheRun => decide (s'.manager.freed = [7] ∧ 1 ∈ s'.manager.requestCachedIds 0)) (by decide +kernel)
  obtain ⟨hfreed,hstep⟩ := Bool.and_eq_true_iff.mp hp
  obtain ⟨s',hs',hafter⟩ := (Option.any_eq_true ..).mp hstep
  exact ⟨s,s',hs,hs',of_decide_eq_true hfreed,(of_decide_eq_true hafter).1,
    (of_decide_eq_true hafter).2,rfl⟩

end CacheRun

end MetaZenith.Encoder
