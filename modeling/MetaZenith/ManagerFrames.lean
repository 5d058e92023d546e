import MetaZenith.KVCacheManager

/-! What the calls of a manager leave alone: everything that belongs to other requests. -/

namespace MetaZenith.KVCache

open List Option Function

variable {blockIdx cow main numExternal numLocal source : ℕ} {new ret : List ℕ}

universe u v w

set_option linter.unusedSectionVars false

section Threading

variable {H : Type u} {α : Type v} {β : Type w}

theorem mapPool_mem {f : BlockPool H → α → BlockPool H × β} {p : BlockPool H} {as : List α} {b : β}
    (hb : b ∈ (mapPool f p as).2) : ∃ a ∈ as, ∃ q, b = (f q a).2 := by
  induction as generalizing p with
  | nil => simp [mapPool] at hb
  | cons a as ih =>
    rcases mem_cons.mp hb with rfl | hb
    · exact ⟨a,mem_cons_self,p,rfl⟩
    · obtain ⟨a',ha',q,found⟩ := ih hb
      exact ⟨a',mem_cons_of_mem _ ha',q,found⟩

end Threading

structure Cleared (blocks blocks' : List ℕ) : Prop where
  length : blocks'.length = blocks.length
  entry : ∀ i : ℕ, blocks'[i]? = blocks[i]? ∨ blocks'[i]? = some BlockPool.nullBlock

namespace Cleared

variable {a b c : List ℕ}

theorem refl (a : List ℕ) : Cleared a a := ⟨rfl,fun _ => .inl rfl⟩

theorem trans (h : Cleared a b) (h' : Cleared b c) : Cleared a c := by
  refine ⟨h'.length.trans h.length,fun i => ?_⟩
  rcases h'.entry i with hi | hi
  · rw [hi]
    exact h.entry i
  · exact .inr hi

theorem set_null (a : List ℕ) (i : ℕ) : Cleared a (a.set i BlockPool.nullBlock) := by
  refine ⟨by simp,fun j => ?_⟩
  rw [getElem?_set]
  split
  · split
    · exact .inr rfl
    · rename_i hij hlen
      left
      rw [getElem?_eq_none (by omega)]
  · exact .inl rfl

theorem mem_before (h : Cleared a b) {i x : ℕ} (hi : b[i]? = some x) (hx : x ≠ BlockPool.nullBlock) :
    a[i]? = some x := by
  rcases h.entry i with he | he
  · rw [← he, hi]
  · rw [hi] at he
    cases he
    exact absurd rfl hx

end Cleared

namespace SingleTypeKVCacheManager

variable {H : Type u}

theorem sweepBlocks_cleared (firstBlock count : ℕ) (blocks : List ℕ) :
    Cleared blocks (sweepBlocks firstBlock count blocks).2 := by
  induction count generalizing blocks with
  | zero => exact .refl blocks
  | succ count ih =>
    rw [sweepBlocks]
    split
    · exact .refl blocks
    · exact (Cleared.set_null blocks _).trans (ih _)

structure Frame (r : RequestId) (m m' : SingleTypeKVCacheManager H) : Prop where
  kind : m'.kind = m.kind
  blockSize : m'.blockSize = m.blockSize
  enableCaching : m'.enableCaching = m.enableCaching
  kvCacheGroupId : m'.kvCacheGroupId = m.kvCacheGroupId
  reqToBlocks : ∀ r', r' ≠ r → m'.reqToBlocks r' = m.reqToBlocks r'
  numCachedBlock : ∀ r', r' ≠ r → m'.numCachedBlock r' = m.numCachedBlock r'
  partialHitReqs : ∀ r', r' ≠ r → m'.partialHitReqs r' = m.partialHitReqs r'
  lastStateBlockIdx : ∀ r', r' ≠ r → m'.lastStateBlockIdx r' = m.lastStateBlockIdx r'
  allocatedBlockReqs : ∀ r', r' ≠ r → m'.allocatedBlockReqs r' = m.allocatedBlockReqs r'

variable {m m' m'' : SingleTypeKVCacheManager H} {p p' : BlockPool H} {r : RequestId}

namespace Frame

theorem refl (r : RequestId) (m : SingleTypeKVCacheManager H) : Frame r m m :=
  ⟨rfl,rfl,rfl,rfl,fun _ _ => rfl,fun _ _ => rfl,fun _ _ => rfl,fun _ _ => rfl,fun _ _ => rfl⟩

theorem trans (h : Frame r m m') (h' : Frame r m' m'') : Frame r m m'' :=
  ⟨h'.1.trans h.1,h'.2.trans h.2,h'.3.trans h.3,h'.4.trans h.4,
    fun r' hr => (h'.5 r' hr).trans (h.5 r' hr),fun r' hr => (h'.6 r' hr).trans (h.6 r' hr),
    fun r' hr => (h'.7 r' hr).trans (h.7 r' hr),fun r' hr => (h'.8 r' hr).trans (h.8 r' hr),
    fun r' hr => (h'.9 r' hr).trans (h.9 r' hr)⟩

theorem setBlocks (m : SingleTypeKVCacheManager H) (r : RequestId) (blocks : List ℕ) :
    Frame r m (m.setBlocks r blocks) :=
  ⟨rfl,rfl,rfl,rfl,fun _ hr => update_of_ne hr _ _,fun _ _ => rfl,fun _ _ => rfl,
    fun _ _ => rfl,fun _ _ => rfl⟩

theorem popPartialHit (m : SingleTypeKVCacheManager H) (r : RequestId) :
    Frame r m (m.popPartialHit r) :=
  ⟨rfl,rfl,rfl,rfl,fun _ _ => rfl,fun _ _ => rfl,fun _ hr => update_of_ne hr _ _,
    fun _ _ => rfl,fun _ _ => rfl⟩

theorem setCached (m : SingleTypeKVCacheManager H) (r : RequestId) (n : Option ℕ) :
    Frame r m { m with numCachedBlock := update m.numCachedBlock r n } :=
  ⟨rfl,rfl,rfl,rfl,fun _ _ => rfl,fun _ hr => update_of_ne hr _ _,fun _ _ => rfl,
    fun _ _ => rfl,fun _ _ => rfl⟩

theorem setPartialHit (m : SingleTypeKVCacheManager H) (r : RequestId) (hit : Option (ℕ × ℕ))
    (n : Option ℕ) (cached : List (BlockHashWithGroupId H)) : Frame r m { m with
      partialHitReqs := update m.partialHitReqs r hit
      numCachedBlock := update m.numCachedBlock r n
      cachedBlocksThisStep := cached } :=
  ⟨rfl,rfl,rfl,rfl,fun _ _ => rfl,fun _ hr => update_of_ne hr _ _,
    fun _ hr => update_of_ne hr _ _,fun _ _ => rfl,fun _ _ => rfl⟩

end Frame

@[simp] theorem setBlocks_reqToBlocks (m : SingleTypeKVCacheManager H) (r : RequestId)
    (blocks : List ℕ) : (m.setBlocks r blocks).reqToBlocks r = blocks :=
  update_self ..

section Removing

variable [DecidableEq H]

theorem frame_removeBlocksInRange (m : SingleTypeKVCacheManager H) (p : BlockPool H)
    (r : RequestId) (firstBlock lastBlock : ℕ) :
    Frame r m (m.removeBlocksInRange p r firstBlock lastBlock).2 :=
  .setBlocks m r _

theorem frame_freeLastState (m : SingleTypeKVCacheManager H) (p : BlockPool H) (r : RequestId)
    (processed : ℕ) : Frame r m (m.freeLastState p r processed).2 := by
  simp only [freeLastState]
  split
  · split
    · exact .setBlocks m r _
    · exact .refl r m
  · exact .refl r m

theorem frame_removeSkippedBlocks (m : SingleTypeKVCacheManager H) (p : BlockPool H)
    (r : RequestId) (processed : ℕ) : Frame r m (m.removeSkippedBlocks p r processed).2 := by
  have hremoved : Frame r m (if m.getNumSkippedTokens processed = 0 then (p,m)
      else m.removeBlocksInRange p r 0 (m.getNumSkippedTokens processed/m.blockSize)).2 := by
    split
    · exact .refl r m
    · exact frame_removeBlocksInRange m p r _ _
  simp only [removeSkippedBlocks]
  split
  · exact hremoved.trans (frame_freeLastState _ _ r processed)
  · exact hremoved

theorem frame_popBlocksForFree (m : SingleTypeKVCacheManager H) (r : RequestId) :
    Frame r m (m.popBlocksForFree r).2 :=
  ⟨rfl,rfl,rfl,rfl,fun _ hr => update_of_ne hr _ _,
    fun _ hr => update_of_ne hr _ _,fun _ hr => update_of_ne hr _ _,
    fun _ hr => update_of_ne hr _ _,fun _ hr => update_of_ne hr _ _⟩

end Removing

section Allocating

variable [DecidableEq H]

theorem frame_adoptHits (m : SingleTypeKVCacheManager H) (r : RequestId) (numSkipped : ℕ)
    (hits : List ℕ) (numLocal : ℕ) : Frame r m (m.adoptHits r numSkipped hits numLocal) := by
  rw [adoptHits]
  split
  · exact (Frame.setBlocks m r _).trans (.setPartialHit _ r _ _ _)
  · exact (Frame.setBlocks m r _).trans (.setCached _ r _)

@[simp] theorem adoptHits_reqToBlocks (m : SingleTypeKVCacheManager H) (r : RequestId)
    (numSkipped : ℕ) (hits : List ℕ) (numLocal : ℕ) :
    (m.adoptHits r numSkipped hits numLocal).reqToBlocks r =
      List.replicate numSkipped BlockPool.nullBlock ++ hits := by
  rw [adoptHits]
  split <;> exact update_self ..

@[simp] theorem adoptHits_lastStateBlockIdx (m : SingleTypeKVCacheManager H) (r : RequestId)
    (numSkipped : ℕ) (hits : List ℕ) (numLocal : ℕ) :
    (m.adoptHits r numSkipped hits numLocal).lastStateBlockIdx = m.lastStateBlockIdx := by
  rw [adoptHits]
  split <;> rfl

@[simp] theorem adoptHits_allocatedBlockReqs (m : SingleTypeKVCacheManager H) (r : RequestId)
    (numSkipped : ℕ) (hits : List ℕ) (numLocal : ℕ) :
    (m.adoptHits r numSkipped hits numLocal).allocatedBlockReqs = m.allocatedBlockReqs := by
  rw [adoptHits]
  split <;> rfl

theorem addLocalComputedBlocks_cases {hits : List ℕ}
    (h : m.addLocalComputedBlocks p r hits numLocal numExternal = some (p',m')) :
    let numSkipped := m.getNumSkippedTokens (numLocal+numExternal)/m.blockSize
    m.reqToBlocks r = [] ∧
    (if m.enableCaching then p.touch (hits.drop numSkipped)
      else if (hits.drop numSkipped).isEmpty then some p else none) = some p' ∧
    m' = m.adoptHits r numSkipped (hits.drop numSkipped) numLocal := by
  simp only [addLocalComputedBlocks] at h
  split at h
  · rename_i hempty
    obtain ⟨q,hq,heq⟩ := map_eq_some_iff.mp h
    cases heq
    exact ⟨isEmpty_iff.mp hempty,hq,rfl⟩
  · cases h

theorem allocateExternalComputedBlocks_cases
    (h : m.allocateExternalComputedBlocks p r numLocal numExternal = some (p',m')) :
    (p' = p ∧ m' = m) ∨ ∃ new, (m.reqToBlocks r).length ≤ cdiv (numLocal+numExternal) m.blockSize ∧
        p.getNewBlocks (cdiv (numLocal+numExternal) m.blockSize-(m.reqToBlocks r).length) =
          some (new,p') ∧ m' = m.setBlocks r (m.reqToBlocks r ++ new) := by
  simp only [allocateExternalComputedBlocks] at h
  generalize (if 0 < m.getNumSkippedTokens (numLocal+numExternal) then
    min (numLocal+numExternal-m.getNumSkippedTokens (numLocal+numExternal)) numExternal
    else numExternal) = n at h
  by_cases hzero : n = 0
  · rw [if_pos hzero] at h
    cases h
    exact .inl ⟨rfl,rfl⟩
  · rw [if_neg hzero] at h
    by_cases hlt : cdiv (numLocal+numExternal) m.blockSize < (m.reqToBlocks r).length
    · rw [if_pos hlt] at h
      cases h
    · rw [if_neg hlt] at h
      obtain ⟨⟨new,q⟩,hnew,heq⟩ := map_eq_some_iff.mp h
      cases heq
      exact .inr ⟨new,not_lt.mp hlt,hnew,rfl⟩

theorem frame_allocateExternalComputedBlocks
    (h : m.allocateExternalComputedBlocks p r numLocal numExternal = some (p',m')) :
    Frame r m m' := by
  rcases allocateExternalComputedBlocks_cases h with ⟨-,rfl⟩ | ⟨new,-,-,rfl⟩
  · exact .refl r m'
  · exact .setBlocks m r _

theorem applyCow_cases (h : m.applyCow p r blockIdx source cow = some (p',m')) :
    ((m.reqToBlocks r)[blockIdx]? = some source ∧ (p.blocks source).isNull = false ∧
      0 < (p.blocks source).refCnt) ∧
    p' = p.setBlock cow { p.blocks cow with refCnt := (p.blocks cow).refCnt+1 } ∧
    m' = { m.setBlocks r ((m.reqToBlocks r).set blockIdx cow) with
      pendingCowCopies := m.pendingCowCopies ++ [(source,cow)] } := by
  rw [applyCow] at h
  split at h
  · rename_i hok
    cases h
    exact ⟨hok,rfl,rfl⟩
  · cases h

theorem frame_applyCow (h : m.applyCow p r blockIdx source cow = some (p',m')) : Frame r m m' := by
  obtain ⟨-,-,rfl⟩ := applyCow_cases h
  have hf := Frame.setBlocks m r ((m.reqToBlocks r).set blockIdx cow)
  exact ⟨hf.1,hf.2,hf.3,hf.4,hf.5,hf.6,hf.7,hf.8,hf.9⟩

theorem frame_redirectPartialHit {cows : List ℕ}
    (h : m.redirectPartialHit p r = some (cows,p',m')) : Frame r m m' := by
  rw [redirectPartialHit] at h
  split at h
  · cases h
    exact .refl r m
  · obtain ⟨⟨new,q⟩,-,h⟩ := bind_eq_some_iff.mp h
    obtain ⟨cow,-,h⟩ := bind_eq_some_iff.mp h
    obtain ⟨⟨q',m₁⟩,hcow,heq⟩ := map_eq_some_iff.mp h
    cases heq
    exact (Frame.popPartialHit m r).trans (frame_applyCow hcow)

theorem frame_baseAllocateNewBlocks {numTokens : ℕ}
    (h : m.baseAllocateNewBlocks p r numTokens = some (new,p',m')) : Frame r m m' := by
  obtain ⟨⟨cows,q,m₁⟩,hredirect,h⟩ := bind_eq_some_iff.mp h
  have hf := frame_redirectPartialHit hredirect
  dsimp only at h
  split at h
  · cases h
    exact hf
  · obtain ⟨⟨blocks,q'⟩,-,heq⟩ := map_eq_some_iff.mp h
    cases heq
    exact hf.trans (.setBlocks m₁ r _)

theorem moveEntryToCow_cases (h : m.moveEntryToCow p r blockIdx source cow = some (p',m')) :
    (m.reqToBlocks r)[blockIdx]? = some source ∧ ∃ q, p.moveBlockHashes source cow = some q ∧
      p' = q.setBlock source { q.blocks source with refCnt := (q.blocks source).refCnt+1 } ∧
      m' = { m with
        pendingCowCopies := m.pendingCowCopies ++ [(source,cow)]
        cachedBlocksThisStep := m.cachedBlocksThisStep ++ (q.blocks cow).blockHash.toList } := by
  rw [moveEntryToCow] at h
  split at h
  · rename_i hsource
    obtain ⟨q,hmove,heq⟩ := map_eq_some_iff.mp h
    cases heq
    exact ⟨hsource,q,hmove,rfl,rfl⟩
  · cases h

/-- `alignTakeBlocks` appends the blocks left after the copy of a partial hit. -/
theorem alignTakeBlocks_cases {alloc : Bool} {prevLen : ℕ}
    (h : m.alignTakeBlocks p r alloc prevLen new = some (ret,p',m')) :
    (m.partialHitReqs r = none ∧ p' = p ∧ m' = m.setBlocks r (m.reqToBlocks r ++ new)) ∨
    ∃ blockIdx source cow m₁, m.partialHitReqs r = some (blockIdx,source) ∧ new.head? = some cow ∧
      (if alloc then m.moveEntryToCow p r blockIdx source cow
        else m.applyCow p r blockIdx source cow) = some (p',m₁) ∧
      m' = (m₁.setBlocks r (m₁.reqToBlocks r ++ new.tail)).popPartialHit r := by
  simp only [alignTakeBlocks] at h
  cases hpart : m.partialHitReqs r with
  | none =>
    simp only [hpart] at h
    cases h
    exact .inl ⟨rfl,rfl,rfl⟩
  | some hit =>
    simp only [hpart] at h
    obtain ⟨cow,hcow,h⟩ := bind_eq_some_iff.mp h
    obtain ⟨⟨ret',q,m₁⟩,hcopy,heq⟩ := map_eq_some_iff.mp h
    cases heq
    refine .inr ⟨hit.1,hit.2,cow,m₁,rfl,hcow,?_,rfl⟩
    cases alloc with
    | true =>
      obtain ⟨⟨q',m₂⟩,hmove,heq⟩ := map_eq_some_iff.mp hcopy
      cases heq
      exact hmove
    | false =>
      obtain ⟨⟨q',m₂⟩,hmove,heq⟩ := map_eq_some_iff.mp hcopy
      cases heq
      exact hmove

theorem alignAllocateNewBlocks_cases {spec : ℕ}
    (h : m.alignAllocateNewBlocks p r main spec = some (ret,p',m')) :
    let required := cdiv main m.blockSize+spec
    let m₁ := m.alignAdvance r (required-spec-1) spec
    let numCow := (m.partialHitReqs r).toList.length
    (required ≤ (m.reqToBlocks r).length ∧ m.partialHitReqs r = none ∧ p' = p ∧ m' = m) ∨
    (¬(required ≤ (m.reqToBlocks r).length ∧ m.partialHitReqs r = none) ∧
      (m.partialHitReqs r = none → (m₁.reqToBlocks r).length ≤ required) ∧
      ∃ new q, p.getNewBlocks (required-(m₁.reqToBlocks r).length+numCow) = some (new,q) ∧
        m₁.alignTakeBlocks q r (m.allocatedBlockReqs r) (m.reqToBlocks r).length new =
          some (ret,p',m')) := by
  intro required m₁ numCow
  have hpart : m₁.partialHitReqs r = m.partialHitReqs r := rfl
  simp only [alignAllocateNewBlocks, isNone_iff_eq_none] at h
  by_cases hnone : required ≤ (m.reqToBlocks r).length ∧ m.partialHitReqs r = none
  · rw [if_pos hnone] at h
    cases h
    exact .inl ⟨hnone.1,hnone.2,rfl,rfl⟩
  · rw [if_neg hnone] at h
    obtain ⟨hok,h⟩ := ite_none_left_eq_some.mp h
    obtain ⟨⟨new,q⟩,hnew,htake⟩ := bind_eq_some_iff.mp h
    refine .inr ⟨hnone,fun hp => ?_,new,q,hnew,htake⟩
    by_contra hlt
    exact hok (.inl ⟨not_le.mp hlt,hpart.trans hp⟩)

theorem frame_alignAdvance (m : SingleTypeKVCacheManager H) (r : RequestId) (skipped spec : ℕ) :
    Frame r m (m.alignAdvance r skipped spec) := by
  refine ⟨rfl,rfl,rfl,rfl,?_,fun _ _ => rfl,fun _ _ => rfl,?_,?_⟩
  all_goals
    intro r' hr
    exact update_of_ne hr _ _

theorem frame_moveEntryToCow (h : m.moveEntryToCow p r blockIdx source cow = some (p',m')) :
    Frame r m m' := by
  obtain ⟨-,q,-,-,rfl⟩ := moveEntryToCow_cases h
  exact ⟨rfl,rfl,rfl,rfl,fun _ _ => rfl,fun _ _ => rfl,fun _ _ => rfl,fun _ _ => rfl,fun _ _ => rfl⟩

theorem frame_alignTakeBlocks {alloc : Bool} {prevLen : ℕ}
    (h : m.alignTakeBlocks p r alloc prevLen new = some (ret,p',m')) : Frame r m m' := by
  rcases alignTakeBlocks_cases h with ⟨-,-,rfl⟩ | ⟨blockIdx,source,cow,m₁,-,-,hcopy,rfl⟩
  · exact .setBlocks m r _
  · have hf : Frame r m m₁ := by
      cases alloc with
      | true => exact frame_moveEntryToCow hcopy
      | false => exact frame_applyCow hcopy
    exact hf.trans ((Frame.setBlocks m₁ r _).trans (.popPartialHit _ r))

theorem frame_alignAllocateNewBlocks {spec : ℕ}
    (h : m.alignAllocateNewBlocks p r main spec = some (ret,p',m')) : Frame r m m' := by
  rcases alignAllocateNewBlocks_cases h with ⟨-,-,-,rfl⟩ | ⟨-,-,new,q,-,htake⟩
  · exact .refl r m'
  · exact (frame_alignAdvance m r _ spec).trans (frame_alignTakeBlocks htake)

theorem frame_allocateNewBlocks {numTokens : ℕ}
    (h : m.allocateNewBlocks p r numTokens main = some (ret,p',m')) : Frame r m m' := by
  rw [allocateNewBlocks] at h
  split at h
  · split at h
    · exact frame_alignAllocateNewBlocks h
    · exact frame_baseAllocateNewBlocks h
  · exact frame_baseAllocateNewBlocks h

end Allocating

section Caching

variable [DecidableEq H] {request : KVRequest H} {numTokens : ℕ} {retention : Option ℕ}

structure CacheFrame (r : RequestId) (m m' : SingleTypeKVCacheManager H) : Prop
    extends Frame r m m' where
  blocks : m'.reqToBlocks = m.reqToBlocks
  last : m'.lastStateBlockIdx = m.lastStateBlockIdx
  allocated : m'.allocatedBlockReqs = m.allocatedBlockReqs
  copies : m'.pendingCowCopies = m.pendingCowCopies

theorem CacheFrame.refl (r : RequestId) (m : SingleTypeKVCacheManager H) : CacheFrame r m m :=
  ⟨.refl r m,rfl,rfl,rfl,rfl⟩

theorem CacheFrame.trans (h : CacheFrame r m m') (h' : CacheFrame r m' m'') : CacheFrame r m m'' :=
  ⟨h.toFrame.trans h'.toFrame,h'.blocks.trans h.blocks,h'.last.trans h.last,
    h'.allocated.trans h.allocated,h'.copies.trans h.copies⟩

theorem cacheFrame_baseCacheBlocks
    (h : m.baseCacheBlocks p request numTokens retention = some (p',m')) :
    CacheFrame request.requestId m m' := by
  simp only [baseCacheBlocks] at h
  split at h
  · cases h
    exact .refl _ m
  · obtain ⟨q,-,heq⟩ := map_eq_some_iff.mp h
    cases heq
    exact ⟨.setCached m _ _,rfl,rfl,rfl,rfl⟩

theorem cacheFrame_mambaCachePartialTail
    (h : m.mambaCachePartialTail p request numTokens = some (p',m')) :
    CacheFrame request.requestId m m' := by
  simp only [mambaCachePartialTail] at h
  split at h
  · cases h
    exact .refl _ m
  · split at h
    · cases h
      exact .refl _ m
    · split at h
      · cases h
        exact .refl _ m
      · obtain ⟨⟨q,key⟩,-,heq⟩ := map_eq_some_iff.mp h
        cases key with
        | none =>
          cases heq
          exact .refl _ m
        | some key =>
          cases heq
          exact ⟨.setPartialHit m _ _ _ _,rfl,rfl,rfl,rfl⟩

theorem cacheFrame_recordCachedBlocks (m : SingleTypeKVCacheManager H) (p : BlockPool H)
    (r : RequestId) (before after : ℕ) : CacheFrame r m (m.recordCachedBlocks p r before after) :=
  ⟨⟨rfl,rfl,rfl,rfl,fun _ _ => rfl,fun _ _ => rfl,fun _ _ => rfl,fun _ _ => rfl,fun _ _ => rfl⟩,
    rfl,rfl,rfl,rfl⟩

theorem cacheFrame_cacheBlocks (h : m.cacheBlocks p request numTokens retention = some (p',m')) :
    CacheFrame request.requestId m m' := by
  obtain ⟨⟨q,m₁⟩,hbase,h⟩ := bind_eq_some_iff.mp h
  have hf := cacheFrame_baseCacheBlocks hbase
  dsimp only at h
  split at h
  · split at h
    · cases h
      exact hf
    · obtain ⟨q',-,heq⟩ := map_eq_some_iff.mp h
      cases heq
      exact hf
  · obtain ⟨⟨q',m₂⟩,htail,heq⟩ := map_eq_some_iff.mp h
    cases heq
    have hf₂ : CacheFrame request.requestId m₁ m₂ := by
      split at htail
      · exact cacheFrame_mambaCachePartialTail htail
      · cases htail
        exact .refl _ m₁
    exact (hf.trans hf₂).trans (cacheFrame_recordCachedBlocks m₂ q' _ _ _)
  · cases h
    exact hf

end Caching

end SingleTypeKVCacheManager

end MetaZenith.KVCache
