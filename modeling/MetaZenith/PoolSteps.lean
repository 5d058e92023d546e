import MetaZenith.BlockPoolInvariant
import MetaZenith.ManagerFrames

/-! The managers reach the pool only through its own calls and through single reference counts, so
a property of pools that these keep holds after every call of a manager. -/

namespace MetaZenith.KVCache

open SingleTypeKVCacheManager List Option

variable {n numExternal numLocal numTokens : ℕ} {new : List ℕ}

universe u v w

set_option linter.unusedSectionVars false

namespace BlockPool

variable {H : Type u} [DecidableEq H]

inductive Steps : BlockPool H → BlockPool H → Prop
  | refl (p : BlockPool H) : Steps p p
  | hashes {p q r : BlockPool H} (h : Steps p q) (hr : SameRefs q r) : Steps p r
  | touch {p q r : BlockPool H} {blocks : List ℕ} (h : Steps p q) (hr : q.touch blocks = some r) :
      Steps p r
  | getNewBlocks {p q r : BlockPool H} {n : ℕ} {new : List ℕ} (h : Steps p q)
      (hr : q.getNewBlocks n = some (new,r)) : Steps p r
  | freeBlocks {p q : BlockPool H} (h : Steps p q) (blocks : List ℕ) : Steps p (q.freeBlocks blocks)
  | setRefCnt {p q : BlockPool H} (h : Steps p q) (b : ℕ) (n : ℤ) :
      Steps p (q.setBlock b { q.blocks b with refCnt := n })

variable {p q r : BlockPool H} {b : ℕ}

theorem Steps.trans (h : Steps p q) (h' : Steps q r) : Steps p r := by
  induction h' with
  | refl => exact h
  | hashes _ hr ih => exact ih.hashes hr
  | touch _ hr ih => exact ih.touch hr
  | getNewBlocks _ hr ih => exact ih.getNewBlocks hr
  | freeBlocks _ blocks ih => exact ih.freeBlocks blocks
  | setRefCnt _ b n ih => exact ih.setRefCnt b n

theorem Steps.keeps {P : BlockPool H → Prop} (hhashes : ∀ p q, P p → SameRefs p q → P q)
    (htouch : ∀ p q blocks, P p → p.touch blocks = some q → P q)
    (hnew : ∀ p q n new, P p → p.getNewBlocks n = some (new,q) → P q)
    (hfree : ∀ p blocks, P p → P (p.freeBlocks blocks)) (hset : ∀ (p : BlockPool H) b (n : ℤ), P p →
      P (p.setBlock b { p.blocks b with refCnt := n }))
    (h : Steps p q) : P p → P q := by
  intro hp
  induction h with
  | refl => exact hp
  | hashes _ hr ih => exact hhashes _ _ ih hr
  | touch _ hr ih => exact htouch _ _ _ ih hr
  | getNewBlocks _ hr ih => exact hnew _ _ _ _ ih hr
  | freeBlocks _ blocks ih => exact hfree _ blocks ih
  | setRefCnt _ b n ih => exact hset _ b n ih

theorem sameRefs_foldlM {ε : Type*} {f : BlockPool H → ε → Option (BlockPool H)} {l : List ε}
    (hstep : ∀ a ∈ l, ∀ t t', f t a = some t' → SameRefs t t')
    (h : l.foldlM f p = some q) : SameRefs p q :=
  foldlM_option_keeps (P := SameRefs p) (fun a ha t t' ht hat => ht.trans (hstep a ha t t' hat))
    (.refl p) h

theorem sameRefs_cacheFullBlock {key : BlockHashWithGroupId H}
    (h : p.cacheFullBlock b key n = some q) : SameRefs p q := by
  simp only [cacheFullBlock] at h
  split at h
  · exact sameRefs_insertBlockHash h
  split at h
  · exact (sameRefs_removeCachedBlockHashes p b).trans (sameRefs_insertBlockHash h)
  · cases h

theorem sameRefs_cacheFullBlocks {blockHashes : List H} {blocks : List ℕ}
    {numCached numFull blockSize group : ℕ} {mask : Option (List Bool)}
    (h : p.cacheFullBlocks blockHashes blocks numCached numFull blockSize group mask = some q) :
    SameRefs p q := by
  simp only [cacheFullBlocks] at h
  split at h
  · cases h
    exact .refl _
  split at h
  · cases h
  obtain ⟨resolved,-,hfold⟩ := bind_eq_some_iff.mp h
  refine sameRefs_foldlM ?_ hfold
  intro a _ t t' hround
  split at hround
  · cases hround
    exact .refl _
  · obtain ⟨hash,-,hround⟩ := bind_eq_some_iff.mp hround
    exact sameRefs_cacheFullBlock hround

theorem sameRefs_cachePartialBlock {blockHashes : List H} {group blockSize : ℕ}
    {key : Option (BlockHashWithGroupId H)}
    (h : p.cachePartialBlock blockHashes b numTokens group blockSize = some (q,key)) :
    SameRefs p q := by
  simp only [cachePartialBlock] at h
  split at h
  · cases h
    exact .refl _
  split at h
  · obtain ⟨hash,-,h⟩ := bind_eq_some_iff.mp h
    obtain ⟨q',hins,hq⟩ := map_eq_some_iff.mp h
    cases hq
    refine SameRefs.trans ?_ (sameRefs_insertBlockHash hins)
    split
    · exact sameRefs_removeCachedBlockHashes p b
    · exact .refl p
  · cases h

theorem sameRefs_moveBlockHashes {src dst : ℕ} (h : p.moveBlockHashes src dst = some q) :
    SameRefs p q := by
  simp only [moveBlockHashes] at h
  split at h
  · refine (sameRefs_removeCachedBlockHashes p src).trans (sameRefs_foldlM ?_ h)
    intro key _ t t' hins
    exact sameRefs_insertBlockHash hins
  · cases h

structure QueueCounted (p : BlockPool H) : Prop where
  num : p.freeBlockQueue.numFreeBlocks = p.freeBlockQueue.blocks.length
  null : (p.blocks nullBlock).isNull = true

theorem allocateBlock_queue (h : p.allocateBlock b = some q) :
    q.freeBlockQueue = p.freeBlockQueue ∧ ∀ b', (q.blocks b').isNull = (p.blocks b').isNull := by
  simp only [allocateBlock] at h
  have hevict : SameRefs p (if p.enableCaching then (p.maybeEvictCachedBlock b).1 else p) := by
    split
    · exact sameRefs_removeCachedBlockHashes p b
    · exact .refl p
  generalize (if p.enableCaching then (p.maybeEvictCachedBlock b).1 else p) = p₁ at h hevict
  split at h
  · cases h
    refine ⟨hevict.queue,fun b' => ?_⟩
    rw [(sameHashes_setRefCnt p₁ b _).isNull, hevict.isNull]
  · cases h

theorem getNewBlocks_queue (h : p.getNewBlocks n = some (new,q)) :
    new = p.freeBlockQueue.blocks.take n ∧ q.freeBlockQueue.blocks = p.freeBlockQueue.blocks.drop n ∧
      q.freeBlockQueue.numFreeBlocks = p.freeBlockQueue.numFreeBlocks-n ∧
      n ≤ p.freeBlockQueue.numFreeBlocks ∧ ∀ b, (q.blocks b).isNull = (p.blocks b).isNull := by
  simp only [getNewBlocks] at h
  obtain ⟨hle,h⟩ := ite_none_left_eq_some.mp h
  obtain ⟨⟨popped,queue⟩,hpop,h⟩ := bind_eq_some_iff.mp h
  obtain ⟨q',hfold,heq⟩ := map_eq_some_iff.mp h
  cases heq
  have hkept : q.freeBlockQueue = queue ∧ ∀ b, (q.blocks b).isNull = (p.blocks b).isNull := by
    have hstart : ({ p with freeBlockQueue := queue } : BlockPool H).freeBlockQueue = queue ∧
      ∀ b, (p.blocks b).isNull = (p.blocks b).isNull := ⟨rfl,fun _ => rfl⟩
    refine foldlM_option_keeps (P := fun t : BlockPool H => t.freeBlockQueue = queue ∧
      ∀ b, (t.blocks b).isNull = (p.blocks b).isNull) ?_ hstart hfold
    intro b _ t t' ht hround
    obtain ⟨hqueue,hnull⟩ := allocateBlock_queue hround
    exact ⟨hqueue.trans ht.1,fun b' => (hnull b').trans (ht.2 b')⟩
  have hn : n ≤ p.freeBlockQueue.numFreeBlocks := Nat.le_of_not_lt hle
  rw [hkept.1]
  simp only [FreeKVCacheBlockQueue.popleftN] at hpop
  split at hpop
  · rename_i hzero
    cases hpop
    subst hzero
    exact ⟨by simp,by simp,by simp,hn,hkept.2⟩
  · cases hpop
    exact ⟨rfl,rfl,rfl,hn,hkept.2⟩

theorem QueueCounted.getNewBlocks_length (hp : QueueCounted p)
    (h : p.getNewBlocks n = some (new,q)) : new.length = n := by
  obtain ⟨rfl,-,-,hle,-⟩ := getNewBlocks_queue h
  rw [length_take, ← hp.num]
  exact min_eq_left hle

theorem touchBlock_counted (hp : QueueCounted p) (h : p.touchBlock b = some q) : QueueCounted q := by
  simp only [touchBlock] at h
  obtain ⟨p₁,hremove,heq⟩ := map_eq_some_iff.mp h
  have hp₁ : QueueCounted p₁ := by
    split at hremove
    · obtain ⟨queue,hqueue,hq⟩ := map_eq_some_iff.mp hremove
      cases hq
      simp only [FreeKVCacheBlockQueue.remove] at hqueue
      split at hqueue
      · rename_i hmem
        cases hqueue
        refine ⟨?_,hp.null⟩
        show p.freeBlockQueue.numFreeBlocks-1 = (p.freeBlockQueue.blocks.erase b).length
        rw [length_erase_of_mem hmem, hp.num]
      · cases hqueue
    · cases hremove
      exact hp
  subst heq
  exact ⟨hp₁.num,((sameHashes_setRefCnt p₁ b _).isNull _).trans hp₁.null⟩

theorem releaseBlock_queue (acc : BlockPool H × List ℕ × List ℕ) (b : ℕ) :
    (releaseBlock acc b).1.freeBlockQueue = acc.1.freeBlockQueue ∧
      ∀ b', ((releaseBlock acc b).1.blocks b').isNull = (acc.1.blocks b').isNull := by
  rw [releaseBlock_pool]
  exact ⟨rfl,(sameHashes_setRefCnt acc.1 b _).isNull⟩

theorem QueueCounted.freeBlocks (hp : QueueCounted p) (blocks : List ℕ) :
    QueueCounted (p.freeBlocks blocks) := by
  have hkept : ∀ (l : List ℕ) (acc : BlockPool H × List ℕ × List ℕ),
      (l.foldl releaseBlock acc).1.freeBlockQueue = acc.1.freeBlockQueue ∧
        ∀ b', ((l.foldl releaseBlock acc).1.blocks b').isNull = (acc.1.blocks b').isNull := by
    intro l
    induction l with
    | nil => exact fun acc => ⟨rfl,fun _ => rfl⟩
    | cons b l ih =>
      intro acc
      obtain ⟨hqueue,hnull⟩ := ih (releaseBlock acc b)
      obtain ⟨hqueue',hnull'⟩ := releaseBlock_queue acc b
      exact ⟨hqueue.trans hqueue',fun b' => (hnull b').trans (hnull' b')⟩
  obtain ⟨hqueue,hnull⟩ := hkept blocks (p,[],[])
  refine ⟨?_,(hnull nullBlock).trans hp.null⟩
  simp only [BlockPool.freeBlocks, FreeKVCacheBlockQueue.appendN, FreeKVCacheBlockQueue.prependN,
    hqueue, length_append, hp.num]
  omega

theorem Steps.queueCounted (h : Steps p q) : QueueCounted p → QueueCounted q := by
  refine h.keeps ?_ ?_ ?_ ?_ ?_
  · intro p q hp hpq
    exact ⟨by rw [hpq.queue, hp.num],(hpq.isNull _).trans hp.null⟩
  · intro p q blocks hp htouch
    exact foldlM_option_keeps (fun b _ t t' ht hround => touchBlock_counted ht hround) hp htouch
  · intro p q n new hp hnew
    obtain ⟨-,hblocks,hnum,-,hnull⟩ := getNewBlocks_queue hnew
    exact ⟨by rw [hnum, hblocks, length_drop, hp.num],(hnull _).trans hp.null⟩
  · intro p blocks hp
    exact hp.freeBlocks blocks
  · intro p b n hp
    exact ⟨hp.num,((sameHashes_setRefCnt p b n).isNull _).trans hp.null⟩

end BlockPool

open BlockPool (Steps)

namespace SingleTypeKVCacheManager

variable {H : Type u} [DecidableEq H] {m m' : SingleTypeKVCacheManager H} {p p' : BlockPool H}
  {r : RequestId}

theorem steps_freeLastState (m : SingleTypeKVCacheManager H) (p : BlockPool H) (r : RequestId)
    (processed : ℕ) : Steps p (m.freeLastState p r processed).1 := by
  simp only [freeLastState]
  split
  · split
    · exact (Steps.refl p).freeBlocks _
    · exact .refl p
  · exact .refl p

theorem steps_removeSkippedBlocks (m : SingleTypeKVCacheManager H) (p : BlockPool H)
    (r : RequestId) (processed : ℕ) : Steps p (m.removeSkippedBlocks p r processed).1 := by
  have hremoved : Steps p (if m.getNumSkippedTokens processed = 0 then (p,m)
      else m.removeBlocksInRange p r 0 (m.getNumSkippedTokens processed/m.blockSize)).1 := by
    split
    · exact .refl p
    · exact (Steps.refl p).freeBlocks _
  simp only [removeSkippedBlocks]
  split
  · exact hremoved.trans (steps_freeLastState _ _ r processed)
  · exact hremoved

theorem steps_addLocalComputedBlocks {hits : List ℕ}
    (h : m.addLocalComputedBlocks p r hits numLocal numExternal = some (p',m')) : Steps p p' := by
  obtain ⟨-,htouch,-⟩ := addLocalComputedBlocks_cases h
  split at htouch
  · exact (Steps.refl p).touch htouch
  · split at htouch
    · cases htouch
      exact .refl p
    · cases htouch

theorem steps_allocateExternalComputedBlocks
    (h : m.allocateExternalComputedBlocks p r numLocal numExternal = some (p',m')) : Steps p p' := by
  rcases allocateExternalComputedBlocks_cases h with ⟨rfl,-⟩ | ⟨new,-,hnew,-⟩
  · exact .refl p'
  · exact (Steps.refl p).getNewBlocks hnew

theorem steps_applyCow {blockIdx source cow : ℕ}
    (h : m.applyCow p r blockIdx source cow = some (p',m')) : Steps p p' := by
  obtain ⟨-,rfl,-⟩ := applyCow_cases h
  exact (Steps.refl p).setRefCnt _ _

theorem steps_redirectPartialHit {cows : List ℕ}
    (h : m.redirectPartialHit p r = some (cows,p',m')) : Steps p p' := by
  rw [redirectPartialHit] at h
  split at h
  · cases h
    exact .refl p
  · obtain ⟨⟨new,q⟩,hnew,h⟩ := bind_eq_some_iff.mp h
    obtain ⟨cow,-,h⟩ := bind_eq_some_iff.mp h
    obtain ⟨⟨q',m₁⟩,hcow,heq⟩ := map_eq_some_iff.mp h
    cases heq
    exact ((Steps.refl p).getNewBlocks hnew).trans (steps_applyCow hcow)

theorem steps_baseAllocateNewBlocks (h : m.baseAllocateNewBlocks p r numTokens = some (new,p',m')) :
    Steps p p' := by
  obtain ⟨⟨cows,q,m₁⟩,hredirect,h⟩ := bind_eq_some_iff.mp h
  have hq := steps_redirectPartialHit hredirect
  dsimp only at h
  split at h
  · cases h
    exact hq
  · obtain ⟨⟨blocks,q'⟩,hnew,heq⟩ := map_eq_some_iff.mp h
    cases heq
    exact hq.getNewBlocks hnew

theorem steps_moveEntryToCow {blockIdx source cow : ℕ}
    (h : m.moveEntryToCow p r blockIdx source cow = some (p',m')) : Steps p p' := by
  obtain ⟨-,q,hmove,rfl,-⟩ := moveEntryToCow_cases h
  exact ((Steps.refl p).hashes (BlockPool.sameRefs_moveBlockHashes hmove)).setRefCnt _ _

theorem steps_alignTakeBlocks {alloc : Bool} {prevLen : ℕ} {ret : List ℕ}
    (h : m.alignTakeBlocks p r alloc prevLen new = some (ret,p',m')) : Steps p p' := by
  rcases alignTakeBlocks_cases h with ⟨-,rfl,-⟩ | ⟨blockIdx,source,cow,m₁,-,-,hcopy,-⟩
  · exact .refl p'
  · cases alloc with
    | true => exact steps_moveEntryToCow hcopy
    | false => exact steps_applyCow hcopy

theorem steps_alignAllocateNewBlocks {main spec : ℕ} {ret : List ℕ}
    (h : m.alignAllocateNewBlocks p r main spec = some (ret,p',m')) : Steps p p' := by
  rcases alignAllocateNewBlocks_cases h with ⟨-,-,rfl,-⟩ | ⟨-,-,new,q,hnew,htake⟩
  · exact .refl p'
  · exact ((Steps.refl p).getNewBlocks hnew).trans (steps_alignTakeBlocks htake)

theorem steps_allocateNewBlocks {main : ℕ}
    (h : m.allocateNewBlocks p r numTokens main = some (new,p',m')) : Steps p p' := by
  rw [allocateNewBlocks] at h
  split at h
  · split at h
    · exact steps_alignAllocateNewBlocks h
    · exact steps_baseAllocateNewBlocks h
  · exact steps_baseAllocateNewBlocks h

section Caching

variable {request : KVRequest H} {numTokens : ℕ} {retention : Option ℕ}

theorem sameRefs_baseCacheBlocks
    (h : m.baseCacheBlocks p request numTokens retention = some (p',m')) : BlockPool.SameRefs p p' := by
  simp only [baseCacheBlocks] at h
  split at h
  · cases h
    exact .refl p
  · obtain ⟨q,hcache,heq⟩ := map_eq_some_iff.mp h
    cases heq
    exact BlockPool.sameRefs_cacheFullBlocks hcache

theorem sameRefs_fullAttentionCachePartialTail
    (h : m.fullAttentionCachePartialTail p request numTokens = some p') : BlockPool.SameRefs p p' := by
  simp only [fullAttentionCachePartialTail] at h
  split at h
  · cases h
    exact .refl p
  · split at h
    · cases h
      exact .refl p
    · obtain ⟨⟨q,key⟩,hcache,heq⟩ := map_eq_some_iff.mp h
      cases heq
      exact BlockPool.sameRefs_cachePartialBlock hcache

theorem sameRefs_mambaCachePartialTail
    (h : m.mambaCachePartialTail p request numTokens = some (p',m')) : BlockPool.SameRefs p p' := by
  simp only [mambaCachePartialTail] at h
  split at h
  · cases h
    exact .refl p
  · split at h
    · cases h
      exact .refl p
    · split at h
      · cases h
        exact .refl p
      · obtain ⟨⟨q,key⟩,hcache,heq⟩ := map_eq_some_iff.mp h
        have hq := BlockPool.sameRefs_cachePartialBlock hcache
        cases key with
        | none =>
          cases heq
          exact hq
        | some key =>
          cases heq
          exact hq

theorem sameRefs_cacheBlocks (h : m.cacheBlocks p request numTokens retention = some (p',m')) :
    BlockPool.SameRefs p p' := by
  obtain ⟨⟨q,m₁⟩,hbase,h⟩ := bind_eq_some_iff.mp h
  have hq := sameRefs_baseCacheBlocks hbase
  dsimp only at h
  split at h
  · split at h
    · cases h
      exact hq
    · obtain ⟨q',htail,heq⟩ := map_eq_some_iff.mp h
      cases heq
      exact hq.trans (sameRefs_fullAttentionCachePartialTail htail)
  · obtain ⟨⟨q',m₂⟩,htail,heq⟩ := map_eq_some_iff.mp h
    cases heq
    split at htail
    · exact hq.trans (sameRefs_mambaCachePartialTail htail)
    · cases htail
      exact hq
  · cases h
    exact hq

theorem steps_cacheBlocks (h : m.cacheBlocks p request numTokens retention = some (p',m')) :
    Steps p p' :=
  (Steps.refl p).hashes (sameRefs_cacheBlocks h)

end Caching

end SingleTypeKVCacheManager

section Threading

variable {H : Type u} {α : Type v} {β : Type w}

variable {p : BlockPool H} {as : List α}

/-- A pool property kept by every round holds where each round starts and at the end. -/
theorem threadPool_keeps {P : BlockPool H → Prop} {f : BlockPool H → α → Option (BlockPool H × β)}
    {p' : BlockPool H} {bs : List β} (hp : P p)
    (hstep : ∀ a ∈ as, ∀ q q' b, P q → f q a = some (q',b) → P q')
    (h : threadPool f p as = some (p',bs)) :
    P p' ∧ ∀ b ∈ bs, ∃ a ∈ as, ∃ q q', P q ∧ f q a = some (q',b) := by
  induction as generalizing p bs with
  | nil =>
    cases h
    exact ⟨hp,by simp⟩
  | cons a as ih =>
    obtain ⟨⟨q,c⟩,hf,hrest⟩ := bind_eq_some_iff.mp h
    obtain ⟨⟨q',cs⟩,hthread,heq⟩ := map_eq_some_iff.mp hrest
    cases heq
    have hq := hstep a mem_cons_self p q c hp hf
    obtain ⟨hend,hall⟩ := ih hq (fun a' ha' => hstep a' (mem_cons_of_mem _ ha')) hthread
    refine ⟨hend,fun b hb => ?_⟩
    rcases mem_cons.mp hb with rfl | hb
    · exact ⟨a,mem_cons_self,p,q,hp,hf⟩
    · obtain ⟨a',ha',found⟩ := hall b hb
      exact ⟨a',mem_cons_of_mem _ ha',found⟩

variable {f : BlockPool H → α → BlockPool H × β}

theorem mapPool_keeps {P : BlockPool H → Prop} (hp : P p)
    (hstep : ∀ a ∈ as, ∀ q, P q → P (f q a).1) : P (mapPool f p as).1 := by
  induction as generalizing p with
  | nil => exact hp
  | cons a as ih =>
    exact ih (hstep a mem_cons_self p hp) fun a' ha' => hstep a' (mem_cons_of_mem _ ha')

theorem mapPool_zip_mem {γ : Type*} {cs : List γ} {b : β}
    {c : γ} (h : (b,c) ∈ (mapPool f p as).2.zip cs) :
    ∃ a, (a,c) ∈ as.zip cs ∧ ∃ q, b = (f q a).2 := by
  induction as generalizing p cs with
  | nil => simp [mapPool] at h
  | cons a as ih =>
    cases cs with
    | nil => simp at h
    | cons c' cs =>
      simp only [mapPool, zip_cons_cons, mem_cons] at h ⊢
      rcases h with heq | h
      · cases heq
        exact ⟨a,.inl rfl,p,rfl⟩
      · obtain ⟨a',hmem,q,hb⟩ := ih h
        exact ⟨a',.inr hmem,q,hb⟩

end Threading

namespace KVCacheManager

variable {H : Type u} [DecidableEq H] {k k' : KVCacheManager H} {request : KVRequest H}
  {args : SlotArgs} {r : RequestId}

inductive TookHits (r : RequestId) (hits : List ℕ) (numLocal numExternal : ℕ)
    (m : SingleTypeKVCacheManager H) : SingleTypeKVCacheManager H → Prop
  | hitsOnly {q q' : BlockPool H} {m' : SingleTypeKVCacheManager H}
      (h : m.addLocalComputedBlocks q r hits numLocal numExternal = some (q',m'))
      (hext : numExternal = 0) : TookHits r hits numLocal numExternal m m'
  | external {q₁ q₁' q₂ q₂' : BlockPool H} {m₁ m' : SingleTypeKVCacheManager H}
      (h₁ : m.addLocalComputedBlocks q₁ r hits numLocal numExternal = some (q₁',m₁))
      (h₂ : m₁.allocateExternalComputedBlocks q₂ r numLocal numExternal = some (q₂',m'))
      (hq₂ : q₂.QueueCounted) : TookHits r hits numLocal numExternal m m'

structure Committed (request : KVRequest H) (args : SlotArgs) (lists : List (List ℕ))
    (numLocal numSlots main : ℕ) (k : KVCacheManager H) (m' : SingleTypeKVCacheManager H) :
    Prop where
  chain : ∃ m ∈ k.singleTypeManagers, ∃ m₁ m₂ : SingleTypeKVCacheManager H,
    (m₁ = m ∨ ∃ hits, (m,hits) ∈ k.singleTypeManagers.zip lists ∧
      TookHits request.requestId hits numLocal args.numExternalComputedTokens m m₁) ∧
    (∃ q q' new, q.QueueCounted ∧
      m₁.allocateNewBlocks q request.requestId numSlots main = some (new,q',m₂)) ∧
    CacheFrame request.requestId m₂ m'

theorem removeSkippedBlocks_counted (hk : k.blockPool.QueueCounted) (r : RequestId) (n : ℕ) :
    (k.removeSkippedBlocks r n).blockPool.QueueCounted :=
  mapPool_keeps hk fun m _ q hq => (m.steps_removeSkippedBlocks q r n).queueCounted hq

theorem mem_removeSkippedBlocks {m' : SingleTypeKVCacheManager H}
    (h : m' ∈ (k.removeSkippedBlocks r n).singleTypeManagers) :
    ∃ m ∈ k.singleTypeManagers, ∃ q, m' = (m.removeSkippedBlocks q r n).2 :=
  mapPool_mem h

theorem allocateNewComputedBlocks_cases {lists : List (List ℕ)} (hk : k.blockPool.QueueCounted)
    (h : k.allocateNewComputedBlocks r lists numLocal numExternal = some k') :
    k'.blockPool.QueueCounted ∧ ∀ m' ∈ k'.singleTypeManagers, m' ∈ k.singleTypeManagers ∨
      ∃ m hits, (m,hits) ∈ k.singleTypeManagers.zip lists ∧
        TookHits r hits numLocal numExternal m m' := by
  simp only [allocateNewComputedBlocks] at h
  split at h
  · split at h
    · cases h
      exact ⟨hk,fun m' hm' => .inl hm'⟩
    · cases h
  obtain ⟨-,h⟩ := ite_none_left_eq_some.mp h
  obtain ⟨⟨q,managers⟩,hlocal,h⟩ := bind_eq_some_iff.mp h
  obtain ⟨hq,hmem⟩ := threadPool_keeps hk
    (fun a _ q q' b hq hf => (a.1.steps_addLocalComputedBlocks hf).queueCounted hq) hlocal
  dsimp only at h
  split at h
  · rename_i hzero
    cases h
    refine ⟨hq,fun m' hm' => .inr ?_⟩
    obtain ⟨⟨m,hits⟩,hz,q₁,q₂,-,hf⟩ := hmem m' hm'
    exact ⟨m,hits,hz,.hitsOnly hf hzero⟩
  · obtain ⟨⟨q',managers'⟩,hext,heq⟩ := map_eq_some_iff.mp h
    cases heq
    obtain ⟨hq',hmem'⟩ := threadPool_keeps hq
      (fun a _ q q' b hq hf => (a.steps_allocateExternalComputedBlocks hf).queueCounted hq) hext
    refine ⟨hq',fun m' hm' => .inr ?_⟩
    obtain ⟨m₁,hm₁,q₂,q₂',hq₂,hf₂⟩ := hmem' m' hm'
    obtain ⟨⟨m,hits⟩,hz,q₁,q₁',-,hf₁⟩ := hmem m₁ hm₁
    exact ⟨m,hits,hz,.external hf₁ hf₂ hq₂⟩

theorem cacheBlocks_cases (hk : k.blockPool.QueueCounted) (h : k.cacheBlocks request n = some k') :
    k'.blockPool.QueueCounted ∧ ∀ m' ∈ k'.singleTypeManagers, ∃ m ∈ k.singleTypeManagers,
      CacheFrame request.requestId m m' := by
  rw [cacheBlocks] at h
  split at h
  · obtain ⟨⟨q,managers⟩,hthread,heq⟩ := map_eq_some_iff.mp h
    cases heq
    obtain ⟨hq,hmem⟩ := threadPool_keeps hk
      (fun a _ q q' b hq hf => (a.steps_cacheBlocks hf).queueCounted hq) hthread
    refine ⟨hq,fun m' hm' => ?_⟩
    obtain ⟨m,hm,q₁,q₂,-,hf⟩ := hmem m' hm'
    exact ⟨m,hm,cacheFrame_cacheBlocks hf⟩
  · cases h
    exact ⟨hk,fun m' hm' => ⟨m',hm',.refl _ m'⟩⟩

theorem commitSlots_cases {total slots : ℕ} {new : List (List ℕ)} (hk : k.blockPool.QueueCounted)
    (h : k.commitSlots request args numLocal total slots = some (new,k')) :
    k'.blockPool.QueueCounted ∧ ∀ m' ∈ k'.singleTypeManagers, Committed request args
      (k.hitBlocks args.newComputedBlocks) numLocal slots (total+args.numNewTokens) k m' := by
  simp only [commitSlots] at h
  obtain ⟨k₁,hhits,h⟩ := bind_eq_some_iff.mp h
  have hk₁ : k₁.blockPool.QueueCounted ∧ ∀ m₁ ∈ k₁.singleTypeManagers, m₁ ∈ k.singleTypeManagers ∨
      ∃ m hits, (m,hits) ∈ k.singleTypeManagers.zip (k.hitBlocks args.newComputedBlocks) ∧
        TookHits request.requestId hits numLocal args.numExternalComputedTokens m m₁ := by
    split at hhits
    · exact allocateNewComputedBlocks_cases hk hhits
    · cases hhits
      exact ⟨hk,fun m₁ hm₁ => .inl hm₁⟩
  obtain ⟨⟨blocks,k₂⟩,halloc,h⟩ := bind_eq_some_iff.mp h
  rw [allocateNewBlocks] at halloc
  obtain ⟨⟨q,results⟩,hthread,heq⟩ := map_eq_some_iff.mp halloc
  cases heq
  obtain ⟨hq,hmem⟩ := threadPool_keeps hk₁.1 (fun a _ q q' b hq hf => by
    obtain ⟨⟨ret,q'',m''⟩,hnew,heq⟩ := map_eq_some_iff.mp hf
    cases heq
    exact (steps_allocateNewBlocks hnew).queueCounted hq) hthread
  -- the group before and after its new blocks
  have hgroup : ∀ m₂ ∈ results.map (·.2), ∃ m ∈ k.singleTypeManagers,
      ∃ m₁ : SingleTypeKVCacheManager H,
        (m₁ = m ∨ ∃ hits, (m,hits) ∈ k.singleTypeManagers.zip (k.hitBlocks args.newComputedBlocks) ∧
          TookHits request.requestId hits numLocal args.numExternalComputedTokens m m₁) ∧
        ∃ q q' new, q.QueueCounted ∧ m₁.allocateNewBlocks q request.requestId slots
          (total+args.numNewTokens) = some (new,q',m₂) := by
    intro m₂ hm₂
    obtain ⟨⟨ret,m₂'⟩,hres,rfl⟩ := mem_map.mp hm₂
    obtain ⟨m₁,hm₁,q₁,q₂,hq₁,hf⟩ := hmem (ret,m₂') hres
    obtain ⟨⟨ret',q'',m''⟩,hnew,heq⟩ := map_eq_some_iff.mp hf
    cases heq
    rcases hk₁.2 m₁ hm₁ with hin | ⟨m,hits,hz,htook⟩
    · exact ⟨m₁,hin,m₁,.inl rfl,q₁,q₂,ret,hq₁,hnew⟩
    · exact ⟨m,(of_mem_zip hz).1,m₁,.inr ⟨hits,hz,htook⟩,q₁,q₂,ret,hq₁,hnew⟩
  dsimp only at h
  split at h
  · cases h
    refine ⟨hq,fun m' hm' => ⟨?_⟩⟩
    obtain ⟨m,hm,m₁,hfirst,hnew⟩ := hgroup m' hm'
    exact ⟨m,hm,m₁,m',hfirst,hnew,.refl _ m'⟩
  · obtain ⟨k₃,hcache,heq⟩ := map_eq_some_iff.mp h
    cases heq
    obtain ⟨hq₃,hcached⟩ := cacheBlocks_cases hq hcache
    refine ⟨hq₃,fun m' hm' => ⟨?_⟩⟩
    obtain ⟨m₂,hm₂,hframe⟩ := hcached m' hm'
    obtain ⟨m,hm,m₁,hfirst,hnew⟩ := hgroup m₂ hm₂
    exact ⟨m,hm,m₁,m₂,hfirst,hnew,hframe⟩

/-- How `allocate_slots` returns: the whole sequence does not fit; or the skipped blocks are given
back and then the step does not fit, or gets its slots. -/
theorem allocateSlots_inv {res : Option (List (List ℕ))}
    (h : k.allocateSlots request args = some (res,k')) :
    let numLocal := request.numComputedTokens+args.numNewComputedTokens
    let total := min (numLocal+args.numExternalComputedTokens) k.maxModelLen
    let k₁ := k.removeSkippedBlocks request.requestId (total-request.numInFlightTokens)
    ¬(args.numNewTokens = 0 ∧ args.numExternalComputedTokens = 0) ∧
    ∃ fits, k.fullSequenceFits request args numLocal total
        (if args.hasScheduledReqs && request.waiting then k.watermarkBlocks else 0) = some fits ∧
      ((fits = false ∧ res = none ∧ k' = k) ∨ (fits = true ∧ ((res = none ∧ k' = k₁) ∨
        ∃ new, res = some new ∧ k₁.commitSlots request args numLocal total
          (min (total+args.numNewTokens+args.numLookaheadTokens) k.maxModelLen) =
            some (new,k')))) := by
  intro numLocal total k₁
  simp only [allocateSlots] at h
  obtain ⟨hne,h⟩ := ite_none_left_eq_some.mp h
  obtain ⟨fits,hfits,h⟩ := bind_eq_some_iff.mp h
  refine ⟨hne,fits,hfits,?_⟩
  cases fits with
  | false =>
    cases h
    exact .inl ⟨rfl,rfl,rfl⟩
  | true =>
    refine .inr ⟨rfl,?_⟩
    rw [if_pos rfl] at h
    obtain ⟨n,-,h⟩ := bind_eq_some_iff.mp h
    by_cases hlt : (k₁.blockPool.getNumFreeBlocks:ℤ)-args.reservedBlocks <
        n+((if (args.hasScheduledReqs && request.waiting) = true then k.watermarkBlocks
          else 0 : ℕ):ℤ)
    · rw [if_pos hlt] at h
      cases h
      exact .inl ⟨rfl,rfl⟩
    · rw [if_neg hlt] at h
      obtain ⟨⟨new,k₂⟩,hcommit,heq⟩ := map_eq_some_iff.mp h
      cases heq
      exact .inr ⟨new,rfl,hcommit⟩

/-- The three ways in which `allocate_slots` returns. -/
theorem allocateSlots_cases {res : Option (List (List ℕ))}
    (h : k.allocateSlots request args = some (res,k')) :
    let numLocal := request.numComputedTokens+args.numNewComputedTokens
    let total := min (numLocal+args.numExternalComputedTokens) k.maxModelLen
    let k₁ := k.removeSkippedBlocks request.requestId (total-request.numInFlightTokens)
    ¬(args.numNewTokens = 0 ∧ args.numExternalComputedTokens = 0) ∧
    ((res = none ∧ (k' = k ∨ k' = k₁)) ∨
      ∃ new, res = some new ∧ k₁.commitSlots request args numLocal total
        (min (total+args.numNewTokens+args.numLookaheadTokens) k.maxModelLen) = some (new,k')) := by
  obtain ⟨hne,fits,-,hcases⟩ := allocateSlots_inv h
  refine ⟨hne,?_⟩
  rcases hcases with ⟨-,hres,hk⟩ | ⟨-,⟨hres,hk⟩ | hcommit⟩
  · exact .inl ⟨hres,.inl hk⟩
  · exact .inl ⟨hres,.inr hk⟩
  · exact .inr hcommit

end KVCacheManager

end MetaZenith.KVCache
