import MetaZenith.GuardedRuns
import MetaZenith.BlockPool

/-! Every operation of the block pool keeps the free queue in step with the reference counts and
the prefix-cache map in step with the hashes of the blocks. -/

namespace MetaZenith.KVCache.BlockPool

open FreeKVCacheBlockQueue List Option Function

universe u

set_option linter.unusedSectionVars false

variable {H : Type u}

def Owns (p : BlockPool H) (b : ℕ) (key : BlockHashWithGroupId H) : Prop :=
  (p.blocks b).blockHash = some key ∨ key ∈ p.secondaryHashes b

structure HashesMapped (p : BlockPool H) : Prop where
  mapped : ∀ key b, p.cachedBlockHashToBlock.contain key b = true ↔ p.Owns b key
  secondary : ∀ b, (p.blocks b).blockHash = none → p.secondaryHashes b = []
  null : (p.blocks nullBlock).blockHash = none

structure MapAgrees (p : BlockPool H) : Prop where
  mapped : ∀ key b, p.cachedBlockHashToBlock.contain key b = true ↔ p.Owns b key
  secondary : ∀ b, (p.blocks b).blockHash = none → p.secondaryHashes b = []

theorem HashesMapped.agrees {p : BlockPool H} (h : HashesMapped p) : MapAgrees p :=
  ⟨h.mapped,h.secondary⟩

structure FreeListed (p : BlockPool H) : Prop where
  nodup : p.freeBlockQueue.blocks.Nodup
  mem_iff : ∀ b, b ∈ p.freeBlockQueue.blocks ↔
    b < p.numGpuBlocks ∧ b ≠ nullBlock ∧ (p.blocks b).refCnt = 0
  num : p.freeBlockQueue.numFreeBlocks = p.freeBlockQueue.blocks.length
  isNull : ∀ b, (p.blocks b).isNull = (b == nullBlock)
  nonneg : ∀ b, b ≠ nullBlock → 0 ≤ (p.blocks b).refCnt

structure SameRefs (p q : BlockPool H) : Prop where
  numGpuBlocks : q.numGpuBlocks = p.numGpuBlocks
  enableCaching : q.enableCaching = p.enableCaching
  hashBlockSize : q.hashBlockSize = p.hashBlockSize
  queue : q.freeBlockQueue = p.freeBlockQueue
  refCnt : ∀ b, (q.blocks b).refCnt = (p.blocks b).refCnt
  isNull : ∀ b, (q.blocks b).isNull = (p.blocks b).isNull

structure SameHashes (p q : BlockPool H) : Prop where
  numGpuBlocks : q.numGpuBlocks = p.numGpuBlocks
  enableCaching : q.enableCaching = p.enableCaching
  hashBlockSize : q.hashBlockSize = p.hashBlockSize
  map : q.cachedBlockHashToBlock = p.cachedBlockHashToBlock
  byBlock : q.cachedBlockHashesByBlock = p.cachedBlockHashesByBlock
  blockHash : ∀ b, (q.blocks b).blockHash = (p.blocks b).blockHash
  isNull : ∀ b, (q.blocks b).isNull = (p.blocks b).isNull

theorem SameRefs.refl (p : BlockPool H) : SameRefs p p := ⟨rfl,rfl,rfl,rfl,fun _ => rfl,fun _ => rfl⟩

variable {r : BlockPool H} {key : BlockHashWithGroupId H} {n : Option ℕ}

variable {p q : BlockPool H}

theorem SameRefs.trans (h : SameRefs p q) (h' : SameRefs q r) : SameRefs p r :=
  ⟨h'.1.trans h.1,h'.2.trans h.2,h'.3.trans h.3,h'.4.trans h.4,
    fun b => (h'.5 b).trans (h.5 b),fun b => (h'.6 b).trans (h.6 b)⟩

theorem SameHashes.refl (p : BlockPool H) : SameHashes p p :=
  ⟨rfl,rfl,rfl,rfl,rfl,fun _ => rfl,fun _ => rfl⟩

theorem SameHashes.trans (h : SameHashes p q) (h' : SameHashes q r) : SameHashes p r :=
  ⟨h'.1.trans h.1,h'.2.trans h.2,h'.3.trans h.3,h'.4.trans h.4,h'.5.trans h.5,
    fun b => (h'.6 b).trans (h.6 b),fun b => (h'.7 b).trans (h.7 b)⟩

theorem FreeListed.congr (h : FreeListed p) (hpq : SameRefs p q) : FreeListed q where
  nodup := hpq.queue ▸ h.nodup
  mem_iff b := by rw [hpq.queue, hpq.numGpuBlocks, hpq.refCnt, h.mem_iff]
  num := by rw [hpq.queue, h.num]
  isNull b := by rw [hpq.isNull, h.isNull]
  nonneg b hb := by
    rw [hpq.refCnt]
    exact h.nonneg b hb

theorem MapAgrees.congr (h : MapAgrees p) (hpq : SameHashes p q) : MapAgrees q where
  mapped key b := by
    rw [hpq.map, h.mapped, Owns, Owns, secondaryHashes, secondaryHashes, hpq.byBlock, hpq.blockHash]
  secondary b hb := by
    rw [secondaryHashes, hpq.byBlock]
    exact h.secondary b (hpq.blockHash b ▸ hb)

theorem HashesMapped.congr (h : HashesMapped p) (hpq : SameHashes p q) : HashesMapped q :=
  ⟨(h.agrees.congr hpq).mapped,(h.agrees.congr hpq).secondary,by rw [hpq.blockHash, h.null]⟩

theorem sameHashes_setRefCnt (p : BlockPool H) (b : ℕ) (n : ℤ) :
    SameHashes p (p.setBlock b { p.blocks b with refCnt := n }) := by
  refine ⟨rfl,rfl,rfl,rfl,rfl,?_,?_⟩
  all_goals
    intro b'
    by_cases hb : b' = b
    · subst hb
      simp [setBlock]
    · simp [setBlock, hb]

@[simp] theorem refCnt_setRefCnt (p : BlockPool H) (b b' : ℕ) (n : ℤ) :
    ((p.setBlock b { p.blocks b with refCnt := n }).blocks b').refCnt =
      if b' = b then n else (p.blocks b').refCnt := by
  by_cases hb : b' = b
  · subst hb
    simp [setBlock]
  · simp [setBlock, hb]

section Hashes

variable [DecidableEq H] {p q : BlockPool H} {b : ℕ}

theorem sameRefs_removeCachedBlockHashes (p : BlockPool H) (b : ℕ) :
    SameRefs p (p.removeCachedBlockHashes b).1 := by
  simp only [removeCachedBlockHashes]
  split
  · exact ⟨rfl,rfl,rfl,rfl,fun _ => rfl,fun _ => rfl⟩
  · refine ⟨rfl,rfl,rfl,rfl,?_,?_⟩
    all_goals
      intro b'
      by_cases hb : b' = b
      · subst hb
        simp [setBlock, KVCacheBlock.resetHash]
      · simp [setBlock, hb]

structure Stripped (p : BlockPool H) (b : ℕ) (q : BlockPool H) : Prop where
  blockHash : (q.blocks b).blockHash = none
  secondary : q.secondaryHashes b = []
  blocks : ∀ b', b' ≠ b → q.blocks b' = p.blocks b'
  secondaries : ∀ b', b' ≠ b → q.secondaryHashes b' = p.secondaryHashes b'
  contain : ∀ key b', q.cachedBlockHashToBlock.contain key b' = true ↔
    b' ≠ b ∧ p.cachedBlockHashToBlock.contain key b' = true

theorem stripped_removeCachedBlockHashes (h : MapAgrees p) (b : ℕ) :
    Stripped p b (p.removeCachedBlockHashes b).1 := by
  simp only [removeCachedBlockHashes]
  split
  · rename_i hnil
    obtain ⟨hprimary,hsecondary⟩ := append_eq_nil_iff.mp hnil
    rw [toList_eq_nil_iff] at hprimary
    refine ⟨hprimary,by simp [secondaryHashes],fun _ _ => rfl,
      fun b' hb => by simp [secondaryHashes, hb],fun key b' => ?_⟩
    -- a block without hashes has no entry to lose
    refine ⟨fun hc => ⟨?_,hc⟩,And.right⟩
    rintro rfl
    have howns := (h.mapped key b').mp hc
    simp [Owns, hprimary, hsecondary] at howns
  · refine ⟨by simp [setBlock, KVCacheBlock.resetHash],by simp [secondaryHashes, setBlock],
      fun b' hb => by simp [setBlock, hb],fun b' hb => by simp [secondaryHashes, setBlock, hb],
      fun key b' => ?_⟩
    rw [BlockHashToBlockMap.contain_popAll]
    refine and_congr_left fun hc => ⟨?_,fun hne hmem => hne hmem.2⟩
    rintro hno rfl
    have howns := (h.mapped key b').mp hc
    exact hno ⟨by simpa [Owns] using howns,rfl⟩

theorem Stripped.mapAgrees (hs : Stripped p b q) (h : MapAgrees p) : MapAgrees q where
  mapped key b' := by
    rw [hs.contain, h.mapped]
    by_cases hb : b' = b
    · subst hb
      simp [Owns, hs.blockHash, hs.secondary]
    · simp [Owns, hb, hs.blocks b' hb, hs.secondaries b' hb]
  secondary b' hb' := by
    by_cases hb : b' = b
    · rw [hb, hs.secondary]
    · rw [hs.secondaries b' hb]
      exact h.secondary b' (hs.blocks b' hb ▸ hb')

theorem Stripped.blockHash_eq_none (hs : Stripped p b q) {b' : ℕ}
    (hb : (p.blocks b').blockHash = none) : (q.blocks b').blockHash = none := by
  by_cases hbb : b' = b
  · rw [hbb, hs.blockHash]
  · rw [hs.blocks b' hbb, hb]

theorem Stripped.hashesMapped (hs : Stripped p b q) (h : HashesMapped p) : HashesMapped q :=
  ⟨(hs.mapAgrees h.agrees).mapped,(hs.mapAgrees h.agrees).secondary,hs.blockHash_eq_none h.null⟩

/-- The cases in which `_insert_block_hash` returns. -/
theorem insertBlockHash_cases (h : p.insertBlockHash key b n = some q) : q = p ∨
    ((p.blocks b).blockHash = none ∧ q = { p with
        cachedBlockHashToBlock := p.cachedBlockHashToBlock.insert key b
        blocks := update p.blocks b
          { p.blocks b with blockHash := some key, blockHashNumTokens := n } }) ∨
    ((p.blocks b).blockHash.isSome ∧ q = { p with
        cachedBlockHashToBlock := p.cachedBlockHashToBlock.insert key b
        cachedBlockHashesByBlock := update p.cachedBlockHashesByBlock b
          (some ((p.secondaryHashes b).insert key)) }) := by
  simp only [insertBlockHash] at h
  split at h
  · exact .inl (Option.some.inj h).symm
  split at h
  · exact .inl (Option.some.inj h).symm
  split at h
  · rename_i hnone
    obtain ⟨blk,hblk,hq⟩ := map_eq_some_iff.mp h
    simp only [KVCacheBlock.setBlockHash] at hblk
    split at hblk
    · cases hblk
      exact .inr (.inl ⟨hnone,hq.symm⟩)
    · cases hblk
  · rename_i hsome
    exact .inr (.inr ⟨by simp [hsome],(Option.some.inj h).symm⟩)

theorem sameRefs_insertBlockHash (h : p.insertBlockHash key b n = some q) : SameRefs p q := by
  obtain rfl | ⟨-,rfl⟩ | ⟨-,rfl⟩ := insertBlockHash_cases h
  · exact .refl q
  · refine ⟨rfl,rfl,rfl,rfl,?_,?_⟩
    all_goals
      intro b'
      by_cases hb : b' = b
      · subst hb
        simp
      · simp [hb]
  · exact ⟨rfl,rfl,rfl,rfl,fun _ => rfl,fun _ => rfl⟩

theorem MapAgrees.insertBlockHash (hp : MapAgrees p) (h : p.insertBlockHash key b n = some q) :
    MapAgrees q := by
  obtain rfl | ⟨hnone,rfl⟩ | ⟨hsome,rfl⟩ := insertBlockHash_cases h
  · exact hp
  · have hsec : (p.cachedBlockHashesByBlock b).getD [] = [] := hp.secondary b hnone
    refine ⟨fun key' b' => ?_,fun b' hb' => ?_⟩
    · rw [BlockHashToBlockMap.contain_insert, hp.mapped]
      by_cases hbb : b' = b
      · subst hbb
        simp [Owns, secondaryHashes, hnone, hsec, eq_comm]
      · simp [Owns, secondaryHashes, hbb]
    · by_cases hbb : b' = b
      · simp [hbb] at hb'
      · exact hp.secondary b' (by simpa [hbb] using hb')
  · refine ⟨fun key' b' => ?_,fun b' hb' => ?_⟩
    · rw [BlockHashToBlockMap.contain_insert, hp.mapped]
      by_cases hbb : b' = b
      · subst hbb
        simp only [Owns, secondaryHashes, update_self, getD_some, mem_insert_iff]
        tauto
      · simp [Owns, secondaryHashes, hbb]
    · have hbb : b' ≠ b := by
        rintro rfl
        rw [show (p.blocks b').blockHash = none from hb'] at hsome
        cases hsome
      simpa [secondaryHashes, hbb] using hp.secondary b' hb'

theorem HashesMapped.insertBlockHash (hp : HashesMapped p) (hb : b ≠ nullBlock)
    (h : p.insertBlockHash key b n = some q) : HashesMapped q := by
  have hq := hp.agrees.insertBlockHash h
  refine ⟨hq.mapped,hq.secondary,?_⟩
  obtain rfl | ⟨-,rfl⟩ | ⟨-,rfl⟩ := insertBlockHash_cases h
  · exact hp.null
  · simpa [hb.symm] using hp.null
  · exact hp.null

structure HashStep (p q : BlockPool H) : Prop where
  refs : SameRefs p q
  mapped : HashesMapped p → HashesMapped q

theorem HashStep.refl (p : BlockPool H) : HashStep p p := ⟨.refl p,id⟩

theorem HashStep.trans (h : HashStep p q) (h' : HashStep q r) : HashStep p r :=
  ⟨h.refs.trans h'.refs,h'.mapped ∘ h.mapped⟩

theorem hashStep_remove (p : BlockPool H) (b : ℕ) : HashStep p (p.removeCachedBlockHashes b).1 :=
  ⟨sameRefs_removeCachedBlockHashes p b,fun h => (stripped_removeCachedBlockHashes h.agrees b).hashesMapped h⟩

theorem hashStep_insert (hb : b ≠ nullBlock) (h : p.insertBlockHash key b n = some q) : HashStep p q :=
  ⟨sameRefs_insertBlockHash h,fun hp => hp.insertBlockHash hb h⟩

theorem hashStep_foldlM {ε : Type*} {f : BlockPool H → ε → Option (BlockPool H)} {l : List ε}
    (hstep : ∀ a ∈ l, ∀ t t', SameRefs p t → f t a = some t' → HashStep t t')
    (h : l.foldlM f p = some q) : HashStep p q :=
  foldlM_option_keeps (P := HashStep p)
    (fun a ha t t' ht hat => ht.trans (hstep a ha t t' ht.refs hat)) (.refl p) h

theorem hashStep_cacheFullBlock {n : ℕ} (hb : b ≠ nullBlock)
    (h : p.cacheFullBlock b key n = some q) : HashStep p q := by
  simp only [cacheFullBlock] at h
  split at h
  · exact hashStep_insert hb h
  split at h
  · exact (hashStep_remove p b).trans (hashStep_insert hb h)
  · cases h

theorem hashStep_cacheFullBlocks (hnull : ∀ b, (p.blocks b).isNull = (b == nullBlock))
    {blockHashes : List H} {blocks : List ℕ} {numCached numFull blockSize group : ℕ}
    {mask : Option (List Bool)}
    (h : p.cacheFullBlocks blockHashes blocks numCached numFull blockSize group mask = some q) :
    HashStep p q := by
  simp only [cacheFullBlocks] at h
  split at h
  · cases h
    exact .refl _
  split at h
  · cases h
  obtain ⟨resolved,-,hfold⟩ := bind_eq_some_iff.mp h
  refine hashStep_foldlM ?_ hfold
  rintro ⟨b,i⟩ - t t' hpt hround
  simp only at hround
  split at hround
  · cases hround
    exact .refl _
  · rename_i hskip
    obtain ⟨hash,-,hround⟩ := bind_eq_some_iff.mp hround
    refine hashStep_cacheFullBlock ?_ hround
    -- a null block is skipped
    rintro rfl
    simp [hpt.isNull, hnull] at hskip

theorem hashStep_cachePartialBlock (hnull : ∀ b, (p.blocks b).isNull = (b == nullBlock))
    {blockHashes : List H} {numTokens group blockSize : ℕ} {key : Option (BlockHashWithGroupId H)}
    (h : p.cachePartialBlock blockHashes b numTokens group blockSize = some (q,key)) :
    HashStep p q := by
  simp only [cachePartialBlock] at h
  split at h
  · cases h
    exact .refl _
  rename_i hskip
  have hb : b ≠ nullBlock := by
    rintro rfl
    simp [hnull] at hskip
  split at h
  · obtain ⟨hash,-,h⟩ := bind_eq_some_iff.mp h
    obtain ⟨q',hins,hq⟩ := map_eq_some_iff.mp h
    cases hq
    refine HashStep.trans ?_ (hashStep_insert hb hins)
    split
    · exact hashStep_remove p b
    · exact .refl p
  · cases h

theorem hashStep_moveBlockHashes {src dst : ℕ} (hdst : dst ≠ nullBlock)
    (h : p.moveBlockHashes src dst = some q) : HashStep p q := by
  simp only [moveBlockHashes] at h
  split at h
  · refine (hashStep_remove p src).trans (hashStep_foldlM ?_ h)
    intro key _ t t' _ hins
    exact hashStep_insert hdst hins
  · cases h

theorem hashStep_evictBlocks {ids : List ℕ} (h : p.evictBlocks ids = some q) : HashStep p q := by
  refine hashStep_foldlM ?_ h
  intro b _ t t' _ hround
  split at hround
  · cases hround
    exact hashStep_remove t b
  · cases hround

theorem hashStep_resetPrefixCache (p : BlockPool H) : HashStep p p.resetPrefixCache.1 := by
  simp only [resetPrefixCache]
  split
  · exact .refl p
  · refine ⟨⟨rfl,rfl,rfl,rfl,fun _ => rfl,fun _ => rfl⟩,fun _ => ⟨fun key b => ?_,?_,rfl⟩⟩
    · simp [Owns, KVCacheBlock.resetHash, secondaryHashes]
    · intro b _
      rfl

end Hashes

section References

variable [DecidableEq H] {p q : BlockPool H} {b : ℕ}

theorem FreeListed.touchBlock (hp : FreeListed p) (hb : b < p.numGpuBlocks)
    (h : p.touchBlock b = some q) : FreeListed q ∧ SameHashes p q := by
  obtain ⟨p',hp',rfl⟩ := map_eq_some_iff.mp h
  split at hp'
  · rename_i hfree
    obtain ⟨queue,hqueue,rfl⟩ := map_eq_some_iff.mp hp'
    simp only [remove] at hqueue
    split at hqueue
    · rename_i hmem
      cases hqueue
      have hsame := sameHashes_setRefCnt { p with freeBlockQueue :=
        ⟨p.freeBlockQueue.blocks.erase b,p.freeBlockQueue.numFreeBlocks-1⟩ } b
        ((p.blocks b).refCnt+1)
      refine ⟨⟨hp.nodup.erase b,fun b' => ?_,?_,fun b' => ?_,fun b' hb' => ?_⟩,
        ⟨rfl,rfl,rfl,rfl,rfl,hsame.blockHash,hsame.isNull⟩⟩
      · rw [refCnt_setRefCnt]
        refine (hp.nodup.mem_erase_iff).trans ?_
        by_cases hbb : b' = b
        · simp [hbb, hfree.1]
        · simp only [ne_eq, hbb, not_false_eq_true, true_and, if_false]
          exact hp.mem_iff b'
      · change p.freeBlockQueue.numFreeBlocks-1 = (p.freeBlockQueue.blocks.erase b).length
        rw [length_erase_of_mem hmem, hp.num]
      · rw [hsame.isNull]
        exact hp.isNull b'
      · rw [refCnt_setRefCnt]
        split
        · change 0 ≤ (p.blocks b).refCnt+1
          rw [hfree.1]
          omega
        · exact hp.nonneg b' hb'
    · cases hqueue
  · rename_i hused
    cases hp'
    have hsame := sameHashes_setRefCnt p b ((p.blocks b).refCnt+1)
    refine ⟨⟨hp.nodup,fun b' => ?_,hp.num,fun b' => ?_,fun b' hb' => ?_⟩,hsame⟩
    · rw [refCnt_setRefCnt]
      refine (hp.mem_iff b').trans ?_
      by_cases hbb : b' = b
      · -- a block in use, or the null block: outside the queue before and after
        subst hbb
        by_cases hn : b' = nullBlock
        · simp [hn]
        · have hnonneg := hp.nonneg b' hn
          have hpos : (p.blocks b').refCnt ≠ 0 := fun h0 => hused ⟨h0,by simp [hp.isNull, hn]⟩
          simp only [if_true, hpos, and_false, false_iff, not_and]
          intro _ _
          omega
      · simp only [hbb, if_false]
        rfl
    · rw [hsame.isNull, hp.isNull]
    · rw [refCnt_setRefCnt]
      have := hp.nonneg b' hb'
      split
      · rename_i hbb
        have := hp.nonneg b (hbb ▸ hb')
        omega
      · exact this

variable {blocks : List ℕ}

theorem FreeListed.touch (hp : FreeListed p) (hb : ∀ b ∈ blocks, b < p.numGpuBlocks)
    (h : p.touch blocks = some q) : FreeListed q ∧ SameHashes p q := by
  refine foldlM_option_keeps (P := fun q => FreeListed q ∧ SameHashes p q) ?_ ⟨hp,.refl p⟩ h
  intro b hmem t t' ht hround
  have hstep := ht.1.touchBlock (ht.2.numGpuBlocks ▸ hb b hmem) hround
  exact ⟨hstep.1,ht.2.trans hstep.2⟩

variable (acc : BlockPool H × List ℕ × List ℕ)

def settle : BlockPool H :=
  { acc.1 with freeBlockQueue := (acc.1.freeBlockQueue.prependN acc.2.1).appendN acc.2.2 }

theorem releaseBlock_pool (b : ℕ) : (releaseBlock acc b).1 =
      acc.1.setBlock b { acc.1.blocks b with refCnt := (acc.1.blocks b).refCnt-1 } := by
  simp only [releaseBlock]
  repeat' split
  all_goals rfl

/-- The ids waiting in both ends and in the queue after one round: the block itself joins them
exactly when its last reference goes. -/
theorem settle_releaseBlock_perm (b : ℕ) : (settle (releaseBlock acc b)).freeBlockQueue.blocks.Perm
      (if (acc.1.blocks b).refCnt = 1 ∧ (acc.1.blocks b).isNull = false then
        b :: (settle acc).freeBlockQueue.blocks else (settle acc).freeBlockQueue.blocks) ∧
    (settle (releaseBlock acc b)).freeBlockQueue.numFreeBlocks =
      (settle acc).freeBlockQueue.numFreeBlocks +
        if (acc.1.blocks b).refCnt = 1 ∧ (acc.1.blocks b).isNull = false then 1 else 0 := by
  have hone : ((acc.1.blocks b).refCnt-1 = 0 ∧ (acc.1.blocks b).isNull = false) ↔
      ((acc.1.blocks b).refCnt = 1 ∧ (acc.1.blocks b).isNull = false) := by
    rw [sub_eq_zero]
  by_cases hlast : (acc.1.blocks b).refCnt = 1 ∧ (acc.1.blocks b).isNull = false
  · rw [if_pos hlast, if_pos hlast]
    by_cases hfront : ((acc.1.blocks b).blockHash.isNone && acc.1.enableCaching) = true
    · simp only [releaseBlock, if_pos (hone.mpr hlast), if_pos hfront, settle, setBlock,
        prependN, appendN, length_append,
        length_singleton]
      refine ⟨?_,by omega⟩
      rw [append_assoc, append_assoc, append_assoc]
      exact perm_middle
    · simp only [releaseBlock, if_pos (hone.mpr hlast), if_neg hfront, settle, setBlock,
        prependN, appendN, length_append,
        length_singleton]
      refine ⟨?_,by omega⟩
      rw [← append_assoc]
      exact perm_append_singleton ..
  · rw [if_neg hlast, if_neg hlast]
    simp only [releaseBlock, hone, hlast, if_false]
    exact ⟨.refl _,rfl⟩

variable {acc : BlockPool H × List ℕ × List ℕ}

theorem FreeListed.releaseBlock (h : FreeListed (settle acc))
    (hlt : b < acc.1.numGpuBlocks) (hb : b ≠ nullBlock → 1 ≤ (acc.1.blocks b).refCnt) :
    FreeListed (settle (releaseBlock acc b)) ∧ SameHashes acc.1 (releaseBlock acc b).1 := by
  obtain ⟨hperm,hnum⟩ := settle_releaseBlock_perm acc b
  have hsame := sameHashes_setRefCnt acc.1 b ((acc.1.blocks b).refCnt-1)
  rw [← releaseBlock_pool] at hsame
  have hnullAt : (acc.1.blocks b).isNull = (b == nullBlock) := h.isNull b
  have hnotin : b ∉ (settle acc).freeBlockQueue.blocks := by
    intro hmem
    obtain ⟨-,hne,hzero⟩ := (h.mem_iff b).mp hmem
    have := hb hne
    rw [show (acc.1.blocks b).refCnt = 0 from hzero] at this
    omega
  have hcnt (b' : ℕ) : ((settle (BlockPool.releaseBlock acc b)).blocks b').refCnt =
      if b' = b then (acc.1.blocks b).refCnt-1 else (acc.1.blocks b').refCnt := by
    change ((BlockPool.releaseBlock acc b).1.blocks b').refCnt = _
    rw [releaseBlock_pool, refCnt_setRefCnt]
  refine ⟨⟨?_,fun b' => ?_,?_,fun b' => ?_,fun b' hb' => ?_⟩,hsame⟩
  · rw [hperm.nodup_iff]
    split
    · exact nodup_cons.mpr ⟨hnotin,h.nodup⟩
    · exact h.nodup
  · have hold : b' ∈ (settle acc).freeBlockQueue.blocks ↔ b' < acc.1.numGpuBlocks ∧
        b' ≠ nullBlock ∧ (acc.1.blocks b').refCnt = 0 := h.mem_iff b'
    rw [hperm.mem_iff, hcnt]
    change _ ↔ b' < (BlockPool.releaseBlock acc b).1.numGpuBlocks ∧ _
    rw [hsame.numGpuBlocks]
    by_cases hbb : b' = b
    · subst hbb
      by_cases hn : b' = nullBlock
      · have hnull : (acc.1.blocks b').isNull = true := by
          rw [hnullAt, hn]
          rfl
        rw [if_neg (by simp [hnull])]
        exact iff_of_false hnotin fun hc => hc.2.1 hn
      · have := hb hn
        by_cases hlast : (acc.1.blocks b').refCnt = 1
        · simp [hlast, hnullAt, hn, hlt]
        · simp only [hlast, false_and, if_false, hnotin, if_true, false_iff, not_and]
          intro _ _
          omega
    · simp only [hbb, if_false]
      rw [← hold]
      split
      · simp [hbb]
      · rfl
  · rw [hnum, hperm.length_eq, h.num]
    split
    · simp
    · simp
  · change ((BlockPool.releaseBlock acc b).1.blocks b').isNull = _
    rw [hsame.isNull]
    exact h.isNull b'
  · rw [hcnt]
    split
    · rename_i hbb
      have := hb (hbb ▸ hb')
      omega
    · exact h.nonneg b' hb'

/-- The loop of `free_blocks`, when no block is released more often than it is referenced. -/
theorem FreeListed.release_foldl
    (h : FreeListed (settle acc)) (hlt : ∀ b ∈ blocks, b < acc.1.numGpuBlocks)
    (hb : ∀ b, b ≠ nullBlock → (blocks.count b : ℤ) ≤ (acc.1.blocks b).refCnt) :
    FreeListed (settle (blocks.foldl BlockPool.releaseBlock acc)) ∧
      SameHashes acc.1 (blocks.foldl BlockPool.releaseBlock acc).1 := by
  induction blocks generalizing acc with
  | nil => exact ⟨h,.refl _⟩
  | cons b blocks ih =>
    rw [foldl_cons]
    have hone : b ≠ nullBlock → 1 ≤ (acc.1.blocks b).refCnt := by
      intro hne
      have := hb b hne
      rw [count_cons_self] at this
      push_cast at this
      omega
    obtain ⟨hnext,hsame⟩ := h.releaseBlock (hlt b mem_cons_self) hone
    have hrest : ∀ b', b' ≠ nullBlock →
        (blocks.count b' : ℤ) ≤ ((BlockPool.releaseBlock acc b).1.blocks b').refCnt := by
      intro b' hne
      have := hb b' hne
      rw [releaseBlock_pool, refCnt_setRefCnt]
      split
      · rename_i hbb
        rw [hbb, count_cons_self] at this
        push_cast at this
        rw [hbb]
        omega
      · rename_i hbb
        rwa [count_cons_of_ne (Ne.symm hbb)] at this
    obtain ⟨hend,hsame'⟩ := ih hnext
      (fun b' hmem => hsame.numGpuBlocks ▸ hlt b' (mem_cons_of_mem b hmem)) hrest
    exact ⟨hend,hsame.trans hsame'⟩

theorem FreeListed.freeBlocks (hp : FreeListed p) (hlt : ∀ b ∈ blocks, b < p.numGpuBlocks)
    (hb : ∀ b, b ≠ nullBlock → (blocks.count b : ℤ) ≤ (p.blocks b).refCnt) :
    FreeListed (p.freeBlocks blocks) ∧ SameHashes p (p.freeBlocks blocks) := by
  have hstart : settle (p,[],[]) = p := by
    simp [settle, prependN, appendN]
  have hempty : FreeListed (settle (p,[],[])) := by rwa [hstart]
  obtain ⟨hend,hsame⟩ := hempty.release_foldl hlt hb
  exact ⟨hend,⟨hsame.1,hsame.2,hsame.3,hsame.4,hsame.5,hsame.6,hsame.7⟩⟩

/-- What a round of `get_new_blocks` does when caching is enabled. -/
theorem allocateBlock_cases (hcache : p.enableCaching = true) (h : p.allocateBlock b = some q) :
    (p.blocks b).refCnt = 0 ∧ q = (p.removeCachedBlockHashes b).1.setBlock b
        { (p.removeCachedBlockHashes b).1.blocks b with refCnt := 1 } := by
  simp only [allocateBlock, hcache, if_true, maybeEvictCachedBlock] at h
  split at h
  · rename_i hzero
    have hp := (sameRefs_removeCachedBlockHashes p b).refCnt b
    rw [hzero] at h
    exact ⟨hp ▸ hzero,(Option.some.inj h).symm⟩
  · cases h

structure Allocated (p : BlockPool H) (done : List ℕ) (q : BlockPool H) : Prop where
  mapped : HashesMapped q
  numGpuBlocks : q.numGpuBlocks = p.numGpuBlocks
  enableCaching : q.enableCaching = p.enableCaching
  queue : q.freeBlockQueue = p.freeBlockQueue
  isNull : ∀ b, (q.blocks b).isNull = (p.blocks b).isNull
  refCnt : ∀ b, (q.blocks b).refCnt = if b ∈ done then 1 else (p.blocks b).refCnt
  unhashed : ∀ b ∈ done, (q.blocks b).blockHash = none

theorem Allocated.round {done : List ℕ} (hq : Allocated p done q)
    (hcache : p.enableCaching = true) (h : q.allocateBlock b = some r) :
    Allocated p (done ++ [b]) r := by
  obtain ⟨-,rfl⟩ := allocateBlock_cases (hq.enableCaching.trans hcache) h
  have hrefs := sameRefs_removeCachedBlockHashes q b
  have hstrip := stripped_removeCachedBlockHashes hq.mapped.agrees b
  have hset := sameHashes_setRefCnt (q.removeCachedBlockHashes b).1 b 1
  refine ⟨(hstrip.hashesMapped hq.mapped).congr hset,?_,?_,?_,fun b' => ?_,fun b' => ?_,
    fun b' hb' => ?_⟩
  · exact hrefs.numGpuBlocks.trans hq.numGpuBlocks
  · exact hrefs.enableCaching.trans hq.enableCaching
  · exact hrefs.queue.trans hq.queue
  · rw [hset.isNull, hrefs.isNull, hq.isNull]
  · rw [refCnt_setRefCnt, hrefs.refCnt, hq.refCnt]
    by_cases hbb : b' = b
    · simp [hbb]
    · simp [hbb]
  · rw [hset.blockHash]
    rcases mem_append.mp hb' with hdone | hlast
    · exact hstrip.blockHash_eq_none (hq.unhashed b' hdone)
    · rw [mem_singleton.mp hlast]
      exact hstrip.blockHash

theorem getNewBlocks_spec (hm : HashesMapped p)
    (hcache : p.enableCaching = true) {n : ℕ} {ret : List ℕ} (h : p.getNewBlocks n = some (ret,q)) :
    ret = p.freeBlockQueue.blocks.take n ∧ q.freeBlockQueue.blocks = p.freeBlockQueue.blocks.drop n ∧
      q.freeBlockQueue.numFreeBlocks = p.freeBlockQueue.numFreeBlocks-n ∧
      n ≤ p.freeBlockQueue.numFreeBlocks ∧
      Allocated { p with freeBlockQueue := q.freeBlockQueue } ret q := by
  simp only [getNewBlocks] at h
  split at h
  · cases h
  rename_i hle
  obtain ⟨⟨popped,queue⟩,hpop,h⟩ := bind_eq_some_iff.mp h
  obtain ⟨q',hfold,heq⟩ := map_eq_some_iff.mp h
  obtain ⟨rfl,rfl⟩ := Prod.mk.inj heq
  have halloc : Allocated { p with freeBlockQueue := queue } popped q' := by
    refine foldlM_option_invariant (P := Allocated { p with freeBlockQueue := queue }) ?_ ?_ hfold
    · intro done b t t' _ ht hround
      exact ht.round hcache hround
    · refine ⟨hm.congr ⟨rfl,rfl,rfl,rfl,rfl,fun _ => rfl,fun _ => rfl⟩,rfl,rfl,rfl,fun _ => rfl,
        fun b => by simp,by simp⟩
  have hqueue : q'.freeBlockQueue = queue := halloc.queue
  rw [hqueue]
  simp only [popleftN] at hpop
  have hle : n ≤ p.freeBlockQueue.numFreeBlocks := Nat.le_of_not_lt hle
  split at hpop
  · rename_i hzero
    cases hpop
    subst hzero
    exact ⟨by simp,by simp,by simp,hle,halloc⟩
  · cases hpop
    exact ⟨rfl,rfl,rfl,hle,halloc⟩

theorem FreeListed.getNewBlocks (hp : FreeListed p) (hm : HashesMapped p)
    (hcache : p.enableCaching = true) {n : ℕ} {ret : List ℕ}
    (h : p.getNewBlocks n = some (ret,q)) : FreeListed q := by
  obtain ⟨hret,hdrop,hnum,hle,halloc⟩ := getNewBlocks_spec hm hcache h
  have hsplit : p.freeBlockQueue.blocks = ret ++ q.freeBlockQueue.blocks := by
    rw [hret, hdrop, take_append_drop]
  have hnodup := hp.nodup
  rw [hsplit] at hnodup
  refine ⟨(nodup_append.mp hnodup).2.1,fun b => ?_,?_,fun b => ?_,fun b hb => ?_⟩
  · have hold := hp.mem_iff b
    rw [hsplit, mem_append] at hold
    rw [halloc.refCnt, halloc.numGpuBlocks]
    by_cases hb : b ∈ ret
    · have hout : b ∉ q.freeBlockQueue.blocks := fun hmem =>
        (nodup_append.mp hnodup).2.2 b hb b hmem rfl
      simp [hb, hout]
    · simpa [hb] using hold
  · rw [hnum, hp.num, hdrop, length_drop]
  · rw [halloc.isNull]
    exact hp.isNull b
  · rw [halloc.refCnt]
    split
    · omega
    · exact hp.nonneg b hb

end References

section Runs

/-- A call on the pool. `blockHashes` are the block hashes of the request the call is made for. -/
inductive Call (H : Type u)
  | getNewBlocks (numBlocks : ℕ)
  | touch (blocks : List ℕ)
  | freeBlocks (orderedBlocks : List ℕ)
  | cacheFullBlocks (blockHashes : List H) (blocks : List ℕ)
      (numCachedBlocks numFullBlocks blockSize kvCacheGroupId : ℕ) (blockMask : Option (List Bool))
  | cachePartialBlock (blockHashes : List H) (block numTokens kvCacheGroupId blockSize : ℕ)
  | moveBlockHashes (src dst : ℕ)
  | evictBlocks (blockIds : List ℕ)
  | resetPrefixCache

def Call.blocks : Call H → List ℕ
  | touch blocks | freeBlocks blocks | cacheFullBlocks _ blocks .. => blocks
  | cachePartialBlock _ block .. => [block]
  | moveBlockHashes src dst => [src,dst]
  | getNewBlocks _ | evictBlocks _ | resetPrefixCache => []

variable [DecidableEq H]

def step (p : BlockPool H) (call : Call H) : Option (BlockPool H) :=
  if ∀ b ∈ call.blocks, b < p.numGpuBlocks then
    match call with
    | .getNewBlocks n => (p.getNewBlocks n).map Prod.snd
    | .touch blocks => p.touch blocks
    | .freeBlocks blocks => some (p.freeBlocks blocks)
    | .cacheFullBlocks hashes blocks numCached numFull blockSize group mask =>
      p.cacheFullBlocks hashes blocks numCached numFull blockSize group mask
    | .cachePartialBlock hashes b numTokens group blockSize =>
      (p.cachePartialBlock hashes b numTokens group blockSize).map Prod.fst
    | .moveBlockHashes src dst => p.moveBlockHashes src dst
    | .evictBlocks ids => p.evictBlocks ids
    | .resetPrefixCache => some p.resetPrefixCache.1
  else none

def FreesOnce (p : BlockPool H) : Call H → Prop
  | .freeBlocks blocks =>
    ∀ b ∈ blocks, b ≠ nullBlock → (blocks.count b : ℤ) ≤ (p.blocks b).refCnt
  | _ => True

instance (p : BlockPool H) (call : Call H) : Decidable (FreesOnce p call) := by
  cases call <;> unfold FreesOnce <;> infer_instance

def KeepsNull : Call H → Prop
  | .moveBlockHashes _ dst => dst ≠ nullBlock
  | _ => True

instance (call : Call H) : Decidable (KeepsNull call) := by
  cases call <;> unfold KeepsNull <;> infer_instance

structure Coherent (p : BlockPool H) : Prop where
  caching : p.enableCaching = true
  free : FreeListed p
  hashes : HashesMapped p

variable {p q : BlockPool H}

theorem Coherent.hashStep (hp : Coherent p) (h : HashStep p q) : Coherent q :=
  ⟨h.refs.enableCaching.trans hp.caching,hp.free.congr h.refs,h.mapped hp.hashes⟩

theorem Coherent.refStep (hp : Coherent p) (h : FreeListed q ∧ SameHashes p q) : Coherent q :=
  ⟨h.2.enableCaching.trans hp.caching,h.1,hp.hashes.congr h.2⟩

theorem coherent_init {n : ℕ} (hn : 0 < n) (hashBlockSize : ℕ) :
    Coherent (init n true hashBlockSize : BlockPool H) := by
  obtain ⟨m,rfl⟩ := Nat.exists_eq_add_of_lt hn
  have htail : (List.range (0+m+1)).tail = (List.range m).map Nat.succ := by
    simp [range_succ_eq_map]
  refine ⟨rfl,⟨?_,fun b => ?_,?_,fun _ => rfl,fun _ _ => le_refl _⟩,⟨fun key b => ?_,
    fun _ _ => rfl,rfl⟩⟩
  · exact nodup_range.tail
  · simp only [init, htail, nullBlock]
    cases b with
    | zero => simp
    | succ b => simp
  · simp [init]
  · simp [init, Owns, secondaryHashes]

theorem Coherent.step {call : Call H} (hp : Coherent p) (hstep : p.step call = some q)
    (hfree : FreesOnce p call) (hnull : KeepsNull call) : Coherent q := by
  simp only [BlockPool.step] at hstep
  split at hstep
  · rename_i hlt
    cases call with
    | getNewBlocks n =>
      obtain ⟨⟨ret,q'⟩,hget,rfl⟩ := map_eq_some_iff.mp hstep
      obtain ⟨-,-,-,-,halloc⟩ := getNewBlocks_spec hp.hashes hp.caching hget
      exact ⟨halloc.enableCaching.trans hp.caching,hp.free.getNewBlocks hp.hashes hp.caching hget,
        halloc.mapped⟩
    | touch blocks => exact hp.refStep (hp.free.touch hlt hstep)
    | freeBlocks blocks =>
      cases hstep
      refine hp.refStep (hp.free.freeBlocks hlt fun b hb => ?_)
      by_cases hmem : b ∈ blocks
      · exact hfree b hmem hb
      · rw [count_eq_zero_of_not_mem hmem]
        exact hp.free.nonneg b hb
    | cacheFullBlocks hashes blocks numCached numFull blockSize group mask =>
      exact hp.hashStep (hashStep_cacheFullBlocks hp.free.isNull hstep)
    | cachePartialBlock hashes b numTokens group blockSize =>
      obtain ⟨⟨q',key⟩,hcache,rfl⟩ := map_eq_some_iff.mp hstep
      exact hp.hashStep (hashStep_cachePartialBlock hp.free.isNull hcache)
    | moveBlockHashes src dst => exact hp.hashStep (hashStep_moveBlockHashes hnull hstep)
    | evictBlocks ids => exact hp.hashStep (hashStep_evictBlocks hstep)
    | resetPrefixCache =>
      cases hstep
      exact hp.hashStep (hashStep_resetPrefixCache p)
  · cases hstep

/-- In every state that calls of the pool lead to, the free queue lists the unreferenced blocks,
the map lists the hashes of the blocks, and what `get_new_blocks` hands out was free and is
unhashed. -/
theorem block_pool_coherent {n : ℕ} (hn : 0 < n) (hashBlockSize : ℕ) {p : BlockPool H}
    (hp : Reachable step (fun p call _ => FreesOnce p call ∧ KeepsNull call)
      (init n true hashBlockSize) p) :
    (∀ b, b ∈ p.freeBlockQueue.blocks ↔
        b < p.numGpuBlocks ∧ b ≠ nullBlock ∧ (p.blocks b).refCnt = 0) ∧
      p.freeBlockQueue.blocks.Nodup ∧
      p.getNumFreeBlocks = p.freeBlockQueue.blocks.length ∧
      (∀ key b, p.cachedBlockHashToBlock.contain key b = true ↔
        (p.blocks b).blockHash = some key ∨ key ∈ p.secondaryHashes b) ∧
      (∀ b, (p.blocks b).blockHash = none → p.secondaryHashes b = []) ∧
      (p.blocks nullBlock).blockHash = none ∧
      ∀ numBlocks ret q, p.getNewBlocks numBlocks = some (ret,q) →
        ret.length = numBlocks ∧ ∀ b ∈ ret, b ≠ nullBlock ∧ b ∈ p.freeBlockQueue.blocks ∧
          (q.blocks b).blockHash = none ∧ q.secondaryHashes b = [] := by
  have hcoh : Coherent p :=
    hp.invariant (coherent_init hn hashBlockSize) fun s call s' hs hstep hok =>
      hs.step hstep hok.1 hok.2
  refine ⟨hcoh.free.mem_iff,hcoh.free.nodup,hcoh.free.num,hcoh.hashes.mapped,
    hcoh.hashes.secondary,hcoh.hashes.null,?_⟩
  intro numBlocks ret q hget
  obtain ⟨hret,-,-,hle,halloc⟩ := getNewBlocks_spec hcoh.hashes hcoh.caching hget
  refine ⟨?_,fun b hb => ?_⟩
  · rw [hret, length_take, ← hcoh.free.num]
    exact min_eq_left hle
  · have hmem : b ∈ p.freeBlockQueue.blocks := mem_of_mem_take (hret ▸ hb)
    exact ⟨((hcoh.free.mem_iff b).mp hmem).2.1,hmem,halloc.unhashed b hb,
      halloc.mapped.secondary b (halloc.unhashed b hb)⟩

/-- Two blocks are cached, one entry moves to a copy, and one of the freed blocks is hit again. -/
theorem block_pool_coherent_moved : ∃ p : BlockPool ℕ, p.freeBlockQueue.blocks = [1,4] ∧
    (∀ b, b ∈ p.freeBlockQueue.blocks ↔
      b < p.numGpuBlocks ∧ b ≠ nullBlock ∧ (p.blocks b).refCnt = 0) ∧
    p.cachedBlockHashToBlock.contain (10,0) 3 = true ∧
    ((p.blocks 3).blockHash = some (10,0) ∨ (10,0) ∈ p.secondaryHashes 3) := by
  obtain ⟨p,hp,hfree⟩ := Reachable.exists_of_runGuarded step
    (fun p call _ h => show FreesOnce p call ∧ KeepsNull call from of_decide_eq_true h) (init 5 true 2)
    [.getNewBlocks 2,.cacheFullBlocks [10,11] [1,2] 0 2 2 0 none,.getNewBlocks 1,
      .moveBlockHashes 1 3,.freeBlocks [2,1],.touch [2]]
    (fun p => p.freeBlockQueue.blocks == [1,4] && p.cachedBlockHashToBlock.contain (10,0) 3)
    (by decide +kernel)
  obtain ⟨hqueue,hcontain⟩ := Bool.and_eq_true_iff.mp hfree
  have hpool := block_pool_coherent (by decide) 2 hp
  exact ⟨p,beq_iff_eq.mp hqueue,hpool.1,hcontain,(hpool.2.2.2.1 (10,0) 3).mp hcontain⟩

/-- Nothing in the pool itself stops the hashes of a block from being moved to the null block. -/
theorem null_block_hashed_by_move : ∃ p : BlockPool ℕ,
    Reachable step (fun p call _ => FreesOnce p call) (init 3 true 2) p ∧
      (p.blocks nullBlock).blockHash = some (7,0) := by
  obtain ⟨p,hp,hhash⟩ := Reachable.exists_of_runGuarded step
    (fun p call _ h => show FreesOnce p call from of_decide_eq_true h) (init 3 true 2)
    [.getNewBlocks 1,.cacheFullBlocks [7] [1] 0 1 2 0 none,.moveBlockHashes 1 nullBlock]
    (fun p => (p.blocks nullBlock).blockHash == some (7,0)) (by decide +kernel)
  exact ⟨p,hp,beq_iff_eq.mp hhash⟩

end Runs

end MetaZenith.KVCache.BlockPool
