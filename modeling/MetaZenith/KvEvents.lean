import MetaZenith.BlockPoolInvariant

/-! The KV event log of the block pool. Events are emitted by code apart from the updates of the
prefix-cache map; replaying them gives the number of blocks under every key. -/

namespace MetaZenith.KVCache

open BlockHashToBlockMap BlockPool List Option Function

variable {blocks : List ℕ} {blockSize group n : ℕ}

universe u

inductive KVCacheEvent (X : Type u)
  | blockStored (blockHashes : List X) (parentBlockHash : Option X) (blockSize groupIdx : ℕ)
  | blockRemoved (blockHashes : List X) (groupIdx : ℕ)
  | allBlocksCleared
  deriving DecidableEq

namespace KVCacheEvent

variable {X : Type u} [DecidableEq X]

variable (key : X × ℕ)

def occurrences (blockHashes : List X) (groupIdx : ℕ) : ℕ :=
  if groupIdx = key.2 then blockHashes.count key.1 else 0

def replay (n : ℤ) : KVCacheEvent X → ℤ
  | blockStored blockHashes _ _ groupIdx => n+occurrences key blockHashes groupIdx
  | blockRemoved blockHashes groupIdx => n-occurrences key blockHashes groupIdx
  | allBlocksCleared => 0

def balance (log : List (KVCacheEvent X)) : ℤ := log.foldl (replay key) 0

theorem balance_append (log log' : List (KVCacheEvent X)) :
    balance key (log ++ log') = log'.foldl (replay key) (balance key log) :=
  foldl_append

end KVCacheEvent

open KVCacheEvent

namespace BlockHashToBlockMap

variable {H : Type u}

def numBlocks (m : BlockHashToBlockMap H) (key : BlockHashWithGroupId H) : ℕ :=
  ((m.cache key).map fun c => c.ids.length).getD 0

theorem length_le_numBlocks {m : BlockHashToBlockMap H} {key : BlockHashWithGroupId H} {bs : List ℕ}
    (hnodup : bs.Nodup) (hbs : ∀ b ∈ bs, m.contain key b = true) : bs.length ≤ m.numBlocks key := by
  rw [numBlocks]
  cases hcache : m.cache key with
  | none =>
    have hnil : bs = [] := by
      apply eq_nil_iff_forall_not_mem.mpr
      intro b hb
      have hcontain := hbs b hb
      rw [contain, hcache] at hcontain
      cases hcontain
    rw [hnil]
    exact Nat.zero_le _
  | some c =>
    have hsubset : bs ⊆ c.ids := by
      intro b hb
      obtain ⟨c',hc',hmem⟩ := contain_iff.mp (hbs b hb)
      rw [hcache] at hc'
      cases hc'
      exact hmem
    exact (subperm_of_subset hnodup hsubset).length_le

variable [DecidableEq H]

theorem numBlocks_insert {m : BlockHashToBlockMap H} {key : BlockHashWithGroupId H} {b : ℕ}
    (hnew : m.contain key b = false) (key' : BlockHashWithGroupId H) :
    (m.insert key b).numBlocks key' = m.numBlocks key' + if key' = key then 1 else 0 := by
  by_cases hkey : key' = key
  · subst hkey
    rw [if_pos rfl, numBlocks, numBlocks, insert]
    dsimp only
    rw [update_self]
    cases hcache : m.cache key' with
    | none => rfl
    | some c =>
      have hb : b ∉ c.ids := by
        intro hmem
        have hcontain := contain_iff.mpr ⟨c,hcache,hmem⟩
        rw [hcontain] at hnew
        cases hnew
      change (if b ∈ c.ids then c.ids else c.ids ++ [b]).length = c.ids.length+1
      rw [if_neg hb, length_append, length_singleton]
  · rw [if_neg hkey, numBlocks, numBlocks, insert]
    dsimp only
    rw [update_of_ne hkey]
    rfl

variable (m : BlockHashToBlockMap H)

theorem numBlocks_pop (key : BlockHashWithGroupId H) (b : ℕ) (key' : BlockHashWithGroupId H) :
    (m.pop key b).1.numBlocks key' + (if key' = key ∧ m.contain key b = true then 1 else 0) =
      m.numBlocks key' := by
  by_cases hkey : key' = key
  · subst hkey
    rw [numBlocks, numBlocks, pop]
    dsimp only
    rw [update_self, contain]
    cases hcache : m.cache key' with
    | none => simp
    | some c =>
      simp only [bind_some, any_some, decide_eq_true_eq, true_and, map_some, getD_some]
      cases c with
      | one b' =>
        by_cases hb : b' = b
        · simp [CachedBlocks.drop, CachedBlocks.ids, hb]
        · simp [CachedBlocks.drop, CachedBlocks.ids, hb, Ne.symm hb]
      | dict ids hnodup =>
        by_cases hb : b ∈ ids
        · have hlen : (ids.erase b).length+1 = ids.length := by
            rw [length_erase_of_mem hb]
            have hpos := length_pos_of_mem hb
            omega
          by_cases hnil : ids.erase b = []
          · rw [hnil] at hlen
            simpa [CachedBlocks.drop, CachedBlocks.ids, hnil, hb] using hlen
          · simpa [CachedBlocks.drop, CachedBlocks.ids, hnil, hb] using hlen
        · have hsame : ids.erase b = ids := erase_of_not_mem hb
          by_cases hnil : ids = []
          · simp [CachedBlocks.drop, CachedBlocks.ids, hnil]
          · simp [CachedBlocks.drop, CachedBlocks.ids, hsame, hnil, hb]
  · rw [if_neg fun h => hkey h.1, numBlocks, numBlocks, pop]
    dsimp only
    rw [update_of_ne hkey]
    rfl

theorem numBlocks_popAll (b : ℕ) (keys : List (BlockHashWithGroupId H))
    (key' : BlockHashWithGroupId H) :
    (m.popAll b keys).1.numBlocks key' + (m.popAll b keys).2.count key' = m.numBlocks key' := by
  induction keys generalizing m with
  | nil => rfl
  | cons key keys ih =>
    have hpop := numBlocks_pop m key b key'
    have hrest := ih (m.pop key b).1
    have hfound : (m.pop key b).2 = m.contain key b := rfl
    rw [popAll]
    dsimp only
    rw [hfound]
    by_cases hc : m.contain key b = true
    · rw [if_pos hc, count_cons]
      by_cases hkey : key' = key
      · rw [if_pos ⟨hkey,hc⟩] at hpop
        rw [if_pos (by simp [hkey])]
        omega
      · rw [if_neg fun h => hkey h.1] at hpop
        rw [if_neg (by simpa using fun h => hkey h.symm)]
        omega
    · rw [if_neg fun h => hc h.2] at hpop
      rw [if_neg hc]
      omega

theorem nodup_popAll (b : ℕ) (keys : List (BlockHashWithGroupId H)) : (m.popAll b keys).2.Nodup := by
  induction keys generalizing m with
  | nil => exact nodup_nil
  | cons key keys ih =>
    rw [popAll]
    dsimp only
    split
    · refine nodup_cons.mpr ⟨?_,ih _⟩
      intro hmem
      obtain ⟨-,hcontain⟩ := mem_popAll.mp hmem
      exact (contain_pop.mp hcontain).1 ⟨rfl,rfl⟩
    · exact ih _

end BlockHashToBlockMap

structure LoggedPool (H X : Type u) where
  pool : BlockPool H
  kvEventQueue : List (KVCacheEvent X)

namespace LoggedPool

variable {H X : Type u} [DecidableEq H] (maybeConvertBlockHash : H → X)

def emitBlockRemovedEvents (lp : LoggedPool H X) (blockHashes : List (BlockHashWithGroupId H)) :
    LoggedPool H X :=
  { lp with
    kvEventQueue := lp.kvEventQueue ++ blockHashes.map fun key =>
      .blockRemoved [maybeConvertBlockHash key.1] key.2 }

def removeAndEmit (lp : LoggedPool H X) (b : ℕ) : LoggedPool H X :=
  let removed := lp.pool.removeCachedBlockHashes b
  emitBlockRemovedEvents maybeConvertBlockHash { lp with pool := removed.1 } removed.2

def cacheFullBlock (acc : LoggedPool H X × List X) (b : ℕ) (blockHash : H)
    (kvCacheGroupId numHashTokens : ℕ) : Option (LoggedPool H X × List X) :=
  let removed : Option (LoggedPool H X) :=
    if (acc.1.pool.blocks b).blockHash.isSome then
      if (acc.1.pool.blocks b).blockHashNumTokens.any (· < numHashTokens) then
        some (removeAndEmit maybeConvertBlockHash acc.1 b)
      else none
    else some acc.1
  removed.bind fun lp =>
    (lp.pool.insertBlockHash (blockHash,kvCacheGroupId) b (some numHashTokens)).map fun pool =>
      ({ lp with pool },acc.2 ++ [maybeConvertBlockHash blockHash])

def cacheFullRound (resolved : List H) (numCachedBlocks blockSize kvCacheGroupId : ℕ)
    (blockMask : Option (List Bool)) (acc : LoggedPool H X × List X) (entry : ℕ × ℕ) :
    Option (LoggedPool H X × List X) :=
  if (acc.1.pool.blocks entry.1).isNull ||
      blockMask.any (fun mask => mask[entry.2]? == some false) then some acc
  else (resolved.drop numCachedBlocks)[entry.2]?.bind fun blockHash =>
    cacheFullBlock maybeConvertBlockHash acc entry.1 blockHash kvCacheGroupId
      ((numCachedBlocks+entry.2+1)*blockSize)

/-- `cache_full_blocks`. The event needs the block before the first new one and all new blocks, so a
call that lacks them raises. -/
def cacheFullBlocks (lp : LoggedPool H X) (blockHashes : List H) (blocks : List ℕ)
    (numCachedBlocks numFullBlocks blockSize kvCacheGroupId : ℕ) (blockMask : Option (List Bool)) :
    Option (LoggedPool H X) :=
  if numFullBlocks ≤ numCachedBlocks then some lp
  else
    let newFullBlocks := (blocks.take numFullBlocks).drop numCachedBlocks
    if blockMask.any fun mask => mask.length ≠ newFullBlocks.length then none
    else (resolveBlockHashes blockHashes lp.pool.hashBlockSize blockSize).bind fun resolved =>
      (newFullBlocks.zipIdx.foldlM (cacheFullRound maybeConvertBlockHash resolved numCachedBlocks
        blockSize kvCacheGroupId blockMask) (lp,[])).bind fun acc =>
      if blocks.length < numFullBlocks ∨
          (numCachedBlocks ≠ 0 ∧ resolved.length ≤ numCachedBlocks-1) then none
      else
        let parentBlockHash :=
          if numCachedBlocks = 0 then none
          else (resolved[numCachedBlocks-1]?).map maybeConvertBlockHash
        some { acc.1 with
          kvEventQueue := acc.1.kvEventQueue ++
            [.blockStored acc.2 parentBlockHash blockSize kvCacheGroupId] }

def cachePartialBlock (lp : LoggedPool H X) (blockHashes : List H)
    (b numTokens kvCacheGroupId blockSize : ℕ) : Option (LoggedPool H X) :=
  let p := lp.pool
  if (p.blocks b).isNull then some lp
  else if p.hashBlockSize < blockSize ∧ blockSize%p.hashBlockSize = 0 ∧
      numTokens%blockSize ≠ 0 then
    (p.getPartialBlockHash blockHashes numTokens).bind fun blockHash =>
      let key := (blockHash,kvCacheGroupId)
      let numHashBlocks := numTokens/p.hashBlockSize
      let numHashTokens := numHashBlocks*p.hashBlockSize
      let alreadyCached := (p.blocks b).blockHash == some key ||
        p.cachedBlockHashToBlock.contain key b
      let shorter := (p.blocks b).blockHash.isSome &&
        (p.blocks b).blockHashNumTokens.any (· < numHashTokens)
      let lp := if !alreadyCached && shorter then removeAndEmit maybeConvertBlockHash lp b else lp
      (lp.pool.insertBlockHash key b (some numHashTokens)).map fun pool =>
        let lp := { lp with pool }
        if alreadyCached then lp
        else
          let parentHash :=
            if 1 < numHashBlocks then blockHashes[numHashBlocks-2]? else none
          { lp with
            kvEventQueue := lp.kvEventQueue ++
              [.blockStored [maybeConvertBlockHash blockHash] (parentHash.map maybeConvertBlockHash)
                (numTokens-(numHashBlocks-1)*p.hashBlockSize) kvCacheGroupId] }
  else none

def allocateBlock (lp : LoggedPool H X) (b : ℕ) : Option (LoggedPool H X) :=
  let lp := if lp.pool.enableCaching then removeAndEmit maybeConvertBlockHash lp b else lp
  if (lp.pool.blocks b).refCnt = 0 then
    some { lp with
      pool := lp.pool.setBlock b
        { lp.pool.blocks b with refCnt := (lp.pool.blocks b).refCnt+1 } }
  else none

def getNewBlocks (lp : LoggedPool H X) (numBlocks : ℕ) : Option (List ℕ × LoggedPool H X) :=
  if lp.pool.getNumFreeBlocks < numBlocks then none
  else (lp.pool.freeBlockQueue.popleftN numBlocks).bind fun (ret,queue) =>
    (ret.foldlM (allocateBlock maybeConvertBlockHash)
      { lp with pool := { lp.pool with freeBlockQueue := queue } }).map fun lp => (ret,lp)

def evictBlocks (lp : LoggedPool H X) (blockIds : List ℕ) : Option (LoggedPool H X) :=
  blockIds.foldlM (fun lp b =>
    if b < lp.pool.numGpuBlocks then some (removeAndEmit maybeConvertBlockHash lp b) else none) lp

def resetPrefixCache (lp : LoggedPool H X) : LoggedPool H X :=
  if lp.pool.resetPrefixCache.2 then
    { pool := lp.pool.resetPrefixCache.1
      kvEventQueue := lp.kvEventQueue ++ [.allBlocksCleared] }
  else lp

def step (lp : LoggedPool H X) (call : Call H) : Option (LoggedPool H X) :=
  if ∀ b ∈ call.blocks, b < lp.pool.numGpuBlocks then
    match call with
    | .getNewBlocks n => (getNewBlocks maybeConvertBlockHash lp n).map Prod.snd
    | .touch blocks => (lp.pool.touch blocks).map fun pool => { lp with pool }
    | .freeBlocks blocks => some { lp with pool := lp.pool.freeBlocks blocks }
    | .cacheFullBlocks hashes blocks numCached numFull blockSize group mask =>
      cacheFullBlocks maybeConvertBlockHash lp hashes blocks numCached numFull blockSize group mask
    | .cachePartialBlock hashes b numTokens group blockSize =>
      cachePartialBlock maybeConvertBlockHash lp hashes b numTokens group blockSize
    | .moveBlockHashes src dst => (lp.pool.moveBlockHashes src dst).map fun pool => { lp with pool }
    | .evictBlocks ids => evictBlocks maybeConvertBlockHash lp ids
    | .resetPrefixCache => some (resetPrefixCache lp)
  else none

section Frames

variable {p q : BlockPool H}

theorem sameHashes_touch (h : p.touch blocks = some q) : SameHashes p q := by
  refine foldlM_option_keeps (P := SameHashes p) ?_ (.refl p) h
  intro b _ t t' ht hround
  obtain ⟨t₁,ht₁,rfl⟩ := map_eq_some_iff.mp hround
  have hqueue : SameHashes t t₁ := by
    split at ht₁
    · obtain ⟨queue,-,rfl⟩ := map_eq_some_iff.mp ht₁
      exact ⟨rfl,rfl,rfl,rfl,rfl,fun _ => rfl,fun _ => rfl⟩
    · cases ht₁
      exact .refl t
  exact (ht.trans hqueue).trans (sameHashes_setRefCnt _ _ _)

theorem sameHashes_freeBlocks (p : BlockPool H) (blocks : List ℕ) :
    SameHashes p (p.freeBlocks blocks) := by
  have hfold : ∀ acc : BlockPool H × List ℕ × List ℕ,
      SameHashes acc.1 (blocks.foldl releaseBlock acc).1 := by
    induction blocks with
    | nil => exact fun acc => .refl acc.1
    | cons b blocks ih =>
      intro acc
      rw [foldl_cons]
      refine SameHashes.trans ?_ (ih _)
      rw [releaseBlock_pool]
      exact sameHashes_setRefCnt _ _ _
  have hall := hfold (p,[],[])
  exact ⟨hall.1,hall.2,hall.3,hall.4,hall.5,hall.6,hall.7⟩

end Frames

section Counting

variable {p q : BlockPool H} {b : ℕ}

theorem numBlocks_removeCachedBlockHashes (p : BlockPool H) (b : ℕ) (key : BlockHashWithGroupId H) :
    (p.removeCachedBlockHashes b).1.cachedBlockHashToBlock.numBlocks key +
        (p.removeCachedBlockHashes b).2.count key = p.cachedBlockHashToBlock.numBlocks key := by
  simp only [removeCachedBlockHashes]
  split
  · rfl
  · exact numBlocks_popAll _ _ _ key

theorem numBlocks_insertBlockHash {key : BlockHashWithGroupId H} {n : Option ℕ}
    (hp : MapAgrees p) (hnew : p.cachedBlockHashToBlock.contain key b = false)
    (h : p.insertBlockHash key b n = some q) :
    q.cachedBlockHashToBlock = p.cachedBlockHashToBlock.insert key b := by
  have hne : (p.blocks b).blockHash ≠ some key := by
    intro hhash
    rw [(hp.mapped key b).mpr (.inl hhash)] at hnew
    cases hnew
  simp only [insertBlockHash, if_neg hne, hnew, Bool.false_eq_true, if_false] at h
  split at h
  · obtain ⟨blk,-,rfl⟩ := map_eq_some_iff.mp h
    rfl
  · cases h
    rfl

theorem contain_eq_false_of_blockHash_eq_none (hp : MapAgrees p)
    (hnone : (p.blocks b).blockHash = none) (key : BlockHashWithGroupId H) :
    p.cachedBlockHashToBlock.contain key b = false := by
  rw [Bool.eq_false_iff]
  intro hcontain
  rcases (hp.mapped key b).mp hcontain with hhash | hmem
  · rw [hnone] at hhash
    cases hhash
  · rw [hp.secondary b hnone] at hmem
    cases hmem

end Counting

variable {pending : List X} {pool : BlockPool H} {blockHash : H} {acc acc' : LoggedPool H X × List X}

section Faithful

variable [DecidableEq X] {ext : H → X} {lp lp' : LoggedPool H X} {b : ℕ}

def externalKey (ext : H → X) (key : BlockHashWithGroupId H) : X × ℕ := (ext key.1,key.2)

structure Tracks (ext : H → X) (lp : LoggedPool H X) (pending : List X) (group : ℕ) : Prop where
  agrees : MapAgrees lp.pool
  counts : ∀ key : BlockHashWithGroupId H,
    balance (externalKey ext key) lp.kvEventQueue +
      occurrences (externalKey ext key) pending group =
        lp.pool.cachedBlockHashToBlock.numBlocks key

def NeverNegative (ext : H → X) (lp : LoggedPool H X) : Prop :=
  ∀ (key : BlockHashWithGroupId H) (log : List (KVCacheEvent X)), log <+: lp.kvEventQueue →
    0 ≤ balance (externalKey ext key) log

theorem occurrences_external (hinj : Function.Injective ext) (key key' : BlockHashWithGroupId H) :
    occurrences (externalKey ext key) [ext key'.1] key'.2 =
      if key = key' then 1 else 0 := by
  by_cases hkey : key = key'
  · rw [if_pos hkey, hkey]
    simp [occurrences, externalKey]
  · rw [if_neg hkey, occurrences, externalKey]
    split
    · rename_i hgroup
      have hhash : key'.1 ≠ key.1 := fun heq => hkey (Prod.ext heq.symm hgroup.symm)
      rw [count_singleton, if_neg (by simpa using hinj.ne hhash)]
    · rfl

theorem balance_removed (hinj : Function.Injective ext) (key : BlockHashWithGroupId H)
    (log : List (KVCacheEvent X)) (removed : List (BlockHashWithGroupId H)) :
    balance (externalKey ext key) (log ++ removed.map fun key => .blockRemoved [ext key.1] key.2) =
      balance (externalKey ext key) log-removed.count key := by
  induction removed using List.reverseRecOn with
  | nil => simp
  | append_singleton removed key' ih =>
    rw [map_append, ← append_assoc, balance_append, ih, count_append]
    simp only [map_cons, map_nil, foldl_cons, foldl_nil, replay,
      occurrences_external hinj, count_singleton, beq_iff_eq]
    by_cases hkey : key = key'
    · rw [if_pos hkey, if_pos hkey.symm]
      push_cast
      omega
    · rw [if_neg hkey, if_neg (Ne.symm hkey)]
      push_cast
      omega

theorem Tracks.removeAndEmit (hinj : Function.Injective ext) (h : Tracks ext lp pending group)
    (b : ℕ) : Tracks ext (removeAndEmit ext lp b) pending group where
  agrees := (stripped_removeCachedBlockHashes h.agrees b).mapAgrees h.agrees
  counts key := by
    have hcount := numBlocks_removeCachedBlockHashes lp.pool b key
    have hbefore := h.counts key
    change balance _ (lp.kvEventQueue ++ _)+_ = (_ : ℤ)
    rw [balance_removed hinj]
    change _ = (((lp.pool.removeCachedBlockHashes b).1.cachedBlockHashToBlock.numBlocks key : ℕ) : ℤ)
    omega

/-- What is reported as removed was stored, as long as the blocks that are left cover what is pending. -/
theorem NeverNegative.removeAndEmit (hinj : Function.Injective ext) (h : NeverNegative ext lp)
    (ht : Tracks ext lp pending group) (b : ℕ) (hpending : ∀ key : BlockHashWithGroupId H,
      occurrences (externalKey ext key) pending group ≤
        (lp.pool.removeCachedBlockHashes b).1.cachedBlockHashToBlock.numBlocks key) :
    NeverNegative ext (LoggedPool.removeAndEmit ext lp b) := by
  intro key log hlog
  change log <+: lp.kvEventQueue ++ _ at hlog
  rcases prefix_or_prefix_of_prefix hlog (prefix_append lp.kvEventQueue _) with hle | hle
  · exact h key log hle
  · -- the log ends among the removals of this block
    obtain ⟨rest,rfl⟩ := hle
    obtain ⟨removed,hremoved,rfl⟩ : ∃ removed, removed <+: (lp.pool.removeCachedBlockHashes b).2 ∧
        rest = removed.map fun key => blockRemoved [ext key.1] key.2 :=
      prefix_map_iff.mp ((prefix_append_right_inj _).mp hlog)
    rw [balance_removed hinj]
    have hcount := numBlocks_removeCachedBlockHashes lp.pool b key
    have hbefore := ht.counts key
    have hle := hremoved.sublist.count_le key
    have hcover := hpending key
    omega

theorem Tracks.congr (h : Tracks ext lp pending group) (hsame : SameHashes lp.pool pool) :
    Tracks ext { lp with pool } pending group where
  agrees := h.agrees.congr hsame
  counts key := by
    change _ = ((pool.cachedBlockHashToBlock.numBlocks key : ℕ) : ℤ)
    rw [hsame.map]
    exact h.counts key

theorem Tracks.settled (h : Tracks ext lp [] group) (group' : ℕ) : Tracks ext lp [] group' where
  agrees := h.agrees
  counts key := by
    have hcount := h.counts key
    simp only [occurrences, count_nil, ite_self] at hcount ⊢
    exact hcount

theorem Tracks.insertBlockHash (hinj : Function.Injective ext) (h : Tracks ext lp pending group)
    {n : Option ℕ} (hnew : lp.pool.cachedBlockHashToBlock.contain (blockHash,group) b = false)
    (hins : lp.pool.insertBlockHash (blockHash,group) b n = some pool) :
    Tracks ext { lp with pool } (pending ++ [ext blockHash]) group where
  agrees := h.agrees.insertBlockHash hins
  counts key := by
    have hcount := h.counts key
    have hone := occurrences_external hinj key (blockHash,group)
    change _ = ((pool.cachedBlockHashToBlock.numBlocks key : ℕ) : ℤ)
    rw [numBlocks_insertBlockHash h.agrees hnew hins, numBlocks_insert hnew, ← hone]
    simp only [occurrences, count_append] at hcount ⊢
    split at hcount <;> rename_i hgroup
    · simp only [if_pos hgroup]
      push_cast
      omega
    · simp only [if_neg hgroup]
      push_cast
      omega

theorem Tracks.store (h : Tracks ext lp pending group) (parent : Option X) (blockSize : ℕ) :
    Tracks ext { lp with
      kvEventQueue := lp.kvEventQueue ++ [.blockStored pending parent blockSize group] } [] group where
  agrees := h.agrees
  counts key := by
    have hcount := h.counts key
    simp only [balance_append, foldl_cons, foldl_nil, replay]
    simp only [occurrences, count_nil, ite_self] at hcount ⊢
    push_cast at hcount ⊢
    omega

theorem NeverNegative.append (h : NeverNegative ext lp) {event : KVCacheEvent X}
    (ht : Tracks ext ⟨pool,lp.kvEventQueue ++ [event]⟩ pending group) (hpending : pending = []) :
    NeverNegative ext ⟨pool,lp.kvEventQueue ++ [event]⟩ := by
  intro key log hlog
  rcases prefix_concat_iff.mp hlog with rfl | hle
  · have hcount := ht.counts key
    simp only [hpending, occurrences, count_nil, ite_self] at hcount
    push_cast at hcount
    omega
  · exact h key log hle

structure LogStep (ext : H → X) (lp lp' : LoggedPool H X) : Prop where
  tracks : Tracks ext lp [] 0 → Tracks ext lp' [] 0
  neverNegative : Tracks ext lp [] 0 → NeverNegative ext lp → NeverNegative ext lp'

theorem LogStep.refl (lp : LoggedPool H X) : LogStep ext lp lp := ⟨id,fun _ h => h⟩

theorem LogStep.trans {lp'' : LoggedPool H X} (h : LogStep ext lp lp') (h' : LogStep ext lp' lp'') :
    LogStep ext lp lp'' :=
  ⟨fun ht => h'.tracks (h.tracks ht),
    fun ht hn => h'.neverNegative (h.tracks ht) (h.neverNegative ht hn)⟩

theorem logStep_sameHashes (hsame : SameHashes lp.pool pool) : LogStep ext lp { lp with pool } :=
  ⟨fun ht => ht.congr hsame,fun _ hn => hn⟩

theorem logStep_removeAndEmit (hinj : Function.Injective ext) (lp : LoggedPool H X) (b : ℕ) :
    LogStep ext lp (removeAndEmit ext lp b) :=
  ⟨fun ht => ht.removeAndEmit hinj b,
    fun ht hn => hn.removeAndEmit hinj ht b fun key => by simp [occurrences]⟩

theorem logStep_foldlM {ε : Type*} {f : LoggedPool H X → ε → Option (LoggedPool H X)} {l : List ε}
    (hstep : ∀ a ∈ l, ∀ t t', f t a = some t' → LogStep ext t t')
    (h : l.foldlM f lp = some lp') : LogStep ext lp lp' :=
  foldlM_option_keeps (P := LogStep ext lp)
    (fun a ha t t' ht hat => ht.trans (hstep a ha t t' hat)) (.refl lp) h

theorem logStep_allocateBlock (hinj : Function.Injective ext)
    (h : allocateBlock ext lp b = some lp') : LogStep ext lp lp' := by
  simp only [allocateBlock] at h
  obtain ⟨-,heq⟩ := ite_none_right_eq_some.mp h
  cases heq
  refine LogStep.trans ?_ (logStep_sameHashes (sameHashes_setRefCnt _ _ _))
  split
  · exact logStep_removeAndEmit hinj lp b
  · exact .refl lp

theorem logStep_getNewBlocks (hinj : Function.Injective ext) {ret : List ℕ}
    (h : getNewBlocks ext lp n = some (ret,lp')) : LogStep ext lp lp' := by
  rw [getNewBlocks] at h
  obtain ⟨-,h⟩ := ite_none_left_eq_some.mp h
  obtain ⟨⟨popped,queue⟩,-,h⟩ := bind_eq_some_iff.mp h
  obtain ⟨lp₁,hfold,heq⟩ := map_eq_some_iff.mp h
  cases heq
  refine LogStep.trans ?_ (logStep_foldlM (fun b _ t t' => logStep_allocateBlock hinj) hfold)
  exact logStep_sameHashes ⟨rfl,rfl,rfl,rfl,rfl,fun _ => rfl,fun _ => rfl⟩

theorem logStep_evictBlocks (hinj : Function.Injective ext) {ids : List ℕ}
    (h : evictBlocks ext lp ids = some lp') : LogStep ext lp lp' := by
  refine logStep_foldlM ?_ h
  intro b _ t t' hround
  obtain ⟨-,heq⟩ := ite_none_right_eq_some.mp hround
  cases heq
  exact logStep_removeAndEmit hinj t b

theorem logStep_resetPrefixCache (lp : LoggedPool H X) : LogStep ext lp (resetPrefixCache lp) := by
  rw [resetPrefixCache]
  split
  · rename_i hreset
    have htracks : Tracks ext lp [] 0 →
        Tracks ext ⟨lp.pool.resetPrefixCache.1,lp.kvEventQueue ++ [.allBlocksCleared]⟩ [] 0 := by
      intro ht
      simp only [BlockPool.resetPrefixCache] at hreset ⊢
      split at hreset
      · cases hreset
      · rename_i hfree
        rw [if_neg hfree]
        refine ⟨⟨fun key b => ?_,fun b _ => rfl⟩,fun key => ?_⟩
        · simp [Owns, KVCacheBlock.resetHash, secondaryHashes]
        · simp only [balance_append, foldl_cons, foldl_nil, replay, occurrences, count_nil, ite_self]
          rfl
    exact ⟨htracks,fun ht hn => hn.append (htracks ht) rfl⟩
  · exact .refl lp

theorem logStep_moveBlockHashes {src dst : ℕ} (h : lp.pool.moveBlockHashes src dst = some pool) :
    LogStep ext lp { lp with pool } := by
  refine ⟨fun ht => ?_,fun _ hn => hn⟩
  simp only [moveBlockHashes] at h
  obtain ⟨⟨hdst,-⟩,hfold⟩ := ite_none_right_eq_some.mp h
  rw [isNone_iff_eq_none] at hdst
  have hstrip := stripped_removeCachedBlockHashes ht.agrees src
  have hnodup : (lp.pool.removeCachedBlockHashes src).2.Nodup := by
    simp only [removeCachedBlockHashes]
    split
    · exact nodup_nil
    · exact nodup_popAll _ _ _
  -- the destination has the entries moved so far and no others
  have hmoved : MapAgrees pool ∧ (∀ key, pool.cachedBlockHashToBlock.contain key dst = true ↔
        key ∈ (lp.pool.removeCachedBlockHashes src).2) ∧
      ∀ key, pool.cachedBlockHashToBlock.numBlocks key =
        (lp.pool.removeCachedBlockHashes src).1.cachedBlockHashToBlock.numBlocks key +
          (lp.pool.removeCachedBlockHashes src).2.count key := by
    refine foldlM_option_invariant (P := fun done q => MapAgrees q ∧
      (∀ key, q.cachedBlockHashToBlock.contain key dst = true ↔ key ∈ done) ∧
      ∀ key, q.cachedBlockHashToBlock.numBlocks key =
        (lp.pool.removeCachedBlockHashes src).1.cachedBlockHashToBlock.numBlocks key +
          done.count key) ?_ ⟨hstrip.mapAgrees ht.agrees,?_,?_⟩ hfold
    · rintro done key t t' hdone ⟨hagrees,hcontain,hcount⟩ hins
      have hnew : t.cachedBlockHashToBlock.contain key dst = false := by
        rw [Bool.eq_false_iff, ne_eq, hcontain]
        have hsplit := hnodup.sublist hdone.sublist
        rw [nodup_append] at hsplit
        exact fun hmem => hsplit.2.2 key hmem key (by simp) rfl
      refine ⟨hagrees.insertBlockHash hins,fun key' => ?_,fun key' => ?_⟩
      · rw [numBlocks_insertBlockHash hagrees hnew hins, contain_insert, hcontain,
          mem_append, mem_singleton]
        tauto
      · rw [numBlocks_insertBlockHash hagrees hnew hins, numBlocks_insert hnew,
          hcount, count_append, count_singleton]
        by_cases hkey : key' = key
        · simp [hkey]
          omega
        · simp [hkey, Ne.symm hkey]
    · intro key
      have hno := contain_eq_false_of_blockHash_eq_none (hstrip.mapAgrees ht.agrees)
        (hstrip.blockHash_eq_none hdst) key
      rw [hno]
      simp
    · intro key
      rfl
  refine ⟨hmoved.1,fun key => ?_⟩
  have hcount := numBlocks_removeCachedBlockHashes lp.pool src key
  change _ = ((pool.cachedBlockHashToBlock.numBlocks key : ℕ) : ℤ)
  rw [hmoved.2.2, hcount]
  exact ht.counts key

theorem logStep_cachePartialBlock (hinj : Function.Injective ext) {blockHashes : List H} {numTokens : ℕ}
    (h : cachePartialBlock ext lp blockHashes b numTokens group blockSize = some lp') :
    LogStep ext lp lp' := by
  simp only [cachePartialBlock] at h
  split at h
  · cases h
    exact .refl lp
  obtain ⟨-,h⟩ := ite_none_right_eq_some.mp h
  obtain ⟨blockHash,-,h⟩ := bind_eq_some_iff.mp h
  obtain ⟨pool,hins,heq⟩ := map_eq_some_iff.mp h
  cases hcached : ((lp.pool.blocks b).blockHash == some (blockHash,group) ||
      lp.pool.cachedBlockHashToBlock.contain (blockHash,group) b) with
  | true =>
    -- the entry exists and nothing happens
    simp only [hcached, Bool.not_true, Bool.false_and, Bool.false_eq_true, if_false, if_true] at hins heq
    subst heq
    have hsame : pool = lp.pool := by
      rw [insertBlockHash] at hins
      rcases Bool.or_eq_true_iff.mp hcached with hhash | hcontain
      · rw [if_pos (by simpa using hhash)] at hins
        exact (Option.some.inj hins).symm
      · rw [if_pos hcontain, ite_self] at hins
        exact (Option.some.inj hins).symm
    rw [hsame]
    exact .refl lp
  | false =>
    simp only [hcached, Bool.not_false, Bool.true_and, Bool.false_eq_true, if_false] at hins heq
    obtain ⟨-,hno⟩ := Bool.or_eq_false_iff.mp hcached
    set lp₁ := (if ((lp.pool.blocks b).blockHash.isSome &&
        (lp.pool.blocks b).blockHashNumTokens.any fun x =>
          decide (x < numTokens/lp.pool.hashBlockSize*lp.pool.hashBlockSize)) = true
      then removeAndEmit ext lp b else lp) with hlp₁
    have hfirst : LogStep ext lp lp₁ := by
      rw [hlp₁]
      split
      · exact logStep_removeAndEmit hinj lp b
      · exact .refl lp
    have hnew : Tracks ext lp [] 0 →
        lp₁.pool.cachedBlockHashToBlock.contain (blockHash,group) b = false := by
      intro ht
      rw [hlp₁]
      split
      · rw [Bool.eq_false_iff]
        intro hcontain
        exact (((stripped_removeCachedBlockHashes ht.agrees b).contain _ b).mp hcontain).1 rfl
      · exact hno
    have htracks : Tracks ext lp [] 0 → Tracks ext lp' [] 0 := by
      intro ht
      subst heq
      exact ((((hfirst.tracks ht).settled group).insertBlockHash hinj (hnew ht) hins).store _ _).settled 0
    refine ⟨htracks,fun ht hn => ?_⟩
    have hdone := htracks ht
    subst heq
    exact (hfirst.neverNegative ht hn).append hdone rfl

theorem Tracks.cacheFullBlock (hinj : Function.Injective ext) (h : Tracks ext acc.1 acc.2 group)
    (hround : cacheFullBlock ext acc b blockHash group n = some acc') :
    ∃ lp pool, (lp = acc.1 ∨ lp = LoggedPool.removeAndEmit ext acc.1 b) ∧ Tracks ext lp acc.2 group ∧
      lp.pool.cachedBlockHashToBlock.contain (blockHash,group) b = false ∧
      lp.pool.insertBlockHash (blockHash,group) b (some n) = some pool ∧
      acc' = ({ lp with pool },acc.2 ++ [ext blockHash]) := by
  rw [LoggedPool.cacheFullBlock] at hround
  obtain ⟨lp,hremoved,hround⟩ := bind_eq_some_iff.mp hround
  obtain ⟨pool,hins,heq⟩ := map_eq_some_iff.mp hround
  by_cases hsome : (acc.1.pool.blocks b).blockHash.isSome = true
  · rw [if_pos hsome] at hremoved
    obtain ⟨-,hlp⟩ := ite_none_right_eq_some.mp hremoved
    cases hlp
    refine ⟨_,pool,.inr rfl,h.removeAndEmit hinj b,?_,hins,heq.symm⟩
    rw [Bool.eq_false_iff]
    intro hcontain
    exact (((stripped_removeCachedBlockHashes h.agrees b).contain _ b).mp hcontain).1 rfl
  · rw [if_neg hsome] at hremoved
    cases hremoved
    refine ⟨_,pool,.inl rfl,h,?_,hins,heq.symm⟩
    exact contain_eq_false_of_blockHash_eq_none h.agrees (by simpa using hsome) _

/-- The state of `cache_full_blocks` after some blocks: the hashes reported at the end are registered for
distinct blocks, if the blocks are distinct. -/
structure Caching (ext : H → X) (lp : LoggedPool H X) (group : ℕ) (done : List ℕ)
    (acc : LoggedPool H X × List X) : Prop where
  tracks : Tracks ext acc.1 acc.2 group
  isNull : ∀ b, (acc.1.pool.blocks b).isNull = (lp.pool.blocks b).isNull
  pending : done.Nodup → ∀ key : BlockHashWithGroupId H,
    occurrences (externalKey ext key) acc.2 group ≤
      (done.filter fun b => acc.1.pool.cachedBlockHashToBlock.contain key b).length
  neverNegative : done.Nodup → NeverNegative ext lp → NeverNegative ext acc.1

theorem Caching.skip {done : List ℕ} (h : Caching ext lp group done acc) (more : List ℕ) :
    Caching ext lp group (done ++ more) acc where
  tracks := h.tracks
  isNull := h.isNull
  pending hnodup key := by
    refine (h.pending (nodup_append.mp hnodup).1 key).trans ?_
    rw [filter_append, length_append]
    exact Nat.le_add_right _ _
  neverNegative hnodup := h.neverNegative (nodup_append.mp hnodup).1

theorem Caching.round (hinj : Function.Injective ext) {done : List ℕ}
    (h : Caching ext lp group done acc)
    (hround : cacheFullBlock ext acc b blockHash group n = some acc') :
    Caching ext lp group (done ++ [b]) acc' := by
  obtain ⟨lp₁,pool,hlp₁,ht,hnew,hins,rfl⟩ := h.tracks.cacheFullBlock hinj hround
  have hmap := numBlocks_insertBlockHash ht.agrees hnew hins
  -- other blocks keep their entries
  have hothers : ∀ key b', b' ≠ b →
      (lp₁.pool.cachedBlockHashToBlock.contain key b' = true ↔
        acc.1.pool.cachedBlockHashToBlock.contain key b' = true) := by
    intro key b' hb'
    rcases hlp₁ with rfl | rfl
    · rfl
    · refine ((stripped_removeCachedBlockHashes h.tracks.agrees b).contain key b').trans ?_
      exact and_iff_right hb'
  have hfilter : (done ++ [b]).Nodup → ∀ key,
      (done.filter fun b => lp₁.pool.cachedBlockHashToBlock.contain key b) =
        done.filter fun b => acc.1.pool.cachedBlockHashToBlock.contain key b := by
    intro hnodup key
    apply filter_congr
    intro b' hb'
    have hne : b' ≠ b := fun heq => (nodup_append.mp hnodup).2.2 b' hb' b (by simp) heq
    exact Bool.eq_iff_iff.mpr (hothers key b' hne)
  have hpending : (done ++ [b]).Nodup → ∀ key : BlockHashWithGroupId H,
      occurrences (externalKey ext key) acc.2 group ≤
        (done.filter fun b => lp₁.pool.cachedBlockHashToBlock.contain key b).length := by
    intro hnodup key
    rw [hfilter hnodup]
    exact h.pending (nodup_append.mp hnodup).1 key
  refine ⟨ht.insertBlockHash hinj hnew hins,?_,?_,?_⟩
  · intro b'
    have hrefs := sameRefs_insertBlockHash hins
    rw [← h.isNull b', hrefs.isNull]
    rcases hlp₁ with rfl | rfl
    · rfl
    · exact (sameRefs_removeCachedBlockHashes _ _).isNull b'
  · intro hnodup key
    have hbound := hpending hnodup key
    have hone := occurrences_external hinj key (blockHash,group)
    have hsplit : occurrences (externalKey ext key) (acc.2 ++ [ext blockHash]) group =
        occurrences (externalKey ext key) acc.2 group +
          if key = (blockHash,group) then 1 else 0 := by
      rw [← hone]
      simp only [occurrences, count_append]
      split <;> rfl
    have hmono : (done.filter fun b => lp₁.pool.cachedBlockHashToBlock.contain key b).length ≤
        (done.filter fun b => pool.cachedBlockHashToBlock.contain key b).length := by
      apply List.Sublist.length_le
      apply monotone_filter_right
      intro b' hb'
      rw [hmap]
      exact contain_insert.mpr (.inr hb')
    rw [hsplit, filter_append, length_append]
    refine Nat.add_le_add (hbound.trans hmono) ?_
    by_cases hkey : key = (blockHash,group)
    · have hlast : ([b].filter fun b => pool.cachedBlockHashToBlock.contain key b) = [b] := by
        have hcontain : pool.cachedBlockHashToBlock.contain key b = true := by
          rw [hmap]
          exact contain_insert.mpr (.inl ⟨hkey,rfl⟩)
        rw [filter_singleton, hcontain]
        rfl
      rw [if_pos hkey, hlast, length_singleton]
    · rw [if_neg hkey]
      exact Nat.zero_le _
  · intro hnodup hn
    have hn₁ := h.neverNegative (nodup_append.mp hnodup).1 hn
    change NeverNegative ext lp₁
    rcases hlp₁ with rfl | rfl
    · exact hn₁
    · refine hn₁.removeAndEmit hinj h.tracks b fun key => ?_
      refine (hpending hnodup key).trans (length_le_numBlocks ?_ ?_)
      · exact (nodup_append.mp hnodup).1.filter _
      · intro b' hb'
        exact (mem_filter.mp hb').2

/-- The loop of `cache_full_blocks`, over the blocks that are not null. -/
theorem caching_cacheFullBlocks (hinj : Function.Injective ext) {resolved : List H}
    {numCached : ℕ} {mask : Option (List Bool)} (ht : Tracks ext lp [] 0)
    (hfold : blocks.zipIdx.foldlM
      (cacheFullRound ext resolved numCached blockSize group mask) (lp,[]) = some acc) :
    Caching ext lp group (blocks.filter fun b => !(lp.pool.blocks b).isNull) acc := by
  have hloop : Caching ext lp group
      ((blocks.zipIdx.map Prod.fst).filter fun b => !(lp.pool.blocks b).isNull) acc := by
    refine foldlM_option_invariant (P := fun done acc => Caching ext lp group
      ((done.map Prod.fst).filter fun b => !(lp.pool.blocks b).isNull) acc) ?_ ?_ hfold
    · rintro done entry t t' - hcaching hround
      rw [map_append, filter_append]
      rw [cacheFullRound] at hround
      split at hround
      · cases hround
        exact hcaching.skip _
      · rename_i hkeep
        obtain ⟨blockHash,-,hround⟩ := bind_eq_some_iff.mp hround
        have hnull : (lp.pool.blocks entry.1).isNull = false := by
          rw [← hcaching.isNull]
          simp only [Bool.or_eq_true, not_or, Bool.not_eq_true] at hkeep
          exact hkeep.1
        have hone : ([entry].map Prod.fst).filter (fun b => !(lp.pool.blocks b).isNull) = [entry.1] := by
          simp [hnull]
        rw [hone]
        exact hcaching.round hinj hround
    · refine ⟨ht.settled group,fun _ => rfl,fun _ key => ?_,fun _ h => h⟩
      simp [occurrences]
  rwa [zipIdx_map_fst] at hloop

def DistinctBlocks (p : BlockPool H) : Call H → Prop
  | .cacheFullBlocks _ blocks numCachedBlocks numFullBlocks .. =>
    (((blocks.take numFullBlocks).drop numCachedBlocks).filter fun b => !(p.blocks b).isNull).Nodup
  | _ => True

instance (p : BlockPool H) : (call : Call H) → Decidable (DistinctBlocks p call)
  | .cacheFullBlocks .. => inferInstanceAs (Decidable (List.Nodup _))
  | .getNewBlocks _ | .touch _ | .freeBlocks _ | .cachePartialBlock .. | .moveBlockHashes ..
  | .evictBlocks _ | .resetPrefixCache => instDecidableTrue

theorem tracks_cacheFullBlocks (hinj : Function.Injective ext) {blockHashes : List H}
    {numCached numFull : ℕ} {mask : Option (List Bool)} (ht : Tracks ext lp [] 0)
    (h : cacheFullBlocks ext lp blockHashes blocks numCached numFull blockSize group mask = some lp') :
    Tracks ext lp' [] 0 ∧
      ((((blocks.take numFull).drop numCached).filter fun b => !(lp.pool.blocks b).isNull).Nodup →
        NeverNegative ext lp → NeverNegative ext lp') := by
  rw [cacheFullBlocks] at h
  split at h
  · cases h
    exact ⟨ht,fun _ hn => hn⟩
  dsimp only at h
  obtain ⟨-,h⟩ := ite_none_left_eq_some.mp h
  obtain ⟨resolved,-,h⟩ := bind_eq_some_iff.mp h
  obtain ⟨acc,hfold,h⟩ := bind_eq_some_iff.mp h
  obtain ⟨-,heq⟩ := ite_none_left_eq_some.mp h
  cases heq
  have hcaching := caching_cacheFullBlocks hinj ht hfold
  have hstored := (hcaching.tracks.store
    (if numCached = 0 then none else (resolved[numCached-1]?).map ext) blockSize).settled 0
  exact ⟨hstored,fun hnodup hn => (hcaching.neverNegative hnodup hn).append hstored rfl⟩

theorem Tracks.step (hinj : Function.Injective ext) {call : Call H} (ht : Tracks ext lp [] 0)
    (hstep : step ext lp call = some lp') : Tracks ext lp' [] 0 ∧
      (DistinctBlocks lp.pool call → NeverNegative ext lp → NeverNegative ext lp') := by
  simp only [LoggedPool.step] at hstep
  obtain ⟨-,hstep⟩ := ite_none_right_eq_some.mp hstep
  have hlog : LogStep ext lp lp' → Tracks ext lp' [] 0 ∧
      (DistinctBlocks lp.pool call → NeverNegative ext lp → NeverNegative ext lp') :=
    fun hstep => ⟨hstep.tracks ht,fun _ => hstep.neverNegative ht⟩
  cases call with
  | getNewBlocks n =>
    obtain ⟨⟨ret,lp₁⟩,hget,rfl⟩ := map_eq_some_iff.mp hstep
    exact hlog (logStep_getNewBlocks hinj hget)
  | touch blocks =>
    obtain ⟨pool,htouch,rfl⟩ := map_eq_some_iff.mp hstep
    exact hlog (logStep_sameHashes (sameHashes_touch htouch))
  | freeBlocks blocks =>
    cases hstep
    exact hlog (logStep_sameHashes (sameHashes_freeBlocks _ _))
  | cacheFullBlocks hashes blocks numCached numFull blockSize group mask =>
    exact tracks_cacheFullBlocks hinj ht hstep
  | cachePartialBlock hashes b numTokens group blockSize =>
    exact hlog (logStep_cachePartialBlock hinj hstep)
  | moveBlockHashes src dst =>
    obtain ⟨pool,hmove,rfl⟩ := map_eq_some_iff.mp hstep
    exact hlog (logStep_moveBlockHashes hmove)
  | evictBlocks ids => exact hlog (logStep_evictBlocks hinj hstep)
  | resetPrefixCache =>
    cases hstep
    exact hlog (logStep_resetPrefixCache lp)

end Faithful

theorem pool_cacheFullBlock {ext : H → X} {b : ℕ}
    (h : cacheFullBlock ext acc b blockHash group n = some acc') :
    acc.1.pool.cacheFullBlock b (blockHash,group) n = some acc'.1.pool := by
  rw [cacheFullBlock] at h
  obtain ⟨lp,hremoved,h⟩ := bind_eq_some_iff.mp h
  obtain ⟨pool,hins,rfl⟩ := map_eq_some_iff.mp h
  rw [BlockPool.cacheFullBlock]
  split
  · rename_i hnone
    rw [hnone] at hremoved
    cases hremoved
    exact hins
  · rename_i hsome
    rw [hsome] at hremoved
    obtain ⟨hshorter,hlp⟩ := ite_none_right_eq_some.mp hremoved
    cases hlp
    rw [if_pos hshorter]
    exact hins

theorem pool_step {ext : H → X} {lp lp' : LoggedPool H X} {call : BlockPool.Call H}
    (h : step ext lp call = some lp') : lp.pool.step call = some lp'.pool := by
  simp only [step] at h
  obtain ⟨hblocks,h⟩ := ite_none_right_eq_some.mp h
  simp only [BlockPool.step]
  rw [if_pos hblocks]
  cases call with
  | getNewBlocks n =>
    obtain ⟨⟨ret,lp₁⟩,hget,rfl⟩ := map_eq_some_iff.mp h
    rw [getNewBlocks] at hget
    obtain ⟨hfree,hget⟩ := ite_none_left_eq_some.mp hget
    obtain ⟨⟨popped,queue⟩,hpop,hget⟩ := bind_eq_some_iff.mp hget
    obtain ⟨lp₂,hfold,heq⟩ := map_eq_some_iff.mp hget
    cases heq
    have hpool := foldlM_option_simulates (g := BlockPool.allocateBlock) LoggedPool.pool ?_ hfold
    · dsimp only
      rw [BlockPool.getNewBlocks, if_neg hfree, hpop]
      change ((ret.foldlM BlockPool.allocateBlock _).map _).map _ = _
      rw [hpool]
      rfl
    · intro b t t' hround
      simp only [allocateBlock] at hround
      obtain ⟨hzero,heq⟩ := ite_none_right_eq_some.mp hround
      cases heq
      rw [apply_ite LoggedPool.pool] at hzero
      simp only [apply_ite LoggedPool.pool]
      exact if_pos hzero
  | touch blocks =>
    obtain ⟨pool,htouch,rfl⟩ := map_eq_some_iff.mp h
    exact htouch
  | freeBlocks blocks =>
    cases h
    rfl
  | cacheFullBlocks hashes blocks numCached numFull blockSize group mask =>
    dsimp only at h ⊢
    rw [cacheFullBlocks] at h
    rw [BlockPool.cacheFullBlocks]
    split at h
    · rename_i hdone
      cases h
      rw [if_pos hdone]
    rename_i hdone
    rw [if_neg hdone]
    dsimp only at h ⊢
    obtain ⟨hmask,h⟩ := ite_none_left_eq_some.mp h
    obtain ⟨resolved,hresolved,h⟩ := bind_eq_some_iff.mp h
    obtain ⟨acc,hfold,h⟩ := bind_eq_some_iff.mp h
    obtain ⟨-,heq⟩ := ite_none_left_eq_some.mp h
    cases heq
    rw [if_neg hmask, hresolved]
    refine foldlM_option_simulates (fun acc : LoggedPool H X × List X => acc.1.pool) ?_ hfold
    rintro ⟨b,i⟩ t t' hround
    rw [cacheFullRound] at hround
    dsimp only at hround ⊢
    split at hround
    · rename_i hskip
      cases hround
      rw [if_pos hskip]
    · rename_i hskip
      obtain ⟨blockHash,hhash,hround⟩ := bind_eq_some_iff.mp hround
      rw [if_neg hskip, hhash]
      exact pool_cacheFullBlock hround
  | cachePartialBlock hashes b numTokens group blockSize =>
    dsimp only at h ⊢
    simp only [cachePartialBlock] at h
    simp only [BlockPool.cachePartialBlock]
    split at h
    · rename_i hnull
      cases h
      rw [if_pos hnull]
      rfl
    rename_i hnull
    obtain ⟨hsizes,h⟩ := ite_none_right_eq_some.mp h
    obtain ⟨blockHash,hhash,h⟩ := bind_eq_some_iff.mp h
    obtain ⟨pool,hins,rfl⟩ := map_eq_some_iff.mp h
    rw [if_neg hnull, if_pos hsizes, hhash]
    have hremoved : (removeAndEmit ext lp b).pool = (lp.pool.removeCachedBlockHashes b).1 := rfl
    rw [apply_ite LoggedPool.pool, hremoved] at hins
    simp only [bind_some, hins, map_some]
    split <;> rfl
  | moveBlockHashes src dst =>
    obtain ⟨pool,hmove,rfl⟩ := map_eq_some_iff.mp h
    exact hmove
  | evictBlocks ids =>
    refine foldlM_option_simulates LoggedPool.pool ?_ h
    intro b t t' hround
    obtain ⟨hlt,heq⟩ := ite_none_right_eq_some.mp hround
    cases heq
    exact if_pos hlt
  | resetPrefixCache =>
    cases h
    simp only [resetPrefixCache, BlockPool.resetPrefixCache]
    split <;> rfl

def init (numGpuBlocks : ℕ) (enableCaching : Bool) (hashBlockSize : ℕ) : LoggedPool H X :=
  ⟨.init numGpuBlocks enableCaching hashBlockSize,[]⟩

omit [DecidableEq H] in
theorem tracks_init [DecidableEq X] (ext : H → X) (n : ℕ) (caching : Bool) (hashBlockSize : ℕ) :
    Tracks ext (init n caching hashBlockSize) [] 0 := by
  refine ⟨⟨fun key b => ?_,fun _ _ => rfl⟩,fun key => ?_⟩
  · simp [init, BlockPool.init, BlockPool.Owns, BlockPool.secondaryHashes]
  · simp [init, BlockPool.init, balance, occurrences, numBlocks, empty]

/-- The event log is faithful. After any calls, stored less removed occurrences of a key since the last
clearing are the blocks under the key, and if no call of `cache_full_blocks` names a block twice, no
prefix of the log removes more than it stored. -/
theorem kv_event_log_faithful [DecidableEq X] (ext : H → X) (hinj : Function.Injective ext) (n : ℕ)
    (caching : Bool) (hashBlockSize : ℕ) (lp : LoggedPool H X) :
    (Reachable (step ext) (fun _ _ _ => True) (init n caching hashBlockSize) lp →
      ∀ key : BlockHashWithGroupId H, balance (ext key.1,key.2) lp.kvEventQueue =
        lp.pool.cachedBlockHashToBlock.numBlocks key) ∧
    (Reachable (step ext) (fun lp call _ => DistinctBlocks lp.pool call) (init n caching hashBlockSize) lp →
      ∀ (key : BlockHashWithGroupId H) (log : List (KVCacheEvent X)), log <+: lp.kvEventQueue →
        0 ≤ balance (ext key.1,key.2) log) := by
  constructor
  · intro hrun key
    have ht : Tracks ext lp [] 0 :=
      hrun.invariant (P := fun lp => Tracks ext lp [] 0) (tracks_init ext n caching hashBlockSize)
        fun _ _ _ ht hstep _ => (ht.step hinj hstep).1
    have hcount := ht.counts key
    simp only [occurrences, count_nil, ite_self] at hcount
    rw [Nat.cast_zero, add_zero] at hcount
    exact hcount
  · intro hrun
    have hboth : Tracks ext lp [] 0 ∧ NeverNegative ext lp := by
      refine hrun.invariant (P := fun lp => Tracks ext lp [] 0 ∧ NeverNegative ext lp)
        ⟨tracks_init ext n caching hashBlockSize,?_⟩ ?_
      · intro key log hlog
        rw [prefix_nil.mp hlog]
        exact le_rfl
      · rintro s call s' ⟨ht,hn⟩ hstep hdistinct
        exact ⟨(ht.step hinj hstep).1,(ht.step hinj hstep).2 hdistinct hn⟩
    exact hboth.2

/-- A partial entry is promoted, moved to a copy and evicted there. -/
theorem kv_event_log_faithful_promoted : ∃ lp : LoggedPool ℕ ℕ,
    lp.kvEventQueue = [.blockStored [10] none 2 0,.blockRemoved [10] 0,.blockStored [11] none 4 0,
      .blockRemoved [11] 0] ∧
    (∀ key : BlockHashWithGroupId ℕ, balance (key.1,key.2) lp.kvEventQueue =
      lp.pool.cachedBlockHashToBlock.numBlocks key) ∧
    ∀ (key : BlockHashWithGroupId ℕ) (log : List (KVCacheEvent ℕ)), log <+: lp.kvEventQueue →
      0 ≤ balance (key.1,key.2) log := by
  obtain ⟨lp,hrun,hqueue⟩ := Reachable.exists_of_runGuarded (step (id : ℕ → ℕ))
    (fun lp call _ h => show DistinctBlocks lp.pool call from of_decide_eq_true h) (init 5 true 2)
    [.getNewBlocks 2,.cachePartialBlock [10,11] 1 2 0 4,.cacheFullBlocks [10,11] [1] 0 1 4 0 none,
      .getNewBlocks 1,.moveBlockHashes 1 3,.evictBlocks [3]]
    (fun lp => decide (lp.kvEventQueue = [.blockStored [10] none 2 0,.blockRemoved [10] 0,
      .blockStored [11] none 4 0,.blockRemoved [11] 0])) (by decide +kernel)
  have hfaithful := kv_event_log_faithful id Function.injective_id 5 true 2 lp
  exact ⟨lp,of_decide_eq_true hqueue,hfaithful.1 (hrun.mono fun _ _ _ _ => trivial),hfaithful.2 hrun⟩

/-- A call that names a block twice promotes an entry it has not reported, and the removal comes first. -/
theorem kv_event_log_negative : ∃ lp : LoggedPool ℕ ℕ,
    Reachable (step id) (fun _ _ _ => True) (init 3 true 2) lp ∧
      ∃ log, log <+: lp.kvEventQueue ∧ balance (7,0) log < 0 := by
  obtain ⟨lp,hrun,hqueue⟩ := Reachable.exists_of_runGuarded (step (id : ℕ → ℕ))
    (fun _ _ _ (_ : true = true) => trivial) (init 3 true 2)
    [.getNewBlocks 1,.cacheFullBlocks [7,8] [1,1] 0 2 2 0 none]
    (fun lp => decide (lp.kvEventQueue = [.blockRemoved [7] 0,.blockStored [7,8] none 2 0]))
    (by decide +kernel)
  rw [decide_eq_true_eq] at hqueue
  refine ⟨lp,hrun,[.blockRemoved [7] 0],?_,by decide⟩
  rw [hqueue]
  exact prefix_append _ _

end LoggedPool

end MetaZenith.KVCache
