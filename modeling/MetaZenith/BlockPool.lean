import Mathlib

/-! The pool of KV cache blocks: reference counts, the free queue and the prefix-cache map. -/

namespace MetaZenith.KVCache

open List Option Function

variable {b b' : ℕ}

universe u

abbrev BlockHashWithGroupId (H : Type u) := H × ℕ

structure KVCacheBlock (H : Type u) where
  refCnt : ℤ := 0
  blockHash : Option (BlockHashWithGroupId H) := none
  blockHashNumTokens : Option ℕ := none
  isNull : Bool := false

variable {H : Type u}

def KVCacheBlock.setBlockHash (blk : KVCacheBlock H) (key : BlockHashWithGroupId H)
    (numTokens : Option ℕ) : Option (KVCacheBlock H) :=
  if blk.blockHash.isNone && blk.blockHashNumTokens.isNone then
    some { blk with blockHash := some key, blockHashNumTokens := numTokens }
  else none

def KVCacheBlock.resetHash (blk : KVCacheBlock H) : KVCacheBlock H :=
  { blk with blockHash := none, blockHashNumTokens := none }

inductive CachedBlocks
  | one (b : ℕ)
  | dict (ids : List ℕ) (nodup : ids.Nodup)

namespace CachedBlocks

def ids : CachedBlocks → List ℕ
  | one b => [b]
  | dict ids _ => ids

theorem ids_nodup (c : CachedBlocks) : c.ids.Nodup := by
  cases c with
  | one b => exact nodup_singleton b
  | dict ids nodup => exact nodup

def add (c : CachedBlocks) (b : ℕ) : CachedBlocks :=
  dict (if b ∈ c.ids then c.ids else c.ids ++ [b]) (by
    split
    · exact c.ids_nodup
    · rename_i hb
      exact c.ids_nodup.append (nodup_singleton b) (by simpa using hb))

def drop (c : CachedBlocks) (b : ℕ) : Option CachedBlocks :=
  match c with
  | one b' => if b' = b then none else some (one b')
  | dict ids nodup => if ids.erase b = [] then none else some (dict (ids.erase b) (nodup.erase b))

theorem mem_ids_add {c : CachedBlocks} : b' ∈ (c.add b).ids ↔ b' = b ∨ b' ∈ c.ids := by
  change b' ∈ (if b ∈ c.ids then c.ids else c.ids ++ [b]) ↔ _
  split
  · rename_i hb
    constructor
    · exact Or.inr
    · rintro (rfl | h) <;> assumption
  · rw [mem_append, mem_singleton, or_comm]

theorem mem_ids_drop {c : CachedBlocks} : (∃ d ∈ c.drop b, b' ∈ d.ids) ↔ b' ≠ b ∧ b' ∈ c.ids := by
  cases c with
  | one b₀ =>
    by_cases h : b₀ = b
    · simp [drop, ids, h]
    · simp only [drop, if_neg h, mem_def, Option.some.injEq, exists_eq_left', ids, mem_singleton]
      exact ⟨fun hb => ⟨hb ▸ h,hb⟩,And.right⟩
  | dict l nodup =>
    by_cases h : l.erase b = []
    · have hnone := nodup.mem_erase_iff (a := b') (b := b)
      rw [h] at hnone
      simpa [drop, ids, h] using hnone
    · simp only [drop, if_neg h, mem_def, Option.some.injEq, exists_eq_left', ids]
      exact nodup.mem_erase_iff

end CachedBlocks

structure BlockHashToBlockMap (H : Type u) where
  cache : BlockHashWithGroupId H → Option CachedBlocks

namespace BlockHashToBlockMap

def empty : BlockHashToBlockMap H := ⟨fun _ => none⟩

def getOneBlock (m : BlockHashToBlockMap H) (key : BlockHashWithGroupId H) : Option ℕ :=
  (m.cache key).bind fun c => c.ids.head?

def contain (m : BlockHashToBlockMap H) (key : BlockHashWithGroupId H) (b : ℕ) : Bool :=
  (m.cache key).any fun c => b ∈ c.ids

variable {key : BlockHashWithGroupId H}

theorem contain_iff {m : BlockHashToBlockMap H} :
    m.contain key b = true ↔ ∃ c ∈ m.cache key, b ∈ c.ids := by
  simp [contain, Option.any_eq_true]

@[simp] theorem contain_empty (key : BlockHashWithGroupId H) (b : ℕ) :
    (empty : BlockHashToBlockMap H).contain key b = false := rfl

variable [DecidableEq H]

def insert (m : BlockHashToBlockMap H) (key : BlockHashWithGroupId H) (b : ℕ) :
    BlockHashToBlockMap H :=
  ⟨update m.cache key (match m.cache key with
    | none => some (.one b)
    | some c => some (c.add b))⟩

def pop (m : BlockHashToBlockMap H) (key : BlockHashWithGroupId H) (b : ℕ) :
    BlockHashToBlockMap H × Bool :=
  (⟨update m.cache key ((m.cache key).bind fun c => c.drop b)⟩,m.contain key b)

variable {m : BlockHashToBlockMap H} {key' : BlockHashWithGroupId H}

theorem contain_insert : (m.insert key b).contain key' b' = true ↔
      (key' = key ∧ b' = b) ∨ m.contain key' b' = true := by
  by_cases hk : key' = key
  · subst hk
    cases hm : m.cache key' with
    | none => simp [contain_iff, insert, hm, CachedBlocks.ids]
    | some c => simp [contain_iff, insert, hm, CachedBlocks.mem_ids_add]
  · simp [contain_iff, insert, hk]

theorem contain_pop : (m.pop key b).1.contain key' b' = true ↔
      ¬(key' = key ∧ b' = b) ∧ m.contain key' b' = true := by
  by_cases hk : key' = key
  · subst hk
    cases hm : m.cache key' with
    | none => simp [contain_iff, pop, hm]
    | some c =>
      simp only [contain_iff, pop, hm, update_self, bind_some, true_and,
        mem_def, Option.some.injEq, exists_eq_left']
      exact CachedBlocks.mem_ids_drop
  · simp [contain_iff, pop, hk]

def popAll (m : BlockHashToBlockMap H) (b : ℕ) :
    List (BlockHashWithGroupId H) → BlockHashToBlockMap H × List (BlockHashWithGroupId H)
  | [] => (m,[])
  | key :: keys =>
    let popped := m.pop key b
    let rest := popAll popped.1 b keys
    (rest.1,if popped.2 then key :: rest.2 else rest.2)

theorem contain_popAll {keys : List (BlockHashWithGroupId H)} :
    (m.popAll b keys).1.contain key' b' = true ↔
      ¬(key' ∈ keys ∧ b' = b) ∧ m.contain key' b' = true := by
  induction keys generalizing m with
  | nil => simp [popAll]
  | cons key keys ih =>
    simp only [popAll, ih, contain_pop, mem_cons]
    tauto

theorem mem_popAll {keys : List (BlockHashWithGroupId H)} :
    key' ∈ (m.popAll b keys).2 ↔ key' ∈ keys ∧ m.contain key' b = true := by
  induction keys generalizing m with
  | nil => simp [popAll]
  | cons key keys ih =>
    have hrest : key' ∈ ((m.pop key b).1.popAll b keys).2 ↔
        key' ∈ keys ∧ key' ≠ key ∧ m.contain key' b = true := by
      rw [ih, contain_pop]
      tauto
    have hfound : (m.pop key b).2 = m.contain key b := rfl
    simp only [popAll, hfound, mem_cons]
    by_cases hk : key' = key
    · subst hk
      by_cases hp : m.contain key' b = true
      · simp [hp]
      · simp [hp, hrest]
    · split <;> simp [hk, hrest]

end BlockHashToBlockMap

structure FreeKVCacheBlockQueue where
  blocks : List ℕ
  numFreeBlocks : ℕ

variable (q : FreeKVCacheBlockQueue)

namespace FreeKVCacheBlockQueue

def popleftN (n : ℕ) : Option (List ℕ × FreeKVCacheBlockQueue) :=
  if n = 0 then some ([],q)
  else if n ≤ q.numFreeBlocks then some (q.blocks.take n,⟨q.blocks.drop n,q.numFreeBlocks-n⟩)
  else none

def remove (b : ℕ) : Option FreeKVCacheBlockQueue :=
  if b ∈ q.blocks then some ⟨q.blocks.erase b,q.numFreeBlocks-1⟩ else none

def prependN (bs : List ℕ) : FreeKVCacheBlockQueue :=
  ⟨bs ++ q.blocks,q.numFreeBlocks+bs.length⟩

def appendN (bs : List ℕ) : FreeKVCacheBlockQueue :=
  ⟨q.blocks ++ bs,q.numFreeBlocks+bs.length⟩

end FreeKVCacheBlockQueue

def resolveBlockHashes (blockHashes : List H) (hashBlockSize blockSize : ℕ) : Option (List H) :=
  if blockSize = hashBlockSize then some blockHashes
  else if blockSize%hashBlockSize = 0 then
    let scaleFactor := blockSize/hashBlockSize
    some ((List.range (blockHashes.length/scaleFactor)).filterMap fun idx =>
      blockHashes[(idx+1)*scaleFactor-1]?)
  else none

/-- `blocks b` is the block with id `b`, for `b < numGpuBlocks`. A set of secondary hashes is the
list of its elements, in the order in which it is iterated. -/
structure BlockPool (H : Type u) where
  numGpuBlocks : ℕ
  enableCaching : Bool
  hashBlockSize : ℕ
  blocks : ℕ → KVCacheBlock H
  freeBlockQueue : FreeKVCacheBlockQueue
  cachedBlockHashToBlock : BlockHashToBlockMap H
  cachedBlockHashesByBlock : ℕ → Option (List (BlockHashWithGroupId H))

namespace BlockPool

def nullBlock : ℕ := 0

def init (numGpuBlocks : ℕ) (enableCaching : Bool) (hashBlockSize : ℕ) : BlockPool H where
  numGpuBlocks := numGpuBlocks
  enableCaching := enableCaching
  hashBlockSize := hashBlockSize
  blocks b := { isNull := b == nullBlock }
  freeBlockQueue := ⟨(List.range numGpuBlocks).tail,numGpuBlocks-1⟩
  cachedBlockHashToBlock := .empty
  cachedBlockHashesByBlock _ := none

def setBlock (p : BlockPool H) (b : ℕ) (blk : KVCacheBlock H) : BlockPool H :=
  { p with blocks := update p.blocks b blk }

def secondaryHashes (p : BlockPool H) (b : ℕ) : List (BlockHashWithGroupId H) :=
  (p.cachedBlockHashesByBlock b).getD []

def getNumFreeBlocks (p : BlockPool H) : ℕ := p.freeBlockQueue.numFreeBlocks

variable [DecidableEq H]

variable (p : BlockPool H)

def getCachedBlock (blockHash : H) (groupIds : List ℕ) : Option (List ℕ) :=
  groupIds.mapM fun g => p.cachedBlockHashToBlock.getOneBlock (blockHash,g)

def removeCachedBlockHashes (b : ℕ) : BlockPool H × List (BlockHashWithGroupId H) :=
  let blockHashes := (p.blocks b).blockHash.toList ++ p.secondaryHashes b
  let p := { p with
    cachedBlockHashesByBlock := update p.cachedBlockHashesByBlock b none }
  if blockHashes = [] then (p,[])
  else
    let popped := p.cachedBlockHashToBlock.popAll b blockHashes
    ({ p.setBlock b (p.blocks b).resetHash with cachedBlockHashToBlock := popped.1 },popped.2)

def insertBlockHash (key : BlockHashWithGroupId H) (b : ℕ) (numTokens : Option ℕ) :
    Option (BlockPool H) :=
  if (p.blocks b).blockHash = some key then some p
  else if p.cachedBlockHashToBlock.contain key b then some p
  else
    let p' := { p with cachedBlockHashToBlock := p.cachedBlockHashToBlock.insert key b }
    match (p.blocks b).blockHash with
    | none => ((p.blocks b).setBlockHash key numTokens).map fun blk => p'.setBlock b blk
    | some _ => some { p' with
        cachedBlockHashesByBlock :=
          update p.cachedBlockHashesByBlock b (some ((p.secondaryHashes b).insert key)) }

def cacheFullBlock (b : ℕ) (key : BlockHashWithGroupId H) (numHashTokens : ℕ) :
    Option (BlockPool H) :=
  match (p.blocks b).blockHash with
  | none => p.insertBlockHash key b (some numHashTokens)
  | some _ =>
    -- only a partial entry of the same block may be promoted
    if (p.blocks b).blockHashNumTokens.any (· < numHashTokens) then
      (p.removeCachedBlockHashes b).1.insertBlockHash key b (some numHashTokens)
    else none

def cacheFullBlocks (blockHashes : List H) (blocks : List ℕ)
    (numCachedBlocks numFullBlocks blockSize kvCacheGroupId : ℕ) (blockMask : Option (List Bool)) :
    Option (BlockPool H) :=
  if numFullBlocks ≤ numCachedBlocks then some p
  else
    let newFullBlocks := (blocks.take numFullBlocks).drop numCachedBlocks
    if blockMask.any fun mask => mask.length ≠ newFullBlocks.length then none
    else (resolveBlockHashes blockHashes p.hashBlockSize blockSize).bind fun resolved =>
      newFullBlocks.zipIdx.foldlM (fun p (b,i) =>
        if (p.blocks b).isNull || blockMask.any (fun mask => mask[i]? == some false) then some p
        else (resolved.drop numCachedBlocks)[i]?.bind fun blockHash =>
          p.cacheFullBlock b (blockHash,kvCacheGroupId) ((numCachedBlocks+i+1)*blockSize)) p

def getPartialBlockHash (blockHashes : List H) (numTokens : ℕ) : Option H :=
  if numTokens%p.hashBlockSize = 0 ∧ 0 < numTokens/p.hashBlockSize then
    blockHashes[numTokens/p.hashBlockSize-1]?
  else none

def cachePartialBlock (blockHashes : List H) (b numTokens : ℕ) (kvCacheGroupId blockSize : ℕ) :
    Option (BlockPool H × Option (BlockHashWithGroupId H)) :=
  if (p.blocks b).isNull then some (p,none)
  else if p.hashBlockSize < blockSize ∧ blockSize%p.hashBlockSize = 0 ∧
      numTokens%blockSize ≠ 0 then
    (p.getPartialBlockHash blockHashes numTokens).bind fun blockHash =>
      let key := (blockHash,kvCacheGroupId)
      let numHashTokens := numTokens/p.hashBlockSize*p.hashBlockSize
      let alreadyCached := (p.blocks b).blockHash == some key ||
        p.cachedBlockHashToBlock.contain key b
      let shorter := (p.blocks b).blockHash.isSome &&
        (p.blocks b).blockHashNumTokens.any (· < numHashTokens)
      let p := if !alreadyCached && shorter then (p.removeCachedBlockHashes b).1 else p
      (p.insertBlockHash key b (some numHashTokens)).map fun p => (p,some key)
  else none

def moveBlockHashes (src dst : ℕ) : Option (BlockPool H) :=
  if (p.blocks dst).blockHash.isNone ∧ (p.cachedBlockHashesByBlock dst).isNone then
    let removed := p.removeCachedBlockHashes src
    removed.2.foldlM (fun q key =>
      q.insertBlockHash key dst (p.blocks src).blockHashNumTokens) removed.1
  else none

def maybeEvictCachedBlock (b : ℕ) : BlockPool H × Bool :=
  let evicted := p.removeCachedBlockHashes b
  (evicted.1,!evicted.2.isEmpty)

def allocateBlock (b : ℕ) : Option (BlockPool H) :=
  let p := if p.enableCaching then (p.maybeEvictCachedBlock b).1 else p
  if (p.blocks b).refCnt = 0 then
    some (p.setBlock b { p.blocks b with refCnt := (p.blocks b).refCnt+1 })
  else none

def getNewBlocks (numBlocks : ℕ) : Option (List ℕ × BlockPool H) :=
  if p.getNumFreeBlocks < numBlocks then none
  else (p.freeBlockQueue.popleftN numBlocks).bind fun (ret,queue) =>
    (ret.foldlM allocateBlock { p with freeBlockQueue := queue }).map fun p => (ret,p)

def touchBlock (b : ℕ) : Option (BlockPool H) :=
  (if (p.blocks b).refCnt = 0 ∧ (p.blocks b).isNull = false then
      (p.freeBlockQueue.remove b).map fun queue => { p with freeBlockQueue := queue }
    else some p).map fun p => p.setBlock b { p.blocks b with refCnt := (p.blocks b).refCnt+1 }

def touch (blocks : List ℕ) : Option (BlockPool H) :=
  blocks.foldlM touchBlock p

/-- The loop of `free_blocks`, with the blocks that go to the front and those that go to the
back of the free queue. -/
def releaseBlock (acc : BlockPool H × List ℕ × List ℕ) (b : ℕ) :
    BlockPool H × List ℕ × List ℕ :=
  let p := acc.1
  let refCnt := (p.blocks b).refCnt-1
  let p' := p.setBlock b { p.blocks b with refCnt := refCnt }
  if refCnt = 0 ∧ (p.blocks b).isNull = false then
    if (p.blocks b).blockHash.isNone && p.enableCaching then (p',acc.2.1 ++ [b],acc.2.2)
    else (p',acc.2.1,acc.2.2 ++ [b])
  else (p',acc.2)

def freeBlocks (orderedBlocks : List ℕ) : BlockPool H :=
  let freed := orderedBlocks.foldl releaseBlock (p,[],[])
  { freed.1 with
    freeBlockQueue := (freed.1.freeBlockQueue.prependN freed.2.1).appendN freed.2.2 }

def evictBlocks (blockIds : List ℕ) : Option (BlockPool H) :=
  blockIds.foldlM (fun p b =>
    if b < p.numGpuBlocks then some (p.maybeEvictCachedBlock b).1 else none) p

def resetPrefixCache : BlockPool H × Bool :=
  if (p.numGpuBlocks : ℤ)-p.getNumFreeBlocks ≠ 1 then (p,false)
  else ({ p with
    cachedBlockHashToBlock := .empty
    cachedBlockHashesByBlock := fun _ => none
    blocks := fun b => (p.blocks b).resetHash },true)

end BlockPool

end MetaZenith.KVCache
