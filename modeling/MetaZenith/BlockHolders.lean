import MetaZenith.SlotSystem

/-! Who holds a block: in every call of a manager, the reference count of a block changes by as
much as the number of places that hold it. -/

namespace MetaZenith.KVCache

open BlockPool List Option

variable {b cow n numTokens source : ℕ} {blocks new ret : List ℕ}

universe u v w

set_option linter.unusedSectionVars false

namespace BlockPool

variable {H : Type u} [DecidableEq H] {p q : BlockPool H} {b : ℕ}

structure Sound (p : BlockPool H) : Prop extends FreeListed p where
  inPool : ∀ b, b ≠ nullBlock → (p.blocks b).refCnt ≠ 0 → b < p.numGpuBlocks
  null_lt : nullBlock < p.numGpuBlocks

theorem Sound.congr (hp : Sound p) (hpq : SameRefs p q) : Sound q where
  toFreeListed := hp.toFreeListed.congr hpq
  inPool b hb hne := by
    rw [hpq.refCnt] at hne
    rw [hpq.numGpuBlocks]
    exact hp.inPool b hb hne
  null_lt := hpq.numGpuBlocks ▸ hp.null_lt

theorem sound_init (hn : 0 < n) (enableCaching : Bool) (hashBlockSize : ℕ) :
    Sound (init n enableCaching hashBlockSize : BlockPool H) := by
  have htail (b : ℕ) : b ∈ (List.range n).tail ↔ b < n ∧ b ≠ 0 := by
    rw [← drop_one, range_eq_range', drop_range', mem_range'_1]
    omega
  refine ⟨⟨(nodup_range).tail,fun b => ?_,?_,fun b => rfl,fun b _ => le_rfl⟩,
    fun b _ hne => absurd rfl hne,hn⟩
  · simp only [init, htail]
    exact ⟨fun h => ⟨h.1,h.2,trivial⟩,fun h => ⟨h.1,h.2.1⟩⟩
  · simp [init]

theorem touchBlock_refCnt (h : p.touchBlock b = some q) (b' : ℕ) :
    (q.blocks b').refCnt = (p.blocks b').refCnt + [b].count b' := by
  obtain ⟨p',hp',rfl⟩ := map_eq_some_iff.mp h
  have hblocks : p'.blocks = p.blocks := by
    split at hp'
    · obtain ⟨queue,-,rfl⟩ := map_eq_some_iff.mp hp'
      rfl
    · cases hp'
      rfl
  rw [refCnt_setRefCnt, hblocks]
  by_cases hb : b' = b
  · simp [hb]
  · simp [hb, Ne.symm hb]

theorem touch_refCnt (h : p.touch blocks = some q) (b : ℕ) :
    (q.blocks b).refCnt = (p.blocks b).refCnt+blocks.count b := by
  refine foldlM_option_invariant (P := fun done t =>
    (t.blocks b).refCnt = (p.blocks b).refCnt+done.count b) ?_ (by simp) h
  intro done a t t' _ ht hround
  rw [touchBlock_refCnt hround, ht, count_append]
  push_cast
  ring

theorem allocateBlock_refCnt (h : p.allocateBlock b = some q) :
    (p.blocks b).refCnt = 0 ∧ q.numGpuBlocks = p.numGpuBlocks ∧
      ∀ b', (q.blocks b').refCnt = (p.blocks b').refCnt + [b].count b' := by
  simp only [allocateBlock] at h
  have hevict : SameRefs p (if p.enableCaching then (p.maybeEvictCachedBlock b).1 else p) := by
    split
    · exact sameRefs_removeCachedBlockHashes p b
    · exact .refl p
  generalize (if p.enableCaching then (p.maybeEvictCachedBlock b).1 else p) = p₁ at h hevict
  obtain ⟨hzero,h⟩ := ite_none_right_eq_some.mp h
  cases h
  refine ⟨hevict.refCnt b ▸ hzero,hevict.numGpuBlocks,fun b' => ?_⟩
  rw [refCnt_setRefCnt, ← hevict.refCnt b']
  by_cases hb : b' = b
  · simp [hb]
  · simp [hb, Ne.symm hb]

theorem getNewBlocks_refCnt (h : p.getNewBlocks n = some (new,q)) : q.numGpuBlocks = p.numGpuBlocks ∧
      ∀ b, (q.blocks b).refCnt = (p.blocks b).refCnt+new.count b := by
  simp only [getNewBlocks] at h
  obtain ⟨-,h⟩ := ite_none_left_eq_some.mp h
  obtain ⟨⟨popped,queue⟩,-,h⟩ := bind_eq_some_iff.mp h
  obtain ⟨q',hfold,heq⟩ := map_eq_some_iff.mp h
  cases heq
  refine foldlM_option_invariant (P := fun done t => t.numGpuBlocks = p.numGpuBlocks ∧
    ∀ b, (t.blocks b).refCnt = (p.blocks b).refCnt+done.count b) ?_ ⟨rfl,by simp⟩ hfold
  intro done a t t' _ ht hround
  obtain ⟨-,hnum,hrefs⟩ := allocateBlock_refCnt hround
  refine ⟨hnum.trans ht.1,fun b => ?_⟩
  rw [hrefs, ht.2, count_append]
  push_cast
  ring

theorem freeBlocks_refCnt (p : BlockPool H) (blocks : List ℕ) (b : ℕ) :
    ((p.freeBlocks blocks).blocks b).refCnt = (p.blocks b).refCnt-blocks.count b := by
  have hloop : ∀ (l : List ℕ) (acc : BlockPool H × List ℕ × List ℕ),
      ((l.foldl releaseBlock acc).1.blocks b).refCnt = (acc.1.blocks b).refCnt-l.count b := by
    intro l
    induction l with
    | nil => simp
    | cons a l ih =>
      intro acc
      rw [foldl_cons, ih, releaseBlock_pool, refCnt_setRefCnt, count_cons]
      by_cases hb : b = a
      · simp [hb]
        ring
      · simp [hb, Ne.symm hb]
  exact hloop blocks (p,[],[])

theorem Sound.touchBlock (hp : Sound p) (h : p.touchBlock b = some q) : Sound q := by
  have hlt : b < p.numGpuBlocks := by
    by_cases hnull : b = nullBlock
    · exact hnull ▸ hp.null_lt
    by_cases hzero : (p.blocks b).refCnt = 0
    · -- an unreferenced block is taken out of the queue
      obtain ⟨p',hp',-⟩ := map_eq_some_iff.mp h
      rw [if_pos ⟨hzero,by simp [hp.isNull, hnull]⟩] at hp'
      obtain ⟨queue,hqueue,-⟩ := map_eq_some_iff.mp hp'
      obtain ⟨hmem,-⟩ := ite_none_right_eq_some.mp hqueue
      exact ((hp.mem_iff b).mp hmem).1
    · exact hp.inPool b hnull hzero
  obtain ⟨hq,hsame⟩ := hp.toFreeListed.touchBlock hlt h
  refine ⟨hq,fun b' hb' hne => ?_,hsame.numGpuBlocks ▸ hp.null_lt⟩
  rw [hsame.numGpuBlocks]
  by_cases hbb : b' = b
  · exact hbb ▸ hlt
  · rw [touchBlock_refCnt h, List.count_singleton, if_neg (by simpa using Ne.symm hbb)] at hne
    exact hp.inPool b' hb' (by simpa using hne)

theorem Sound.touch (hp : Sound p) (h : p.touch blocks = some q) : Sound q :=
  foldlM_option_keeps (fun _ _ _ _ ht hround => ht.touchBlock hround) hp h

theorem Sound.getNewBlocks (hp : Sound p) (h : p.getNewBlocks n = some (new,q)) :
    Sound q ∧ new.length = n ∧ nullBlock ∉ new := by
  obtain ⟨hnew,hrest,hnum,hle,hnull⟩ := getNewBlocks_queue h
  obtain ⟨hpool,hrefs⟩ := getNewBlocks_refCnt h
  have hsplit : p.freeBlockQueue.blocks = new ++ q.freeBlockQueue.blocks := by
    rw [hnew, hrest, take_append_drop]
  have hnodup := hp.nodup
  rw [hsplit] at hnodup
  have hmem (b : ℕ) : b ∈ new ++ q.freeBlockQueue.blocks ↔
      b < p.numGpuBlocks ∧ b ≠ nullBlock ∧ (p.blocks b).refCnt = 0 := by
    rw [← hsplit]
    exact hp.mem_iff b
  have hcount (b : ℕ) : b ∉ new → (q.blocks b).refCnt = (p.blocks b).refCnt := by
    intro hb
    rw [hrefs, count_eq_zero_of_not_mem hb]
    simp
  have hone (b : ℕ) (hb : b ∈ new) : (q.blocks b).refCnt = 1 := by
    rw [hrefs, count_eq_one_of_mem (nodup_append.mp hnodup).1 hb,
      ((hmem b).mp (mem_append_left _ hb)).2.2]
    rfl
  refine ⟨⟨⟨(nodup_append.mp hnodup).2.1,fun b => ?_,?_,fun b => ?_,fun b hb => ?_⟩,?_,?_⟩,?_,?_⟩
  · rw [hpool]
    by_cases hb : b ∈ new
    · have hout : b ∉ q.freeBlockQueue.blocks := fun hm =>
        (nodup_append.mp hnodup).2.2 b hb b hm rfl
      simp [hone b hb, hout]
    · have hm := hmem b
      rw [mem_append, or_iff_right hb] at hm
      rwa [hcount b hb]
  · rw [hnum, hp.num, hrest, length_drop]
  · rw [hnull]
    exact hp.isNull b
  · rw [hrefs]
    have := hp.nonneg b hb
    positivity
  · intro b hb hne
    rw [hpool]
    by_cases hbn : b ∈ new
    · exact ((hmem b).mp (mem_append_left _ hbn)).1
    · rw [hcount b hbn] at hne
      exact hp.inPool b hb hne
  · rw [hpool]
    exact hp.null_lt
  · rw [hnew, length_take, ← hp.num]
    exact min_eq_left hle
  · exact fun hn => ((hmem _).mp (mem_append_left _ hn)).2.1 rfl

theorem Sound.freeBlocks (hp : Sound p)
    (hb : ∀ b, b ≠ nullBlock → (blocks.count b : ℤ) ≤ (p.blocks b).refCnt) :
    Sound (p.freeBlocks blocks) := by
  have hlt : ∀ b ∈ blocks, b < p.numGpuBlocks := by
    intro b hmem
    by_cases hnull : b = nullBlock
    · exact hnull ▸ hp.null_lt
    · have hpos := count_pos_iff.mpr hmem
      have := hb b hnull
      exact hp.inPool b hnull (by omega)
  obtain ⟨hq,hsame⟩ := hp.toFreeListed.freeBlocks hlt hb
  refine ⟨hq,fun b hne hcnt => ?_,hsame.numGpuBlocks ▸ hp.null_lt⟩
  rw [freeBlocks_refCnt] at hcnt
  rw [hsame.numGpuBlocks]
  have := hb b hne
  have := hp.nonneg b hne
  exact hp.inPool b hne (by omega)

theorem Sound.addRef (hp : Sound p) (hb : b ≠ nullBlock → 0 < (p.blocks b).refCnt) :
    Sound (p.setBlock b { p.blocks b with refCnt := (p.blocks b).refCnt+1 }) := by
  have hsame := sameHashes_setRefCnt p b ((p.blocks b).refCnt+1)
  have hmono (b' : ℕ) (hb' : b' ≠ nullBlock) :
      (((p.setBlock b { p.blocks b with refCnt := (p.blocks b).refCnt+1 }).blocks b').refCnt = 0 ↔
        (p.blocks b').refCnt = 0) := by
    rw [refCnt_setRefCnt]
    split
    · rename_i hbb
      have := hb (hbb ▸ hb')
      rw [hbb]
      omega
    · rfl
  refine ⟨⟨hp.nodup,fun b' => ?_,hp.num,fun b' => ?_,fun b' hb' => ?_⟩,?_,hp.null_lt⟩
  · refine (hp.mem_iff b').trans (and_congr_right fun _ => and_congr_right fun hne => ?_)
    exact (hmono b' hne).symm
  · rw [hsame.isNull, hp.isNull]
  · rw [refCnt_setRefCnt]
    have := hp.nonneg b' hb'
    split
    · rename_i hbb
      have := hp.nonneg b (hbb ▸ hb')
      omega
    · exact this
  · intro b' hb' hne
    exact hp.inPool b' hb' fun hzero => hne ((hmono b' hb').mpr hzero)

end BlockPool

namespace SingleTypeKVCacheManager

variable {H : Type u} [DecidableEq H]

def copyEnds (m : SingleTypeKVCacheManager H) : List ℕ :=
  m.pendingCowCopies.flatMap fun c => [c.1,c.2]

def load (m : SingleTypeKVCacheManager H) (r : RequestId) (b : ℕ) : ℤ :=
  (m.reqToBlocks r).count b+m.copyEnds.count b

theorem load_nonneg (m : SingleTypeKVCacheManager H) (r : RequestId) (b : ℕ) : 0 ≤ m.load r b := by
  unfold load
  positivity

/-- The reference counts are those of the holders: `base` of other holders, the request and the
copies in this group, and blocks `extra` that were taken and not yet placed. -/
structure Account (r : RequestId) (base : ℕ → ℤ) (p : BlockPool H) (m : SingleTypeKVCacheManager H)
    (extra : List ℕ) : Prop where
  sound : p.Sound
  nonneg : ∀ b, b ≠ nullBlock → 0 ≤ base b
  refs : ∀ b, b ≠ nullBlock →
    (p.blocks b).refCnt = base b+m.load r b+extra.count b

def Grows (p q : BlockPool H) : Prop := ∀ b, (p.blocks b).refCnt ≤ (q.blocks b).refCnt

theorem Grows.refl (p : BlockPool H) : Grows p p := fun _ => le_rfl

theorem Grows.trans {p q s : BlockPool H} (h : Grows p q) (h' : Grows q s) : Grows p s :=
  fun b => (h b).trans (h' b)

theorem grows_of_count {p q : BlockPool H}
    (h : ∀ b, (q.blocks b).refCnt = (p.blocks b).refCnt+blocks.count b) : Grows p q := by
  intro b
  rw [h b]
  omega

theorem Grows.of_sameRefs {p q : BlockPool H} (h : SameRefs p q) : Grows p q :=
  fun b => (h.refCnt b).ge

variable {r : RequestId} {base : ℕ → ℤ} {p p' q : BlockPool H} {m m' : SingleTypeKVCacheManager H}
  {extra : List ℕ}

section

variable (h : Account r base p m extra)

include h

theorem Account.pos (hb : b ∈ m.reqToBlocks r) (hne : b ≠ nullBlock) : 0 < (p.blocks b).refCnt := by
  have hcount := count_pos_iff.mpr hb
  rw [h.refs b hne, load]
  have := h.nonneg b hne
  positivity

theorem Account.shift {extra' : List ℕ} (heq : ∀ b, b ≠ nullBlock →
      m'.load r b+extra'.count b = m.load r b+extra.count b) : Account r base p m' extra' :=
  ⟨h.sound,h.nonneg,fun b hb => by rw [h.refs b hb, add_assoc, add_assoc, heq b hb]⟩

theorem Account.congr (hpq : SameRefs p q) : Account r base q m extra :=
  ⟨h.sound.congr hpq,h.nonneg,fun b hb => (hpq.refCnt b).trans (h.refs b hb)⟩

theorem Account.getNewBlocks
    (hnew : p.getNewBlocks n = some (new,q)) : Account r base q m (extra ++ new) := by
  refine ⟨(h.sound.getNewBlocks hnew).1,h.nonneg,fun b hb => ?_⟩
  rw [(getNewBlocks_refCnt hnew).2 b, h.refs b hb, count_append]
  push_cast
  ring

theorem Account.freeBlocks {freed : List ℕ}
    (hload : ∀ b, b ≠ nullBlock → m'.load r b+freed.count b = m.load r b) :
    Account r base (p.freeBlocks freed) m' extra := by
  refine ⟨h.sound.freeBlocks fun b hb => ?_,h.nonneg,fun b hb => ?_⟩
  · have := h.refs b hb
    have := h.nonneg b hb
    have := hload b hb
    have := m'.load_nonneg r b
    omega
  · rw [freeBlocks_refCnt, h.refs b hb, ← hload b hb]
    ring

theorem Account.addRef (hb : b ≠ nullBlock → 0 < (p.blocks b).refCnt) :
    Account r base (p.setBlock b { p.blocks b with refCnt := (p.blocks b).refCnt+1 }) m
      (extra ++ [b]) := by
  refine ⟨h.sound.addRef hb,h.nonneg,fun b' hb' => ?_⟩
  rw [refCnt_setRefCnt, count_append]
  by_cases hbb : b' = b
  · subst hbb
    rw [if_pos rfl, h.refs b' hb', count_singleton_self]
    push_cast
    ring
  · rw [if_neg hbb, h.refs b' hb', List.count_singleton, if_neg (by simpa using Ne.symm hbb)]
    simp

end

theorem grows_addRef (p : BlockPool H) (b : ℕ) :
    Grows p (p.setBlock b { p.blocks b with refCnt := (p.blocks b).refCnt+1 }) := by
  intro b'
  rw [refCnt_setRefCnt]
  split
  · rename_i hbb
    rw [hbb]
    omega
  · exact le_rfl

theorem count_set_add (blocks : List ℕ) {i a : ℕ} (hi : blocks[i]? = some a) (x b : ℕ) :
    (blocks.set i x).count b + [a].count b = blocks.count b + [x].count b := by
  obtain ⟨hlen,ha⟩ := List.getElem?_eq_some_iff.mp hi
  rw [List.count_set hlen, ha, List.count_singleton, List.count_singleton]
  by_cases hab : (a == b) = true
  · have hpos : 0 < blocks.count b := by
      rw [count_pos_iff, ← beq_iff_eq.mp hab, ← ha]
      exact getElem_mem hlen
    simp only [hab, if_true]
    omega
  · simp [hab]

theorem count_set_null {i a : ℕ} (hi : blocks[i]? = some a) (hb : b ≠ nullBlock) :
    (blocks.set i nullBlock).count b + [a].count b = blocks.count b := by
  rw [count_set_add blocks hi, List.count_singleton, if_neg (by simpa using Ne.symm hb)]
  rfl

theorem sweepBlocks_count (firstBlock count : ℕ) (blocks : List ℕ) (hb : b ≠ nullBlock) :
    (sweepBlocks firstBlock count blocks).2.count b+(sweepBlocks firstBlock count blocks).1.count b =
      blocks.count b := by
  induction count generalizing blocks with
  | zero => simp [sweepBlocks]
  | succ count ih =>
    rw [sweepBlocks]
    split
    · simp
    · rename_i hne
      have hget : blocks[firstBlock+count]? =
          some (blocks.getD (firstBlock+count) nullBlock) := by
        rw [getD_eq_getElem?_getD] at hne ⊢
        cases hi : blocks[firstBlock+count]? with
        | none => simp [hi] at hne
        | some a => simp
      have hset := count_set_null hget hb
      have hrest := ih (blocks.set (firstBlock+count) nullBlock)
      dsimp only
      rw [count_cons]
      rw [List.count_singleton] at hset
      omega

theorem reuseSpeculativeBlocks_count (numSkipped blockIdx count : ℕ) (blocks : List ℕ)
    (hb : b ≠ nullBlock) :
    (reuseSpeculativeBlocks numSkipped blockIdx count blocks).count b = blocks.count b := by
  have hnull : [nullBlock].count b = 0 := by
    rw [List.count_singleton, if_neg (by simpa using Ne.symm hb)]
  induction count generalizing blockIdx blocks with
  | zero => rfl
  | succ count ih =>
    rw [reuseSpeculativeBlocks]
    split
    · rw [ih]
      -- the block is appended and its old place is nulled
      have hget : (blocks ++ [blocks.getD blockIdx nullBlock])[blockIdx]? =
          some (blocks.getD blockIdx nullBlock) ∨
          blocks.getD blockIdx nullBlock = nullBlock ∧
            (blocks ++ [blocks.getD blockIdx nullBlock])[blockIdx]? = none := by
        rcases lt_trichotomy blockIdx blocks.length with hlt | heq | hgt
        · left
          rw [getElem?_append_left hlt, getD_eq_getElem?_getD, getElem?_eq_getElem hlt]
          rfl
        · left
          rw [heq, getElem?_append_right le_rfl]
          simp
        · right
          refine ⟨getD_eq_default _ _ hgt.le,?_⟩
          rw [getElem?_eq_none_iff]
          simp
          omega
      rcases hget with hget | ⟨hdef,hnone⟩
      · have hset := count_set_null hget hb
        rw [count_append] at hset
        omega
      · rw [set_eq_of_length_le (getElem?_eq_none_iff.mp hnone), count_append, hdef, hnull, add_zero]
    · rfl

theorem alignReqBlocks_count (blocks : List ℕ) (allocated : Bool) (numSkipped spec : ℕ)
    (hb : b ≠ nullBlock) :
    (alignReqBlocks blocks allocated numSkipped spec).count b = blocks.count b := by
  have hpad : (blocks ++ List.replicate (numSkipped-blocks.length) nullBlock).count b =
      blocks.count b := by
    rw [count_append, count_replicate, if_neg (by simpa using Ne.symm hb), add_zero]
  rw [alignReqBlocks]
  split
  · rw [reuseSpeculativeBlocks_count _ _ _ _ hb, hpad]
  · exact hpad

theorem load_setBlocks (m : SingleTypeKVCacheManager H) (r : RequestId) (blocks : List ℕ) (b : ℕ) :
    (m.setBlocks r blocks).load r b = blocks.count b+m.copyEnds.count b := by
  rw [load, setBlocks_reqToBlocks]
  rfl

theorem Account.removeBlocksInRange (h : Account r base p m extra) (firstBlock lastBlock : ℕ) :
    Account r base (m.removeBlocksInRange p r firstBlock lastBlock).1
      (m.removeBlocksInRange p r firstBlock lastBlock).2 extra := by
  refine h.freeBlocks fun b hb => ?_
  rw [SingleTypeKVCacheManager.removeBlocksInRange, load_setBlocks, load,
    ← sweepBlocks_count firstBlock (min lastBlock (m.reqToBlocks r).length-firstBlock)
      (m.reqToBlocks r) hb]
  push_cast
  ring

theorem Account.freeLastState (h : Account r base p m extra) (processed : ℕ) :
    Account r base (m.freeLastState p r processed).1 (m.freeLastState p r processed).2 extra := by
  simp only [SingleTypeKVCacheManager.freeLastState]
  split
  · rename_i idx hidx
    split
    · rename_i hcond
      have hget : (m.reqToBlocks r)[idx]? =
          some ((m.reqToBlocks r).getD idx nullBlock) := by
        have hne := hcond.2
        rw [getD_eq_getElem?_getD] at hne ⊢
        cases hi : (m.reqToBlocks r)[idx]? with
        | none => simp [hi] at hne
        | some a => simp
      refine h.freeBlocks fun b hb => ?_
      rw [load_setBlocks, load, ← count_set_null hget hb]
      push_cast
      ring
    · exact h
  · exact h

theorem Account.removeSkippedBlocks (h : Account r base p m extra) (processed : ℕ) :
    Account r base (m.removeSkippedBlocks p r processed).1
      (m.removeSkippedBlocks p r processed).2 extra := by
  have hremoved : Account r base (if m.getNumSkippedTokens processed = 0 then (p,m)
      else m.removeBlocksInRange p r 0 (m.getNumSkippedTokens processed/m.blockSize)).1
      (if m.getNumSkippedTokens processed = 0 then (p,m)
      else m.removeBlocksInRange p r 0 (m.getNumSkippedTokens processed/m.blockSize)).2 extra := by
    split
    · exact h
    · exact h.removeBlocksInRange _ _
  simp only [SingleTypeKVCacheManager.removeSkippedBlocks]
  split
  · exact hremoved.freeLastState processed
  · exact hremoved

theorem load_popBlocksForFree (m : SingleTypeKVCacheManager H) (r : RequestId) (b : ℕ) :
    (m.popBlocksForFree r).2.load r b+(m.popBlocksForFree r).1.count b = m.load r b := by
  have hnil : (m.popBlocksForFree r).2.reqToBlocks r = [] := Function.update_self ..
  have hends : (m.popBlocksForFree r).2.copyEnds = m.copyEnds := rfl
  rw [load, load, hnil, hends]
  simp [popBlocksForFree]
  ring

theorem Account.free (h : Account r base p m extra) :
    Account r base (m.free p r).1 (m.free p r).2 extra := by
  refine h.freeBlocks fun b _ => ?_
  rw [count_reverse]
  exact load_popBlocksForFree m r b

structure Took (r : RequestId) (base : ℕ → ℤ) (p p' : BlockPool H)
    (m m' : SingleTypeKVCacheManager H) : Prop where
  account : Account r base p' m' []
  grows : Grows p p'
  copies : m.pendingCowCopies <+: m'.pendingCowCopies

theorem Account.addLocalComputedBlocks (h : Account r base p m []) {hits : List ℕ}
    {numLocal numExternal : ℕ}
    (hadd : m.addLocalComputedBlocks p r hits numLocal numExternal = some (p',m')) :
    Took r base p p' m m' := by
  obtain ⟨hempty,htouch,rfl⟩ := addLocalComputedBlocks_cases hadd
  set numSkipped := m.getNumSkippedTokens (numLocal+numExternal)/m.blockSize
  have hcopies : (m.adoptHits r numSkipped (hits.drop numSkipped) numLocal).pendingCowCopies =
      m.pendingCowCopies := by
    rw [adoptHits]
    split <;> rfl
  have hends : (m.adoptHits r numSkipped (hits.drop numSkipped) numLocal).copyEnds = m.copyEnds := by
    rw [copyEnds, hcopies, copyEnds]
  have hload (b : ℕ) (hb : b ≠ nullBlock) :
      (m.adoptHits r numSkipped (hits.drop numSkipped) numLocal).load r b =
        m.load r b+(hits.drop numSkipped).count b := by
    rw [load, load, adoptHits_reqToBlocks, hempty, hends, count_append, count_replicate,
      if_neg (by simpa using Ne.symm hb), count_nil]
    push_cast
    ring
  split at htouch
  · refine ⟨⟨h.sound.touch htouch,h.nonneg,fun b hb => ?_⟩,
      grows_of_count (touch_refCnt htouch),hcopies ▸ prefix_rfl⟩
    rw [touch_refCnt htouch, h.refs b hb, hload b hb]
    ring
  · split at htouch
    · rename_i hnil
      cases htouch
      refine ⟨h.shift fun b hb => ?_,.refl p,hcopies ▸ prefix_rfl⟩
      rw [hload b hb, isEmpty_iff.mp hnil]
      simp
    · cases htouch

theorem Account.allocateExternalComputedBlocks (h : Account r base p m []) {numLocal numExternal : ℕ}
    (halloc : m.allocateExternalComputedBlocks p r numLocal numExternal = some (p',m')) :
    Took r base p p' m m' := by
  rcases allocateExternalComputedBlocks_cases halloc with ⟨rfl,rfl⟩ | ⟨new,-,hnew,rfl⟩
  · exact ⟨h,.refl p',prefix_rfl⟩
  · refine ⟨(h.getNewBlocks hnew).shift fun b _ => ?_,
      grows_of_count (getNewBlocks_refCnt hnew).2,prefix_rfl⟩
    rw [load_setBlocks, load, count_append, nil_append, count_nil]
    push_cast
    ring

theorem load_of_appendCopy (hblocks : m'.reqToBlocks r = blocks)
    (hcopies : m'.pendingCowCopies = m.pendingCowCopies ++ [(source,cow)]) (b : ℕ) :
    m'.load r b = blocks.count b+m.copyEnds.count b + [source].count b + [cow].count b := by
  have hends : m'.copyEnds = m.copyEnds ++ ([source] ++ [cow]) := by
    simp [copyEnds, hcopies]
  rw [load, hends, hblocks, count_append, count_append]
  push_cast
  ring

/-- The request changes over from the hit block to the copy; both ends stay retained. -/
theorem Account.applyCow {blockIdx : ℕ} (h : Account r base p m (cow :: extra))
    (hcow : cow ≠ nullBlock) (hap : m.applyCow p r blockIdx source cow = some (p',m')) :
    Account r base p' m' extra ∧ Grows p p' ∧ m.pendingCowCopies <+: m'.pendingCowCopies := by
  obtain ⟨⟨hsource,-,-⟩,rfl,hm'⟩ := applyCow_cases hap
  have hblocks : m'.reqToBlocks r = (m.reqToBlocks r).set blockIdx cow := by
    rw [hm']
    exact setBlocks_reqToBlocks ..
  have hpos : 0 < (p.blocks cow).refCnt := by
    rw [h.refs cow hcow, count_cons_self]
    have := h.nonneg cow hcow
    have := m.load_nonneg r cow
    push_cast
    positivity
  refine ⟨(h.addRef fun _ => hpos).shift fun b hb => ?_,grows_addRef p cow,
    ⟨[(source,cow)],by rw [hm']⟩⟩
  rw [load_of_appendCopy hblocks (by rw [hm']), load]
  have hset := count_set_add (m.reqToBlocks r) hsource cow b
  have hcons : cow :: extra = [cow] ++ extra := rfl
  rw [hcons, count_append, count_append]
  push_cast
  omega

theorem Account.moveEntryToCow {blockIdx : ℕ} (h : Account r base p m (cow :: extra))
    (hmove : m.moveEntryToCow p r blockIdx source cow = some (p',m')) :
    Account r base p' m' extra ∧ Grows p p' ∧ m.pendingCowCopies <+: m'.pendingCowCopies := by
  obtain ⟨hsource,q,hhash,rfl,rfl⟩ := moveEntryToCow_cases hmove
  have hsame := sameRefs_moveBlockHashes hhash
  have hq := h.congr hsame
  refine ⟨(hq.addRef fun hne => hq.pos (mem_of_getElem? hsource) hne).shift fun b hb => ?_,
    (Grows.of_sameRefs hsame).trans (grows_addRef q source),⟨[(source,cow)],rfl⟩⟩
  have hcons : cow :: extra = [cow] ++ extra := rfl
  rw [load_of_appendCopy rfl rfl, load, hcons, count_append, count_append]
  push_cast
  ring

theorem Account.redirectPartialHit (h : Account r base p m []) {cows : List ℕ}
    (hred : m.redirectPartialHit p r = some (cows,p',m')) : Took r base p p' m m' := by
  rw [SingleTypeKVCacheManager.redirectPartialHit] at hred
  split at hred
  · cases hred
    exact ⟨h,.refl p,prefix_rfl⟩
  · obtain ⟨⟨new,q⟩,hnew,hred⟩ := bind_eq_some_iff.mp hred
    obtain ⟨cow,hhead,hred⟩ := bind_eq_some_iff.mp hred
    obtain ⟨⟨q',m₁⟩,hcow,heq⟩ := map_eq_some_iff.mp hred
    cases heq
    obtain ⟨-,hlen,hnull⟩ := h.sound.getNewBlocks hnew
    obtain rfl : new = [cow] := by
      obtain ⟨a,rfl⟩ := length_eq_one_iff.mp hlen
      simpa using hhead
    have hpop : Account r base q (m.popPartialHit r) [cow] :=
      (h.getNewBlocks hnew).shift fun b _ => rfl
    obtain ⟨haccount,hgrows,hcopies⟩ := hpop.applyCow
      (fun hz => hnull (hz ▸ mem_singleton_self _)) hcow
    exact ⟨haccount,(grows_of_count (getNewBlocks_refCnt hnew).2).trans hgrows,hcopies⟩

theorem Account.baseAllocateNewBlocks (h : Account r base p m [])
    (halloc : m.baseAllocateNewBlocks p r numTokens = some (new,p',m')) : Took r base p p' m m' := by
  obtain ⟨⟨cows,q,m₁⟩,hredirect,halloc⟩ := bind_eq_some_iff.mp halloc
  obtain ⟨hq,hgrows,hcopies⟩ := h.redirectPartialHit hredirect
  dsimp only at halloc
  split at halloc
  · cases halloc
    exact ⟨hq,hgrows,hcopies⟩
  · obtain ⟨⟨blocks,q'⟩,hnew,heq⟩ := map_eq_some_iff.mp halloc
    cases heq
    refine ⟨(hq.getNewBlocks hnew).shift fun b _ => ?_,
      hgrows.trans (grows_of_count (getNewBlocks_refCnt hnew).2),hcopies⟩
    rw [load_setBlocks, load, count_append, nil_append, count_nil]
    push_cast
    ring

theorem Account.alignTakeBlocks {alloc : Bool} {prevLen : ℕ} (h : Account r base p m new)
    (hnull : nullBlock ∉ new) (htake : m.alignTakeBlocks p r alloc prevLen new = some (ret,p',m')) :
    Account r base p' m' [] ∧ Grows p p' ∧ m.pendingCowCopies <+: m'.pendingCowCopies := by
  rcases alignTakeBlocks_cases htake with
    ⟨-,rfl,rfl⟩ | ⟨blockIdx,source,cow,m₁,-,hhead,hcopy,rfl⟩
  · refine ⟨h.shift fun b _ => ?_,.refl p',prefix_rfl⟩
    rw [load_setBlocks, load, count_append, count_nil]
    push_cast
    ring
  · obtain ⟨rest,rfl⟩ : ∃ rest, new = cow :: rest := by
      cases new with
      | nil => simp at hhead
      | cons a rest => exact ⟨rest,by rw [Option.some.inj hhead]⟩
    have hstep : Account r base p' m₁ rest ∧ Grows p p' ∧
        m.pendingCowCopies <+: m₁.pendingCowCopies := by
      cases alloc with
      | true => exact h.moveEntryToCow hcopy
      | false => exact h.applyCow (fun hz => hnull (hz ▸ mem_cons_self)) hcopy
    refine ⟨hstep.1.shift fun b _ => ?_,hstep.2⟩
    have hload : ((m₁.setBlocks r (m₁.reqToBlocks r ++ (cow :: rest).tail)).popPartialHit r).load r b =
      (m₁.setBlocks r (m₁.reqToBlocks r ++ rest)).load r b := rfl
    rw [hload, load_setBlocks, load, count_append, count_nil]
    push_cast
    ring

theorem Account.alignAllocateNewBlocks (h : Account r base p m []) {main spec : ℕ}
    (halloc : m.alignAllocateNewBlocks p r main spec = some (ret,p',m')) : Took r base p p' m m' := by
  rcases alignAllocateNewBlocks_cases halloc with ⟨-,-,rfl,rfl⟩ | ⟨-,-,new,q,hnew,htake⟩
  · exact ⟨h,.refl p',prefix_rfl⟩
  · obtain ⟨-,-,hnull⟩ := h.sound.getNewBlocks hnew
    have hadvance : Account r base q
        (m.alignAdvance r (cdiv main m.blockSize+spec-spec-1) spec) new := by
      refine (h.getNewBlocks hnew).shift fun b hb => ?_
      have hload : (m.alignAdvance r (cdiv main m.blockSize+spec-spec-1) spec).load r b =
          (m.setBlocks r (alignReqBlocks (m.reqToBlocks r) (m.allocatedBlockReqs r)
            (cdiv main m.blockSize+spec-spec-1) spec)).load r b := rfl
      rw [hload, load_setBlocks, alignReqBlocks_count _ _ _ _ hb, load, nil_append]
    obtain ⟨haccount,hgrows,hcopies⟩ := hadvance.alignTakeBlocks hnull htake
    exact ⟨haccount,(grows_of_count (getNewBlocks_refCnt hnew).2).trans hgrows,hcopies⟩

theorem Account.allocateNewBlocks (h : Account r base p m []) {main : ℕ}
    (halloc : m.allocateNewBlocks p r numTokens main = some (ret,p',m')) : Took r base p p' m m' := by
  rw [SingleTypeKVCacheManager.allocateNewBlocks] at halloc
  split at halloc
  · split at halloc
    · exact h.alignAllocateNewBlocks halloc
    · exact h.baseAllocateNewBlocks halloc
  · exact h.baseAllocateNewBlocks halloc

theorem Account.cacheBlocks (h : Account r base p m []) {request : KVRequest H}
    {retention : Option ℕ} (hcache : m.cacheBlocks p request numTokens retention = some (p',m')) :
    Took r base p p' m m' := by
  have hsame := sameRefs_cacheBlocks hcache
  have hframe := cacheFrame_cacheBlocks hcache
  refine ⟨(h.congr hsame).shift fun b _ => ?_,.of_sameRefs hsame,hframe.copies ▸ prefix_rfl⟩
  rw [load, load, copyEnds, copyEnds, hframe.blocks, hframe.copies]

end SingleTypeKVCacheManager

end MetaZenith.KVCache
