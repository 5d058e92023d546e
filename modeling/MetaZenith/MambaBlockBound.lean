import MetaZenith.SlotSystem

/-! How many state blocks a request holds in a Mamba group of mode align. -/

namespace MetaZenith.KVCache

open BlockPool SingleTypeKVCacheManager List Option Function Finset

universe u

set_option linter.unusedSectionVars false

/-- Elements that satisfy `p` are at most as many as the positions where they may be. -/
theorem countP_le_card_positions {α : Type u} (l : List α) (p : α → Bool) (S : Finset ℕ)
    (h : ∀ (i : ℕ) (a : α), l[i]? = some a → p a = true → i ∈ S) : l.countP p ≤ S.card := by
  let hits := (l.zipIdx.filter fun x => p x.1).map (·.2)
  have hnodup : hits.Nodup := by
    have hsub : hits.Sublist (l.zipIdx.map (·.2)) := filter_sublist.map _
    rw [zipIdx_map_snd] at hsub
    exact hsub.nodup nodup_range'
  have hlength : hits.length = l.countP p := by
    rw [length_map, ← countP_eq_length_filter]
    calc l.zipIdx.countP (fun x => p x.1) = (l.zipIdx.map (·.1)).countP p := by
          rw [countP_map]
          rfl
      _ = l.countP p := by rw [zipIdx_map_fst]
  rw [← hlength, ← toFinset_card_of_nodup hnodup]
  apply card_le_card
  intro i hi
  obtain ⟨⟨a,j⟩,hmem,rfl⟩ := mem_map.mp (mem_toFinset.mp hi)
  obtain ⟨hz,hp⟩ := mem_filter.mp hmem
  exact h j a (mem_zipIdx_iff_getElem?.mp hz) hp

theorem cdiv_mono {a a' : ℕ} (h : a ≤ a') (b : ℕ) : cdiv a b ≤ cdiv a' b :=
  Nat.div_le_div_right (by omega)

namespace SingleTypeKVCacheManager

variable {H : Type u}

theorem reuseSpeculativeBlocks_length (n : ℕ) (idx count : ℕ) (blocks : List ℕ) :
    (reuseSpeculativeBlocks n idx count blocks).length = blocks.length+min count (n-idx) := by
  induction count generalizing idx blocks with
  | zero => simp [reuseSpeculativeBlocks]
  | succ count ih =>
    rw [reuseSpeculativeBlocks]
    split
    · rw [ih]
      simp only [length_set, length_append, length_singleton]
      omega
    · omega

theorem reuseSpeculativeBlocks_old {n : ℕ} {idx count : ℕ} {blocks : List ℕ}
    (hfit : idx+count ≤ blocks.length) {i b : ℕ} (hi : i < blocks.length)
    (hb : (reuseSpeculativeBlocks n idx count blocks)[i]? = some b) (hne : b ≠ nullBlock) :
    blocks[i]? = some b ∧ ¬(idx ≤ i ∧ i < idx+count ∧ i < n) := by
  induction count generalizing idx blocks with
  | zero =>
    rw [reuseSpeculativeBlocks] at hb
    exact ⟨hb,by omega⟩
  | succ count ih =>
    rw [reuseSpeculativeBlocks] at hb
    split at hb
    · rename_i hidx
      obtain ⟨hold,hrange⟩ := ih (by simp; omega) (by simp; omega) hb
      rw [getElem?_set] at hold
      split at hold
      · -- the moved position holds the null block now
        split at hold
        · cases hold
          exact absurd rfl hne
        · cases hold
      · rename_i hii
        rw [getElem?_append_left hi] at hold
        exact ⟨hold,by omega⟩
    · exact ⟨hb,by omega⟩

/-- The blocks of request `r` in a group of mode align. A request that was allocated blocks holds
its running state and the speculative blocks at the end of the list and at most one older state,
at the remembered position. -/
structure StateBlocks (m : SingleTypeKVCacheManager H) (spec : ℕ) (r : RequestId) : Prop where
  fresh : m.allocatedBlockReqs r = false → m.lastStateBlockIdx r = none ∧
    (spec = 0 ∨ m.reqToBlocks r = []) ∧
    ∀ i b : ℕ, (m.reqToBlocks r)[i]? = some b → b ≠ nullBlock →
      i+1 = (m.reqToBlocks r).length
  long : m.allocatedBlockReqs r = true → spec < (m.reqToBlocks r).length
  last : m.allocatedBlockReqs r = true → ∀ i, m.lastStateBlockIdx r = some i →
    i+1+spec ≤ (m.reqToBlocks r).length
  held : m.allocatedBlockReqs r = true → ∀ i b : ℕ, (m.reqToBlocks r)[i]? = some b →
    b ≠ nullBlock → m.lastStateBlockIdx r = some i ∨
      (m.reqToBlocks r).length ≤ i+1+spec

variable {m m' : SingleTypeKVCacheManager H} {p p' : BlockPool H} {r r' : RequestId} {spec : ℕ}

/-- The positions of the invariant: one remembered, one running, and the speculative ones. -/
theorem StateBlocks.countP_le (h : StateBlocks m spec r) :
    (m.reqToBlocks r).countP (· != nullBlock) ≤ 2+spec := by
  let n := (m.reqToBlocks r).length
  cases halloc : m.allocatedBlockReqs r with
  | false =>
    obtain ⟨-,-,hone⟩ := h.fresh halloc
    have hle := countP_le_card_positions (m.reqToBlocks r) (· != nullBlock) {n-1}
      fun i b hi hb => by
        have hlast := hone i b hi (by simpa using hb)
        apply Finset.mem_singleton.mpr
        omega
    rw [Finset.card_singleton] at hle
    omega
  | true =>
    let S := (m.lastStateBlockIdx r).toFinset ∪ Finset.Ico (n-1-spec) n
    have hle := countP_le_card_positions (m.reqToBlocks r) (· != nullBlock) S
      fun i b hi hb => by
        have hlt := (List.getElem?_eq_some_iff.mp hi).1
        rcases h.held halloc i b hi (by simpa using hb) with hlast | hend
        · exact mem_union_left _ (by simp [hlast])
        · exact mem_union_right _ (mem_Ico.mpr ⟨by omega,hlt⟩)
    have hlast : (m.lastStateBlockIdx r).toFinset.card ≤ 1 := by
      cases m.lastStateBlockIdx r <;> simp
    have hcard := card_union_le (m.lastStateBlockIdx r).toFinset (Finset.Ico (n-1-spec) n)
    rw [Nat.card_Ico] at hcard
    change _ ≤ S.card at hle
    change S.card ≤ _ at hcard
    omega

theorem StateBlocks.frame (h : StateBlocks m spec r') (hf : Frame r m m') (hr : r' ≠ r) :
    StateBlocks m' spec r' := by
  have hb := hf.reqToBlocks r' hr
  have hl := hf.lastStateBlockIdx r' hr
  have ha := hf.allocatedBlockReqs r' hr
  exact ⟨by rw [hb, hl, ha]; exact h.fresh,by rw [hb, ha]; exact h.long,
    by rw [hb, hl, ha]; exact h.last,by rw [hb, hl, ha]; exact h.held⟩

theorem StateBlocks.congr (h : StateBlocks m spec r) (hb : m'.reqToBlocks r = m.reqToBlocks r)
    (hl : m'.lastStateBlockIdx r = m.lastStateBlockIdx r)
    (ha : m'.allocatedBlockReqs r = m.allocatedBlockReqs r) : StateBlocks m' spec r :=
  ⟨by rw [hb, hl, ha]; exact h.fresh,by rw [hb, ha]; exact h.long,
    by rw [hb, hl, ha]; exact h.last,by rw [hb, hl, ha]; exact h.held⟩

theorem StateBlocks.of_empty (hb : m.reqToBlocks r = []) (hl : m.lastStateBlockIdx r = none)
    (ha : m.allocatedBlockReqs r = false) : StateBlocks m spec r where
  fresh _ := ⟨hl,.inr hb,fun i b hi => by simp [hb] at hi⟩
  long h := by simp [ha] at h
  last h := by simp [ha] at h
  held h := by simp [ha] at h

theorem StateBlocks.cleared (h : StateBlocks m spec r)
    (hc : Cleared (m.reqToBlocks r) (m'.reqToBlocks r))
    (hl : m'.lastStateBlockIdx r = m.lastStateBlockIdx r)
    (ha : m'.allocatedBlockReqs r = m.allocatedBlockReqs r) : StateBlocks m' spec r where
  fresh halloc := by
    obtain ⟨hlast,hspec,hone⟩ := h.fresh (ha ▸ halloc)
    refine ⟨hl.trans hlast,hspec.imp_right fun hnil => ?_,fun i b hi hb => ?_⟩
    · exact length_eq_zero_iff.mp (hc.length.trans (by rw [hnil]; rfl))
    · rw [hc.length]
      exact hone i b (hc.mem_before hi hb) hb
  long halloc := by
    rw [hc.length]
    exact h.long (ha ▸ halloc)
  last halloc := by
    rw [hl, hc.length]
    exact h.last (ha ▸ halloc)
  held halloc i b hi hb := by
    rw [hl, hc.length]
    exact h.held (ha ▸ halloc) i b (hc.mem_before hi hb) hb

section Removing

variable [DecidableEq H]

theorem cleared_freeLastState (m : SingleTypeKVCacheManager H) (p : BlockPool H) (r : RequestId)
    (processed : ℕ) : Cleared (m.reqToBlocks r) ((m.freeLastState p r processed).2.reqToBlocks r) := by
  simp only [freeLastState]
  split
  · split
    · rw [setBlocks_reqToBlocks]
      exact .set_null _ _
    · exact .refl _
  · exact .refl _

theorem freeLastState_nulled {processed i : ℕ} (hl : m.lastStateBlockIdx r = some i)
    (hi : i+1 < cdiv processed m.blockSize) {b : ℕ}
    (hb : ((m.freeLastState p r processed).2.reqToBlocks r)[i]? = some b) : b = nullBlock := by
  simp only [freeLastState, hl] at hb
  split at hb
  · rw [setBlocks_reqToBlocks, getElem?_set_self'] at hb
    cases hold : (m.reqToBlocks r)[i]? with
    | none => simp [hold] at hb
    | some c => simpa [hold] using hb.symm
  · rename_i hkeep
    by_contra hne
    apply hkeep
    refine ⟨hi,?_⟩
    rw [getD_eq_getElem?_getD, hb]
    exact hne

structure Removed (m : SingleTypeKVCacheManager H) (r : RequestId) (processed : ℕ)
    (m' : SingleTypeKVCacheManager H) : Prop where
  frame : Frame r m m'
  cleared : Cleared (m.reqToBlocks r) (m'.reqToBlocks r)
  last : m'.lastStateBlockIdx r = m.lastStateBlockIdx r
  allocated : m'.allocatedBlockReqs r = m.allocatedBlockReqs r
  partialHit : m'.partialHitReqs r = m.partialHitReqs r
  nulled : ∀ i, m.lastStateBlockIdx r = some i → i+1 < cdiv processed m.blockSize →
    ∀ b, (m'.reqToBlocks r)[i]? = some b → b = nullBlock

theorem removed_removeSkippedBlocks (hkind : m.kind = .mamba .align spec) (p : BlockPool H)
    (r : RequestId) (processed : ℕ) : Removed m r processed (m.removeSkippedBlocks p r processed).2 := by
  have hrange : ∃ q m₁, (if m.getNumSkippedTokens processed = 0 then (p,m)
      else m.removeBlocksInRange p r 0 (m.getNumSkippedTokens processed/m.blockSize)) = (q,m₁) ∧
      ∃ blocks, Cleared (m.reqToBlocks r) blocks ∧ m₁ = m.setBlocks r blocks := by
    split
    · refine ⟨p,m,rfl,m.reqToBlocks r,.refl _,?_⟩
      simp [setBlocks]
    · exact ⟨_,_,rfl,_,sweepBlocks_cleared _ _ _,rfl⟩
  obtain ⟨q,m₁,heq,blocks,hc,rfl⟩ := hrange
  have hstep : (m.removeSkippedBlocks p r processed).2 =
      ((m.setBlocks r blocks).freeLastState q r processed).2 := by
    simp [removeSkippedBlocks, heq, hkind]
  have hc' := cleared_freeLastState (m.setBlocks r blocks) q r processed
  rw [setBlocks_reqToBlocks] at hc'
  have hlast : ((m.setBlocks r blocks).freeLastState q r processed).2.lastStateBlockIdx r =
      m.lastStateBlockIdx r ∧
      ((m.setBlocks r blocks).freeLastState q r processed).2.allocatedBlockReqs r =
        m.allocatedBlockReqs r ∧
      ((m.setBlocks r blocks).freeLastState q r processed).2.partialHitReqs r =
        m.partialHitReqs r := by
    simp only [freeLastState]
    split
    · split <;> exact ⟨rfl,rfl,rfl⟩
    · exact ⟨rfl,rfl,rfl⟩
  rw [hstep]
  exact ⟨(Frame.setBlocks m r blocks).trans (frame_freeLastState _ q r processed),hc.trans hc',
    hlast.1,hlast.2.1,hlast.2.2,
    fun i hi hlt b hb => freeLastState_nulled (m := m.setBlocks r blocks) hi hlt hb⟩

end Removing

section Allocating

variable [DecidableEq H] {main : ℕ} {ret : List ℕ}

structure Taken (m : SingleTypeKVCacheManager H) (r : RequestId) (alloc : Bool) (required : ℕ)
    (m' : SingleTypeKVCacheManager H) : Prop where
  last : m'.lastStateBlockIdx r = m.lastStateBlockIdx r
  allocated : m'.allocatedBlockReqs r = m.allocatedBlockReqs r
  length : (m'.reqToBlocks r).length = max required (m.reqToBlocks r).length
  old : ∀ i b : ℕ, i < (m.reqToBlocks r).length → (m'.reqToBlocks r)[i]? = some b →
    b ≠ nullBlock → ∃ c ≠ nullBlock, (m.reqToBlocks r)[i]? = some c

theorem taken_alignTakeBlocks {alloc : Bool} {prevLen required : ℕ} {new : List ℕ}
    (hp : p.QueueCounted) (h : m.alignTakeBlocks p r alloc prevLen new = some (ret,p',m'))
    (hlen : new.length = required-(m.reqToBlocks r).length+(m.partialHitReqs r).toList.length) :
    Taken m r alloc required m' := by
  rcases alignTakeBlocks_cases h with ⟨hnone,-,rfl⟩ | ⟨blockIdx,source,cow,m₁,hsome,hcow,hcopy,rfl⟩
  · rw [hnone] at hlen
    refine ⟨rfl,rfl,?_,fun i b hi hb hne => ⟨b,hne,?_⟩⟩
    · rw [setBlocks_reqToBlocks, length_append, hlen]
      simp only [toList_none, length_nil]
      omega
    · rwa [setBlocks_reqToBlocks, getElem?_append_left hi] at hb
  · rw [hsome] at hlen
    have htail : new.tail.length = required-(m.reqToBlocks r).length := by
      rw [length_tail, hlen]
      simp
    -- the copy replaces a block that was there
    have hcopied : m₁.lastStateBlockIdx r = m.lastStateBlockIdx r ∧
        m₁.allocatedBlockReqs r = m.allocatedBlockReqs r ∧
        (m₁.reqToBlocks r).length = (m.reqToBlocks r).length ∧
        ∀ i b : ℕ, (m₁.reqToBlocks r)[i]? = some b → b ≠ nullBlock →
          ∃ c ≠ nullBlock, (m.reqToBlocks r)[i]? = some c := by
      cases alloc with
      | true =>
        obtain ⟨-,q,-,-,rfl⟩ := moveEntryToCow_cases hcopy
        exact ⟨rfl,rfl,rfl,fun i b hb hne => ⟨b,hne,hb⟩⟩
      | false =>
        obtain ⟨⟨hsource,hnull,-⟩,-,rfl⟩ := applyCow_cases hcopy
        refine ⟨rfl,rfl,?_,fun i b hb hne => ?_⟩
        · show ((m.setBlocks r ((m.reqToBlocks r).set blockIdx cow)).reqToBlocks r).length = _
          rw [setBlocks_reqToBlocks, length_set]
        · change ((m.setBlocks r ((m.reqToBlocks r).set blockIdx cow)).reqToBlocks r)[i]? =
            some b at hb
          rw [setBlocks_reqToBlocks, getElem?_set] at hb
          split at hb
          · rename_i hidx
            subst hidx
            refine ⟨source,?_,hsource⟩
            rintro rfl
            rw [hp.null] at hnull
            cases hnull
          · exact ⟨b,hne,hb⟩
    obtain ⟨hlast,halloc,hlength,hold⟩ := hcopied
    have hblocks : ((m₁.setBlocks r (m₁.reqToBlocks r ++ new.tail)).popPartialHit r).reqToBlocks r =
        m₁.reqToBlocks r ++ new.tail := setBlocks_reqToBlocks _ _ _
    refine ⟨hlast,halloc,?_,fun i b hi hb hne => ?_⟩
    · rw [hblocks, length_append, hlength, htail]
      omega
    · rw [hblocks, getElem?_append_left (hlength ▸ hi)] at hb
      exact hold i b hb hne

theorem alignAdvance_blocks (m : SingleTypeKVCacheManager H) (r : RequestId) (skipped spec : ℕ) :
    (m.alignAdvance r skipped spec).reqToBlocks r = alignReqBlocks (m.reqToBlocks r)
      (m.allocatedBlockReqs r) skipped spec :=
  update_self ..

theorem alignAdvance_last (m : SingleTypeKVCacheManager H) (r : RequestId) (skipped spec : ℕ) :
    (m.alignAdvance r skipped spec).lastStateBlockIdx r =
      if m.allocatedBlockReqs r then some ((m.reqToBlocks r).length-1-spec)
      else if 0 < (m.reqToBlocks r).length then some ((m.reqToBlocks r).length-1)
      else m.lastStateBlockIdx r :=
  update_self ..

theorem alignAdvance_allocated (m : SingleTypeKVCacheManager H) (r : RequestId)
    (skipped spec : ℕ) : (m.alignAdvance r skipped spec).allocatedBlockReqs r = true :=
  update_self ..

theorem StateBlocks.alignAllocate_fresh (hp : p.QueueCounted)
    (halloc : m.allocatedBlockReqs r = false) (hlast : m.lastStateBlockIdx r = none)
    (hone : ∀ i b : ℕ, (m.reqToBlocks r)[i]? = some b → b ≠ nullBlock →
      i+1 = (m.reqToBlocks r).length) (hmain : 0 < cdiv main m.blockSize)
    (hle : spec = 0 ∨ (m.reqToBlocks r).length ≤ cdiv main m.blockSize)
    (h : m.alignAllocateNewBlocks p r main spec = some (ret,p',m')) : StateBlocks m' spec r := by
  have hcases := alignAllocateNewBlocks_cases h
  dsimp only at hcases
  rcases hcases with ⟨hreq,-,-,rfl⟩ | ⟨-,-,new,q,hnew,htake⟩
  · refine ⟨fun _ => ⟨hlast,?_,hone⟩,by simp [halloc],by simp [halloc],by simp [halloc]⟩
    left
    omega
  · let n := cdiv main m.blockSize+spec-spec-1
    have hn : n = cdiv main m.blockSize-1 := by omega
    have hblocks : (m.alignAdvance r n spec).reqToBlocks r = m.reqToBlocks r ++
        List.replicate (n-(m.reqToBlocks r).length) nullBlock := by
      rw [alignAdvance_blocks, alignReqBlocks, halloc]
      rfl
    have hlen₁ : ((m.alignAdvance r n spec).reqToBlocks r).length =
        max n (m.reqToBlocks r).length := by
      rw [hblocks, length_append, length_replicate]
      omega
    have hq : q.QueueCounted := ((Steps.refl p).getNewBlocks hnew).queueCounted hp
    have ht := taken_alignTakeBlocks hq htake (hp.getNewBlocks_length hnew)
    have halloc' : m'.allocatedBlockReqs r = true :=
      ht.allocated.trans (alignAdvance_allocated m r _ spec)
    have hlast' := ht.last.trans (alignAdvance_last m r _ spec)
    rw [halloc, if_neg Bool.false_ne_true] at hlast'
    have hlen := ht.length
    rw [hlen₁] at hlen
    refine ⟨by simp [halloc'],fun _ => by omega,fun _ i hi => ?_,fun _ i b hi hb => ?_⟩
    · rw [hlast'] at hi
      split at hi
      · cases hi
        omega
      · rw [hlast] at hi
        cases hi
    · by_cases hold : i < ((m.alignAdvance r n spec).reqToBlocks r).length
      · -- an old block is the hit state
        obtain ⟨c,hc,hci⟩ := ht.old i b hold hi hb
        rw [hblocks] at hci
        have hlt : i < (m.reqToBlocks r).length := by
          by_contra hge
          rw [getElem?_append_right (not_lt.mp hge), getElem?_replicate] at hci
          split at hci
          · cases hci
            exact hc rfl
          · cases hci
        rw [getElem?_append_left hlt] at hci
        have hend := hone i c hci hc
        left
        rw [hlast', if_pos (by omega)]
        congr 1
        omega
      · have hi' := (List.getElem?_eq_some_iff.mp hi).1
        right
        omega

/-- A request that has blocks: if the older state is gone, the running state becomes the one that
is remembered. -/
theorem StateBlocks.alignAllocate (hp : p.QueueCounted) (hs : StateBlocks m spec r)
    (halloc : m.allocatedBlockReqs r = true)
    (hgone : ¬(cdiv main m.blockSize+spec ≤ (m.reqToBlocks r).length ∧
        m.partialHitReqs r = none) → ∀ i b : ℕ, (m.reqToBlocks r)[i]? = some b →
      b ≠ nullBlock → (m.reqToBlocks r).length ≤ i+1+spec)
    (h : m.alignAllocateNewBlocks p r main spec = some (ret,p',m')) : StateBlocks m' spec r := by
  have hcases := alignAllocateNewBlocks_cases h
  dsimp only at hcases
  rcases hcases with ⟨-,-,-,rfl⟩ | ⟨hneeds,-,new,q,hnew,htake⟩
  · exact hs
  · have hspec := hs.long halloc
    let n := cdiv main m.blockSize+spec-spec-1
    let len := (m.reqToBlocks r).length
    let padded := m.reqToBlocks r ++ List.replicate (n-len) nullBlock
    have hpadded : padded.length = max n len := by
      simp only [padded, length_append, length_replicate]
      omega
    have hblocks : (m.alignAdvance r n spec).reqToBlocks r =
        reuseSpeculativeBlocks n (len-spec) spec padded := by
      rw [alignAdvance_blocks, alignReqBlocks, halloc]
      rfl
    have hlen₁ : ((m.alignAdvance r n spec).reqToBlocks r).length =
        max n len+min spec (n-(len-spec)) := by
      rw [hblocks, reuseSpeculativeBlocks_length, hpadded]
    have hq : q.QueueCounted := ((Steps.refl p).getNewBlocks hnew).queueCounted hp
    have ht := taken_alignTakeBlocks hq htake (hp.getNewBlocks_length hnew)
    have halloc' : m'.allocatedBlockReqs r = true :=
      ht.allocated.trans (alignAdvance_allocated m r _ spec)
    have hlast' : m'.lastStateBlockIdx r = some (len-1-spec) := by
      rw [ht.last, alignAdvance_last, halloc, if_pos rfl]
    have hlen := ht.length
    rw [hlen₁] at hlen
    refine ⟨by simp [halloc'],fun _ => by omega,fun _ i hi => ?_,fun _ i b hi hb => ?_⟩
    · rw [hlast'] at hi
      cases hi
      omega
    · have hi' := (List.getElem?_eq_some_iff.mp hi).1
      by_cases hold : i < max n len
      · have hi₁ : i < ((m.alignAdvance r n spec).reqToBlocks r).length := by
          rw [hlen₁]
          omega
        obtain ⟨c,hc,hci⟩ := ht.old i b hi₁ hi hb
        rw [hblocks] at hci
        obtain ⟨hpad,hkept⟩ := reuseSpeculativeBlocks_old (by omega) (by omega) hci hc
        have hlt : i < len := by
          by_contra hge
          rw [getElem?_append_right (not_lt.mp hge), getElem?_replicate] at hpad
          split at hpad
          · cases hpad
            exact hc rfl
          · cases hpad
        rw [getElem?_append_left hlt] at hpad
        have hpos := hgone hneeds i c hpad hc
        by_cases hrun : i+1+spec = len
        · left
          rw [hlast']
          congr 1
          omega
        · right
          omega
      · right
        omega

/-- Before an allocation that needs blocks, a settled removal leaves the running state and the
speculative blocks only. -/
theorem StateBlocks.gone_of_settled (hB : 0 < m.blockSize) (hs : StateBlocks m spec r)
    (halloc : m.allocatedBlockReqs r = true) {processed : ℕ} (hr : Removed m r processed m')
    (hsettled : ((m.reqToBlocks r).length-1-spec)*m.blockSize < processed) (i b : ℕ)
    (hi : (m'.reqToBlocks r)[i]? = some b) (hb : b ≠ nullBlock) :
    (m'.reqToBlocks r).length ≤ i+1+spec := by
  rw [hr.cleared.length]
  rcases hs.held halloc i b (hr.cleared.mem_before hi hb) hb with hlast | hend
  · by_contra hlt
    have hrun := (lt_cdiv_iff hB).mpr hsettled
    exact hb (hr.nulled i hlast (by omega) b hi)
  · exact hend

/-- The hits of a new request, and the blocks of its external tokens, are one state block at
most: the last one. -/
theorem tookHits_state (hB : 0 < m.blockSize) (hkind : m.kind = .mamba .align spec)
    {hits : List ℕ} {numLocal numExternal : ℕ} (hhits : hits.length ≤ cdiv numLocal m.blockSize)
    (h : KVCacheManager.TookHits r hits numLocal numExternal m m') :
    m.reqToBlocks r = [] ∧ m'.lastStateBlockIdx r = m.lastStateBlockIdx r ∧
      m'.allocatedBlockReqs r = m.allocatedBlockReqs r ∧ Frame r m m' ∧
      (m'.reqToBlocks r).length ≤ cdiv (numLocal+numExternal) m.blockSize ∧
      ∀ i b : ℕ, (m'.reqToBlocks r)[i]? = some b → b ≠ nullBlock → i+1 = (m'.reqToBlocks r).length := by
  let total := numLocal+numExternal
  let numSkipped := (total-1)/m.blockSize
  have hskip : m.getNumSkippedTokens total/m.blockSize = numSkipped := by
    simp [getNumSkippedTokens, hkind, numSkipped]
  have hcdiv : cdiv total m.blockSize ≤ numSkipped+1 ∧ numSkipped ≤ cdiv total m.blockSize ∧
      (0 < total → cdiv total m.blockSize = numSkipped+1) := by
    have hsucc : 0 < total → cdiv total m.blockSize = numSkipped+1 := by
      intro htotal
      have he : total+m.blockSize-1 = (total-1)+m.blockSize := by omega
      rw [cdiv, he, Nat.add_div_right _ hB]
    by_cases htotal : 0 < total
    · have := hsucc htotal
      omega
    · have hzero : total = 0 := by omega
      have hnone : cdiv total m.blockSize = 0 := by
        rw [cdiv, hzero, Nat.div_eq_of_lt (by omega)]
      have hnone' : numSkipped = 0 := by
        simp only [numSkipped, hzero]
        exact Nat.zero_div _
      omega
  have hlocal : hits.length ≤ cdiv total m.blockSize :=
    hhits.trans (cdiv_mono (Nat.le_add_right _ _) _)
  -- the list that adopts the hits
  have hadopt : ∀ {q q' : BlockPool H} {m₁ : SingleTypeKVCacheManager H},
      m.addLocalComputedBlocks q r hits numLocal numExternal = some (q',m₁) →
      m.reqToBlocks r = [] ∧ m₁.lastStateBlockIdx r = m.lastStateBlockIdx r ∧
      m₁.allocatedBlockReqs r = m.allocatedBlockReqs r ∧ Frame r m m₁ ∧
      (m₁.reqToBlocks r).length = max numSkipped hits.length ∧
      ∀ i b : ℕ, (m₁.reqToBlocks r)[i]? = some b → b ≠ nullBlock → numSkipped ≤ i := by
    intro q q' m₁ hadd
    obtain ⟨hnil,-,rfl⟩ := addLocalComputedBlocks_cases hadd
    rw [hskip]
    refine ⟨hnil,by simp,by simp,frame_adoptHits m r _ _ _,?_,fun i b hi hb => ?_⟩
    · rw [adoptHits_reqToBlocks, length_append, length_replicate, length_drop]
      omega
    · by_contra hlt
      rw [adoptHits_reqToBlocks, getElem?_append_left (by simpa using hlt),
        getElem?_replicate, if_pos (by omega)] at hi
      cases hi
      exact hb rfl
  cases h with
  | hitsOnly hadd hext =>
    obtain ⟨hnil,hlast,halloc,hframe,hlen,hpos⟩ := hadopt hadd
    refine ⟨hnil,hlast,halloc,hframe,by change _ ≤ cdiv total _; omega,fun i b hi hb => ?_⟩
    have hge := hpos i b hi hb
    have hlt := (List.getElem?_eq_some_iff.mp hi).1
    omega
  | external hadd hexternal hq =>
    obtain ⟨hnil,hlast,halloc,hframe,hlen,hpos⟩ := hadopt hadd
    have hbs := hframe.blockSize
    rcases allocateExternalComputedBlocks_cases hexternal with ⟨-,rfl⟩ | ⟨new,hfit,hnew,rfl⟩
    · refine ⟨hnil,hlast,halloc,hframe,by change _ ≤ cdiv total _; omega,fun i b hi hb => ?_⟩
      have hge := hpos i b hi hb
      have hlt := (List.getElem?_eq_some_iff.mp hi).1
      omega
    · rename_i m₁
      have hnewlen := hq.getNewBlocks_length hnew
      rw [hbs] at hfit hnewlen
      change _ ≤ cdiv total m.blockSize at hfit
      change _ = cdiv total m.blockSize-_ at hnewlen
      have hlen' : (m₁.reqToBlocks r ++ new).length = cdiv total m.blockSize := by
        rw [length_append, hnewlen]
        omega
      refine ⟨hnil,hlast,halloc,hframe.trans (.setBlocks m₁ r _),?_,fun i b hi hb => ?_⟩
      · rw [setBlocks_reqToBlocks, hlen']
      · rw [setBlocks_reqToBlocks] at hi ⊢
        have hlt := (List.getElem?_eq_some_iff.mp hi).1
        rw [hlen'] at hlt ⊢
        have hge : numSkipped ≤ i := by
          by_cases hold : i < (m₁.reqToBlocks r).length
          · rw [getElem?_append_left hold] at hi
            exact hpos i b hi hb
          · omega
        omega

end Allocating

end SingleTypeKVCacheManager

open SingleTypeKVCacheManager (StateBlocks)

namespace SlotSystem

variable {H : Type u} [DecidableEq H]

def totalTokens (s : SlotSystem H) (r : RequestId) (args : SlotArgs) : ℕ :=
  (s.requests r).numComputedTokens+args.numNewComputedTokens+args.numExternalComputedTokens

def processedTokens (s : SlotSystem H) (r : RequestId) (args : SlotArgs) : ℕ :=
  s.totalTokens r args-(s.requests r).numInFlightTokens

/-- What the lookup and the scheduler guarantee: a hit list has at most one entry for each started
block of the local tokens, and no more tokens are computed than the model has positions. -/
def LegalSlots (s : SlotSystem H) : SlotEvent H → Prop
  | .allocate request args _ =>
    s.totalTokens request.requestId args ≤ s.manager.maxModelLen ∧
    ∀ g ∈ s.manager.singleTypeManagers.zip (args.newComputedBlocks.getD []),
      g.2.length ≤ cdiv ((s.requests request.requestId).numComputedTokens+
        args.numNewComputedTokens) g.1.blockSize
  | _ => True

/-- If a request that has state blocks gets another one, or copies its state, the processed tokens
reach into the block of its running state. -/
def SettledGroup (m : SingleTypeKVCacheManager H) (r : RequestId) (main processed : ℕ) : Prop :=
  match m.kind with
  | .mamba .align spec => m.allocatedBlockReqs r = true →
    ((m.reqToBlocks r).length < cdiv main m.blockSize+spec ∨ (m.partialHitReqs r).isSome = true) →
    ((m.reqToBlocks r).length-1-spec)*m.blockSize < processed
  | _ => True

def SettledStates (s : SlotSystem H) : SlotEvent H → Prop
  | .allocate request args _ =>
    let r := request.requestId
    ∀ m ∈ s.manager.singleTypeManagers, SettledGroup m r
      (s.totalTokens r args+args.numNewTokens) (s.processedTokens r args)
  | _ => True

instance (s : SlotSystem H) (e : SlotEvent H) : Decidable (s.LegalSlots e) := by
  cases e <;> unfold LegalSlots <;> infer_instance

instance (m : SingleTypeKVCacheManager H) (r : RequestId) (main processed : ℕ) :
    Decidable (SettledGroup m r main processed) := by
  unfold SettledGroup
  split <;> infer_instance

instance (s : SlotSystem H) (e : SlotEvent H) : Decidable (s.SettledStates e) := by
  cases e <;> unfold SettledStates <;> infer_instance

structure StatesBounded (s : SlotSystem H) : Prop where
  counted : s.manager.blockPool.QueueCounted
  sized : ∀ m ∈ s.manager.singleTypeManagers, 0 < m.blockSize
  held : ∀ m ∈ s.manager.singleTypeManagers, ∀ spec, m.kind = .mamba .align spec →
    ∀ r, StateBlocks m spec r

variable {s s' : SlotSystem H} {k : KVCacheManager H} {r : RequestId}

section

variable (hs : StatesBounded s)

include hs

/-- Steps that change nothing but the pool, or leave each group as it is apart from one request. -/
theorem StatesBounded.of_frames {requests : RequestId → SlotRequest} (hk : k.blockPool.QueueCounted)
    (hmem : ∀ m' ∈ k.singleTypeManagers, ∃ m ∈ s.manager.singleTypeManagers,
      Frame r m m' ∧ ∀ spec, m.kind = .mamba .align spec →
        StateBlocks m spec r → StateBlocks m' spec r) : StatesBounded ⟨k,requests⟩ where
  counted := hk
  sized m' hm' := by
    obtain ⟨m,hm,hf,-⟩ := hmem m' hm'
    rw [hf.blockSize]
    exact hs.sized m hm
  held m' hm' spec hkind r' := by
    obtain ⟨m,hm,hf,hown⟩ := hmem m' hm'
    have hkind' := hf.kind.symm.trans hkind
    have hold := hs.held m hm spec hkind'
    by_cases hr : r' = r
    · subst hr
      exact hown spec hkind' (hold r')
    · exact (hold r').frame hf hr

theorem StatesBounded.removeSkippedBlocks (r : RequestId) (n : ℕ) :
    StatesBounded { s with manager := s.manager.removeSkippedBlocks r n } := by
  refine hs.of_frames (KVCacheManager.removeSkippedBlocks_counted hs.counted r n) (r := r)
    fun m' hm' => ?_
  obtain ⟨m,hm,q,rfl⟩ := KVCacheManager.mem_removeSkippedBlocks hm'
  refine ⟨m,hm,m.frame_removeSkippedBlocks q r n,fun spec hkind hold => ?_⟩
  have hr := removed_removeSkippedBlocks hkind q r n
  exact hold.cleared hr.cleared hr.last hr.allocated

theorem state_of_committed {request : KVRequest H} {args : SlotArgs}
    {drafts slots : ℕ} (hlegal : s.LegalSlots (.allocate request args drafts))
    (hsettled : s.SettledStates (.allocate request args drafts))
    (hsome : ¬(args.numNewTokens = 0 ∧ args.numExternalComputedTokens = 0))
    {m' : SingleTypeKVCacheManager H} (h : KVCacheManager.Committed (s.view request) args
      ((s.manager.removeSkippedBlocks request.requestId
        (s.processedTokens request.requestId args)).hitBlocks args.newComputedBlocks)
      ((s.requests request.requestId).numComputedTokens+args.numNewComputedTokens) slots
      (s.totalTokens request.requestId args+args.numNewTokens)
      (s.manager.removeSkippedBlocks request.requestId (s.processedTokens request.requestId args)) m') :
    ∃ m ∈ s.manager.singleTypeManagers, Frame request.requestId m m' ∧
      ∀ spec, m.kind = .mamba .align spec → StateBlocks m spec request.requestId →
        StateBlocks m' spec request.requestId := by
  let r := request.requestId
  let numLocal := (s.requests r).numComputedTokens+args.numNewComputedTokens
  let main := s.totalTokens r args+args.numNewTokens
  obtain ⟨mr,hmr,m₁,m₂,hfirst,⟨q,q',new,hq,hnew⟩,hcache⟩ := h.chain
  obtain ⟨m,hm,q₀,rfl⟩ := KVCacheManager.mem_removeSkippedBlocks hmr
  have hB := hs.sized m hm
  have hf₀ := m.frame_removeSkippedBlocks q₀ r (s.processedTokens r args)
  have hf₂ := frame_allocateNewBlocks hnew
  have hmain : 0 < main := by
    simp only [main, totalTokens]
    omega
  generalize hmr' : (m.removeSkippedBlocks q₀ r (s.processedTokens r args)).2 = mr at *
  rcases hfirst with rfl | ⟨hits,hz,htook⟩
  · refine ⟨m,hm,(hf₀.trans hf₂).trans hcache.toFrame,fun spec hkind hold => ?_⟩
    have hrem : Removed m r (s.processedTokens r args) m₁ :=
      hmr' ▸ removed_removeSkippedBlocks hkind q₀ r _
    have hold₁ := hold.cleared hrem.cleared hrem.last hrem.allocated
    have hkind₁ := hf₀.kind.trans hkind
    simp only [allocateNewBlocks, hkind₁, if_true] at hnew
    have hstate : StateBlocks m₂ spec r := by
      cases halloc : m₁.allocatedBlockReqs r with
      | false =>
        obtain ⟨hlast,hempty,hone⟩ := hold₁.fresh halloc
        have hpos : 0 < cdiv main m₁.blockSize :=
          (lt_cdiv_iff (hf₀.blockSize ▸ hB)).mpr (by omega)
        refine StateBlocks.alignAllocate_fresh hq halloc hlast hone hpos ?_ hnew
        exact hempty.imp_right fun hnil => (length_eq_zero_iff.mpr hnil).trans_le (Nat.zero_le _)
      | true =>
        have halloc' : m.allocatedBlockReqs r = true := hrem.allocated.symm.trans halloc
        refine hold₁.alignAllocate hq halloc (fun hneeds i b hi hb => ?_) hnew
        have hset := hsettled m hm
        rw [SettledGroup, hkind] at hset
        refine hold.gone_of_settled hB halloc' hrem (hset halloc' ?_) i b hi hb
        rw [hrem.cleared.length, hf₀.blockSize, hrem.partialHit] at hneeds
        by_cases hpart : m.partialHitReqs r = none
        · exact .inl (not_le.mp fun hle => hneeds ⟨hle,hpart⟩)
        · exact .inr (isSome_iff_ne_none.mpr hpart)
    exact hstate.congr (congrFun hcache.blocks r) (congrFun hcache.last r)
      (congrFun hcache.allocated r)
  · -- the hits of a request without blocks
    have hhits : hits.length ≤ cdiv numLocal mr.blockSize := by
      cases hlists : args.newComputedBlocks with
      | none =>
        rw [hlists, KVCacheManager.hitBlocks, getD_none] at hz
        obtain ⟨-,-,rfl⟩ := mem_map.mp (of_mem_zip hz).2
        exact Nat.zero_le _
      | some lists =>
        rw [hlists, KVCacheManager.hitBlocks, getD_some] at hz
        obtain ⟨a,ha,q₁,hmr₁⟩ := mapPool_zip_mem hz
        have hle := hlegal.2 (a,hits) (by rw [hlists]; exact ha)
        rw [hmr₁, (a.frame_removeSkippedBlocks q₁ r _).blockSize]
        exact hle
    have hB₁ : 0 < mr.blockSize := hf₀.blockSize ▸ hB
    have hframe : Frame r mr m₁ := by
      cases htook with
      | hitsOnly hadd _ =>
        obtain ⟨-,-,rfl⟩ := addLocalComputedBlocks_cases hadd
        exact frame_adoptHits _ _ _ _ _
      | external hadd hext _ =>
        obtain ⟨-,-,rfl⟩ := addLocalComputedBlocks_cases hadd
        exact (frame_adoptHits _ _ _ _ _).trans
          (frame_allocateExternalComputedBlocks hext)
    refine ⟨m,hm,((hf₀.trans hframe).trans hf₂).trans hcache.toFrame,fun spec hkind hold => ?_⟩
    have hrem : Removed m r (s.processedTokens r args) mr :=
      hmr' ▸ removed_removeSkippedBlocks hkind q₀ r _
    have hold₁ := hold.cleared hrem.cleared hrem.last hrem.allocated
    have hkind₁ := hf₀.kind.trans hkind
    obtain ⟨hnil,hlast,hallocEq,-,hlen,hone⟩ :=
      tookHits_state hB₁ hkind₁ hhits htook
    have halloc : mr.allocatedBlockReqs r = false := by
      cases halloc : mr.allocatedBlockReqs r with
      | false => rfl
      | true =>
        have hlong : spec < (mr.reqToBlocks r).length := hold₁.long halloc
        have hzero : (mr.reqToBlocks r).length = 0 := length_eq_zero_iff.mpr hnil
        omega
    simp only [allocateNewBlocks, hframe.kind.trans hkind₁, if_true] at hnew
    have hpos : 0 < cdiv main m₁.blockSize :=
      (lt_cdiv_iff (hframe.blockSize ▸ hB₁)).mpr (by omega)
    have hle : (m₁.reqToBlocks r).length ≤ cdiv main m₁.blockSize := by
      rw [hframe.blockSize]
      exact hlen.trans (cdiv_mono (Nat.le_add_right _ _) _)
    have hstate := StateBlocks.alignAllocate_fresh hq (hallocEq.trans halloc)
      (hlast.trans (hold₁.fresh halloc).1) hone hpos (.inr hle) hnew
    exact hstate.congr (congrFun hcache.blocks r) (congrFun hcache.last r)
      (congrFun hcache.allocated r)

theorem StatesBounded.allocate {request : KVRequest H} {args : SlotArgs}
    {drafts : ℕ} (hlegal : s.LegalSlots (.allocate request args drafts))
    (hsettled : s.SettledStates (.allocate request args drafts))
    (h : s.step (.allocate request args drafts) = some s') : StatesBounded s' := by
  obtain ⟨⟨res,k⟩,halloc,heq⟩ := map_eq_some_iff.mp h
  have hcases := KVCacheManager.allocateSlots_cases halloc
  dsimp only at hcases
  obtain ⟨hsome,hcases⟩ := hcases
  have htotal : min (s.totalTokens request.requestId args) s.manager.maxModelLen =
      s.totalTokens request.requestId args := min_eq_left hlegal.1
  rcases hcases with ⟨rfl,rfl | rfl⟩ | ⟨new,rfl,hcommit⟩
  · cases heq
    exact hs
  · cases heq
    exact hs.removeSkippedBlocks request.requestId _
  · change (KVCacheManager.removeSkippedBlocks s.manager request.requestId
      (min (s.totalTokens request.requestId args) s.manager.maxModelLen-
        (s.requests request.requestId).numInFlightTokens)).commitSlots (s.view request) args
      ((s.requests request.requestId).numComputedTokens+args.numNewComputedTokens)
      (min (s.totalTokens request.requestId args) s.manager.maxModelLen) _ = some (new,k) at hcommit
    rw [htotal] at hcommit
    have hcounted := KVCacheManager.removeSkippedBlocks_counted hs.counted request.requestId
      (s.processedTokens request.requestId args)
    obtain ⟨hk,hgroups⟩ := KVCacheManager.commitSlots_cases hcounted hcommit
    cases heq
    exact hs.of_frames hk fun m' hm' => state_of_committed hs hlegal hsettled hsome (hgroups m' hm')

theorem StatesBounded.step {e : SlotEvent H} (hlegal : s.LegalSlots e)
    (hsettled : s.SettledStates e) (h : s.step e = some s') : StatesBounded s' := by
  cases e with
  | allocate request args drafts => exact hs.allocate hlegal hsettled h
  | process r n =>
    simp only [SlotSystem.step] at h
    split at h
    · cases h
    · split at h
      · cases h
        exact ⟨hs.counted,hs.sized,hs.held⟩
      · cases h
  | rollback r n =>
    simp only [SlotSystem.step] at h
    split at h
    · cases h
      exact ⟨hs.counted,hs.sized,hs.held⟩
    · cases h
  | cacheBlocks request n =>
    obtain ⟨k,hcache,rfl⟩ := map_eq_some_iff.mp h
    obtain ⟨hk,hgroups⟩ := KVCacheManager.cacheBlocks_cases hs.counted hcache
    refine hs.of_frames hk (r := request.requestId) fun m' hm' => ?_
    obtain ⟨m,hm,hf⟩ := hgroups m' hm'
    exact ⟨m,hm,hf.toFrame,fun spec _ hold => hold.congr (congrFun hf.blocks _)
      (congrFun hf.last _) (congrFun hf.allocated _)⟩
  | removeSkippedBlocks r n =>
    cases h
    exact hs.removeSkippedBlocks r n
  | free r =>
    cases h
    refine hs.of_frames (KVCacheManager.free_counted hs.counted r) (r := r) fun m' hm' => ?_
    obtain ⟨m,hm,rfl⟩ := KVCacheManager.mem_free hm'
    exact ⟨m,hm,m.frame_popBlocksForFree r,fun spec _ _ => StateBlocks.of_empty
      (update_self ..) (update_self ..) (update_self ..)⟩
  | popBlocksForFree r =>
    cases h
    refine hs.of_frames hs.counted (r := r) fun m' hm' => ?_
    obtain ⟨m,hm,rfl⟩ := mem_map.mp hm'
    exact ⟨m,hm,m.frame_popBlocksForFree r,fun spec _ _ => StateBlocks.of_empty
      (update_self ..) (update_self ..) (update_self ..)⟩
  | newStepStarts =>
    cases h
    refine hs.of_frames hs.counted (r := 0) fun m' hm' => ?_
    obtain ⟨m,hm,rfl⟩ := mem_map.mp hm'
    have hsame : m.newStepStarts = { m with
        cachedBlocksThisStep := m.newStepStarts.cachedBlocksThisStep } := by
      rw [newStepStarts]
      split <;> rfl
    rw [hsame]
    exact ⟨m,hm,⟨rfl,rfl,rfl,rfl,fun _ _ => rfl,fun _ _ => rfl,fun _ _ => rfl,fun _ _ => rfl,
      fun _ _ => rfl⟩,fun spec _ hold => hold.congr rfl rfl rfl⟩
  | takeCopies =>
    cases h
    refine hs.of_frames hs.counted (r := 0) fun m' hm' => ?_
    obtain ⟨m,hm,rfl⟩ := mem_map.mp hm'
    exact ⟨m,hm,⟨rfl,rfl,rfl,rfl,fun _ _ => rfl,fun _ _ => rfl,fun _ _ => rfl,fun _ _ => rfl,
      fun _ _ => rfl⟩,fun spec _ hold => hold.congr rfl rfl rfl⟩
  | pool call =>
    obtain ⟨p,hcall,rfl⟩ := map_eq_some_iff.mp h
    exact ⟨(steps_of_call hcall).queueCounted hs.counted,hs.sized,hs.held⟩

end

structure Unused (k : KVCacheManager H) : Prop where
  counted : k.blockPool.QueueCounted
  sized : ∀ m ∈ k.singleTypeManagers, 0 < m.blockSize
  blocks : ∀ m ∈ k.singleTypeManagers, ∀ r, m.reqToBlocks r = []
  last : ∀ m ∈ k.singleTypeManagers, ∀ r, m.lastStateBlockIdx r = none
  allocated : ∀ m ∈ k.singleTypeManagers, ∀ r, m.allocatedBlockReqs r = false

/-- In every run whose allocations are settled, a request holds at most two state blocks besides
its speculative ones, at any time and so with any number of unprocessed steps. -/
theorem mamba_align_blocks_le {k : KVCacheManager H} (hk : Unused k) {s : SlotSystem H}
    (h : Reachable step (fun s e _ => s.LegalSlots e ∧ s.SettledStates e) ⟨k,fun _ => {}⟩ s)
    {m : SingleTypeKVCacheManager H} (hm : m ∈ s.manager.singleTypeManagers) {spec : ℕ}
    (hkind : m.kind = .mamba .align spec) (r : RequestId) :
    (m.reqToBlocks r).countP (· != nullBlock) ≤
      2+spec+(s.requests r).steps.length := by
  have hinit : StatesBounded (⟨k,fun _ => {}⟩ : SlotSystem H) := by
    refine ⟨hk.counted,hk.sized,fun m hm spec _ r => ?_⟩
    exact .of_empty (hk.blocks m hm r) (hk.last m hm r) (hk.allocated m hm r)
  have hs : StatesBounded s := by
    refine h.invariant (P := StatesBounded) hinit ?_
    intro s e s' hs hstep hok
    exact hs.step hok.1 hok.2 hstep
  exact (hs.held m hm spec hkind r).countP_le.trans (Nat.le_add_right _ _)

def alignGroup : SingleTypeKVCacheManager ℕ where
  kind := .mamba .align 0
  blockSize := 1
  enableCaching := true
  kvCacheGroupId := 0
  schedulerBlockSize := 1

def alignModel : KVCacheManager ℕ where
  blockPool := .init 12 true 1
  singleTypeManagers := [alignGroup]
  coordinator := .unitary
  maxModelLen := 20
  schedulerBlockSize := 1

def alignPrompt : KVRequest ℕ :=
  { requestId := 0, numTokens := 10, numPromptTokens := 10, blockHashes := List.range 10 }

theorem unused_alignModel : Unused alignModel where
  counted := ⟨by decide,by decide⟩
  sized m hm := by
    rw [List.mem_singleton.mp hm]
    exact Nat.one_pos
  blocks m hm r := by
    rw [List.mem_singleton.mp hm]
    rfl
  last m hm r := by
    rw [List.mem_singleton.mp hm]
    rfl
  allocated m hm r := by
    rw [List.mem_singleton.mp hm]
    rfl

/-- Three chunks of two blocks, each processed before the next one is scheduled. -/
theorem mamba_align_blocks_le_chunks : ∃ s : SlotSystem ℕ,
    Reachable step (fun s e _ => s.LegalSlots e ∧ s.SettledStates e) ⟨alignModel,fun _ => {}⟩ s ∧
    ∃ m ∈ s.manager.singleTypeManagers, m.reqToBlocks 0 = [0,0,0,2,0,3] ∧
      (m.reqToBlocks 0).countP (· != nullBlock) ≤
        2+0+(s.requests 0).steps.length := by
  obtain ⟨s,hs,hend⟩ := Reachable.exists_of_runGuarded step
    (fun (s : SlotSystem ℕ) e _ h => show s.LegalSlots e ∧ s.SettledStates e from
      of_decide_eq_true h) ⟨alignModel,fun _ => {}⟩
    [.allocate alignPrompt { numNewTokens := 2 } 0,.process 0 0,
      .allocate alignPrompt { numNewTokens := 2 } 0,.process 0 0,
      .allocate alignPrompt { numNewTokens := 2 } 0]
    (fun s => decide (∃ m ∈ s.manager.singleTypeManagers,
      m.kind = .mamba .align 0 ∧ m.reqToBlocks 0 = [0,0,0,2,0,3])) (by decide +kernel)
  obtain ⟨m,hm,hkind,hblocks⟩ := of_decide_eq_true hend
  exact ⟨s,hs,m,hm,hblocks,mamba_align_blocks_le unused_alignModel hs hm hkind 0⟩

/-- The same chunks with one step in flight: the remembered position is overwritten before its
block may be freed, and the sweep stops at the null block in front of it. -/
theorem mamba_align_blocks_leak : ∃ s : SlotSystem ℕ,
    Reachable step (fun s e _ => s.LegalSlots e) ⟨alignModel,fun _ => {}⟩ s ∧
    ∃ m ∈ s.manager.singleTypeManagers, m.kind = .mamba .align 0 ∧
      (s.requests 0).steps.length = 2 ∧
      (m.reqToBlocks 0).countP (· != nullBlock) = 5 := by
  let chunk : SlotEvent ℕ := .allocate alignPrompt { numNewTokens := 2 } 0
  obtain ⟨s,hs,hend⟩ := Reachable.exists_of_runGuarded step
    (fun (s : SlotSystem ℕ) e _ h => show s.LegalSlots e from of_decide_eq_true h)
    ⟨alignModel,fun _ => {}⟩
    [chunk,chunk,.process 0 0,chunk,.process 0 0,chunk,.process 0 0,chunk]
    (fun s => decide (∃ m ∈ s.manager.singleTypeManagers, m.kind = .mamba .align 0 ∧
      (s.requests 0).steps.length = 2 ∧
      (m.reqToBlocks 0).countP (· != nullBlock) = 5)) (by decide +kernel)
  exact ⟨s,hs,of_decide_eq_true hend⟩

end SlotSystem

end MetaZenith.KVCache
