import MetaZenith.MambaAlignModel

/-! The scheduler's part of an align step. Whatever the allocator clears, moves and appends, the columns a
step may touch are real blocks the request owns, and one of them holds the state of the computed tokens. -/

namespace MetaZenith.MambaAlign

open List Option Function

variable {c s : ℕ}

open KVCache KVCache.SingleTypeKVCacheManager

variable {τ : Type*}

theorem sweepBlocks_getElem?_of_le {count i : ℕ} (blocks : List ℕ) (hi : count ≤ i) :
    (sweepBlocks 0 count blocks).2[i]? = blocks[i]? := by
  induction count generalizing blocks with
  | zero => rfl
  | succ count ih =>
    rw [sweepBlocks]
    split
    · rfl
    · dsimp only
      rw [ih _ (by omega), getElem?_set_ne (by omega)]

theorem drop_reuseSpeculativeBlocks (n idx count : ℕ) (blocks : List ℕ)
    (hfit : idx+count ≤ blocks.length) (hn : n ≤ blocks.length) :
    (reuseSpeculativeBlocks n idx count blocks).drop n =
      blocks.drop n ++ (blocks.drop idx).take (min count (n-idx)) := by
  induction count generalizing idx blocks with
  | zero => simp [reuseSpeculativeBlocks]
  | succ count ih =>
    rw [reuseSpeculativeBlocks]
    split
    · rename_i hidx
      have hlt : idx < blocks.length := by omega
      have hget : blocks.getD idx BlockPool.nullBlock = blocks[idx] :=
        getD_eq_getElem _ _ hlt
      -- the appended block is the one that is cleared
      rw [hget, ih _ _ (by simp; omega) (by simp; omega), set_append_left _ _ hlt,
        drop_append_of_le_length (by simp; omega), drop_set_of_lt hidx,
        drop_append_of_le_length (by simp; omega), drop_set_of_lt (by omega)]
      have hmin : min (count+1) (n-idx) = min count (n-(idx+1))+1 := by omega
      rw [hmin, ← cons_getElem_drop_succ (h := hlt), take_succ_cons,
        take_append_of_le_length (by simp; omega)]
      simp
    · have hzero : min (count+1) (n-idx) = 0 := by omega
      rw [hzero, take_zero, append_nil]

theorem take_reuseSpeculativeBlocks (n idx count k : ℕ) (blocks : List ℕ)
    (hfit : idx+count ≤ blocks.length) (hk : k ≤ idx) :
    (reuseSpeculativeBlocks n idx count blocks).take k = blocks.take k := by
  induction count generalizing idx blocks with
  | zero => rfl
  | succ count ih =>
    rw [reuseSpeculativeBlocks]
    split
    · rw [ih _ _ (by simp; omega) (by omega), take_set_of_le hk, take_append_of_le_length (by omega)]
    · rfl

theorem cdiv_eq {a b : ℕ} (ha : 0 < a) (hb : 0 < b) : cdiv a b = (a-1)/b+1 := by
  have hsplit : a+b-1 = a-1+b := by omega
  rw [cdiv, hsplit, Nat.add_div_right _ hb]

/-- When the running state moves behind the old list's running column, the columns from the new one on
hold the old speculative blocks and everything before them that is kept stays in place. -/
theorem alignReqBlocks_grow (blocks : List ℕ) (s spec : ℕ) (hlen : spec ≤ blocks.length)
    (hs : blocks.length-spec ≤ s) : (alignReqBlocks blocks true s spec).length = s+spec ∧
      ((alignReqBlocks blocks true s spec).drop s).Perm (blocks.drop (blocks.length-spec)) ∧
      (∀ c < blocks.length-spec, (alignReqBlocks blocks true s spec)[c]? = blocks[c]?) ∧
      ∀ c, s ≤ c → c < blocks.length → (alignReqBlocks blocks true s spec)[c]? = blocks[c]? := by
  let padded := blocks ++ List.replicate (s-blocks.length) BlockPool.nullBlock
  have hpadded : padded.length = max blocks.length s := by
    simp only [padded, length_append, length_replicate]
    omega
  have hblocks : alignReqBlocks blocks true s spec =
      reuseSpeculativeBlocks s (blocks.length-spec) spec padded := by
    simp [alignReqBlocks, padded]
  have hdrop := drop_reuseSpeculativeBlocks s (blocks.length-spec) spec padded (by omega) (by omega)
  rw [hblocks]
  refine ⟨?_,?_,?_,?_⟩
  · rw [reuseSpeculativeBlocks_length, hpadded]
    omega
  · rw [hdrop]
    by_cases hle : blocks.length ≤ s
    · have hnil : padded.drop s = [] := drop_eq_nil_of_le (by omega)
      have hmin : min spec (s-(blocks.length-spec)) = spec := by omega
      have hspec : (blocks.drop (blocks.length-spec)).length = spec := by
        rw [length_drop]
        omega
      rw [hnil, hmin, nil_append, drop_append_of_le_length (by omega), take_left' hspec]
    · have hself : padded = blocks := by
        simp [padded, Nat.sub_eq_zero_of_le (le_of_not_ge hle)]
      have hmin : min spec (s-(blocks.length-spec)) = s-(blocks.length-spec) := by omega
      have hsplit : (blocks.drop (blocks.length-spec)).drop (s-(blocks.length-spec)) =
          blocks.drop s := by
        rw [drop_drop]
        congr 1
        omega
      rw [hself, hmin, ← hsplit]
      exact perm_append_comm.trans (by rw [take_append_drop])
  · intro c hc
    have htake := take_reuseSpeculativeBlocks s (blocks.length-spec) spec (c+1) padded (by omega)
      (by omega)
    have hget := congrArg (fun l : List ℕ => l[c]?) htake
    simp only [getElem?_take_of_succ] at hget
    rw [hget, getElem?_append_left (by omega)]
  · intro c hsc hc
    have hget := congrArg (fun l : List ℕ => l[c-s]?) hdrop
    have hidx : s+(c-s) = c := by omega
    have hlt : c-s < (padded.drop s).length := by
      rw [length_drop]
      omega
    simp only [getElem?_drop, getElem?_append_left hlt, hidx] at hget
    rw [hget, getElem?_append_left hc]

theorem alignReqBlocks_keep {blocks : List ℕ} {spec : ℕ} (hs : s+spec < blocks.length) :
    alignReqBlocks blocks true s spec = blocks := by
  have hpad : s-blocks.length = 0 := by omega
  simp only [alignReqBlocks, if_true, hpad, replicate_zero, append_nil]
  cases spec with
  | zero => rfl
  | succ spec => rw [reuseSpeculativeBlocks, if_neg (by omega)]

namespace AlignRequest

variable {cfg : Config} {st : AlignRequest τ} {step : AlignStep τ}

def Owns (st : AlignRequest τ) (c : ℕ) : Prop :=
  ∃ b, st.blockTable[c]? = some b ∧ st.reqBlocks[c]? = some b ∧ b ≠ BlockPool.nullBlock

structure Admitted (cfg : Config) (st : AlignRequest τ) : Prop where
  blocksAllocated : st.blocksAllocated = false
  mambaStateIdx : st.mambaStateIdx = none
  numAcceptedTokens : st.numAcceptedTokens = 1
  computed_lt : st.numComputedTokens < st.tokens.length
  hits : st.reqBlocks.length = cdiv st.numComputedTokens cfg.blockSize
  state : 0 < st.numComputedTokens → ∃ b,
    st.reqBlocks[(st.numComputedTokens-1)/cfg.blockSize]? = some b ∧ b ≠ BlockPool.nullBlock ∧
      st.memory b = st.tokens.take st.numComputedTokens

/-- A request between two steps, with its state at column `s` and its accepted count. From the column of
its last computed token on every column is its own. During prefill the running state is the last column
before the speculative ones. -/
structure Running (cfg : Config) (st : AlignRequest τ) (s : ℕ) : Prop where
  blocksAllocated : st.blocksAllocated = true
  mambaStateIdx : st.mambaStateIdx = some s
  computed_pos : 0 < st.numComputedTokens
  computed_lt : st.numComputedTokens < st.tokens.length
  low_le : (st.numComputedTokens-1)/cfg.blockSize ≤ s
  table_length : st.blockTable.length = st.reqBlocks.length
  fits : s+cfg.numSpeculativeBlocks < st.reqBlocks.length
  accepted_pos : 0 < st.numAcceptedTokens
  accepted_le : st.numAcceptedTokens ≤ cfg.numSpeculativeBlocks+1
  owns : ∀ c, (st.numComputedTokens-1)/cfg.blockSize ≤ c → c < st.reqBlocks.length → st.Owns c
  apart : (st.reqBlocks.drop ((st.numComputedTokens-1)/cfg.blockSize)).Nodup
  state : st.memory (st.block (s+(st.numAcceptedTokens-1))) = st.tokens.take st.numComputedTokens
  phase : st.numComputedTokens+1 = st.tokens.length ∨
    s = (st.numComputedTokens-1)/cfg.blockSize ∧ st.numAcceptedTokens = 1 ∧
      s+cfg.numSpeculativeBlocks+1 = st.reqBlocks.length

def Usable (cfg : Config) (st : AlignRequest τ) (s c : ℕ) : Prop :=
  0 < st.numComputedTokens ∧ c = (st.numComputedTokens-1)/cfg.blockSize ∨ s ≤ c

/-- What the worker is given: all usable columns are real, own and distinct, and the old state is in one
of them. During prefill the running column is the last one before the speculative ones. -/
structure Scheduled (cfg : Config) (st : AlignRequest τ) (s : ℕ) : Prop where
  table_length : st.blockTable.length = st.reqBlocks.length
  fits : s+cfg.numSpeculativeBlocks < st.blockTable.length
  accepted_pos : 0 < st.numAcceptedTokens
  owns : ∀ c, Usable cfg st s c → c < st.blockTable.length → st.Owns c
  nodup : (st.reqBlocks.drop s).Nodup
  low_apart : 0 < st.numComputedTokens → (st.numComputedTokens-1)/cfg.blockSize < s →
    st.block ((st.numComputedTokens-1)/cfg.blockSize) ∉ st.reqBlocks.drop s
  unstarted : st.numComputedTokens = 0 → st.prevStateIdx cfg = none
  source : 0 < st.numComputedTokens → ∃ prev, st.prevStateIdx cfg = some prev ∧
    Usable cfg st s (prev+(st.numAcceptedTokens-1)) ∧
    prev+(st.numAcceptedTokens-1) < st.blockTable.length ∧
    st.memory (st.block (prev+(st.numAcceptedTokens-1))) = st.tokens.take st.numComputedTokens
  tight : st.numComputedTokens+1 < st.tokens.length →
    s+cfg.numSpeculativeBlocks+1 = st.blockTable.length

theorem Owns.block_eq (h : st.Owns c) : st.reqBlocks[c]? = some (st.block c) := by
  obtain ⟨b,htable,hreq,-⟩ := h
  rw [block, getD_eq_getElem?_getD, htable]
  exact hreq

theorem getElem?_removeSkippedBlocks (hpos : 0 < st.numComputedTokens) (hsize : 0 < cfg.blockSize)
    (hc : (st.numComputedTokens-1)/cfg.blockSize ≤ c) :
    (st.removeSkippedBlocks cfg).reqBlocks[c]? = st.reqBlocks[c]? := by
  have hcdiv := cdiv_eq hpos hsize
  have hswept : (st.sweptBlocks cfg)[c]? = st.reqBlocks[c]? := by
    unfold sweptBlocks
    split
    · rfl
    · exact sweepBlocks_getElem?_of_le _ (by omega)
  change (st.freeLastState cfg (st.sweptBlocks cfg))[c]? = _
  unfold freeLastState
  split
  · split
    · -- the freed state lies before the last computed token
      rw [getElem?_set_ne (by omega), hswept]
    · exact hswept
  · exact hswept

theorem length_removeSkippedBlocks :
    (st.removeSkippedBlocks cfg).reqBlocks.length = st.reqBlocks.length := by
  have hswept : (st.sweptBlocks cfg).length = st.reqBlocks.length := by
    unfold sweptBlocks
    split
    · rfl
    · exact (sweepBlocks_cleared _ _ _).length
  change (st.freeLastState cfg (st.sweptBlocks cfg)).length = _
  unfold freeLastState
  split
  · split
    · rw [length_set, hswept]
    · exact hswept
  · exact hswept

theorem currStateIdx_eq (hsize : 0 < cfg.blockSize) (hnum : 0 < step.numScheduledTokens) :
    st.currStateIdx cfg step = (st.numComputedTokens+step.numScheduledTokens-1)/cfg.blockSize := by
  rw [currStateIdx, cdiv_eq (by omega) hsize]
  generalize (st.numComputedTokens+step.numScheduledTokens-1)/cfg.blockSize = s
  omega

/-- Only the block list, the block table and the bookkeeping of the allocator change. -/
theorem allocateNewBlocks_frame (cfg : Config) (st : AlignRequest τ) (step : AlignStep τ) :
    (st.allocateNewBlocks cfg step).tokens = st.tokens ∧
      (st.allocateNewBlocks cfg step).numComputedTokens = st.numComputedTokens ∧
      (st.allocateNewBlocks cfg step).mambaStateIdx = st.mambaStateIdx ∧
      (st.allocateNewBlocks cfg step).numAcceptedTokens = st.numAcceptedTokens ∧
      (st.allocateNewBlocks cfg step).memory = st.memory := by
  simp only [allocateNewBlocks]
  split <;> simp

theorem privatize_frame (cfg : Config) (st : AlignRequest τ) (cow : ℕ) :
    (st.privatize cfg cow).tokens = st.tokens ∧
      (st.privatize cfg cow).numComputedTokens = st.numComputedTokens ∧
      (st.privatize cfg cow).mambaStateIdx = st.mambaStateIdx ∧
      (st.privatize cfg cow).numAcceptedTokens = st.numAcceptedTokens ∧
      (st.privatize cfg cow).blocksAllocated = st.blocksAllocated := by
  simp only [privatize]
  split <;> simp

theorem schedule_frame (cfg : Config) (st : AlignRequest τ) (step : AlignStep τ) :
    (st.schedule cfg step).tokens = st.tokens ∧
      (st.schedule cfg step).numComputedTokens = st.numComputedTokens ∧
      (st.schedule cfg step).mambaStateIdx = st.mambaStateIdx ∧
      (st.schedule cfg step).numAcceptedTokens = st.numAcceptedTokens := by
  have hheld : (st.held cfg).tokens = st.tokens ∧
      (st.held cfg).numComputedTokens = st.numComputedTokens ∧
      (st.held cfg).mambaStateIdx = st.mambaStateIdx ∧
      (st.held cfg).numAcceptedTokens = st.numAcceptedTokens := by
    unfold held
    split <;> simp [removeSkippedBlocks]
  obtain ⟨h₁,h₂,h₃,h₄,-⟩ := allocateNewBlocks_frame cfg
    (((st.held cfg).interfere step.others).privatize cfg step.cowBlock) step
  obtain ⟨h₁',h₂',h₃',h₄',-⟩ := privatize_frame cfg ((st.held cfg).interfere step.others) step.cowBlock
  exact ⟨h₁.trans (h₁'.trans hheld.1),h₂.trans (h₂'.trans hheld.2.1),
    h₃.trans (h₃'.trans hheld.2.2.1),h₄.trans (h₄'.trans hheld.2.2.2)⟩

theorem allocateNewBlocks_running (halloc : st.blocksAllocated = true)
    (hspec : cfg.numSpeculativeBlocks ≤ st.reqBlocks.length)
    (hs : cdiv (st.numComputedTokens+step.numScheduledTokens) cfg.blockSize = s+1)
    (hnew : step.newBlocks.length = st.numNewBlocks cfg step) :
    (s+cfg.numSpeculativeBlocks < st.reqBlocks.length ∧
      (st.allocateNewBlocks cfg step).reqBlocks = st.reqBlocks ∧
      (st.allocateNewBlocks cfg step).blockTable = st.blockTable) ∨
    (st.reqBlocks.length ≤ s+cfg.numSpeculativeBlocks ∧ ∃ b, step.newBlocks = [b] ∧
      (st.allocateNewBlocks cfg step).reqBlocks =
        alignReqBlocks st.reqBlocks true s cfg.numSpeculativeBlocks ++ [b] ∧
      (st.allocateNewBlocks cfg step).blockTable = st.blockTable ++
        (alignReqBlocks st.reqBlocks true s cfg.numSpeculativeBlocks ++ [b]).drop
          st.reqBlocks.length) := by
  have hskipped : s+1+cfg.numSpeculativeBlocks-cfg.numSpeculativeBlocks-1 = s := by omega
  simp only [numNewBlocks, hs, hskipped, halloc] at hnew
  by_cases hlt : s+cfg.numSpeculativeBlocks < st.reqBlocks.length
  · left
    rw [alignReqBlocks_keep hlt] at hnew
    have hnil : step.newBlocks = [] := eq_nil_of_length_eq_zero (by omega)
    refine ⟨hlt,?_⟩
    simp only [allocateNewBlocks, hs, hskipped, halloc]
    split
    · exact ⟨rfl,rfl⟩
    · simp [alignReqBlocks_keep hlt, hnil]
  · right
    obtain ⟨hlen,-⟩ := alignReqBlocks_grow st.reqBlocks s _ hspec (by omega)
    rw [hlen] at hnew
    obtain ⟨b,hb⟩ := length_eq_one_iff.mp (hnew.trans (by omega))
    refine ⟨not_lt.mp hlt,b,hb,?_⟩
    have hbranch : ¬ (True ∧ s+1+cfg.numSpeculativeBlocks ≤ st.reqBlocks.length ∧
        step.producerTail = false) := by
      rintro ⟨-,hle,-⟩
      omega
    simp only [allocateNewBlocks, hs, hskipped, halloc, if_neg hbranch, hb, if_true, and_self]

theorem Scheduled.apart {c' : ℕ} (h : Scheduled cfg st s) (hc : Usable cfg st s c)
    (hlt : c < st.blockTable.length) (hc' : Usable cfg st s c') (hlt' : c' < st.blockTable.length)
    (heq : st.block c = st.block c') : c = c' := by
  have hget : ∀ c, Usable cfg st s c → c < st.blockTable.length → s ≤ c →
      (st.reqBlocks.drop s)[c-s]? = some (st.block c) := by
    intro c hc hlt hle
    rw [getElem?_drop, Nat.add_sub_cancel' hle]
    exact (h.owns c hc hlt).block_eq
  have hmem : ∀ c, Usable cfg st s c → c < st.blockTable.length → s ≤ c →
      st.block c ∈ st.reqBlocks.drop s :=
    fun c hc hlt hle => List.mem_of_getElem? (hget c hc hlt hle)
  by_cases hle : s ≤ c <;> by_cases hle' : s ≤ c'
  · have hlen := h.table_length
    have hidx := (getElem?_inj (by rw [length_drop]; omega) h.nodup).mp
      ((hget c hc hlt hle).trans (heq ▸ (hget c' hc' hlt' hle').symm))
    omega
  · obtain ⟨hpos,rfl⟩ := hc'.resolve_right hle'
    exact absurd (heq ▸ hmem c hc hlt hle) (h.low_apart hpos (not_le.mp hle'))
  · obtain ⟨hpos,rfl⟩ := hc.resolve_right hle
    exact absurd (heq ▸ hmem c' hc' hlt' hle') (h.low_apart hpos (not_le.mp hle))
  · obtain ⟨-,rfl⟩ := hc.resolve_right hle
    obtain ⟨-,rfl⟩ := hc'.resolve_right hle'
    rfl

theorem Owns.mem_reqBlocks (h : st.Owns c) : st.block c ∈ st.reqBlocks :=
  List.mem_of_getElem? h.block_eq

section Running

variable {s₀ : ℕ}

section

variable (h : Running cfg st s₀)

include h

theorem Running.source_lt : s₀+(st.numAcceptedTokens-1) < st.reqBlocks.length := by
  have hfits := h.fits
  have hle := h.accepted_le
  omega

theorem Running.source_owns : st.Owns (s₀+(st.numAcceptedTokens-1)) :=
  h.owns _ (h.low_le.trans (Nat.le_add_right _ _)) h.source_lt

theorem Running.removeSkippedBlocks (hsize : 0 < cfg.blockSize) :
    Running cfg (st.removeSkippedBlocks cfg) s₀ := by
  have hlen : (st.removeSkippedBlocks cfg).reqBlocks.length = st.reqBlocks.length :=
    length_removeSkippedBlocks
  refine ⟨h.blocksAllocated,h.mambaStateIdx,h.computed_pos,h.computed_lt,h.low_le,
    h.table_length.trans hlen.symm,hlen ▸ h.fits,h.accepted_pos,h.accepted_le,?_,?_,h.state,
    hlen ▸ h.phase⟩
  · intro c hc hlt
    obtain ⟨b,htable,hreq,hne⟩ := h.owns c hc (hlen ▸ hlt)
    exact ⟨b,htable,(getElem?_removeSkippedBlocks h.computed_pos hsize hc).trans hreq,hne⟩
  · have hdrop : (st.removeSkippedBlocks cfg).reqBlocks.drop
        ((st.numComputedTokens-1)/cfg.blockSize) =
        st.reqBlocks.drop ((st.numComputedTokens-1)/cfg.blockSize) := by
      apply ext_getElem?
      intro i
      rw [getElem?_drop, getElem?_drop,
        getElem?_removeSkippedBlocks h.computed_pos hsize (Nat.le_add_right _ _)]
    exact hdrop ▸ h.apart

theorem Running.interfere (others : ℕ → List τ) : Running cfg (st.interfere others) s₀ := by
  refine ⟨h.blocksAllocated,h.mambaStateIdx,h.computed_pos,h.computed_lt,h.low_le,h.table_length,
    h.fits,h.accepted_pos,h.accepted_le,h.owns,h.apart,?_,h.phase⟩
  exact (if_pos h.source_owns.mem_reqBlocks).trans h.state

/-- During prefill the newest state is in the column of the last computed token, and a decode step
advances by at most one column. -/
theorem Running.source_usable
    (hsize : cfg.numSpeculativeBlocks < cfg.blockSize) (hlegal : LegalTokens cfg st step) :
    Usable cfg st ((st.numComputedTokens+step.numScheduledTokens-1)/cfg.blockSize)
      (s₀+(st.numAcceptedTokens-1)) := by
  obtain ⟨hnum,-,hdrafts,hshape⟩ := hlegal
  have hlow := h.low_le
  rcases h.phase with hdecode | ⟨hs₀,hone,-⟩
  · have hshort : step.numScheduledTokens ≤ cfg.blockSize := by
      split at hshape <;> omega
    have hnext : (st.numComputedTokens+step.numScheduledTokens-1)/cfg.blockSize ≤
        (st.numComputedTokens-1)/cfg.blockSize+1 := by
      rw [← Nat.add_div_right _ (by omega)]
      exact Nat.div_le_div_right (by omega)
    rcases Nat.eq_or_lt_of_le (hlow.trans (Nat.le_add_right _ (st.numAcceptedTokens - 1))) with he | hlt
    · exact .inl ⟨h.computed_pos,he.symm⟩
    · exact .inr (hnext.trans hlt)
  · exact .inl ⟨h.computed_pos,by rw [hone, hs₀]; rfl⟩

theorem Running.nodup_drop
    (hc : (st.numComputedTokens-1)/cfg.blockSize ≤ c) : (st.reqBlocks.drop c).Nodup :=
  h.apart.sublist (drop_suffix_drop_left _ hc).sublist

theorem Running.low_not_mem (hc : (st.numComputedTokens-1)/cfg.blockSize < c) :
    st.block ((st.numComputedTokens-1)/cfg.blockSize) ∉ st.reqBlocks.drop c := by
  have hlt : (st.numComputedTokens-1)/cfg.blockSize < st.reqBlocks.length := by
    have hfits := h.fits
    have hlow := h.low_le
    omega
  have hblock := (h.owns _ le_rfl hlt).block_eq
  obtain ⟨_,hget⟩ := List.getElem?_eq_some_iff.mp hblock
  have hcons := h.apart
  rw [← cons_getElem_drop_succ (h := hlt), hget, nodup_cons] at hcons
  intro hmem
  exact hcons.1 ((drop_suffix_drop_left _ hc).sublist.subset hmem)

theorem Running.scheduled_keep {st' : AlignRequest τ}
    (hlow : (st.numComputedTokens-1)/cfg.blockSize ≤ s)
    (hsource : Usable cfg st s (s₀+(st.numAcceptedTokens-1)))
    (hfits : s+cfg.numSpeculativeBlocks < st.reqBlocks.length)
    (hreq : st'.reqBlocks = st.reqBlocks) (htable : st'.blockTable = st.blockTable)
    (hframe : st'.tokens = st.tokens ∧ st'.numComputedTokens = st.numComputedTokens ∧
      st'.mambaStateIdx = st.mambaStateIdx ∧ st'.numAcceptedTokens = st.numAcceptedTokens ∧
      st'.memory = st.memory) : Scheduled cfg st' s := by
  obtain ⟨htokens,hcomputed,hstateIdx,haccepted,hmemory⟩ := hframe
  have hblock : ∀ c, st'.block c = st.block c := by
    intro c
    rw [block, block, htable]
  refine ⟨by rw [htable, hreq, h.table_length],by rw [htable, h.table_length]; exact hfits,
    haccepted ▸ h.accepted_pos,?_,hreq ▸ h.nodup_drop hlow,?_,?_,?_,?_⟩
  · intro c hc hlt
    rw [Usable, hcomputed] at hc
    rw [htable, h.table_length] at hlt
    rw [Owns, hreq, htable]
    refine h.owns c ?_ hlt
    rcases hc with ⟨-,rfl⟩ | hle
    · exact le_rfl
    · exact hlow.trans hle
  · intro _ hlt
    rw [hcomputed, hreq, hblock] at *
    exact h.low_not_mem hlt
  · intro hzero
    exact absurd (hcomputed.symm.trans hzero) h.computed_pos.ne'
  · intro _
    refine ⟨s₀,?_,?_,?_,?_⟩
    · rw [prevStateIdx, hstateIdx, h.mambaStateIdx]
    · rw [Usable, hcomputed, haccepted]
      exact hsource
    · rw [haccepted, htable, h.table_length]
      exact h.source_lt
    · rw [haccepted, hblock, hmemory, htokens, hcomputed]
      exact h.state
  · rw [hcomputed, htokens, htable, h.table_length]
    intro hlt
    obtain ⟨hs,-,htight⟩ := h.phase.resolve_left hlt.ne
    omega

theorem Running.null_not_mem (hc : (st.numComputedTokens-1)/cfg.blockSize ≤ c) :
    BlockPool.nullBlock ∉ st.reqBlocks.drop c := by
  intro hmem
  obtain ⟨i,hi⟩ := mem_iff_getElem?.mp hmem
  rw [getElem?_drop] at hi
  obtain ⟨hlt,-⟩ := List.getElem?_eq_some_iff.mp hi
  obtain ⟨b,-,hreq,hne⟩ := h.owns (c + i) (hc.trans (Nat.le_add_right _ _)) hlt
  rw [hi] at hreq
  cases hreq
  exact hne rfl

/-- A running state that moves behind the list: the speculative blocks follow it and one block is new. -/
theorem Running.scheduled_grow {st' : AlignRequest τ} {b : ℕ}
    (hsource : Usable cfg st s (s₀+(st.numAcceptedTokens-1)))
    (hgrow : st.reqBlocks.length ≤ s+cfg.numSpeculativeBlocks) (hnull : b ≠ BlockPool.nullBlock)
    (hfresh : b ∉ st.reqBlocks)
    (hreq : st'.reqBlocks = alignReqBlocks st.reqBlocks true s cfg.numSpeculativeBlocks ++ [b])
    (htable : st'.blockTable = st.blockTable ++
      (alignReqBlocks st.reqBlocks true s cfg.numSpeculativeBlocks ++ [b]).drop st.reqBlocks.length)
    (hframe : st'.tokens = st.tokens ∧ st'.numComputedTokens = st.numComputedTokens ∧
      st'.mambaStateIdx = st.mambaStateIdx ∧ st'.numAcceptedTokens = st.numAcceptedTokens ∧
      st'.memory = st.memory) : Scheduled cfg st' s := by
  obtain ⟨htokens,hcomputed,hstateIdx,haccepted,hmemory⟩ := hframe
  have hfits := h.fits
  have htab := h.table_length
  have hlow : (st.numComputedTokens-1)/cfg.blockSize <
      st.reqBlocks.length-cfg.numSpeculativeBlocks := by
    have hle := h.low_le
    omega
  obtain ⟨hlen,hperm,hkept,hstay⟩ := alignReqBlocks_grow st.reqBlocks s
    cfg.numSpeculativeBlocks (by omega) (by omega)
  set blocks := alignReqBlocks st.reqBlocks true s cfg.numSpeculativeBlocks with hblocks
  have hreqlen : st'.reqBlocks.length = s+cfg.numSpeculativeBlocks+1 := by
    rw [hreq, length_append, hlen, length_singleton]
  have htablen : st'.blockTable.length = s+cfg.numSpeculativeBlocks+1 := by
    rw [htable, length_append, length_drop, length_append, hlen, length_singleton]
    omega
  have htable_old : ∀ c < st.reqBlocks.length, st'.blockTable[c]? = st.blockTable[c]? := by
    intro c hc
    rw [htable, getElem?_append_left (by omega)]
  have hblock : ∀ c < st.reqBlocks.length, st'.block c = st.block c := by
    intro c hc
    rw [block, block, getD_eq_getElem?_getD, getD_eq_getElem?_getD, htable_old c hc]
  have hreq_old : ∀ c < st.reqBlocks.length,
      c < st.reqBlocks.length-cfg.numSpeculativeBlocks ∨ s ≤ c →
      st'.reqBlocks[c]? = st.reqBlocks[c]? := by
    intro c hc hcases
    rw [hreq, getElem?_append_left (by omega)]
    rcases hcases with hlt | hle
    · exact hkept c hlt
    · exact hstay c hle hc
  have hdrop : st'.reqBlocks.drop s = blocks.drop s ++ [b] := by
    rw [hreq, drop_append_of_le_length (by omega)]
  refine ⟨by rw [hreqlen, htablen],by omega,haccepted ▸ h.accepted_pos,?_,?_,?_,?_,?_,?_⟩
  · intro c hc hlt
    rw [Usable, hcomputed] at hc
    by_cases hold : c < st.reqBlocks.length
    · -- an old column that has not been moved
      have hcases : c < st.reqBlocks.length-cfg.numSpeculativeBlocks ∨ s ≤ c := by
        rcases hc with ⟨-,rfl⟩ | hle
        · exact .inl hlow
        · exact .inr hle
      have hlow_le : (st.numComputedTokens-1)/cfg.blockSize ≤ c := by
        rcases hc with ⟨-,rfl⟩ | hle <;> omega
      obtain ⟨b',htable',hreq',hne⟩ := h.owns c hlow_le hold
      exact ⟨b',(htable_old c hold).trans htable',(hreq_old c hold hcases).trans hreq',hne⟩
    · -- a moved block or the new one
      have hsc : s ≤ c := by
        rcases hc with ⟨-,rfl⟩ | hle <;> omega
      have hclt : c < st'.reqBlocks.length := by omega
      have hget : st'.reqBlocks[c]? = some st'.reqBlocks[c] := getElem?_eq_getElem hclt
      refine ⟨st'.reqBlocks[c],?_,hget,?_⟩
      · rw [← hget, htable, getElem?_append_right (by omega), getElem?_drop, hreq]
        congr 1
        omega
      · intro hzero
        have hmem : BlockPool.nullBlock ∈ st'.reqBlocks.drop s := by
          rw [mem_iff_getElem?]
          refine ⟨c-s,?_⟩
          rw [getElem?_drop, Nat.add_sub_cancel' hsc, hget, hzero]
        rw [hdrop, mem_append, mem_singleton] at hmem
        rcases hmem with hmem | hmem
        · exact h.null_not_mem hlow.le (hperm.subset hmem)
        · exact hnull hmem.symm
  · rw [hdrop, nodup_append]
    refine ⟨hperm.nodup_iff.mpr (h.nodup_drop hlow.le),nodup_singleton b,?_⟩
    intro x hx y hy heq
    rw [mem_singleton] at hy
    subst hy heq
    exact hfresh (mem_of_mem_drop (hperm.subset hx))
  · intro _ _
    rw [hcomputed, hblock _ (by omega), hdrop, mem_append, mem_singleton]
    rintro (hmem | heq)
    · exact h.low_not_mem hlow (hperm.subset hmem)
    · exact hfresh (heq ▸ (h.owns _ le_rfl (by omega)).mem_reqBlocks)
  · intro hzero
    exact absurd (hcomputed.symm.trans hzero) h.computed_pos.ne'
  · intro _
    refine ⟨s₀,?_,?_,?_,?_⟩
    · rw [prevStateIdx, hstateIdx, h.mambaStateIdx]
    · rw [Usable, hcomputed, haccepted]
      exact hsource
    · have hlt := h.source_lt
      omega
    · rw [haccepted, hblock _ h.source_lt, hmemory, htokens, hcomputed]
      exact h.state
  · intro _
    omega

theorem Running.scheduled
    (hsize : cfg.numSpeculativeBlocks < cfg.blockSize) (hlegal : LegalTokens cfg st step)
    (hfresh : FreshBlocks cfg (st.held cfg) step) : Scheduled cfg (st.schedule cfg step)
      ((st.numComputedTokens+step.numScheduledTokens-1)/cfg.blockSize) := by
  have hheld : st.held cfg = st.removeSkippedBlocks cfg := by
    rw [held, h.blocksAllocated, if_pos rfl]
  rw [hheld] at hfresh
  obtain ⟨hnew,hnodup,hnull,hdisjoint⟩ := hfresh
  set q := (st.removeSkippedBlocks cfg).interfere step.others with hq
  have hrun : Running cfg q s₀ := (h.removeSkippedBlocks (by omega)).interfere _
  have hschedule : st.schedule cfg step = q.allocateNewBlocks cfg step := by
    rw [schedule, hheld, privatize, if_neg (by rw [← hq, hrun.blocksAllocated]; simp)]
  have hsource : Usable cfg q ((st.numComputedTokens+step.numScheduledTokens-1)/cfg.blockSize)
      (s₀+(q.numAcceptedTokens-1)) := h.source_usable hsize hlegal
  have hcdiv : cdiv (q.numComputedTokens+step.numScheduledTokens) cfg.blockSize =
      (st.numComputedTokens+step.numScheduledTokens-1)/cfg.blockSize+1 :=
    cdiv_eq (by have := h.computed_pos; change 0 < st.numComputedTokens+_; omega) (by omega)
  have hfits := hrun.fits
  have hframe := allocateNewBlocks_frame cfg q step
  rw [hschedule]
  rcases allocateNewBlocks_running hrun.blocksAllocated (by omega) hcdiv hnew with
    ⟨hkeep,hreq,htable⟩ | ⟨hgrow,b,hb,hreq,htable⟩
  · exact hrun.scheduled_keep (Nat.div_le_div_right (by change st.numComputedTokens-1 ≤ _; omega))
      hsource hkeep hreq htable hframe
  · have hbmem : b ∈ step.cowBlock :: step.newBlocks := by simp [hb]
    exact hrun.scheduled_grow hsource hgrow (fun heq => hnull (heq ▸ hbmem)) (hdisjoint b hbmem) hreq
      htable hframe

end

end Running

section Admitted

theorem Admitted.privatize (h : Admitted cfg st) {cow : ℕ}
    (hnull : cow ≠ BlockPool.nullBlock) (others : ℕ → List τ) :
    ((st.interfere others).privatize cfg cow).reqBlocks.length = cdiv st.numComputedTokens cfg.blockSize ∧
    (∀ b ∈ ((st.interfere others).privatize cfg cow).reqBlocks, b = cow ∨ b ∈ st.reqBlocks) ∧
    (0 < st.numComputedTokens → ∃ b,
      ((st.interfere others).privatize cfg cow).reqBlocks[(st.numComputedTokens-1)/cfg.blockSize]? =
        some b ∧ b ≠ BlockPool.nullBlock ∧
      ((st.interfere others).privatize cfg cow).memory b = st.tokens.take st.numComputedTokens) := by
  have hmemory : ∀ b ∈ st.reqBlocks, (st.interfere others).memory b = st.memory b :=
    fun b hb => if_pos hb
  unfold AlignRequest.privatize
  split
  · rename_i hhit
    dsimp only
    refine ⟨by rw [length_set]; exact h.hits,?_,?_⟩
    · intro b hb
      exact (mem_or_eq_of_mem_set hb).symm
    · intro hpos
      obtain ⟨b,hget,-,hstate⟩ := h.state hpos
      -- a partial hit ends inside the block of its last token
      have hidx : st.numComputedTokens/cfg.blockSize = (st.numComputedTokens-1)/cfg.blockSize := by
        have hmod : st.numComputedTokens%cfg.blockSize ≠ 0 := hhit.2
        obtain ⟨n,hn⟩ := Nat.exists_eq_add_of_lt hpos
        rw [hn] at hmod ⊢
        rw [Nat.zero_add, Nat.add_sub_cancel, Nat.succ_div_of_not_dvd]
        rwa [Nat.dvd_iff_mod_eq_zero, ← Nat.zero_add (n+1)]
      have hidx' : (st.interfere others).numComputedTokens/cfg.blockSize =
          (st.numComputedTokens-1)/cfg.blockSize := hidx
      have hget' : (st.interfere others).reqBlocks[(st.numComputedTokens-1)/cfg.blockSize]? = some b :=
        hget
      obtain ⟨hlt,-⟩ := List.getElem?_eq_some_iff.mp hget'
      refine ⟨cow,?_,hnull,?_⟩
      · rw [hidx', getElem?_set_self hlt]
      · rw [update_self, hidx', getD_eq_getElem?_getD, hget', getD_some,
          hmemory b (List.mem_of_getElem? hget), hstate]
  · refine ⟨h.hits,fun b hb => .inr hb,?_⟩
    intro hpos
    obtain ⟨b,hget,hne,hstate⟩ := h.state hpos
    exact ⟨b,hget,hne,(hmemory b (List.mem_of_getElem? hget)).trans hstate⟩

theorem Admitted.scheduled (h : Admitted cfg st) (hsize : 0 < cfg.blockSize)
    (hnum : 0 < step.numScheduledTokens) (hfresh : FreshBlocks cfg (st.held cfg) step) :
    Scheduled cfg (st.schedule cfg step)
      ((st.numComputedTokens+step.numScheduledTokens-1)/cfg.blockSize) := by
  have hheld : st.held cfg = st := by
    rw [held, h.blocksAllocated]
    rfl
  rw [hheld] at hfresh
  obtain ⟨hnew,hnodup,hnull,hdisjoint⟩ := hfresh
  have hcow : step.cowBlock ≠ BlockPool.nullBlock := fun heq => hnull (heq ▸ mem_cons_self)
  obtain ⟨hlen,hmem,hstate⟩ := h.privatize hcow step.others
  obtain ⟨htokens,hcomputed,hstateIdx,haccepted⟩ := schedule_frame cfg st step
  set q := (st.interfere step.others).privatize cfg step.cowBlock with hq
  obtain ⟨hqtokens,hqcomputed,-,-,hqalloc⟩ := privatize_frame cfg (st.interfere step.others) step.cowBlock
  have hcdiv := cdiv_eq (show 0 < st.numComputedTokens+step.numScheduledTokens by omega) hsize
  generalize (st.numComputedTokens+step.numScheduledTokens-1)/cfg.blockSize = s at hcdiv ⊢
  have hhits : cdiv st.numComputedTokens cfg.blockSize ≤ s+1 :=
    (cdiv_mono (Nat.le_add_right _ _) _).trans_eq hcdiv
  have hskipped : s+1+cfg.numSpeculativeBlocks-cfg.numSpeculativeBlocks-1 = s := by omega
  -- the hits, null blocks up to the running column, and the new blocks
  have hblocks : (st.schedule cfg step).reqBlocks = (q.reqBlocks ++
      List.replicate (s-q.reqBlocks.length) BlockPool.nullBlock) ++ step.newBlocks ∧
      (st.schedule cfg step).blockTable = (st.schedule cfg step).reqBlocks ∧
      (st.schedule cfg step).memory = q.memory := by
    have hqfalse : q.blocksAllocated = false := hqalloc.trans h.blocksAllocated
    have hqcdiv : cdiv (q.numComputedTokens+step.numScheduledTokens) cfg.blockSize = s+1 :=
      (congrArg (fun n => cdiv (n+step.numScheduledTokens) cfg.blockSize) hqcomputed).trans hcdiv
    rw [schedule, hheld, ← hq]
    simp [allocateNewBlocks, hqfalse, hqcdiv, hskipped, alignReqBlocks]
  obtain ⟨hreq,htable,hmemory⟩ := hblocks
  have hnewlen : step.newBlocks.length =
      s+1+cfg.numSpeculativeBlocks-(q.reqBlocks.length+(s-q.reqBlocks.length)) := by
    rw [hnew, numNewBlocks, hcdiv, hskipped, h.blocksAllocated, hlen, ← h.hits]
    simp [alignReqBlocks]
  have hlen' : (st.schedule cfg step).reqBlocks.length = s+cfg.numSpeculativeBlocks+1 := by
    rw [hreq, length_append, length_append, length_replicate, hnewlen]
    omega
  have hblock : ∀ c b, (st.schedule cfg step).reqBlocks[c]? = some b →
      (st.schedule cfg step).block c = b := by
    intro c b hc
    rw [block, htable, getD_eq_getElem?_getD, hc, getD_some]
  have hnew_ne : ∀ b ∈ step.newBlocks, b ≠ BlockPool.nullBlock :=
    fun b hb heq => hnull (heq ▸ mem_cons_of_mem _ hb)
  have hnew_notin : ∀ b ∈ step.newBlocks, b ∉ q.reqBlocks := by
    intro b hb hbq
    rcases hmem b hbq with rfl | hbst
    · exact (nodup_cons.mp hnodup).1 hb
    · exact hdisjoint b (mem_cons_of_mem _ hb) hbst
  -- the column of the hit state
  have hlow : 0 < st.numComputedTokens → ∃ b,
      (st.schedule cfg step).reqBlocks[(st.numComputedTokens-1)/cfg.blockSize]? = some b ∧
      b ∈ q.reqBlocks ∧ b ≠ BlockPool.nullBlock ∧
      q.memory b = st.tokens.take st.numComputedTokens ∧
      (st.numComputedTokens-1)/cfg.blockSize+1 = q.reqBlocks.length := by
    intro hpos
    obtain ⟨b,hget,hne,hst⟩ := hstate hpos
    obtain ⟨hlt,-⟩ := List.getElem?_eq_some_iff.mp hget
    refine ⟨b,?_,List.mem_of_getElem? hget,hne,hst,?_⟩
    · rw [hreq, append_assoc, getElem?_append_left hlt, hget]
    · rw [hlen, cdiv_eq hpos hsize]
  have hdrop : (st.schedule cfg step).reqBlocks.drop s = q.reqBlocks.drop s ++ step.newBlocks := by
    have hnil : (List.replicate (s-q.reqBlocks.length) BlockPool.nullBlock).drop
        (s-q.reqBlocks.length) = [] := drop_eq_nil_of_le (by rw [length_replicate])
    rw [hreq, drop_append_of_le_length (by simp; omega), drop_append, hnil, append_nil]
  have hhit : ∀ b ∈ q.reqBlocks.drop s, b ≠ BlockPool.nullBlock := by
    intro b hb
    obtain ⟨i,hi⟩ := mem_iff_getElem?.mp hb
    rw [getElem?_drop] at hi
    obtain ⟨hlt,-⟩ := List.getElem?_eq_some_iff.mp hi
    -- only the hit state itself can lie at the running column
    have hpos : 0 < st.numComputedTokens := by
      by_contra hzero
      have : q.reqBlocks.length = 0 := by
        rw [hlen, Nat.eq_zero_of_not_pos hzero, cdiv, Nat.div_eq_of_lt (by omega)]
      omega
    obtain ⟨b',hget,-,hne,-,hlast⟩ := hlow hpos
    have hcol : s+i = (st.numComputedTokens-1)/cfg.blockSize := by omega
    rw [hreq, append_assoc, getElem?_append_left (by omega), ← hcol, hi] at hget
    cases hget
    exact hne
  refine ⟨by rw [htable],by rw [htable, hlen']; omega,by rw [haccepted, h.numAcceptedTokens]; exact one_pos,
    ?_,?_,?_,?_,?_,fun _ => by rw [htable, hlen']⟩
  · intro c hc hlt
    rw [Usable, hcomputed] at hc
    rw [htable] at hlt
    rw [Owns, htable]
    rcases hc with ⟨hpos,rfl⟩ | hle
    · obtain ⟨b,hget,-,hne,-⟩ := hlow hpos
      exact ⟨b,hget,hget,hne⟩
    · have hget := getElem?_eq_getElem hlt
      refine ⟨_,hget,hget,?_⟩
      have hin : (st.schedule cfg step).reqBlocks[c] ∈ q.reqBlocks.drop s ++ step.newBlocks := by
        rw [← hdrop, mem_iff_getElem?]
        exact ⟨c-s,by rw [getElem?_drop, Nat.add_sub_cancel' hle, hget]⟩
      rcases mem_append.mp hin with hin | hin
      · exact hhit _ hin
      · exact hnew_ne _ hin
  · rw [hdrop, nodup_append]
    refine ⟨?_,(nodup_cons.mp hnodup).2,?_⟩
    · rw [nodup_iff_getElem?_ne_getElem?]
      intro i j hij hj
      rw [length_drop] at hj
      omega
    · rintro x hx y hy rfl
      exact hnew_notin x hy (mem_of_mem_drop hx)
  · rw [hcomputed]
    intro hpos hlt
    obtain ⟨b,hget,hbq,-,-,hlast⟩ := hlow hpos
    have hnil : q.reqBlocks.drop s = [] := drop_eq_nil_of_le (by omega)
    rw [hdrop, hnil, nil_append, hblock _ _ hget]
    exact fun hin => hnew_notin b hin hbq
  · intro hzero
    rw [prevStateIdx, hstateIdx, h.mambaStateIdx, hzero, if_pos rfl]
  · rw [hcomputed]
    intro hpos
    obtain ⟨b,hget,-,-,hst,-⟩ := hlow hpos
    obtain ⟨hlt,-⟩ := List.getElem?_eq_some_iff.mp hget
    rw [haccepted, h.numAcceptedTokens]
    refine ⟨(st.numComputedTokens-1)/cfg.blockSize,?_,.inl ⟨by rw [hcomputed]; exact hpos,?_⟩,?_,?_⟩
    · rw [prevStateIdx, hstateIdx, h.mambaStateIdx, hcomputed, if_neg (by omega)]
    · rw [hcomputed]
      rfl
    · rw [htable]
      exact hlt
    · change (st.schedule cfg step).memory ((st.schedule cfg step).block
        ((st.numComputedTokens-1)/cfg.blockSize)) = _
      rw [hblock _ _ hget, hmemory, hst, htokens]

end Admitted

theorem schedule_blocksAllocated (cfg : Config) (st : AlignRequest τ) (step : AlignStep τ) :
    (st.schedule cfg step).blocksAllocated = true := by
  simp only [schedule, allocateNewBlocks]
  split
  · rename_i hkeep
    exact hkeep.1
  · rfl

/-! ### The row of the cache manager

The block list follows the align mode of the cache manager. -/

section Manager

variable {H : Type} [DecidableEq H] {m m' : SingleTypeKVCacheManager H} {p p' : BlockPool H} {r : RequestId}

structure RowOf (cfg : Config) (m : SingleTypeKVCacheManager H) (r : RequestId) (st : AlignRequest τ) :
    Prop where
  kind : m.kind = .mamba .align cfg.numSpeculativeBlocks
  blockSize : m.blockSize = cfg.blockSize
  reqBlocks : m.reqToBlocks r = st.reqBlocks
  blocksAllocated : m.allocatedBlockReqs r = st.blocksAllocated
  lastStateBlockIdx : m.lastStateBlockIdx r = st.lastStateBlockIdx

theorem RowOf.removeSkippedBlocks (h : RowOf cfg m r st) (p : BlockPool H) :
    RowOf cfg (m.removeSkippedBlocks p r st.numComputedTokens).2 r (st.removeSkippedBlocks cfg) := by
  have hremoved := removed_removeSkippedBlocks h.kind p r st.numComputedTokens
  refine ⟨hremoved.frame.kind.trans h.kind,hremoved.frame.blockSize.trans h.blockSize,?_,
    hremoved.allocated.trans h.blocksAllocated,hremoved.last.trans h.lastStateBlockIdx⟩
  have hfree : ∀ (m : SingleTypeKVCacheManager H) (p : BlockPool H), m.blockSize = cfg.blockSize →
      m.lastStateBlockIdx r = st.lastStateBlockIdx →
      (m.freeLastState p r st.numComputedTokens).2.reqToBlocks r =
        st.freeLastState cfg (m.reqToBlocks r) := by
    intro m p hblockSize hlast
    simp only [SingleTypeKVCacheManager.freeLastState, AlignRequest.freeLastState, hlast, hblockSize]
    cases st.lastStateBlockIdx with
    | none => rfl
    | some idx =>
      dsimp only
      split
      · rw [setBlocks_reqToBlocks]
      · rfl
  simp only [SingleTypeKVCacheManager.removeSkippedBlocks, h.kind, getNumSkippedTokens, h.blockSize]
  change _ = st.freeLastState cfg (st.sweptBlocks cfg)
  unfold sweptBlocks
  split
  · rw [hfree _ _ h.blockSize h.lastStateBlockIdx, h.reqBlocks]
  · have hrange := frame_removeBlocksInRange m p r 0 ((st.numComputedTokens-1)/cfg.blockSize)
    rw [hfree _ _ (hrange.blockSize.trans h.blockSize) h.lastStateBlockIdx, removeBlocksInRange,
      setBlocks_reqToBlocks, h.reqBlocks, Nat.sub_zero]

theorem alignTakeBlocks_running {prevLen : ℕ} {new ret : List ℕ}
    (h : m.alignTakeBlocks p r true prevLen new = some (ret,p',m')) :
    ∃ tail, m'.reqToBlocks r = m.reqToBlocks r ++ tail ∧
      ret = (m.reqToBlocks r).drop prevLen ++ tail ∧ m'.lastStateBlockIdx r = m.lastStateBlockIdx r ∧
      m'.allocatedBlockReqs r = m.allocatedBlockReqs r := by
  rw [alignTakeBlocks] at h
  split at h
  · cases h
    exact ⟨new,setBlocks_reqToBlocks ..,rfl,rfl,rfl⟩
  · obtain ⟨cow,-,h⟩ := bind_eq_some_iff.mp h
    obtain ⟨⟨ret',q,m₁⟩,hcopy,heq⟩ := map_eq_some_iff.mp h
    obtain ⟨⟨q',m₂⟩,hmove,heq'⟩ := map_eq_some_iff.mp hcopy
    -- the entry moves to a block outside the list
    rw [moveEntryToCow] at hmove
    obtain ⟨-,hmove⟩ := ite_none_right_eq_some.mp hmove
    obtain ⟨q'',-,hmove⟩ := map_eq_some_iff.mp hmove
    cases hmove
    cases heq'
    cases heq
    exact ⟨new.tail,update_self ..,rfl,rfl,rfl⟩

theorem RowOf.allocateNewBlocks (h : RowOf cfg m r st) (hrun : st.blocksAllocated = true) {ret : List ℕ}
    (halloc : m.alignAllocateNewBlocks p r (st.numComputedTokens+step.numScheduledTokens)
      cfg.numSpeculativeBlocks = some (ret,p',m')) :
    ∃ newBlocks, RowOf cfg m' r (st.allocateNewBlocks cfg
        { step with producerTail := (m.partialHitReqs r).isSome, newBlocks }) ∧
      (st.allocateNewBlocks cfg
        { step with producerTail := (m.partialHitReqs r).isSome, newBlocks }).blockTable =
          st.blockTable ++ ret := by
  rcases alignAllocateNewBlocks_cases halloc with ⟨hle,hnone,-,rfl⟩ | ⟨hgrow,-,new,q,-,htake⟩
  · -- the list is long enough and there is nothing to move
    have hret : ret = [] := by
      rw [alignAllocateNewBlocks, if_pos ⟨hle,by rw [hnone]; rfl⟩] at halloc
      cases halloc
      rfl
    rw [h.blockSize, h.reqBlocks] at hle
    refine ⟨[],?_⟩
    rw [AlignRequest.allocateNewBlocks]
    dsimp only
    rw [if_pos ⟨hrun,hle,by rw [hnone]; rfl⟩, hret, append_nil]
    exact ⟨h,rfl⟩
  · rw [h.blocksAllocated, hrun] at htake
    obtain ⟨tail,hblocks,hret,hlast,halloc'⟩ := alignTakeBlocks_running htake
    rw [alignAdvance_blocks, h.reqBlocks, h.blocksAllocated, hrun, h.blockSize] at hblocks hret
    rw [alignAdvance_last, h.reqBlocks, h.blocksAllocated, hrun, if_pos rfl] at hlast
    rw [alignAdvance_allocated] at halloc'
    have hframe := frame_alignAllocateNewBlocks halloc
    rw [h.blockSize, h.reqBlocks] at hgrow
    refine ⟨tail,?_⟩
    rw [AlignRequest.allocateNewBlocks]
    dsimp only
    rw [if_neg fun hkeep => hgrow ⟨hkeep.2.1,by simpa using hkeep.2.2⟩, hrun]
    refine ⟨⟨hframe.kind.trans h.kind,hframe.blockSize.trans h.blockSize,hblocks,halloc',hlast⟩,?_⟩
    dsimp only
    rw [if_pos rfl, hret, drop_append_of_le_length]
    simp only [alignReqBlocks, if_true, reuseSpeculativeBlocks_length, length_append, length_replicate]
    omega

/-- The cache manager refines the schedule of a running request: what it does to the request's row
when it removes the skipped blocks and allocates is an align step with some new blocks, and the
blocks it returns are what the step appends to the worker's table. -/
theorem manager_schedules_row (step : AlignStep τ) (h : RowOf cfg m r st)
    (hrun : st.blocksAllocated = true) {n : ℕ} {ret : List ℕ} {held : BlockPool H × SingleTypeKVCacheManager H}
    (hheld : m.removeSkippedBlocks p r st.numComputedTokens = held)
    (halloc : held.2.allocateNewBlocks held.1 r n (st.numComputedTokens+step.numScheduledTokens) =
      some (ret,p',m')) :
    ∃ producerTail newBlocks, RowOf cfg m' r (st.schedule cfg { step with producerTail, newBlocks }) ∧
      (st.schedule cfg { step with producerTail, newBlocks }).blockTable = st.blockTable ++ ret := by
  have hrow := h.removeSkippedBlocks p
  rw [hheld] at hrow
  rw [SingleTypeKVCacheManager.allocateNewBlocks, hrow.kind] at halloc
  have hinterfere : RowOf cfg held.2 r ((st.removeSkippedBlocks cfg).interfere step.others) :=
    ⟨hrow.kind,hrow.blockSize,hrow.reqBlocks,hrow.blocksAllocated,hrow.lastStateBlockIdx⟩
  obtain ⟨newBlocks,hrow',htable⟩ := hinterfere.allocateNewBlocks hrun halloc
  refine ⟨(held.2.partialHitReqs r).isSome,newBlocks,?_⟩
  rw [schedule, AlignRequest.held, if_pos hrun, AlignRequest.privatize, if_neg]
  · exact ⟨hrow',htable⟩
  · exact fun hfirst => Bool.noConfusion (hfirst.1.symm.trans hrun)

/-- A request that has filled its only block takes the next one. -/
theorem manager_schedules_row_next : ∃ producerTail newBlocks,
    (schedule ⟨2,0⟩ ⟨[5,6,7],2,[1],true,none,[1],some 0,1,fun _ => []⟩
      ⟨1,[],0,8,producerTail,3,newBlocks,fun _ => []⟩).blockTable = [1,2] := by
  let m : SingleTypeKVCacheManager ℕ := ⟨.mamba .align 0,2,true,0,2,none,false,fun _ => [1],
    fun _ => none,fun _ => none,[],[],fun _ => none,fun _ => true⟩
  let held := m.removeSkippedBlocks { BlockPool.init 4 true 2 with freeBlockQueue := ⟨[2,3],2⟩ } 0 2
  have hrow : RowOf ⟨2,0⟩ m 0 ⟨[5,6,7],2,[1],true,none,[1],some 0,1,fun _ => []⟩ :=
    ⟨rfl,rfl,rfl,rfl,rfl⟩
  have hret : (held.2.allocateNewBlocks held.1 0 3 3).map Prod.fst = some [2] := by decide +kernel
  obtain ⟨⟨ret,p',m'⟩,halloc,rfl⟩ := map_eq_some_iff.mp hret
  obtain ⟨producerTail,newBlocks,-,htable⟩ :=
    manager_schedules_row ⟨1,[],0,8,false,3,[],fun _ => []⟩ hrow rfl rfl halloc
  exact ⟨producerTail,newBlocks,htable⟩

end Manager

end AlignRequest

end MetaZenith.MambaAlign
