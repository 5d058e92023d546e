import MetaZenith.MambaAlignSchedule

/-! The worker's part of an align step and whole runs of a request. The two copies and the forward pass
leave the state of the new computed tokens where the next step looks for it. -/

namespace MetaZenith.MambaAlign

open List Function

variable {τ : Type*}

theorem foldl_update_self {β : Type*} (addr : ℕ → ℕ) (value : ℕ → β) (mem : ℕ → β) {n j : ℕ}
    (hinj : ∀ i < n, ∀ j < n, addr i = addr j → i = j) (hj : j < n) :
    (range n).foldl (fun mem j => update mem (addr j) (value j)) mem (addr j) = value j := by
  induction n with
  | zero => exact absurd hj j.not_lt_zero
  | succ n ih =>
    rw [range_succ, foldl_append, foldl_cons, foldl_nil]
    by_cases heq : j = n
    · rw [heq, update_self]
    · -- an earlier write is not touched by the last one
      have hlt : j < n := by omega
      have hne : addr j ≠ addr n := fun h => heq (hinj j hj n n.lt_succ_self h)
      rw [update_of_ne hne]
      exact ih (fun i hi k hk => hinj i (hi.trans n.lt_succ_self) k (hk.trans n.lt_succ_self)) hlt

variable {st' : AlignRequest τ}

namespace AlignRequest

variable {cfg : Config} {st : AlignRequest τ} {step : AlignStep τ} {s : ℕ}

structure Executable (cfg : Config) (st : AlignRequest τ) (step : AlignStep τ) (s : ℕ) : Prop where
  spec_lt : cfg.numSpeculativeBlocks < cfg.blockSize
  scheduled_pos : 0 < step.numScheduledTokens
  accepted_le : step.numAcceptedDrafts ≤ step.specTokenIds.length
  drafts_le : step.specTokenIds.length ≤ cfg.numSpeculativeBlocks
  computed_lt : st.numComputedTokens < st.tokens.length
  tokens : step.specTokenIds.length = 0 ∧
      st.numComputedTokens+step.numScheduledTokens ≤ st.tokens.length ∨
    0 < st.numComputedTokens ∧ st.numComputedTokens+1 = st.tokens.length ∧
      step.numScheduledTokens = step.specTokenIds.length+1
  column : s = (st.numComputedTokens+step.numScheduledTokens-1)/cfg.blockSize

namespace Executable

section

variable (h : Executable cfg st step s)

include h

theorem size_pos : 0 < cfg.blockSize :=
  (Nat.zero_le _).trans_lt h.spec_lt

theorem column_bounds : s*cfg.blockSize ≤ st.numComputedTokens+step.numScheduledTokens-1 ∧
      st.numComputedTokens+step.numScheduledTokens ≤ (s+1)*cfg.blockSize := by
  have hlower := Nat.div_mul_le_self (st.numComputedTokens+step.numScheduledTokens-1) cfg.blockSize
  have hupper := Nat.lt_mul_div_succ (st.numComputedTokens+step.numScheduledTokens-1) h.size_pos
  rw [← h.column] at hlower hupper
  refine ⟨hlower,?_⟩
  rw [Nat.mul_comm]
  omega

/-- With drafts the running column is the one of the last computed token or the next. -/
theorem column_le (hdrafts : step.specTokenIds.length ≠ 0) :
    0 < st.numComputedTokens ∧ s ≤ (st.numComputedTokens-1)/cfg.blockSize+1 := by
  obtain ⟨hpos,-,hnum⟩ := h.tokens.resolve_left fun hchunk => hdrafts hchunk.1
  refine ⟨hpos,?_⟩
  have hlen := h.drafts_le
  have hspec := h.spec_lt
  rw [h.column, ← Nat.add_div_right _ h.size_pos]
  exact Nat.div_le_div_right (by omega)

theorem newNumComputed_eq :
    st.newNumComputed step = st.numTokensRunningState step+step.numAcceptedDrafts ∧
      st.numTokensRunningState step+step.specTokenIds.length =
        st.numComputedTokens+step.numScheduledTokens ∧
      st.numComputedTokens < st.numTokensRunningState step := by
  have hnum := h.scheduled_pos
  rw [newNumComputed, numTokensRunningState]
  rcases h.tokens with ⟨hzero,-⟩ | ⟨-,-,hspec⟩ <;> omega

theorem low_cases : (st.newNumComputed step-1)/cfg.blockSize = s ∨ 0 < st.numComputedTokens ∧
        (st.newNumComputed step-1)/cfg.blockSize = (st.numComputedTokens-1)/cfg.blockSize ∧
        (st.numComputedTokens-1)/cfg.blockSize+1 = s := by
  obtain ⟨hnew,hsplit,hlt⟩ := h.newNumComputed_eq
  have hacc := h.accepted_le
  have hle : (st.newNumComputed step-1)/cfg.blockSize ≤ s := by
    rw [h.column]
    exact Nat.div_le_div_right (by omega)
  by_cases hdrafts : step.specTokenIds.length = 0
  · -- a chunk computes all its tokens
    left
    rw [h.column]
    congr 1
    omega
  · obtain ⟨hpos,hcol⟩ := h.column_le hdrafts
    have hlow : (st.numComputedTokens-1)/cfg.blockSize ≤
        (st.newNumComputed step-1)/cfg.blockSize := Nat.div_le_div_right (by omega)
    generalize (st.newNumComputed step-1)/cfg.blockSize = low' at *
    generalize (st.numComputedTokens-1)/cfg.blockSize = low at *
    omega

/-- A boundary reached by the accepted tokens is the end of the running column, and then all tokens of
the step are accepted, or the end of the one before it. -/
theorem boundary_cases (hle : st.numTokensRunningState step ≤
      st.newNumComputed step/cfg.blockSize*cfg.blockSize) :
    st.newNumComputed step/cfg.blockSize = s+1 ∧ st.newNumComputed step = (s+1)*cfg.blockSize ∨
      st.newNumComputed step/cfg.blockSize = s ∧ 0 < st.numComputedTokens ∧
        (st.numComputedTokens-1)/cfg.blockSize+1 = s := by
  obtain ⟨hnew,hsplit,hlt⟩ := h.newNumComputed_eq
  obtain ⟨hlower,hupper⟩ := h.column_bounds
  have hacc := h.accepted_le
  have hmul := Nat.div_mul_le_self (st.newNumComputed step) cfg.blockSize
  generalize hb : st.newNumComputed step/cfg.blockSize = b at *
  have hble : b ≤ s+1 :=
    Nat.le_of_mul_le_mul_right (hmul.trans (by omega)) h.size_pos
  by_cases hend : b = s+1
  · subst hend
    exact .inl ⟨rfl,by omega⟩
  · have hbs : b*cfg.blockSize ≤ s*cfg.blockSize := Nat.mul_le_mul_right _ (by omega)
    -- the boundary lies before the last token, so the step has drafts
    have hdrafts : step.specTokenIds.length ≠ 0 := by omega
    obtain ⟨hpos,hcol⟩ := h.column_le hdrafts
    obtain ⟨-,-,hnum⟩ := h.tokens.resolve_left fun hchunk => hdrafts hchunk.1
    have hlow : (st.numComputedTokens-1)/cfg.blockSize < b :=
      (Nat.div_lt_iff_lt_mul h.size_pos).mpr (by omega)
    generalize (st.numComputedTokens-1)/cfg.blockSize = low at *
    exact .inr ⟨by omega,hpos,by omega⟩

end

end Executable

structure SameBlocks (st st' : AlignRequest τ) : Prop where
  tokens : st'.tokens = st.tokens
  numComputedTokens : st'.numComputedTokens = st.numComputedTokens
  reqBlocks : st'.reqBlocks = st.reqBlocks
  blocksAllocated : st'.blocksAllocated = st.blocksAllocated
  blockTable : st'.blockTable = st.blockTable

theorem SameBlocks.trans {st₁ st₂ st₃ : AlignRequest τ} (h : SameBlocks st₁ st₂)
    (h' : SameBlocks st₂ st₃) : SameBlocks st₁ st₃ :=
  ⟨h'.tokens.trans h.tokens,h'.numComputedTokens.trans h.numComputedTokens,
    h'.reqBlocks.trans h.reqBlocks,h'.blocksAllocated.trans h.blocksAllocated,
    h'.blockTable.trans h.blockTable⟩

theorem SameBlocks.block (h : SameBlocks st st') (c : ℕ) : st'.block c = st.block c := by
  rw [AlignRequest.block, AlignRequest.block, h.blockTable]

theorem SameBlocks.numTokensRunningState (h : SameBlocks st st') (step : AlignStep τ) :
    st'.numTokensRunningState step = st.numTokensRunningState step := by
  rw [AlignRequest.numTokensRunningState, AlignRequest.numTokensRunningState, h.numComputedTokens]

theorem SameBlocks.newNumComputed (h : SameBlocks st st') (step : AlignStep τ) :
    st'.newNumComputed step = st.newNumComputed step := by
  rw [AlignRequest.newNumComputed, AlignRequest.newNumComputed, h.numTokensRunningState]

theorem preprocess_sameBlocks (cfg : Config) (st : AlignRequest τ) (step : AlignStep τ) :
    SameBlocks st (st.preprocess cfg step) := by
  unfold preprocess
  split <;> exact ⟨rfl,rfl,rfl,rfl,rfl⟩

theorem preprocess_mambaStateIdx (cfg : Config) (st : AlignRequest τ) (step : AlignStep τ) :
    (st.preprocess cfg step).mambaStateIdx = some (st.currStateIdx cfg step) := by
  unfold preprocess
  split <;> rfl

theorem forward_sameBlocks (st : AlignRequest τ) (step : AlignStep τ) (s : ℕ) :
    SameBlocks st (st.forward step s) :=
  ⟨rfl,rfl,rfl,rfl,rfl⟩

theorem postprocess_sameBlocks (cfg : Config) (st : AlignRequest τ) (step : AlignStep τ) (s : ℕ) :
    SameBlocks st (st.postprocess cfg step s) := by
  simp only [postprocess]
  split <;> exact ⟨rfl,rfl,rfl,rfl,rfl⟩

theorem postprocess_mambaStateIdx (cfg : Config) (st : AlignRequest τ) (step : AlignStep τ) (s : ℕ) :
    (st.postprocess cfg step s).mambaStateIdx = st.mambaStateIdx := by
  simp only [postprocess]
  split <;> rfl

theorem Scheduled.preprocess (h : Scheduled cfg st s) (hs : st.currStateIdx cfg step = s)
    (hpos : 0 < st.numComputedTokens) :
    s+((st.preprocess cfg step).numAcceptedTokens-1) < st.blockTable.length ∧
      (st.preprocess cfg step).memory (st.block (s+((st.preprocess cfg step).numAcceptedTokens-1))) =
        st.tokens.take st.numComputedTokens := by
  obtain ⟨prev,hprev,-,hlt,hstate⟩ := h.source hpos
  by_cases hmove : prev = s
  · -- the running column stays
    have hnone : st.preCopy cfg step = none := by
      simp [preCopy, hprev, hs, hmove]
    rw [AlignRequest.preprocess, hnone]
    subst hmove
    exact ⟨hlt,hstate⟩
  · have hcopy : st.preCopy cfg step = some (prev+(st.numAcceptedTokens-1), s) := by
      simp [preCopy, hprev, hs, hmove]
    rw [AlignRequest.preprocess, hcopy]
    refine ⟨by have := h.fits; change s+0 < _; omega,?_⟩
    change update st.memory (st.block s) _ (st.block s) = _
    rw [update_self, hstate]

/-- The state after any number of the step's tokens, over the known tokens and the drafts. -/
theorem Executable.take_query (h : Executable cfg st step s) {j : ℕ}
    (hj : j ≤ step.specTokenIds.length) : st.tokens.take st.numComputedTokens ++
        (st.query step).take (step.numScheduledTokens-step.specTokenIds.length+j) =
      (st.tokens ++ step.specTokenIds).take (st.numTokensRunningState step+j) := by
  obtain ⟨-,hsplit,-⟩ := h.newNumComputed_eq
  have hlt := h.computed_lt
  have hnum : step.specTokenIds.length ≤ step.numScheduledTokens := by
    rcases h.tokens with ⟨hzero,-⟩ | ⟨-,-,hspec⟩ <;> omega
  have hcount : st.numTokensRunningState step+j =
      st.numComputedTokens+(step.numScheduledTokens-step.specTokenIds.length+j) := by omega
  have hdrop : st.tokens.drop st.numComputedTokens ++ step.specTokenIds =
      (st.tokens ++ step.specTokenIds).drop st.numComputedTokens := by
    rw [drop_append_of_le_length hlt.le]
  rw [hcount, query, take_take, min_eq_left (by omega), hdrop,
    take_add (i := st.numComputedTokens), take_append_of_le_length hlt.le]

theorem Scheduled.forward (h : Scheduled cfg st s) (hexec : Executable cfg st step s)
    (hs : st.currStateIdx cfg step = s) {j : ℕ} (hj : j ≤ step.specTokenIds.length) :
    ((st.preprocess cfg step).forward step s).memory (st.block (s+j)) =
      (st.tokens ++ step.specTokenIds).take (st.numTokensRunningState step+j) := by
  have hpre := preprocess_sameBlocks cfg st step
  have hfits := h.fits
  have hdrafts := hexec.drafts_le
  have hstart : (st.preprocess cfg step).startState s = st.tokens.take st.numComputedTokens := by
    rw [startState, hpre.numComputedTokens, hpre.block]
    split
    · rename_i hzero
      rw [hzero, take_zero]
    · rename_i hpos
      exact (h.preprocess hs (Nat.pos_of_ne_zero hpos)).2
  have hquery : (st.preprocess cfg step).query step = st.query step := by
    rw [query, query, hpre.tokens, hpre.numComputedTokens]
  have hinj : ∀ i < step.specTokenIds.length+1, ∀ k < step.specTokenIds.length+1,
      (st.preprocess cfg step).block (s+i) = (st.preprocess cfg step).block (s+k) → i = k := by
    intro i hi k hk heq
    rw [hpre.block, hpre.block] at heq
    have := h.apart (.inr (Nat.le_add_right s i)) (by omega) (.inr (Nat.le_add_right s k)) (by omega) heq
    omega
  rw [← hpre.block, AlignRequest.forward]
  dsimp only
  rw [foldl_update_self (fun j => (st.preprocess cfg step).block (s+j)) _ _ hinj (by omega), hstart,
    hquery]
  exact hexec.take_query hj

/-- What the step leaves behind, over the known tokens and the drafts: the state of the new computed
tokens at the handed over column, and the state at a boundary that was passed in the column it ends. -/
theorem Scheduled.postprocess (h : Scheduled cfg st s) (hexec : Executable cfg st step s)
    (hsame : SameBlocks st st')
    (hforward : ∀ j ≤ step.specTokenIds.length, st'.memory (st.block (s+j)) =
      (st.tokens ++ step.specTokenIds).take (st.numTokensRunningState step+j)) :
    0 < (st'.postprocess cfg step s).numAcceptedTokens ∧
      (st'.postprocess cfg step s).numAcceptedTokens ≤ step.numAcceptedDrafts+1 ∧
      (st'.postprocess cfg step s).memory
          (st.block (s+((st'.postprocess cfg step s).numAcceptedTokens-1))) =
        (st.tokens ++ step.specTokenIds).take (st.newNumComputed step) ∧
      (st.numTokensRunningState step ≤ st.newNumComputed step/cfg.blockSize*cfg.blockSize →
        (st'.postprocess cfg step s).memory (st.block (st.newNumComputed step/cfg.blockSize-1)) =
          (st.tokens ++ step.specTokenIds).take
            (st.newNumComputed step/cfg.blockSize*cfg.blockSize)) := by
  obtain ⟨hnew,hsplit,hlt⟩ := hexec.newNumComputed_eq
  have hacc := hexec.accepted_le
  have hdrafts := hexec.drafts_le
  have hfits := h.fits
  have hrunning := hsame.numTokensRunningState step
  have hnewc := hsame.newNumComputed step
  by_cases hle : st.numTokensRunningState step ≤
      st.newNumComputed step/cfg.blockSize*cfg.blockSize
  · have hmul := Nat.div_mul_le_self (st.newNumComputed step) cfg.blockSize
    set b := st.newNumComputed step/cfg.blockSize with hb
    have hcopy : st'.postCopy cfg step s =
        some (s+(b*cfg.blockSize-st.numTokensRunningState step), b-1) := by
      rw [postCopy, hrunning, hnewc, ← hb]
      rw [if_pos hle, Nat.mul_div_cancel _ hexec.size_pos]
    have hsrc : st'.memory (st.block (s+(b*cfg.blockSize-st.numTokensRunningState step))) =
        (st.tokens ++ step.specTokenIds).take (b*cfg.blockSize) := by
      rw [hforward _ (by omega)]
      congr 1
      omega
    rw [AlignRequest.postprocess, hcopy]
    simp only [copyColumn, hsame.block, hsrc]
    rcases hexec.boundary_cases hle with ⟨hend,hall⟩ | ⟨hend,hpos,hlow⟩
    · -- the running column itself is complete
      rw [← hb] at hend
      have hdst : s = b-1 := by omega
      rw [if_pos hdst, ← hdst, Nat.sub_self, Nat.add_zero]
      refine ⟨one_pos,Nat.succ_le_succ (Nat.zero_le _),?_,fun _ => update_self ..⟩
      rw [Nat.add_zero, update_self, hend, ← hall]
    · -- the copy goes to the column before, which no draft is in
      rw [← hb] at hend
      have hprev : b-1 = (st.numComputedTokens-1)/cfg.blockSize := by
        rw [hend, ← hlow, Nat.add_sub_cancel]
      have hs : 0 < s := hlow ▸ Nat.succ_pos _
      have hdst : s ≠ b-1 := by omega
      rw [if_neg hdst, Nat.add_sub_cancel]
      refine ⟨Nat.succ_pos _,le_rfl,?_,fun _ => update_self ..⟩
      have hne : st.block (s+step.numAcceptedDrafts) ≠ st.block (b-1) := by
        intro heq
        have := h.apart (.inr (Nat.le_add_right s _)) (by omega) (.inl ⟨hpos,hprev⟩) (by omega) heq
        omega
      rw [update_of_ne hne, hforward _ hacc, ← hnew]
  · have hnone : st'.postCopy cfg step s = none := by
      rw [postCopy, hrunning, hnewc]
      exact if_neg hle
    rw [AlignRequest.postprocess, hnone]
    refine ⟨Nat.succ_pos _,le_rfl,?_,fun hle' => absurd hle' hle⟩
    dsimp only
    rw [Nat.add_sub_cancel, hforward _ hacc, ← hnew]

theorem Executable.take_processOutput (h : Executable cfg st step s) {m : ℕ}
    (hm : m ≤ st.newNumComputed step) :
    (st.processOutput step).tokens.take m = (st.tokens ++ step.specTokenIds).take m := by
  obtain ⟨hnew,hsplit,hlt⟩ := h.newNumComputed_eq
  have hacc := h.accepted_le
  rw [processOutput]
  dsimp only
  split
  · -- a chunk that ends before the last known token has no drafts
    have hlen : m ≤ st.tokens.length := by
      rcases h.tokens with ⟨hzero,hle⟩ | ⟨-,hlast,hspec⟩ <;> omega
    rw [take_append_of_le_length hlen]
  · have hlen : m ≤ st.tokens.length+step.numAcceptedDrafts := by
      rcases h.tokens with ⟨hzero,hle⟩ | ⟨-,hlast,hspec⟩ <;> omega
    rw [take_append_of_le_length (by rw [length_append, length_take, min_eq_left hacc]; exact hlen),
      take_append, take_append, take_take, min_eq_left (by omega)]

/-- One known token is left to compute, or the step was a chunk that ends before the last one. -/
theorem Executable.processOutput_length (h : Executable cfg st step s) :
    st.newNumComputed step+1 = (st.processOutput step).tokens.length ∨ step.specTokenIds.length = 0 ∧
        st.numComputedTokens+step.numScheduledTokens < st.tokens.length ∧
        st.newNumComputed step = st.numComputedTokens+step.numScheduledTokens ∧
        (st.processOutput step).tokens.length = st.tokens.length := by
  obtain ⟨hnew,hsplit,hlt⟩ := h.newNumComputed_eq
  have hacc := h.accepted_le
  rw [processOutput]
  dsimp only
  split
  · right
    rcases h.tokens with ⟨hzero,-⟩ | ⟨-,hlast,hspec⟩
    · exact ⟨hzero,by omega,by omega,rfl⟩
    · omega
  · left
    rw [length_append, length_append, length_take, min_eq_left hacc, length_singleton]
    rcases h.tokens with ⟨hzero,hle⟩ | ⟨-,hlast,hspec⟩ <;> omega

theorem Scheduled.owned (h : Scheduled cfg st s) (hexec : Executable cfg st step s) :
    (∀ c, (st.newNumComputed step-1)/cfg.blockSize ≤ c → c < st.reqBlocks.length → st.Owns c) ∧
      (st.reqBlocks.drop ((st.newNumComputed step-1)/cfg.blockSize)).Nodup := by
  have hlen := h.table_length
  rcases hexec.low_cases with hlow | ⟨hpos,hlow,hnext⟩
  · rw [hlow]
    exact ⟨fun c hc hlt => h.owns c (.inr hc) (by omega),h.nodup⟩
  · rw [hlow]
    have hfits := h.fits
    have hlt : (st.numComputedTokens-1)/cfg.blockSize < s := by omega
    constructor
    · intro c hc hclt
      refine h.owns c ?_ (by omega)
      by_cases heq : c = (st.numComputedTokens-1)/cfg.blockSize
      · exact .inl ⟨hpos,heq⟩
      · exact .inr (by omega)
    · -- the old column in front of the running ones
      have hget := (h.owns _ (.inl ⟨hpos,rfl⟩) (by omega)).block_eq
      rw [drop_eq_getElem?_toList_append, hget, hnext]
      exact nodup_cons.mpr ⟨h.low_apart hpos hlt,h.nodup⟩

theorem execute_frame (cfg : Config) (st : AlignRequest τ) (step : AlignStep τ) :
    (st.execute cfg step).numComputedTokens = st.newNumComputed step ∧
      ∀ c, (st.execute cfg step).block c = st.block c := by
  have hsame := ((preprocess_sameBlocks cfg st step).trans
    (forward_sameBlocks _ step (st.currStateIdx cfg step))).trans
    (postprocess_sameBlocks cfg _ step (st.currStateIdx cfg step))
  exact ⟨hsame.newNumComputed step,hsame.block⟩

theorem Scheduled.execute (h : Scheduled cfg st s) (hexec : Executable cfg st step s)
    (hs : st.currStateIdx cfg step = s) (halloc : st.blocksAllocated = true) :
    Running cfg (st.execute cfg step) s ∧
      (st.numTokensRunningState step ≤ st.newNumComputed step/cfg.blockSize*cfg.blockSize →
        (st.execute cfg step).memory (st.block (st.newNumComputed step/cfg.blockSize-1)) =
          (st.execute cfg step).tokens.take (st.newNumComputed step/cfg.blockSize*cfg.blockSize)) := by
  have hforward : SameBlocks st ((st.preprocess cfg step).forward step s) :=
    (preprocess_sameBlocks cfg st step).trans (forward_sameBlocks _ step s)
  obtain ⟨hpos,hle,hstate,hboundary⟩ :=
    h.postprocess hexec hforward fun j hj => h.forward hexec hs hj
  set p := ((st.preprocess cfg step).forward step s).postprocess cfg step s with hp
  have hsame : SameBlocks st p := hforward.trans (postprocess_sameBlocks cfg _ step s)
  have hexecute : st.execute cfg step = p.processOutput step := by
    rw [AlignRequest.execute, hs]
  have hnewp := hsame.newNumComputed step
  have htokens : (p.processOutput step).tokens = (st.processOutput step).tokens := by
    simp [processOutput, hsame.tokens, hsame.numComputedTokens]
  have hindex : p.mambaStateIdx = some s := by
    rw [hp, postprocess_mambaStateIdx, ← hs]
    exact preprocess_mambaStateIdx cfg st step
  obtain ⟨hnew,hsplit,hlt⟩ := hexec.newNumComputed_eq
  obtain ⟨howns,hnodup⟩ := h.owned hexec
  have hdrafts := hexec.drafts_le
  have hacc := hexec.accepted_le
  rw [hexecute]
  constructor
  · have hcomputed : (p.processOutput step).numComputedTokens = st.newNumComputed step := hnewp
    have hblock : ∀ c, (p.processOutput step).block c = st.block c := hsame.block
    refine ⟨hsame.blocksAllocated.trans halloc,hindex,by omega,?_,?_,?_,?_,hpos,?_,?_,?_,?_,?_⟩
    · rw [hcomputed, htokens]
      rcases hexec.processOutput_length with hlast | ⟨-,hshort,heq,hlen⟩ <;> omega
    · rw [hcomputed]
      rcases hexec.low_cases with hlow | ⟨-,hlow,hnext⟩ <;> omega
    · change p.blockTable.length = p.reqBlocks.length
      rw [hsame.blockTable, hsame.reqBlocks, h.table_length]
    · change s+_ < p.reqBlocks.length
      rw [hsame.reqBlocks, ← h.table_length]
      exact h.fits
    · change p.numAcceptedTokens ≤ _
      omega
    · intro c
      change _ → c < p.reqBlocks.length → ∃ b, p.blockTable[c]? = some b ∧ p.reqBlocks[c]? = some b ∧ _
      rw [hcomputed, hsame.reqBlocks, hsame.blockTable]
      exact howns c
    · change (p.reqBlocks.drop _).Nodup
      rw [hcomputed, hsame.reqBlocks]
      exact hnodup
    · rw [hblock, htokens, hcomputed, hexec.take_processOutput le_rfl]
      exact hstate
    · rw [hcomputed, htokens]
      rcases hexec.processOutput_length with hlast | ⟨hzero,hshort,heq,-⟩
      · exact .inl hlast
      · -- a chunk in the middle of the prompt
        have hnum := hexec.scheduled_pos
        have htight := h.tight (by omega)
        refine .inr ⟨?_,?_,?_⟩
        · rw [heq, ← hexec.column]
        · change p.numAcceptedTokens = 1
          omega
        · change _ = p.reqBlocks.length
          rw [hsame.reqBlocks, ← h.table_length, htight]
  · intro hreached
    rw [htokens, hexec.take_processOutput (Nat.div_mul_le_self _ _)]
    exact hboundary hreached

theorem Scheduled.accessedColumns (h : Scheduled cfg st s) (hexec : Executable cfg st step s)
    (hs : st.currStateIdx cfg step = s) : ∀ c ∈ st.accessedColumns cfg step, st.Owns c := by
  have hfits := h.fits
  have hdrafts := hexec.drafts_le
  have hrunning : ∀ j ≤ cfg.numSpeculativeBlocks, st.Owns (s+j) :=
    fun j hj => h.owns _ (.inr (Nat.le_add_right s j)) (by omega)
  intro c hc
  simp only [AlignRequest.accessedColumns, hs, mem_append, or_assoc] at hc
  rcases hc with hc | hc | hc | hc
  · -- the pre-copy
    cases hprev : st.prevStateIdx cfg with
    | none =>
      simp only [preCopy, hprev, Option.elim_none, not_mem_nil] at hc
    | some prev =>
      have hpos : 0 < st.numComputedTokens := by
        by_contra hzero
        rw [h.unstarted (Nat.eq_zero_of_not_pos hzero)] at hprev
        cases hprev
      obtain ⟨prev',hprev',husable,hlt,-⟩ := h.source hpos
      obtain rfl : prev = prev' := Option.some.inj (hprev.symm.trans hprev')
      simp only [preCopy, hprev, hs] at hc
      split at hc
      · simp only [Option.elim_some, mem_cons, not_mem_nil, or_false] at hc
        rcases hc with rfl | rfl
        · exact h.owns _ husable hlt
        · exact hrunning 0 (Nat.zero_le _)
      · exact absurd hc not_mem_nil
  · -- where the forward pass starts
    split at hc
    · exact absurd hc not_mem_nil
    · rename_i hpos
      rw [mem_singleton] at hc
      subst hc
      exact h.owns _ (.inr (Nat.le_add_right s _)) (h.preprocess hs (Nat.pos_of_ne_zero hpos)).1
  · obtain ⟨j,hj,rfl⟩ := mem_map.mp hc
    rw [mem_range] at hj
    exact hrunning j (by omega)
  · -- the copy at a boundary
    have hpre := preprocess_sameBlocks cfg st step
    obtain ⟨hnew,-,-⟩ := hexec.newNumComputed_eq
    have hacc := hexec.accepted_le
    have hmul := Nat.div_mul_le_self (st.newNumComputed step) cfg.blockSize
    simp only [postCopy, hpre.numTokensRunningState, hpre.newNumComputed] at hc
    split at hc
    · rename_i hle
      simp only [Option.elim_some, mem_cons, not_mem_nil, or_false,
        Nat.mul_div_cancel _ hexec.size_pos] at hc
      rcases hc with rfl | rfl
      · exact hrunning _ (by omega)
      · rcases hexec.boundary_cases hle with ⟨hend,-⟩ | ⟨hend,hpos,hlow⟩
        · rw [hend, Nat.add_sub_cancel]
          exact hrunning 0 (Nat.zero_le _)
        · have hprev : st.newNumComputed step/cfg.blockSize-1 =
              (st.numComputedTokens-1)/cfg.blockSize := by
            rw [hend, ← hlow, Nat.add_sub_cancel]
          rw [hprev]
          exact h.owns _ (.inl ⟨hpos,rfl⟩) (by omega)
    · exact absurd hc not_mem_nil

def Ready (cfg : Config) (st : AlignRequest τ) : Prop := Admitted cfg st ∨ ∃ s, Running cfg st s

theorem Ready.scheduled (h : Ready cfg st) (hsize : cfg.numSpeculativeBlocks < cfg.blockSize)
    (hlegal : LegalTokens cfg st step) (hfresh : FreshBlocks cfg (st.held cfg) step) :
    ∃ s, Scheduled cfg (st.schedule cfg step) s ∧ Executable cfg (st.schedule cfg step) step s ∧
      (st.schedule cfg step).currStateIdx cfg step = s := by
  obtain ⟨htokens,hcomputed,-,-⟩ := schedule_frame cfg st step
  obtain ⟨hnum,hacc,hdrafts,hchunk⟩ := hlegal
  have hpos : 0 < cfg.blockSize := (Nat.zero_le _).trans_lt hsize
  have hlt : st.numComputedTokens < st.tokens.length := by
    rcases h with hadm | ⟨s₀,hrun⟩
    · exact hadm.computed_lt
    · exact hrun.computed_lt
  refine ⟨(st.numComputedTokens+step.numScheduledTokens-1)/cfg.blockSize,?_,?_,?_⟩
  · rcases h with hadm | ⟨s₀,hrun⟩
    · exact hadm.scheduled hpos hnum hfresh
    · exact hrun.scheduled hsize ⟨hnum,hacc,hdrafts,hchunk⟩ hfresh
  · refine ⟨hsize,hnum,hacc,hdrafts,?_,?_,?_⟩
    · rw [htokens, hcomputed]
      exact hlt
    · rw [htokens, hcomputed]
      split at hchunk
      · rename_i hzero
        exact .inl ⟨hzero,hchunk⟩
      · -- drafts are given to a request that has run before
        obtain ⟨halloc,hlast,hspec⟩ := hchunk
        rcases h with hadm | ⟨s₀,hrun⟩
        · exact absurd (hadm.blocksAllocated.symm.trans halloc) Bool.false_ne_true
        · exact .inr ⟨hrun.computed_pos,hlast,hspec⟩
    · rw [hcomputed]
  · rw [currStateIdx_eq hpos hnum, hcomputed]

theorem step_eq_some (h : st.step cfg step = some st') :
    LegalTokens cfg st step ∧ FreshBlocks cfg (st.held cfg) step ∧
      st' = (st.schedule cfg step).execute cfg step := by
  rw [AlignRequest.step] at h
  obtain ⟨⟨hlegal,hfresh⟩,heq⟩ := Option.ite_none_right_eq_some.mp h
  exact ⟨hlegal,hfresh,(Option.some.inj heq).symm⟩

theorem Ready.of_step (h : Ready cfg st) (hsize : cfg.numSpeculativeBlocks < cfg.blockSize)
    (hstep : st.step cfg step = some st') : Ready cfg st' := by
  obtain ⟨hlegal,hfresh,rfl⟩ := step_eq_some hstep
  obtain ⟨s,hsched,hexec,hs⟩ := h.scheduled hsize hlegal hfresh
  exact .inr ⟨s,(hsched.execute hexec hs (schedule_blocksAllocated cfg st step)).1⟩

theorem Ready.of_reachable {init : AlignRequest τ} (hinit : Admitted cfg init)
    (hsize : cfg.numSpeculativeBlocks < cfg.blockSize)
    (hrun : Reachable (AlignRequest.step cfg) (fun _ _ _ => True) init st) : Ready cfg st :=
  hrun.invariant (.inl hinit) fun _ _ _ hready hstep _ => hready.of_step hsize hstep

/-- The state hand-off of mode align, after every step of every run. With `b` the number of full blocks
of the new computed tokens, a boundary at or behind the tokens before the drafts has its state in column
`b - 1`; the column and the accepted count handed over name the state of all computed tokens, and do so
still after the pre-copy of whatever step comes next; and no step touches a column the request does not
own. -/
theorem align_state_handoff (cfg : Config) (hsize : cfg.numSpeculativeBlocks < cfg.blockSize)
    {init st st' : AlignRequest τ} {step : AlignStep τ} (hinit : Admitted cfg init)
    (hrun : Reachable (AlignRequest.step cfg) (fun _ _ _ => True) init st)
    (hstep : st.step cfg step = some st') :
    st'.numComputedTokens = st.numComputedTokens+step.numScheduledTokens-step.specTokenIds.length +
        step.numAcceptedDrafts ∧
      (st.numComputedTokens+step.numScheduledTokens-step.specTokenIds.length ≤
          st'.numComputedTokens/cfg.blockSize*cfg.blockSize →
        st'.memory (st'.block (st'.numComputedTokens/cfg.blockSize-1)) =
          st'.tokens.take (st'.numComputedTokens/cfg.blockSize*cfg.blockSize)) ∧
      (∃ s, st'.mambaStateIdx = some s ∧
        st'.memory (st'.block (s+(st'.numAcceptedTokens-1))) =
          st'.tokens.take st'.numComputedTokens) ∧
      (∀ next, (st'.step cfg next).isSome → ∃ s,
        ((st'.schedule cfg next).preprocess cfg next).mambaStateIdx = some s ∧
        ((st'.schedule cfg next).preprocess cfg next).memory
            (((st'.schedule cfg next).preprocess cfg next).block
              (s+(((st'.schedule cfg next).preprocess cfg next).numAcceptedTokens-1))) =
          st'.tokens.take st'.numComputedTokens) ∧
      ∀ c ∈ (st.schedule cfg step).accessedColumns cfg step, (st.schedule cfg step).Owns c := by
  have hready := Ready.of_reachable hinit hsize hrun
  obtain ⟨hlegal,hfresh,rfl⟩ := step_eq_some hstep
  obtain ⟨s,hsched,hexec,hs⟩ := hready.scheduled hsize hlegal hfresh
  obtain ⟨hrunning,hboundary⟩ := hsched.execute hexec hs (schedule_blocksAllocated cfg st step)
  obtain ⟨hcomputed,hblock⟩ := execute_frame cfg (st.schedule cfg step) step
  have hT : (st.schedule cfg step).numTokensRunningState step =
      st.numComputedTokens+step.numScheduledTokens-step.specTokenIds.length := by
    rw [numTokensRunningState, (schedule_frame cfg st step).2.1]
  obtain ⟨hnew,-,-⟩ := hexec.newNumComputed_eq
  refine ⟨by rw [hcomputed, hnew, hT],?_,⟨s,hrunning.mambaStateIdx,hrunning.state⟩,?_,
    hsched.accessedColumns hexec hs⟩
  · rw [hcomputed, hblock, ← hT]
    exact hboundary
  · intro next hnext
    obtain ⟨st'',hnext⟩ := Option.isSome_iff_exists.mp hnext
    obtain ⟨hlegal',hfresh',-⟩ := step_eq_some hnext
    obtain ⟨s',hsched',-,hs'⟩ := (Ready.scheduled (.inr ⟨s,hrunning⟩) hsize hlegal' hfresh')
    obtain ⟨htokens',hcomputed',-,-⟩ := schedule_frame cfg ((st.schedule cfg step).execute cfg step) next
    refine ⟨s',?_,?_⟩
    · rw [preprocess_mambaStateIdx, hs']
    · have hpos := hrunning.computed_pos
      rw [← hcomputed'] at hpos
      rw [(preprocess_sameBlocks cfg _ next).block, (hsched'.preprocess hs' hpos).2, htokens', hcomputed']

private def promptRequest : AlignRequest ℕ :=
  { tokens := [1, 2, 3, 4, 5, 6], numComputedTokens := 0, reqBlocks := [], blocksAllocated := false
    lastStateBlockIdx := none, blockTable := [], mambaStateIdx := none, numAcceptedTokens := 1
    memory := fun _ => [] }

private def promptChunks : List (AlignStep ℕ) :=
  [⟨4, [], 0, 0, false, 9, [1, 2, 3], fun _ => []⟩, ⟨2, [], 0, 7, false, 9, [4], fun _ => []⟩]

private def draftStep : AlignStep ℕ := ⟨3, [8, 9], 2, 10, false, 9, [5], fun _ => []⟩

/-- Two drafts accepted across a boundary: the state after eight tokens goes to the column before the
running one. -/
theorem align_state_handoff_drafts : ∃ st st' : AlignRequest ℕ,
    st.step ⟨4, 2⟩ draftStep = some st' ∧ st'.numComputedTokens = 9 ∧
      st'.memory (st'.block 1) = st'.tokens.take 8 := by
  have hinit : Admitted ⟨4, 2⟩ promptRequest :=
    ⟨rfl,rfl,rfl,by decide,rfl,fun hpos => absurd hpos (by decide)⟩
  have hcheck : ∀ (s : AlignRequest ℕ) (e : AlignStep ℕ) (s' : AlignRequest ℕ), true = true → True :=
    fun _ _ _ _ => trivial
  obtain ⟨st,hrun,hst⟩ := Reachable.exists_of_runGuarded (AlignRequest.step ⟨4, 2⟩) hcheck promptRequest
    promptChunks
    (fun st => decide (st.numComputedTokens = 6) && (st.step ⟨4, 2⟩ draftStep).isSome) (by decide)
  rw [Bool.and_eq_true, decide_eq_true_eq] at hst
  obtain ⟨st',hstep⟩ := Option.isSome_iff_exists.mp hst.2
  obtain ⟨hcount,hboundary,-⟩ := align_state_handoff ⟨4, 2⟩ (by decide) hinit hrun hstep
  have hnine : st'.numComputedTokens = 9 := by
    rw [hcount, hst.1]
    rfl
  rw [hst.1, hnine] at hboundary
  exact ⟨st,st',hstep,hnine,hboundary (by decide)⟩

end AlignRequest

end MetaZenith.MambaAlign
