import MetaZenith.SchedEffects

/-! Where `_mamba_block_aligned_split` ends the chunks of a prefill, and what a sequence of chunks
reaches. -/

namespace MetaZenith.Sched

open List

def prefillEnd (q : Request) : ℤ := max (q.numPromptTokens:ℤ) (q.numTokens-1)

def prefillChunkLimit (cfg : Config) : ℤ :=
  if 0 < cfg.longPrefillTokenThreshold then
    min cfg.maxNumScheduledTokens cfg.longPrefillTokenThreshold
  else cfg.maxNumScheduledTokens

def lastCachePosition (cfg : Config) (q : Request) : ℤ :=
  let last : ℤ := q.numTokens-q.numTokens%cfg.blockSize
  if cfg.useEagle then max (last-cfg.blockSize) 0 else last

def tailBoundary (cfg : Config) (q : Request) : ℤ :=
  if cfg.mambaPartialCacheHit then (q.numPromptTokens:ℤ)/cfg.hashBlockSize*cfg.hashBlockSize else 0

variable {cfg : Config} {q : Request} {start n : ℤ}

theorem dvd_lastCachePosition : (cfg.blockSize:ℤ) ∣ lastCachePosition cfg q := by
  have hlast : (cfg.blockSize:ℤ) ∣ q.numTokens-q.numTokens%cfg.blockSize :=
    Int.dvd_self_sub_emod
  unfold lastCachePosition
  simp only
  split
  · rcases max_choice (q.numTokens-q.numTokens%cfg.blockSize-cfg.blockSize) 0 with h | h
    · rw [h]
      exact dvd_sub hlast dvd_rfl
    · rw [h]
      exact dvd_zero _
  · exact hlast

theorem lastCachePosition_le : lastCachePosition cfg q ≤ q.numTokens := by
  have hpos : (0:ℤ) < cfg.blockSize := Int.natCast_pos.mpr cfg.blockSize_pos
  have hmod := Int.emod_nonneg q.numTokens hpos.ne'
  have hnonneg : 0 ≤ q.numTokens := Int.natCast_nonneg _
  unfold lastCachePosition
  simp only
  split <;> omega

theorem mambaStops_eq (stop : ℤ) : mambaStops cfg q start stop =
    [if start%cfg.blockSize ≠ 0 then (start/cfg.blockSize+1)*cfg.blockSize else 0,
      lastCachePosition cfg q,
      if lastCachePosition cfg q < tailBoundary cfg q ∧ tailBoundary cfg q < q.numPromptTokens then
        tailBoundary cfg q else 0,
      if start < q.sharedPrefixBoundary ∧ q.sharedPrefixBoundary < stop then
        start+(q.sharedPrefixBoundary-start)/cfg.blockSize*cfg.blockSize else 0] := rfl

structure ChunkEnd (cfg : Config) (q : Request) (start aligned stop : ℤ) : Prop where
  le_aligned : stop ≤ aligned
  choice : stop = aligned ∨ start < stop ∧ stop ∈ mambaStops cfg q start aligned
  earliest : ∀ x ∈ mambaStops cfg q start aligned, start < x → stop ≤ x ∨ aligned ≤ x

theorem exists_chunkEnd (cfg : Config) (n : ℤ) (h : start < prefillEnd q) : ∃ stop,
    ChunkEnd cfg q start (mambaAlignedEnd cfg (prefillEnd q) start (start+n)) stop ∧
      mambaBlockAlignedSplit cfg q start n = max (stop-start) 0 := by
  have hsplit : mambaBlockAlignedSplit cfg q start n =
      let aligned := mambaAlignedEnd cfg (prefillEnd q) start (start+n)
      max ((((mambaStops cfg q start aligned).filter fun x =>
        start < x ∧ x < aligned).min?).getD aligned-start) 0 := if_neg (not_le.mpr h)
  rw [hsplit]
  generalize mambaAlignedEnd cfg (prefillEnd q) start (start+n) = aligned
  refine ⟨_,?_,rfl⟩
  have hinside {x : ℤ} : x ∈ ((mambaStops cfg q start aligned).filter fun x =>
      start < x ∧ x < aligned) ↔ x ∈ mambaStops cfg q start aligned ∧ start < x ∧ x < aligned := by
    rw [mem_filter, decide_eq_true_iff]
  cases hmin : ((mambaStops cfg q start aligned).filter fun x => start < x ∧ x < aligned).min? with
  | none =>
    refine ⟨le_rfl,.inl rfl,fun x hx hlt => ?_⟩
    by_contra hout
    have hmem := hinside.mpr ⟨hx,hlt,not_le.mp fun hle => hout (.inr hle)⟩
    rw [min?_eq_none_iff.mp hmin] at hmem
    exact absurd hmem not_mem_nil
  | some m =>
    obtain ⟨hm,hle⟩ := min?_eq_some_iff.mp hmin
    obtain ⟨hstop,hlt,hlt'⟩ := hinside.mp hm
    refine ⟨hlt'.le,.inr ⟨hlt,hstop⟩,fun x hx hxlt => ?_⟩
    by_contra hout
    have hmem := hinside.mpr ⟨hx,hxlt,not_le.mp fun h => hout (.inr h)⟩
    exact hout (.inl (hle x hmem))

/-- A chunk that reaches the end of the prefill keeps its length. Another one is cut to a block
boundary, or lies within one block that is wider than a chunk may be. -/
theorem mambaAlignedEnd_cases (cfg : Config) (q : Request) (start n : ℤ) :
    (prefillEnd q ≤ start+n ∧ mambaAlignedEnd cfg (prefillEnd q) start (start+n) = start+n) ∨
    (start+n < prefillEnd q ∧ mambaAlignedEnd cfg (prefillEnd q) start (start+n) =
        (start+n)/cfg.blockSize*cfg.blockSize ∧ (start < (start+n)/cfg.blockSize*cfg.blockSize ∨
        cfg.blockSize ≤ prefillChunkLimit cfg)) ∨
    (start+n < prefillEnd q ∧ mambaAlignedEnd cfg (prefillEnd q) start (start+n) = start+n ∧
      (start+n)/cfg.blockSize*cfg.blockSize ≤ start ∧ prefillChunkLimit cfg < cfg.blockSize) := by
  have hdef : mambaAlignedEnd cfg (prefillEnd q) start (start+n) =
      if start+n < prefillEnd q then
        if start < (start+n)/cfg.blockSize*cfg.blockSize ∨
            cfg.blockSize ≤ prefillChunkLimit cfg then (start+n)/cfg.blockSize*cfg.blockSize
        else start+n
      else start+n := rfl
  rw [hdef]
  by_cases hend : start+n < prefillEnd q
  · rw [if_pos hend]
    by_cases hcut : start < (start+n)/cfg.blockSize*cfg.blockSize ∨
        cfg.blockSize ≤ prefillChunkLimit cfg
    · exact .inr (.inl ⟨hend,if_pos hcut,hcut⟩)
    · obtain ⟨h1,h2⟩ := not_or.mp hcut
      exact .inr (.inr ⟨hend,if_neg hcut,not_lt.mp h1,not_le.mp h2⟩)
  · exact .inl ⟨not_lt.mp hend,if_neg hend⟩

variable {B m stop : ℤ}

theorem le_floor_of_dvd {x : ℤ} (hB : 0 < B) (hdvd : B ∣ m) (hle : m ≤ x) : m ≤ x/B*B := by
  obtain ⟨k,rfl⟩ := hdvd
  have hk : k ≤ x/B := by
    rw [Int.le_ediv_iff_mul_le hB, mul_comm]
    exact hle
  calc B*k = k*B := mul_comm B k
    _ ≤ x/B*B := mul_le_mul_of_nonneg_right hk hB.le

theorem next_boundary_le_of_dvd {x : ℤ} (hB : 0 < B) (hdvd : B ∣ m) (hlt : x < m) : (x/B+1)*B ≤ m := by
  obtain ⟨k,rfl⟩ := hdvd
  have hk : x/B < k := by
    rw [Int.ediv_lt_iff_lt_mul hB, mul_comm]
    exact hlt
  calc (x/B+1)*B ≤ k*B := mul_le_mul_of_nonneg_right hk hB.le
    _ = B*k := mul_comm k B

theorem lt_next_boundary (hB : 0 < B) (x : ℤ) : x < (x/B+1)*B := by
  rw [add_mul, one_mul]
  exact Int.lt_ediv_add_one_mul_self x hB |>.trans_eq (by rw [add_mul, one_mul])

/-- A chunk that ends before the prefill does ends on a block boundary or on the partial tail, or
it lies within a block wider than a chunk. -/
theorem ChunkEnd.aligned_or_tail
    (h : ChunkEnd cfg q start (mambaAlignedEnd cfg (prefillEnd q) start (start+n)) stop)
    (hlt : start < stop) (hend : stop < prefillEnd q) :
    (cfg.blockSize:ℤ) ∣ stop ∨ stop = tailBoundary cfg q ∨ prefillChunkLimit cfg < cfg.blockSize ∧
        ∀ m, start < m → m ≤ start+n → ¬(cfg.blockSize:ℤ) ∣ m := by
  have hB : (0:ℤ) < cfg.blockSize := Int.natCast_pos.mpr cfg.blockSize_pos
  rcases h.choice with heq | ⟨-,hmem⟩
  · rcases mambaAlignedEnd_cases cfg q start n with
      ⟨hreach,halign⟩ | ⟨-,halign,-⟩ | ⟨-,-,hfloor,hwide⟩
    · omega
    · rw [heq, halign]
      exact .inl (dvd_mul_left _ _)
    · refine .inr (.inr ⟨hwide,fun m hm hmn hdvd => ?_⟩)
      have := le_floor_of_dvd hB hdvd hmn
      omega
  · have hearliest := h.earliest
    have hle := h.le_aligned
    generalize mambaAlignedEnd cfg (prefillEnd q) start (start+n) = aligned at *
    rw [mambaStops_eq] at hmem hearliest
    simp only [mem_cons, not_mem_nil, or_false] at hmem hearliest
    rcases hmem with rfl | rfl | rfl | hshared
    · left
      split
      · exact dvd_mul_left _ _
      · exact dvd_zero _
    · exact .inl dvd_lastCachePosition
    · split
      · exact .inr (.inl rfl)
      · exact .inl (dvd_zero _)
    · left
      split at hshared
      · by_cases hstart : start%cfg.blockSize = 0
        · rw [hshared]
          exact dvd_add (Int.dvd_of_emod_eq_zero hstart) (dvd_mul_left _ _)
        · -- a junction counted from an unaligned start lies past the next boundary
          exfalso
          have hnext := lt_next_boundary hB start
          have hk : 1 ≤ (q.sharedPrefixBoundary-start)/cfg.blockSize := by
            by_contra hk
            have : (q.sharedPrefixBoundary-start)/cfg.blockSize*cfg.blockSize ≤ 0 :=
              mul_nonpos_of_nonpos_of_nonneg (by omega) hB.le
            omega
          have hmul : (cfg.blockSize:ℤ) ≤
              (q.sharedPrefixBoundary-start)/cfg.blockSize*cfg.blockSize :=
            le_mul_of_one_le_left hB.le hk
          have hfloor : (start/cfg.blockSize+1)*cfg.blockSize < start+cfg.blockSize := by
            have hmod := Int.emod_add_mul_ediv start cfg.blockSize
            have hnonneg := Int.emod_nonneg start hB.ne'
            have hcomm := mul_comm (cfg.blockSize:ℤ) (start/cfg.blockSize)
            have hexpand := add_mul (start/cfg.blockSize) 1 (cfg.blockSize:ℤ)
            omega
          rcases hearliest _ (.inl rfl) (by rw [if_pos hstart]; exact hnext) with hst | hst
          · rw [if_pos hstart] at hst
            omega
          · rw [if_pos hstart] at hst
            omega
      · rw [hshared]
        exact dvd_zero _

theorem ChunkEnd.no_boundary_inside {aligned : ℤ} (h : ChunkEnd cfg q start aligned stop)
    (hstart : ¬(cfg.blockSize:ℤ) ∣ start) (hm : start < m) (hlt : m < stop) :
    ¬(cfg.blockSize:ℤ) ∣ m := by
  intro hdvd
  have hB : (0:ℤ) < cfg.blockSize := Int.natCast_pos.mpr cfg.blockSize_pos
  have hne : start%cfg.blockSize ≠ 0 := fun h0 => hstart (Int.dvd_of_emod_eq_zero h0)
  have hmem : (start/cfg.blockSize+1)*cfg.blockSize ∈ mambaStops cfg q start aligned := by
    rw [mambaStops_eq, if_pos hne]
    exact mem_cons_self
  have hle := next_boundary_le_of_dvd hB hdvd hm
  have haligned := h.le_aligned
  rcases h.earliest _ hmem (lt_next_boundary hB start) with hst | hst
  · omega
  · omega

theorem ChunkEnd.lastCachePosition_not_inside {aligned : ℤ}
    (h : ChunkEnd cfg q start aligned stop) (hlt : start < lastCachePosition cfg q) :
    stop ≤ lastCachePosition cfg q := by
  have hmem : lastCachePosition cfg q ∈ mambaStops cfg q start aligned := by
    rw [mambaStops_eq]
    exact mem_cons_of_mem _ mem_cons_self
  have haligned := h.le_aligned
  rcases h.earliest _ hmem hlt with hst | hst
  · exact hst
  · omega

/-- A chunk of the configured size, or one that may finish the prefill, makes progress. -/
theorem ChunkEnd.progress
    (h : ChunkEnd cfg q start (mambaAlignedEnd cfg (prefillEnd q) start (start+n)) stop)
    (hpos : 1 ≤ n) (hn : min (prefillEnd q-start) (prefillChunkLimit cfg) ≤ n) : start < stop := by
  have hB : (0:ℤ) < cfg.blockSize := Int.natCast_pos.mpr cfg.blockSize_pos
  rcases h.choice with heq | ⟨hlt,-⟩
  · rcases mambaAlignedEnd_cases cfg q start n with
      ⟨-,halign⟩ | ⟨hend,halign,hcut⟩ | ⟨-,halign,-,-⟩
    · omega
    · rw [heq, halign]
      rcases hcut with hcut | hfits
      · exact hcut
      · -- a whole block fits into the chunk
        have hlt := lt_next_boundary hB (start+n)
        rw [add_mul, one_mul] at hlt
        omega
    · omega
  · exact hlt

def chunkEnds (cfg : Config) (q : Request) : ℤ → List ℕ → List ℤ
  | _, [] => []
  | start, n :: ns =>
    let stop := start+mambaBlockAlignedSplit cfg q start n
    stop :: chunkEnds cfg q stop ns

/-- Each chunk asks for at least the configured limit or all that is left of the prefill, and for
no more tokens than there are. -/
def ChunksAsked (cfg : Config) (q : Request) : ℤ → List ℕ → Prop
  | _, [] => True
  | start, n :: ns => 1 ≤ n ∧ min (prefillEnd q-start) (prefillChunkLimit cfg) ≤ n ∧
    (n:ℤ) ≤ q.numTokens-start ∧
    ChunksAsked cfg q (start+mambaBlockAlignedSplit cfg q start n) ns

instance decidableChunksAsked (cfg : Config) (q : Request) :
    ∀ start ns, Decidable (ChunksAsked cfg q start ns)
  | _, [] => .isTrue trivial
  | start, n :: ns =>
    letI := decidableChunksAsked cfg q (start+mambaBlockAlignedSplit cfg q start n) ns
    inferInstanceAs (Decidable (1 ≤ n ∧ min (prefillEnd q-start) (prefillChunkLimit cfg) ≤ n ∧
      (n:ℤ) ≤ q.numTokens-start ∧
      ChunksAsked cfg q (start+mambaBlockAlignedSplit cfg q start n) ns))

theorem reaches_prefillEnd {ns : List ℕ} (hasked : ChunksAsked cfg q start ns)
    (hstart : start < prefillEnd q) (hlen : prefillEnd q-start ≤ ns.length) :
    ∃ e ∈ chunkEnds cfg q start ns, prefillEnd q ≤ e := by
  induction ns generalizing start with
  | nil =>
    rw [length_nil] at hlen
    omega
  | cons n ns ih =>
    obtain ⟨hpos,hmin,-,hrest⟩ := hasked
    obtain ⟨stop,hstop,hsplit⟩ := exists_chunkEnd cfg n hstart
    have hprogress := hstop.progress (by exact_mod_cast hpos) hmin
    rw [chunkEnds]
    rw [hsplit, max_eq_left (by omega), add_sub_cancel] at hrest ⊢
    rw [length_cons] at hlen
    by_cases hdone : prefillEnd q ≤ stop
    · exact ⟨stop,mem_cons_self,hdone⟩
    · obtain ⟨e,he,hle⟩ := ih hrest (by omega) (by push_cast at hlen; omega)
      exact ⟨e,mem_cons_of_mem _ he,hle⟩

theorem lastCachePosition_mem_chunkEnds {ns : List ℕ} (hasked : ChunksAsked cfg q start ns)
    (hstart : start < lastCachePosition cfg q) {e : ℤ} (he : e ∈ chunkEnds cfg q start ns)
    (hle : lastCachePosition cfg q ≤ e) : lastCachePosition cfg q ∈ chunkEnds cfg q start ns := by
  induction ns generalizing start with
  | nil => exact absurd he not_mem_nil
  | cons n ns ih =>
    obtain ⟨hpos,hmin,hmax,hrest⟩ := hasked
    rw [chunkEnds] at he ⊢
    have hstop : start+mambaBlockAlignedSplit cfg q start n ≤ lastCachePosition cfg q := by
      by_cases hprefill : start < prefillEnd q
      · obtain ⟨stop,hstop,hsplit⟩ := exists_chunkEnd cfg n hprefill
        have := hstop.lastCachePosition_not_inside hstart
        rw [hsplit]
        omega
      · -- past the prefill one token is left
        have hsplit : mambaBlockAlignedSplit cfg q start n = n := if_pos (not_lt.mp hprefill)
        have hle : lastCachePosition cfg q ≤ q.numTokens := lastCachePosition_le
        have hend : q.numTokens-1 ≤ prefillEnd q := le_max_right _ _
        omega
    rcases hstop.lt_or_eq with hlt | heq
    · rcases mem_cons.mp he with rfl | he
      · omega
      · exact mem_cons_of_mem _ (ih hrest hlt he)
    · rw [← heq]
      exact mem_cons_self

/-- The laws of the Mamba chunks. -/
theorem mamba_chunks_aligned (cfg : Config) (q : Request) :
    (∀ (start : ℤ) (n : ℕ), start < prefillEnd q →
      let r := mambaBlockAlignedSplit cfg q start n
      0 ≤ r ∧ r ≤ n ∧
      (start+r < prefillEnd q → 0 < r → (cfg.blockSize:ℤ) ∣ start+r ∨
        start+r = tailBoundary cfg q ∨ prefillChunkLimit cfg < cfg.blockSize ∧
          ∀ m, start < m → m ≤ start+n → ¬(cfg.blockSize:ℤ) ∣ m) ∧
      (¬(cfg.blockSize:ℤ) ∣ start → ∀ m, start < m → m < start+r → ¬(cfg.blockSize:ℤ) ∣ m) ∧
      ¬(start < lastCachePosition cfg q ∧ lastCachePosition cfg q < start+r) ∧
      (1 ≤ n → min (prefillEnd q-start) (prefillChunkLimit cfg) ≤ n → 1 ≤ r)) ∧
    ∀ (start : ℤ) (ns : List ℕ), ChunksAsked cfg q start ns →
      (start < prefillEnd q → prefillEnd q-start ≤ ns.length →
        ∃ e ∈ chunkEnds cfg q start ns, prefillEnd q ≤ e) ∧
      (start < lastCachePosition cfg q →
        (∃ e ∈ chunkEnds cfg q start ns, lastCachePosition cfg q ≤ e) →
        lastCachePosition cfg q ∈ chunkEnds cfg q start ns) := by
  refine ⟨fun start n hstart => ?_,fun start ns hasked => ⟨reaches_prefillEnd hasked,?_⟩⟩
  · obtain ⟨stop,hstop,hsplit⟩ := exists_chunkEnd cfg n hstart
    obtain ⟨hnonneg,hle⟩ := mambaBlockAlignedSplit_bounds cfg q start (Int.natCast_nonneg n)
    refine ⟨hnonneg,hle,fun hend hr => ?_,fun hdvd m hm hlt => ?_,fun hinside => ?_,
      fun hpos hmin => ?_⟩
    · have heq : start+mambaBlockAlignedSplit cfg q start n = stop := by omega
      rw [heq] at hend ⊢
      exact hstop.aligned_or_tail (by omega) hend
    · exact hstop.no_boundary_inside hdvd hm (by omega)
    · have := hstop.lastCachePosition_not_inside hinside.1
      omega
    · have := hstop.progress (by exact_mod_cast hpos) hmin
      omega
  · rintro hstart ⟨e,he,hle⟩
    exact lastCachePosition_mem_chunkEnds hasked hstart he hle

/-- Fifty prompt tokens in chunks of twenty and blocks of sixteen. -/
theorem mamba_chunks_aligned_fifty :
    let cfg : Config :=
      { maxNumScheduledTokens := 20, maxModelLen := 100, maxNumRunningReqs := 1, numSpecTokens := 0 }
    let q : Request := { requestId := 0, promptTokenIds := List.replicate 50 7, maxTokens := 1 }
    ChunksAsked cfg q 0 [20,20,18,2] ∧ lastCachePosition cfg q ∈ chunkEnds cfg q 0 [20,20,18,2] := by
  intro cfg q
  have hasked : ChunksAsked cfg q 0 [20,20,18,2] := by decide
  refine ⟨hasked,((mamba_chunks_aligned cfg q).2 0 _ hasked).2 (by decide) ?_⟩
  exact ⟨50,by decide,by decide⟩

end MetaZenith.Sched
