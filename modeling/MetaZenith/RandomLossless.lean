import MetaZenith.ResidualSampling
import MetaZenith.RejectionSampler

/-! The law of the token the random kernel emits at a position it reaches. -/

namespace MetaZenith.Sampling

variable {t z : ℤ} {idx k r : ℕ}

open MeasureTheory ProbabilityTheory ResidualSampling

set_option linter.unusedSectionVars false

structure RandomBatch (Ω : Type*) where
  counts : List ℕ
  draftTokenIds : Ω → List ℤ
  targetArgmax : Ω → List ℤ
  bonusTokenIds : Ω → List ℤ
  recoveredTokenIds : Ω → List ℤ
  draftProbs : Option (ℕ → ℕ → ℝ)
  targetProbs : ℕ → ℕ → ℝ
  uniformProbs : Ω → ℕ → ℝ
  isGreedy : List Bool

namespace RandomBatch

variable {Ω : Type*} (b : RandomBatch Ω)

def metadata (ω : Ω) : SpecDecodeMetadata := .ofCounts b.counts (b.draftTokenIds ω)

def inputs (ω : Ω) : SampleInputs ℝ where
  targetArgmax := b.targetArgmax ω
  bonusTokenIds := b.bonusTokenIds ω
  recoveredTokenIds := b.recoveredTokenIds ω
  draftProbs := b.draftProbs
  targetProbs := b.targetProbs
  uniformProbs := b.uniformProbs ω
  isGreedy := b.isGreedy

def start (r : ℕ) : ℕ := (b.counts.take r).sum

noncomputable def output (r k : ℕ) (ω : Ω) : ℤ :=
  rejectionSample (b.metadata ω) (b.inputs ω) ((b.metadata ω).rowStart r+k)

def draft (idx : ℕ) (ω : Ω) : ℤ := (b.draftTokenIds ω).getD idx 0

def uniform (idx : ℕ) (ω : Ω) : ℝ := b.uniformProbs ω idx

def recovered (idx : ℕ) (ω : Ω) : ℤ := (b.recoveredTokenIds ω).getD idx 0

def bonus (r : ℕ) (ω : Ω) : ℤ := (b.bonusTokenIds ω).getD r 0

def past (r k : ℕ) (ω : Ω) (j : Fin k) : ℤ × ℝ :=
  (b.draft (b.start r+j) ω,b.uniform (b.start r+j) ω)

def acceptSet (idx : ℕ) (x : ℤ) : Set ℝ :=
  {u | acceptsDraft none b.draftProbs b.targetProbs x u idx 0 = true}

def reached (r k : ℕ) (x : ℕ → ℤ) : Set Ω :=
  {ω | ∀ j < k, b.uniform (b.start r+j) ω ∈ b.acceptSet (b.start r+j) (b.draft (b.start r+j) ω) ∧
    b.draft (b.start r+j) ω = x j}

/-- The token that the kernel writes at a draft's position. -/
noncomputable abbrev emittedAt (idx : ℕ) (ω : Ω) : ℤ :=
  emitted (b.acceptSet idx) (b.draft idx) (b.recovered idx) (b.uniform idx) ω

end RandomBatch

def vocab (V : ℕ) : Finset ℤ := (Finset.range V).map Nat.castEmbedding

theorem mem_vocab {V : ℕ} : z ∈ vocab V ↔ 0 ≤ z ∧ z < V := by
  simp only [vocab, Finset.mem_map, Finset.mem_range, Nat.castEmbedding_apply]
  constructor
  · rintro ⟨n,hn,rfl⟩
    omega
  · rintro ⟨h0,hlt⟩
    exact ⟨z.toNat,by omega,by omega⟩

section Emitted

variable {Ω : Type*} (b : RandomBatch Ω)

theorem acceptsDraft_pos (x : ℤ) (u : ℝ) (idx pos : ℕ) :
    acceptsDraft none b.draftProbs b.targetProbs x u idx pos =
      acceptsDraft none b.draftProbs b.targetProbs x u idx 0 := by
  cases hd : b.draftProbs <;> simp [acceptsDraft]

theorem randomJudge_spec (r k : ℕ) (ω : Ω) :
    (randomJudge (b.metadata ω) none (b.uniformProbs ω) b.draftProbs b.targetProbs
        (b.recoveredTokenIds ω) (b.start r) k).1 = b.emittedAt (b.start r+k) ω ∧
    ((randomJudge (b.metadata ω) none (b.uniformProbs ω) b.draftProbs b.targetProbs
        (b.recoveredTokenIds ω) (b.start r) k).2 = true ↔
      b.uniform (b.start r+k) ω ∉ b.acceptSet (b.start r+k) (b.draft (b.start r+k) ω)) := by
  have hacc : b.uniform (b.start r+k) ω ∈ b.acceptSet (b.start r+k) (b.draft (b.start r+k) ω) ↔
      acceptsDraft none b.draftProbs b.targetProbs
        ((b.metadata ω).draftTokenIds.getD (b.start r+k) 0) (b.uniformProbs ω (b.start r+k))
        (b.start r+k) 0 = true := Iff.rfl
  rw [randomJudge, RandomBatch.emittedAt, emitted]
  simp only [acceptsDraft_pos b _ _ _ k]
  by_cases h : b.uniform (b.start r+k) ω ∈ b.acceptSet (b.start r+k) (b.draft (b.start r+k) ω)
  · simp only [hacc.mp h, h, if_true, not_true]
    exact ⟨rfl,by simp⟩
  · have h' := Bool.eq_false_iff.mpr (mt hacc.mpr h)
    simp only [h', h, Bool.false_eq_true, if_false, not_false_iff]
    exact ⟨rfl,by simp⟩

theorem output_row {c : ℕ} (hc : b.counts[r]? = some c) (hg : b.isGreedy[r]? = some false)
    (hk : k ≤ c) {x : ℕ → ℤ} {ω : Ω} (hω : ω ∈ b.reached r k x) :
    b.output r k ω = if k < c then b.emittedAt (b.start r+k) ω else b.bonus r ω := by
  obtain ⟨hr,-⟩ := List.getElem?_eq_some_iff.mp hc
  have hmax := count_le_of_getElem? (b.draftTokenIds ω) hc
  have hstart : (b.metadata ω).startIdx r = b.start r := startIdx_ofCounts _ hr
  have hrow := rejectionSample_random_row (x := b.inputs ω) (b.draftTokenIds ω) hc hg
    (j := k) (by omega)
  have hrow' : b.output r k ω = sampleRow (randomJudge (b.metadata ω) none (b.uniformProbs ω)
      b.draftProbs b.targetProbs (b.recoveredTokenIds ω) (b.start r)) (b.bonus r ω)
      ((b.metadata ω).rowStart r) c (fun _ => placeholderTokenId)
      ((b.metadata ω).rowStart r+k) := by
    rw [← hstart]
    exact hrow
  obtain ⟨a,ha,hout⟩ := sampleRow_spec (randomJudge (b.metadata ω) none (b.uniformProbs ω)
    b.draftProbs b.targetProbs (b.recoveredTokenIds ω) (b.start r)) (b.bonus r ω)
    ((b.metadata ω).rowStart r) c fun _ => placeholderTokenId
  have hka : k ≤ a := by
    by_contra hlt
    have hrej := ha.rejected (by omega)
    exact (randomJudge_spec b r a ω).2.mp hrej (hω a (by omega)).1
  rw [hrow', hout, if_pos (by omega), Nat.add_sub_cancel_left, (randomJudge_spec b r k ω).1]

end Emitted

section Law

variable {Ω : Type*} [MeasurableSpace Ω] (P : Measure Ω) [IsProbabilityMeasure P] (V : ℕ)
  (b : RandomBatch Ω)

/-- Where the draft at `idx` comes from. The index is the draft token when it is fixed, which the
recovered weights may depend on. -/
inductive DraftSource (idx : ℕ) : ℤ → Prop
  | sampled {q : ℕ → ℕ → ℝ} (hb : b.draftProbs = some q)
      (hq : IsDist (vocab V) fun z => q idx z.toNat)
      (hlaw : ∀ z ∈ vocab V, P.real {ω | b.draft idx ω = z} = q idx z.toNat) (t : ℤ) :
      DraftSource idx t
  | fixed {t : ℤ} (hb : b.draftProbs = none) (ht : t ∈ vocab V) (hdraft : ∀ ω, b.draft idx ω = t) :
      DraftSource idx t
  | padded (hdraft : ∀ ω, b.draft idx ω = -1) : DraftSource idx (-1)

/-- Position `k` of request `r` is drawn as it should be: a target distribution, a draft from one of
the sources, a uniform number and a recovered token proportional to its weight, independent of each
other and of the drafts and uniform numbers before. -/
structure FairPosition (r k : ℕ) : Prop where
  target : IsDist (vocab V) fun z => b.targetProbs (b.start r+k) z.toNat
  measurable_draft : ∀ j ≤ k, Measurable (b.draft (b.start r+j))
  measurable_uniform : ∀ j ≤ k, Measurable (b.uniform (b.start r+j))
  measurable_recovered : Measurable (b.recovered (b.start r+k))
  uniform : ∀ t, 0 ≤ t → P.real {ω | b.uniform (b.start r+k) ω ≤ t} = min t 1
  indep : IndepFun (b.draft (b.start r+k))
    (fun ω => (b.uniform (b.start r+k) ω,b.recovered (b.start r+k) ω)) P
  indep_uniform : IndepFun (b.uniform (b.start r+k)) (b.recovered (b.start r+k)) P
  past : IndepFun (b.past r k) (fun ω => (b.draft (b.start r+k) ω,
    b.uniform (b.start r+k) ω,b.recovered (b.start r+k) ω)) P
  source : ∃ t, DraftSource P V b (b.start r+k) t ∧ ∀ z ∈ vocab V,
    P.real {ω | b.recovered (b.start r+k) ω = z}*
        ∑ y ∈ vocab V, recoveredWeight b.draftProbs b.targetProbs t (b.start r+k) y.toNat =
      recoveredWeight b.draftProbs b.targetProbs t (b.start r+k) z.toNat

variable {P V b}

theorem measurableSet_acceptSet (idx : ℕ) (x : ℤ) : MeasurableSet (b.acceptSet idx x) := by
  by_cases hx : x < 0
  · simp [RandomBatch.acceptSet, acceptsDraft, hx]
  · simp only [RandomBatch.acceptSet, acceptsDraft, hx, if_false, Bool.and_eq_true, decide_eq_true_eq]
    exact (MeasurableSet.const _).inter measurableSet_Iic

/-- Acceptance of a token of the vocabulary, with the draft distribution `q`. -/
theorem acceptSet_eq_keeps {q : ℤ → ℝ} {x : ℤ} (hx : 0 ≤ x) (hq : (match b.draftProbs with
      | none => 1
      | some probs => probs idx x.toNat) = q x) :
    b.acceptSet idx x = keeps (fun z => b.targetProbs idx z.toNat) q x := by
  ext u
  have hx' : ¬x < 0 := not_lt.mpr hx
  show acceptsDraft none b.draftProbs b.targetProbs x u idx 0 = true ↔
    0 < q x ∧ u ≤ b.targetProbs idx x.toNat/q x
  rw [← hq]
  simp only [acceptsDraft, if_neg hx', Bool.and_eq_true, decide_eq_true_eq]
  cases b.draftProbs <;> exact Iff.rfl

/-- A draft of the vocabulary, sampled or fixed: the emitted token has the target law. -/
theorem FairPosition.emitted_sampled (h : FairPosition P V b r k) {q : ℕ → ℕ → ℝ}
    (hb : b.draftProbs = some q) (hq : IsDist (vocab V) fun z => q (b.start r+k) z.toNat)
    (hlaw : ∀ z ∈ vocab V, P.real {ω | b.draft (b.start r+k) ω = z} = q (b.start r+k) z.toNat)
    (hrec : ∀ z ∈ vocab V, P.real {ω | b.recovered (b.start r+k) ω = z}*
        ∑ y ∈ vocab V, recoveredWeight b.draftProbs b.targetProbs t (b.start r+k) y.toNat =
      recoveredWeight b.draftProbs b.targetProbs t (b.start r+k) z.toNat) (hz : z ∈ vocab V) :
    P.real {ω | b.emittedAt (b.start r+k) ω = z} = b.targetProbs (b.start r+k) z.toNat := by
  have hdraw : Draw P (b.draft (b.start r+k)) (b.uniform (b.start r+k)) (b.recovered (b.start r+k))
      (vocab V) fun z => q (b.start r+k) z.toNat :=
    ⟨h.measurable_draft k le_rfl,h.measurable_uniform k le_rfl,h.measurable_recovered,hq,hlaw,
      h.uniform,h.indep,h.indep_uniform⟩
  simp only [recoveredWeight, hb] at hrec
  refine hdraw.emitted_target h.target (measurableSet_acceptSet _) (fun x hx => ?_) hrec hz
  exact acceptSet_eq_keeps (mem_vocab.mp hx).1 (by rw [hb])

theorem FairPosition.emitted_fixed (h : FairPosition P V b r k) (hb : b.draftProbs = none)
    (ht : t ∈ vocab V) (hdraft : ∀ ω, b.draft (b.start r+k) ω = t)
    (hrec : ∀ z ∈ vocab V, P.real {ω | b.recovered (b.start r+k) ω = z}*
        ∑ y ∈ vocab V, recoveredWeight b.draftProbs b.targetProbs t (b.start r+k) y.toNat =
      recoveredWeight b.draftProbs b.targetProbs t (b.start r+k) z.toNat) (hz : z ∈ vocab V) :
    P.real {ω | b.emittedAt (b.start r+k) ω = z} = b.targetProbs (b.start r+k) z.toNat := by
  let δ : ℤ → ℝ := fun z => if z = t then 1 else 0
  have hδ : IsDist (vocab V) δ := by
    refine ⟨fun z _ => ?_,?_⟩
    · by_cases hz : z = t <;> simp [δ, hz]
    · simp [δ, ht]
  have hdraw : Draw P (b.draft (b.start r+k)) (b.uniform (b.start r+k)) (b.recovered (b.start r+k))
      (vocab V) δ := by
    refine ⟨h.measurable_draft k le_rfl,h.measurable_uniform k le_rfl,h.measurable_recovered,hδ,
      fun z _ => ?_,h.uniform,h.indep,h.indep_uniform⟩
    by_cases hzt : t = z
    · simp [δ, hdraft, hzt]
    · simp [δ, hdraft, hzt, Ne.symm hzt]
  have hle : b.targetProbs (b.start r+k) t.toNat ≤ 1 := by
    rw [← h.target.total]
    exact Finset.single_le_sum h.target.nonneg ht
  have hweight : ∀ y ∈ vocab V, recoveredWeight b.draftProbs b.targetProbs t (b.start r+k) y.toNat =
      max (b.targetProbs (b.start r+k) y.toNat-δ y) 0 := by
    intro y hy
    have hcast : (y.toNat:ℤ) = y := Int.toNat_of_nonneg (mem_vocab.mp hy).1
    simp only [recoveredWeight, hb]
    by_cases hyt : y = t
    · subst hyt
      simp [δ, hcast, hle]
    · simpa [δ, hcast, hyt] using h.target.nonneg y hy
  -- the acceptance set only matters at the fixed draft, where the divisor is one
  have hsame : ∀ ω, b.emittedAt (b.start r+k) ω =
      emitted (keeps (fun z => b.targetProbs (b.start r+k) z.toNat) δ) (b.draft (b.start r+k))
        (b.recovered (b.start r+k)) (b.uniform (b.start r+k)) ω := by
    intro ω
    have hset : b.acceptSet (b.start r+k) t =
        keeps (fun z => b.targetProbs (b.start r+k) z.toNat) δ t :=
      acceptSet_eq_keeps (mem_vocab.mp ht).1 (by rw [hb]; simp [δ])
    rw [RandomBatch.emittedAt, emitted, emitted, hdraft, hset]
  simp only [hsame]
  refine hdraw.emitted_target h.target (fun x => ?_) (fun _ _ => rfl) (fun z hz => ?_) hz
  · by_cases hx : 0 < δ x
    · simp only [keeps, hx, true_and]
      exact measurableSet_Iic
    · simp [keeps, hx]
  · rw [← hweight z hz, ← hrec z hz, Finset.sum_congr rfl hweight]

theorem emitted_padded (hdraft : ∀ ω, b.draft idx ω = -1) (ω : Ω) :
    b.emittedAt idx ω = b.recovered idx ω := by
  have hnot : b.uniform idx ω ∉ b.acceptSet idx (b.draft idx ω) := by
    rw [hdraft]
    simp [RandomBatch.acceptSet, acceptsDraft]
  rw [RandomBatch.emittedAt, emitted, if_neg hnot]

/-- Without draft probabilities the recovered token of a padded draft has the target law. -/
theorem FairPosition.recovered_padded (h : FairPosition P V b r k) (hb : b.draftProbs = none)
    (hrec : ∀ z ∈ vocab V, P.real {ω | b.recovered (b.start r+k) ω = z}*
        ∑ y ∈ vocab V, recoveredWeight b.draftProbs b.targetProbs (-1) (b.start r+k) y.toNat =
      recoveredWeight b.draftProbs b.targetProbs (-1) (b.start r+k) z.toNat) (hz : z ∈ vocab V) :
    P.real {ω | b.recovered (b.start r+k) ω = z} = b.targetProbs (b.start r+k) z.toNat := by
  have hweight : ∀ y : ℤ, recoveredWeight b.draftProbs b.targetProbs (-1) (b.start r+k) y.toNat =
      b.targetProbs (b.start r+k) y.toNat := by
    intro y
    have hne : (y.toNat:ℤ) ≠ -1 := by omega
    simp only [recoveredWeight, hb, if_pos hne]
  have hlaw := hrec z hz
  simp only [hweight] at hlaw
  rwa [h.target.total, mul_one] at hlaw

theorem not_padded_of_sampled {q : ℕ → ℕ → ℝ} (hq : IsDist (vocab V) fun z => q idx z.toNat)
    (hlaw : ∀ z ∈ vocab V, P.real {ω | b.draft idx ω = z} = q idx z.toNat) :
    ¬∀ ω, b.draft idx ω = -1 := by
  intro hpad
  have hzero : ∀ z ∈ vocab V, q idx z.toNat = 0 := by
    intro z hz
    have hne : ¬(-1:ℤ) = z := by
      have h0 := (mem_vocab.mp hz).1
      omega
    rw [← hlaw z hz]
    simp [hpad, hne]
  have htotal := hq.total
  rw [Finset.sum_eq_zero hzero] at htotal
  exact zero_ne_one htotal

theorem FairPosition.emitted_iff (h : FairPosition P V b r k) :
    (∀ z ∈ vocab V, P.real {ω | b.emittedAt (b.start r+k) ω = z} =
        b.targetProbs (b.start r+k) z.toNat) ↔
    (b.draftProbs.isSome = true → (∀ ω, b.draft (b.start r+k) ω = -1) →
      ∀ z ∈ vocab V, P.real {ω | b.recovered (b.start r+k) ω = z} =
        b.targetProbs (b.start r+k) z.toNat) := by
  obtain ⟨t,hsource,hrec⟩ := h.source
  cases hsource with
  | sampled hb hq hlaw =>
    refine iff_of_true (fun z hz => h.emitted_sampled hb hq hlaw hrec hz) ?_
    intro _ hpad
    exact absurd hpad (not_padded_of_sampled hq hlaw)
  | fixed hb ht hdraft =>
    refine iff_of_true (fun z hz => h.emitted_fixed hb ht hdraft hrec hz) ?_
    intro hsome
    rw [hb] at hsome
    cases hsome
  | padded hdraft =>
    simp only [emitted_padded hdraft]
    constructor
    · intro hlaw _ _
      exact hlaw
    · intro hlaw
      cases hb : b.draftProbs with
      | none => exact fun z hz => h.recovered_padded hb hrec hz
      | some q => exact hlaw (by rw [hb]; rfl) hdraft

theorem reached_past (b : RandomBatch Ω) (r k : ℕ) (x : ℕ → ℤ) :
    ∃ B : Set (Fin k → ℤ × ℝ), MeasurableSet B ∧ ∀ ω, ω ∈ b.reached r k x ↔ b.past r k ω ∈ B := by
  refine ⟨⋂ j : Fin k,
    Set.preimage (fun f => f j) ({x j} ×ˢ b.acceptSet (b.start r+j) (x j)),?_,fun ω => ?_⟩
  · refine MeasurableSet.iInter fun j => measurable_pi_apply j ?_
    exact MeasurableSet.prod (.singleton _) (measurableSet_acceptSet _ _)
  · rw [Set.mem_iInter]
    constructor
    · intro hω j
      obtain ⟨hacc,hx⟩ := hω j j.isLt
      exact ⟨hx,hx ▸ hacc⟩
    · intro hω j hj
      obtain ⟨hx,hacc⟩ := hω ⟨j,hj⟩
      have hx' : b.draft (b.start r+j) ω = x j := hx
      exact ⟨hx'.symm ▸ hacc,hx'⟩

theorem FairPosition.reached_emitted (h : FairPosition P V b r k) (x : ℕ → ℤ) (z : ℤ) :
    P.real {ω | ω ∈ b.reached r k x ∧ b.emittedAt (b.start r+k) ω = z} =
    P.real {ω | ω ∈ b.reached r k x}*P.real {ω | b.emittedAt (b.start r+k) ω = z} := by
  obtain ⟨B,hB,hmem⟩ := reached_past b r k x
  simp only [hmem]
  exact emitted_indep (measurableSet_acceptSet _) h.past hB z

end Law

/-- Given that a position is reached with some accepted drafts, the token the kernel stores there has
the target law, unless the draft is padding and there are draft probabilities: then it has the law
of the recovered token. After the last draft it is the bonus token, with its own law. -/
theorem random_rejection_target_iff {Ω : Type*} [MeasurableSpace Ω] (P : Measure Ω)
    [IsProbabilityMeasure P] (V : ℕ) (b : RandomBatch Ω) {r c : ℕ} (hc : b.counts[r]? = some c)
    (hg : b.isGreedy[r]? = some false) :
    (∀ k < c, ∀ x, FairPosition P V b r k → P.real {ω | ω ∈ b.reached r k x} ≠ 0 →
      ((∀ z ∈ vocab V, P.real {ω | ω ∈ b.reached r k x ∧ b.output r k ω = z}/
          P.real {ω | ω ∈ b.reached r k x} = b.targetProbs (b.start r+k) z.toNat) ↔
        (b.draftProbs.isSome = true → (∀ ω, b.draft (b.start r+k) ω = -1) →
          ∀ z ∈ vocab V, P.real {ω | b.recovered (b.start r+k) ω = z} =
            b.targetProbs (b.start r+k) z.toNat))) ∧
    ∀ x, IndepFun (b.past r c) (b.bonus r) P → P.real {ω | ω ∈ b.reached r c x} ≠ 0 →
      ∀ z, P.real {ω | ω ∈ b.reached r c x ∧ b.output r c ω = z}/
        P.real {ω | ω ∈ b.reached r c x} = P.real {ω | b.bonus r ω = z} := by
  constructor
  · intro k hk x h hpos
    rw [← h.emitted_iff]
    have hlaw : ∀ z, P.real {ω | ω ∈ b.reached r k x ∧ b.output r k ω = z}/
        P.real {ω | ω ∈ b.reached r k x} = P.real {ω | b.emittedAt (b.start r+k) ω = z} := by
      intro z
      have hset : {ω | ω ∈ b.reached r k x ∧ b.output r k ω = z} =
          {ω | ω ∈ b.reached r k x ∧ b.emittedAt (b.start r+k) ω = z} := by
        ext ω
        refine and_congr_right fun hω => ?_
        rw [output_row b hc hg hk.le hω, if_pos hk]
      rw [hset, h.reached_emitted x z, mul_div_cancel_left₀ _ hpos]
    simp only [hlaw]
  · intro x hindep hpos z
    obtain ⟨B,hB,hmem⟩ := reached_past b r c x
    have hset : {ω | ω ∈ b.reached r c x ∧ b.output r c ω = z} =
        {ω | b.past r c ω ∈ B ∧ b.bonus r ω ∈ ({z} : Set ℤ)} := by
      ext ω
      refine (and_congr_right fun hω => ?_).trans (and_congr_left fun _ => hmem ω)
      rw [output_row b hc hg le_rfl hω, if_neg (lt_irrefl c)]
      rfl
    simp only [hmem] at hpos ⊢
    have hset' : {ω | b.past r c ω ∈ B ∧ b.output r c ω = z} =
        {ω | b.past r c ω ∈ B ∧ b.bonus r ω ∈ ({z} : Set ℤ)} := by
      rw [← hset]
      simp [hmem]
    rw [hset', indep_real hindep hB (.singleton z), mul_div_cancel_left₀ _ hpos]
    rfl

section Single

noncomputable def unitLaw : Measure ℝ := volume.restrict (Set.Ico 0 1)

instance : IsProbabilityMeasure unitLaw := ⟨by simp [unitLaw]⟩

noncomputable def coinBatch (draft : ℤ) (draftProbs : Option (ℕ → ℕ → ℝ)) : RandomBatch ℝ where
  counts := [1]
  draftTokenIds _ := [draft]
  targetArgmax _ := [0]
  bonusTokenIds _ := [0]
  recoveredTokenIds _ := [1]
  draftProbs := draftProbs
  targetProbs _ _ := 1/2
  uniformProbs u _ := u
  isGreedy := [false]

theorem vocab_two : vocab 2 = {0,1} := by decide

theorem coinBatch_fair {draft : ℤ} {draftProbs : Option (ℕ → ℕ → ℝ)}
    (hsource : DraftSource unitLaw 2 (coinBatch draft draftProbs) 0 t)
    (h0 : recoveredWeight draftProbs (fun _ _ => 1/2) t 0 0 = 0) :
    FairPosition unitLaw 2 (coinBatch draft draftProbs) 0 0 where
  target := by
    refine ⟨fun z _ => by norm_num [coinBatch],?_⟩
    rw [vocab_two]
    norm_num [coinBatch]
  measurable_draft j _ := by
    show Measurable fun _ : ℝ => [draft].getD ((coinBatch draft draftProbs).start 0+j) 0
    exact measurable_const
  measurable_uniform _ _ := measurable_id
  measurable_recovered := measurable_const
  uniform t ht := volume_unit_le ht
  indep := indepFun_const_left _ _
  indep_uniform := indepFun_const_right _ _
  past := by
    have hconst : (coinBatch draft draftProbs).past 0 0 = fun _ => Fin.elim0 := by
      funext ω j
      exact j.elim0
    rw [hconst]
    exact indepFun_const_left _ _
  source := by
    refine ⟨t,hsource,fun z hz => ?_⟩
    rw [vocab_two, Finset.mem_insert, Finset.mem_singleton] at hz
    have hsum : ∑ y ∈ vocab 2, recoveredWeight draftProbs (fun _ _ => (1:ℝ)/2) t 0 y.toNat =
        recoveredWeight draftProbs (fun _ _ => 1/2) t 0 1 := by
      rw [vocab_two, Finset.sum_pair (by decide)]
      simpa using h0
    show unitLaw.real {ω | (1:ℤ) = z}*∑ y ∈ vocab 2,
      recoveredWeight draftProbs (fun _ _ => (1:ℝ)/2) t 0 y.toNat =
        recoveredWeight draftProbs (fun _ _ => (1:ℝ)/2) t 0 z.toNat
    rw [hsum]
    rcases hz with rfl | rfl
    · simpa using h0.symm
    · simp

theorem coinBatch_reached (draft : ℤ) (draftProbs : Option (ℕ → ℕ → ℝ)) (x : ℕ → ℤ) :
    unitLaw.real {ω | ω ∈ (coinBatch draft draftProbs).reached 0 0 x} = 1 := by
  have huniv : {ω | ω ∈ (coinBatch draft draftProbs).reached 0 0 x} = Set.univ := by
    ext ω
    simp [RandomBatch.reached]
  rw [huniv]
  simp

/-- A fixed draft without draft probabilities: the draft comes out half of the times. -/
theorem random_rejection_target_iff_coin :
    unitLaw.real {ω | ω ∈ (coinBatch 0 none).reached 0 0 (fun _ => 0) ∧
        (coinBatch 0 none).output 0 0 ω = 0}/
      unitLaw.real {ω | ω ∈ (coinBatch 0 none).reached 0 0 fun _ => 0} = 1/2 := by
  have hreached : unitLaw.real {ω | ω ∈ (coinBatch 0 none).reached 0 0 fun _ => 0} ≠ 0 := by
    rw [coinBatch_reached]
    exact one_ne_zero
  have hsource : DraftSource unitLaw 2 (coinBatch 0 none) 0 0 :=
    .fixed rfl (by decide) fun _ => rfl
  have hfair := coinBatch_fair hsource (by simp [recoveredWeight])
  refine ((random_rejection_target_iff unitLaw 2 (coinBatch 0 none) rfl rfl).1 0 (by decide) _
    hfair hreached).mpr ?_ 0 (by decide)
  intro hsome
  cases hsome

/-- A padded draft with a draft distribution on token 0: token 0 never comes out. -/
theorem padded_draft_with_probs :
    FairPosition unitLaw 2 (coinBatch (-1) (some fun _ v => if v = 0 then 1 else 0)) 0 0 ∧
      unitLaw.real {ω | ω ∈ (coinBatch (-1) (some fun _ v => if v = 0 then 1 else 0)).reached 0 0
        fun _ => 0} = 1 ∧
      unitLaw.real {ω | ω ∈ (coinBatch (-1) (some fun _ v => if v = 0 then 1 else 0)).reached 0 0
          (fun _ => 0) ∧
        (coinBatch (-1) (some fun _ v => if v = 0 then 1 else 0)).output 0 0 ω = 0} = 0 ∧
      (coinBatch (-1) (some fun _ v => if v = 0 then 1 else 0)).targetProbs 0 0 = 1/2 := by
  refine ⟨coinBatch_fair (.padded fun _ => rfl) (by simp [recoveredWeight]; norm_num),
    coinBatch_reached _ _ _,?_,rfl⟩
  have hnone : {ω | ω ∈ (coinBatch (-1) (some fun _ v => if v = 0 then 1 else 0)).reached 0 0
        (fun _ => 0) ∧
      (coinBatch (-1) (some fun _ v => if v = 0 then 1 else 0)).output 0 0 ω = 0} = ∅ := by
    rw [Set.eq_empty_iff_forall_notMem]
    rintro ω ⟨hω,hout⟩
    rw [output_row (c := 1) _ rfl rfl (by decide) hω, if_pos (by decide),
      emitted_padded fun _ => rfl] at hout
    cases hout
  rw [hnone]
  simp

end Single

end MetaZenith.Sampling
