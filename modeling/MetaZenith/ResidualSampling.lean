import Mathlib

/-! Rejection with a residual: a proposal drawn from `q` is kept with probability `min 1 (p/q)` and
replaced by a draw from the positive part of `p - q` otherwise. The result has law `p`. -/

namespace MetaZenith.ResidualSampling

open Set MeasureTheory ProbabilityTheory

set_option linter.unusedSectionVars false

variable {Ω T : Type*} [MeasurableSpace Ω] [MeasurableSpace T] [MeasurableSingletonClass T]
  {P : Measure Ω} [IsProbabilityMeasure P] {X R : Ω → T} {U : Ω → ℝ} {S : Finset T}

structure IsDist (S : Finset T) (p : T → ℝ) : Prop where
  nonneg : ∀ x ∈ S, 0 ≤ p x
  total : ∑ x ∈ S, p x = 1

structure Draw (P : Measure Ω) (X : Ω → T) (U : Ω → ℝ) (R : Ω → T) (S : Finset T) (q : T → ℝ) :
    Prop where
  measurable_proposal : Measurable X
  measurable_uniform : Measurable U
  measurable_replacement : Measurable R
  dist : IsDist S q
  law : ∀ x ∈ S, P.real {ω | X ω = x} = q x
  uniform : ∀ t, 0 ≤ t → P.real {ω | U ω ≤ t} = min t 1
  indep : IndepFun X (fun ω => (U ω,R ω)) P
  indep_uniform : IndepFun U R P

section Law

variable {q : T → ℝ} {A : T → Set ℝ}

noncomputable def emitted (A : T → Set ℝ) (X R : Ω → T) (U : Ω → ℝ) (ω : Ω) : T :=
  open Classical in if U ω ∈ A (X ω) then X ω else R ω

theorem indep_real {α β : Type*} [MeasurableSpace α] [MeasurableSpace β] {f : Ω → α} {g : Ω → β}
    (h : IndepFun f g P) {s : Set α} {t : Set β} (hs : MeasurableSet s) (ht : MeasurableSet t) :
    P.real {ω | f ω ∈ s ∧ g ω ∈ t} = P.real {ω | f ω ∈ s}*P.real {ω | g ω ∈ t} := by
  have hmul := h.measure_inter_preimage_eq_mul s t hs ht
  rw [measureReal_def, measureReal_def, measureReal_def, ← ENNReal.toReal_mul]
  exact congrArg ENNReal.toReal hmul

section

variable (h : Draw P X U R S q)

include h

theorem Draw.accepted (hA : ∀ x, MeasurableSet (A x)) {x : T} (hx : x ∈ S) :
    P.real {ω | X ω = x ∧ U ω ∈ A x} = q x*P.real {ω | U ω ∈ A x} := by
  have hmul := indep_real h.indep (MeasurableSet.singleton x) ((hA x).prod MeasurableSet.univ)
  simpa [h.law x hx] using hmul

theorem Draw.rejected (hA : ∀ x, MeasurableSet (A x)) {x : T} (hx : x ∈ S)
    (y : T) : P.real {ω | X ω = x ∧ U ω ∉ A x ∧ R ω = y} =
      q x*((1-P.real {ω | U ω ∈ A x})*P.real {ω | R ω = y}) := by
  have hmul := indep_real h.indep (MeasurableSet.singleton x)
    ((hA x).compl.prod (MeasurableSet.singleton y))
  have hinner := indep_real h.indep_uniform (hA x).compl (MeasurableSet.singleton y)
  have hcompl : P.real {ω | U ω ∉ A x} = 1-P.real {ω | U ω ∈ A x} :=
    probReal_compl_eq_one_sub (h.measurable_uniform (hA x))
  simp only [mem_singleton_iff, mem_prod, mem_compl_iff] at hmul hinner
  rw [hmul, hinner, hcompl, h.law x hx]

theorem Draw.proposal_mem : P.real {ω | X ω ∉ S} = 0 := by
  have hmeas : ∀ x ∈ S, MeasurableSet {ω | X ω = x} := fun x _ =>
    h.measurable_proposal (MeasurableSet.singleton x)
  have hunion : P.real {ω | X ω ∈ S} = ∑ x ∈ S, P.real {ω | X ω = x} := by
    rw [← measureReal_biUnion_finset _ hmeas]
    · congr 1
      ext ω
      simp
    · intro x _ y _ hne
      rw [Function.onFun, disjoint_left]
      rintro ω rfl hy
      exact hne hy
  rw [Finset.sum_congr rfl h.law, h.dist.total] at hunion
  have hset : MeasurableSet {ω | X ω ∈ S} := by
    have hbig : {ω | X ω ∈ S} = ⋃ x ∈ S, {ω | X ω = x} := by
      ext ω
      simp
    rw [hbig]
    exact Finset.measurableSet_biUnion S hmeas
  have hcompl : P.real {ω | X ω ∉ S} = 1-P.real {ω | X ω ∈ S} := probReal_compl_eq_one_sub hset
  rw [hcompl, hunion, sub_self]

theorem Draw.rejected_any (hA : ∀ x, MeasurableSet (A x)) (y : T) :
    P.real {ω | U ω ∉ A (X ω) ∧ R ω = y} =
      (∑ x ∈ S, q x*(1-P.real {ω | U ω ∈ A x}))*P.real {ω | R ω = y} := by
  have hmeas : ∀ x ∈ S, MeasurableSet {ω | X ω = x ∧ U ω ∉ A x ∧ R ω = y} := fun x _ =>
    (h.measurable_proposal (MeasurableSet.singleton x)).inter
      ((h.measurable_uniform (hA x).compl).inter (h.measurable_replacement (MeasurableSet.singleton y)))
  have hunion : P.real (⋃ x ∈ S, {ω | X ω = x ∧ U ω ∉ A x ∧ R ω = y}) =
      ∑ x ∈ S, q x*((1-P.real {ω | U ω ∈ A x})*P.real {ω | R ω = y}) := by
    rw [measureReal_biUnion_finset _ hmeas]
    · exact Finset.sum_congr rfl fun x hx => h.rejected hA hx y
    · intro x _ z _ hne
      rw [Function.onFun, disjoint_left]
      rintro ω ⟨rfl,-⟩ ⟨hz,-⟩
      exact hne hz
  rw [Finset.sum_mul]
  simp only [mul_assoc]
  rw [← hunion]
  -- the two events differ by outcomes whose proposal is no token
  apply le_antisymm
  · have hsub : {ω | U ω ∉ A (X ω) ∧ R ω = y} ⊆
        (⋃ x ∈ S, {ω | X ω = x ∧ U ω ∉ A x ∧ R ω = y}) ∪ {ω | X ω ∉ S} := by
      rintro ω ⟨hrej,hy⟩
      by_cases hx : X ω ∈ S
      · exact .inl (mem_biUnion hx ⟨rfl,hrej,hy⟩)
      · exact .inr hx
    calc P.real {ω | U ω ∉ A (X ω) ∧ R ω = y} ≤ _ := measureReal_mono hsub
      _ ≤ P.real (⋃ x ∈ S, {ω | X ω = x ∧ U ω ∉ A x ∧ R ω = y})+P.real {ω | X ω ∉ S} :=
        measureReal_union_le _ _
      _ = _ := by rw [h.proposal_mem, add_zero]
  · refine measureReal_mono fun ω hω => ?_
    obtain ⟨x,-,rfl,hrej,hy⟩ := mem_iUnion₂.mp hω
    exact ⟨hrej,hy⟩

theorem Draw.emitted_law (hA : ∀ x, MeasurableSet (A x)) {y : T}
    (hy : y ∈ S) : P.real {ω | emitted A X R U ω = y} = q y*P.real {ω | U ω ∈ A y}+
      (∑ x ∈ S, q x*(1-P.real {ω | U ω ∈ A x}))*P.real {ω | R ω = y} := by
  have hsplit : {ω | emitted A X R U ω = y} =
      {ω | U ω ∉ A (X ω) ∧ R ω = y} ∪ {ω | X ω = y ∧ U ω ∈ A y} := by
    ext ω
    by_cases hacc : U ω ∈ A (X ω)
    · simp only [emitted, hacc, if_true, mem_ofPred_eq, mem_union, not_true, false_and, false_or]
      exact ⟨fun hx => ⟨hx,hx ▸ hacc⟩,fun hx => hx.1⟩
    · simp only [emitted, hacc, if_false, mem_ofPred_eq, mem_union, not_false_iff, true_and]
      constructor
      · exact .inl
      · rintro (hr | ⟨rfl,hu⟩)
        · exact hr
        · exact absurd hu hacc
  have hmeas : MeasurableSet {ω | X ω = y ∧ U ω ∈ A y} :=
    (h.measurable_proposal (MeasurableSet.singleton y)).inter (h.measurable_uniform (hA y))
  have hdisj : Disjoint {ω | U ω ∉ A (X ω) ∧ R ω = y} {ω | X ω = y ∧ U ω ∈ A y} := by
    rw [disjoint_left]
    rintro ω ⟨hrej,-⟩ ⟨rfl,hacc⟩
    exact hrej hacc
  rw [hsplit, measureReal_union hdisj hmeas, h.rejected_any hA, h.accepted hA hy, add_comm]

end

end Law

section Residual

variable {p q : T → ℝ}

/-- Keep `x` when `u ≤ p x / q x`; a proposal of probability zero is never kept. -/
def keeps (p q : T → ℝ) (x : T) : Set ℝ := {u | 0 < q x ∧ u ≤ p x/q x}

theorem Draw.kept (h : Draw P X U R S q) {x : T} (hp : 0 ≤ p x) (hq : 0 ≤ q x) :
    q x*P.real {ω | U ω ∈ keeps p q x} = min (p x) (q x) := by
  rcases hq.eq_or_lt with hq0 | hpos
  · rw [← hq0, zero_mul, min_eq_right hp]
  · have hset : {ω | U ω ∈ keeps p q x} = {ω | U ω ≤ p x/q x} := by
      ext ω
      simp [keeps, hpos]
    rw [hset, h.uniform _ (div_nonneg hp hq), mul_min_of_nonneg _ _ hq, mul_div_cancel₀ _ hpos.ne',
      mul_one]

theorem Draw.leftover (h : Draw P X U R S q) (hp : IsDist S p) :
    ∑ x ∈ S, q x*(1-P.real {ω | U ω ∈ keeps p q x}) = ∑ x ∈ S, max (p x-q x) 0 := by
  have hterm : ∀ x ∈ S, q x*(1-P.real {ω | U ω ∈ keeps p q x}) = q x-min (p x) (q x) := by
    intro x hx
    rw [mul_sub, mul_one, h.kept (hp.nonneg x hx) (h.dist.nonneg x hx)]
  have hmax : ∀ x ∈ S, max (p x-q x) 0 = p x-min (p x) (q x) := by
    intro x _
    rcases le_total (p x) (q x) with hle | hle
    · rw [max_eq_right (by linarith), min_eq_left hle, sub_self]
    · rw [max_eq_left (by linarith), min_eq_right hle]
  rw [Finset.sum_congr rfl hterm, Finset.sum_congr rfl hmax, Finset.sum_sub_distrib,
    Finset.sum_sub_distrib, h.dist.total, hp.total]

theorem Draw.emitted_target {A : T → Set ℝ} (h : Draw P X U R S q) (hp : IsDist S p)
    (hA : ∀ x, MeasurableSet (A x)) (hkeeps : ∀ x ∈ S, A x = keeps p q x)
    (hresidual : ∀ y ∈ S, P.real {ω | R ω = y}*∑ x ∈ S, max (p x-q x) 0 = max (p y-q y) 0) {y : T}
    (hy : y ∈ S) : P.real {ω | emitted A X R U ω = y} = p y := by
  have hleft : ∑ x ∈ S, q x*(1-P.real {ω | U ω ∈ A x}) = ∑ x ∈ S, max (p x-q x) 0 := by
    rw [← h.leftover hp]
    exact Finset.sum_congr rfl fun x hx => by rw [hkeeps x hx]
  rw [h.emitted_law hA hy, hleft, hkeeps y hy, h.kept (hp.nonneg y hy) (h.dist.nonneg y hy),
    mul_comm, hresidual y hy]
  rcases le_total (p y) (q y) with hle | hle
  · rw [min_eq_left hle, max_eq_right (by linarith), add_zero]
  · rw [min_eq_right hle, max_eq_left (by linarith)]
    ring

end Residual

theorem emitted_indep {α : Type*} [MeasurableSpace α] [Countable T] {A : T → Set ℝ} {f : Ω → α}
    (hA : ∀ x, MeasurableSet (A x)) (h : IndepFun f (fun ω => (X ω,U ω,R ω)) P) {s : Set α}
    (hs : MeasurableSet s) (y : T) :
    P.real {ω | f ω ∈ s ∧ emitted A X R U ω = y} =
      P.real {ω | f ω ∈ s}*P.real {ω | emitted A X R U ω = y} := by
  let E : Set (T × ℝ × T) := ⋃ x : T,
    ({x} ×ˢ (A x ×ˢ {z | x = y})) ∪ ({x} ×ˢ ((A x)ᶜ ×ˢ {y}))
  have hE : MeasurableSet E := by
    refine MeasurableSet.iUnion fun x => ?_
    refine (MeasurableSet.prod (.singleton x) ((hA x).prod (.const _))).union ?_
    exact MeasurableSet.prod (.singleton x) ((hA x).compl.prod (.singleton y))
  have hmem : ∀ ω, emitted A X R U ω = y ↔ (X ω,U ω,R ω) ∈ E := by
    intro ω
    have hcases : (X ω,U ω,R ω) ∈ E ↔
        U ω ∈ A (X ω) ∧ X ω = y ∨ U ω ∉ A (X ω) ∧ R ω = y := by
      rw [mem_iUnion]
      constructor
      · rintro ⟨x,⟨rfl,hu,hx⟩ | ⟨rfl,hu,hr⟩⟩
        · exact .inl ⟨hu,hx⟩
        · exact .inr ⟨hu,hr⟩
      · rintro (⟨hu,hx⟩ | ⟨hu,hr⟩)
        · exact ⟨X ω,.inl ⟨rfl,hu,hx⟩⟩
        · exact ⟨X ω,.inr ⟨rfl,hu,hr⟩⟩
    rw [hcases]
    by_cases hacc : U ω ∈ A (X ω) <;> simp [emitted, hacc]
  simp only [hmem]
  exact indep_real h hs hE

/-- The uniform law on `[0,1)`. -/
theorem volume_unit_le {t : ℝ} (ht : 0 ≤ t) :
    (volume.restrict (Ico (0:ℝ) 1)).real {u | u ≤ t} = min t 1 := by
  rw [measureReal_restrict_apply' measurableSet_Ico]
  rcases lt_or_ge t 1 with hlt | hge
  · have hset : {u : ℝ | u ≤ t} ∩ Ico 0 1 = Icc 0 t := by
      ext u
      simp only [mem_inter_iff, mem_ofPred_eq, mem_Ico, mem_Icc]
      constructor
      · rintro ⟨h1,h2,-⟩
        exact ⟨h2,h1⟩
      · rintro ⟨h1,h2⟩
        exact ⟨h2,h1,by linarith⟩
    rw [hset, Real.volume_real_Icc, sub_zero, max_eq_left ht, min_eq_left hlt.le]
  · have hset : {u : ℝ | u ≤ t} ∩ Ico 0 1 = Ico 0 1 := by
      ext u
      simp only [mem_inter_iff, mem_ofPred_eq, mem_Ico]
      constructor
      · exact fun h => h.2
      · exact fun h => ⟨by linarith [h.2],h⟩
    rw [hset, Real.volume_real_Ico, sub_zero, max_eq_left zero_le_one, min_eq_right hge]

end MetaZenith.ResidualSampling
