import MetaZenith.OnlineSoftmax
import MetaZenith.RangeSplit

/-! `_tq_decode_stage1` and `_fwd_kernel_stage2` for one query head of one sequence, over exact
arithmetic: the partial results of the splits and their reduction. -/

namespace MetaZenith.TurboQuant

open List Option Function RangeSplit OnlineSoftmax

set_option linter.unusedSectionVars false

variable {F V : Type*} [Field F] [LinearOrder F] [IsStrictOrderedRing F] [AddCommGroup V] [Module F V]

structure SplitPartial (F V : Type*) where
  out : V
  lse : WithBot F

/-- `Mid_o` of one head; a split nothing was stored for is `none`. -/
abbrev MidO (F V : Type*) := ℕ → Option (SplitPartial F V)

section Stage1

variable (E : ExpLog F) (x : ℤ → F) (v : ℤ → V)

def tileLanes (splitEnd : ℤ) (blockKv : ℕ) (startN : ℤ) : Lanes F V :=
  (interval startN blockKv).map fun kv =>
    if kv < splitEnd then ((x kv : WithBot F),v kv) else (⊥,0)

def stage1Tile (st : State F V) (lanes : Lanes F V) : Option (State F V) :=
  let nEMax := max ((lanes.map Prod.fst).foldr max ⊥) st.max
  nEMax.recBotCoe none fun nEMax =>
    let reScale := E.expSub st.max nEMax
    some {
      max := nEMax
      mass := st.mass*reScale+(lanes.map fun p => E.expSub p.1 nEMax).sum
      acc := reScale • st.acc+(lanes.map fun p => E.expSub p.1 nEMax • p.2).sum }

def steppedRange (start stop : ℤ) (step : ℕ) : List ℤ :=
  (List.range ((stop-start+step-1).tdiv step).toNat).map fun i : ℕ => start+i*step

def decodeStage1 (seqLen : ℤ) (numKvSplits blockKv sid : ℕ) (mid : MidO F V) :
    Option (MidO F V) :=
  let splitLen := ceilTDiv seqLen numKvSplits
  let splitStart := splitLen*sid
  let splitEnd := min (splitStart+splitLen) seqLen
  if splitEnd ≤ splitStart then some mid
  else
    (((steppedRange splitStart splitEnd blockKv).map (tileLanes x v splitEnd blockKv)).foldlM
      (stage1Tile E) State.empty).map fun st =>
        let safeL := if 0 < st.mass then st.mass else 1
        update mid sid (some ⟨safeL⁻¹ • st.acc,st.max+E.log safeL⟩)

def launchStage1 (seqLen : ℤ) (numKvSplits blockKv : ℕ) : Option (MidO F V) :=
  (List.range numKvSplits).foldlM
    (fun mid sid => decodeStage1 E x v seqLen numKvSplits blockKv sid mid) fun _ => none

end Stage1

section Stage2

variable (E : ExpLog F)

structure Stage2 (F V : Type*) where
  eSum : F
  eMax : WithBot F
  acc : V
  reads : List ℕ

def stage2Split (seqLen : ℤ) (numKvSplits : ℕ) (mid : MidO F V) (st : Stage2 F V)
    (splitKvId : ℕ) : Option (Stage2 F V) :=
  let kvLenPerSplit := ceilTDiv seqLen numKvSplits
  let splitKvStart := kvLenPerSplit*splitKvId
  let splitKvEnd := min (splitKvStart+kvLenPerSplit) seqLen
  if splitKvStart < splitKvEnd then
    (mid splitKvId).bind fun ⟨tv,tlogic⟩ =>
      (max tlogic st.eMax).recBotCoe none fun nEMax =>
        let oldScale := E.expSub st.eMax nEMax
        let expLogic := E.expSub tlogic nEMax
        some {
          eSum := st.eSum*oldScale+expLogic
          eMax := nEMax
          acc := oldScale • st.acc+expLogic • tv
          reads := st.reads ++ [splitKvId] }
  else some st

structure Stage2Output (F V : Type*) where
  out : V
  lse : WithBot F
  reads : List ℕ

def fwdKernelStage2 (seqLen : ℤ) (numKvSplits : ℕ) (mid : MidO F V) : Option (Stage2Output F V) :=
  ((List.range numKvSplits).foldlM (stage2Split E seqLen numKvSplits mid) ⟨0,⊥,0,[]⟩).map
    fun st => ⟨st.eSum⁻¹ • st.acc,st.eMax+E.log st.eSum,st.reads⟩

end Stage2

section Lanes

variable {E : ExpLog F} {x : ℤ → F} {v : ℤ → V}

def laneOf (x : ℤ → F) (v : ℤ → V) (kv : ℤ) : WithBot F × V := (x kv,v kv)

theorem stage1Tile_eq_absorb : stage1Tile E = State.absorb (V := V) E := rfl

theorem flatMap_interval (a : ℤ) (T k : ℕ) :
    (List.range k).flatMap (fun i : ℕ => interval (a+i*T) T) = interval a (k*T) := by
  induction k with
  | zero => simp
  | succ k ih =>
    rw [range_succ, flatMap_append, ih, flatMap_singleton, Nat.succ_mul,
      ← interval_append, Nat.cast_mul]

theorem lt_of_mem_steppedRange {a b y : ℤ} {T : ℕ} (hT : 1 ≤ T) (hab : a < b)
    (hy : y ∈ steppedRange a b T) : y < b := by
  obtain ⟨i,hi,rfl⟩ := mem_map.mp hy
  rw [mem_range, Int.tdiv_eq_ediv_of_nonneg (by omega)] at hi
  have hi' : (i:ℤ)+1 ≤ (b-a+T-1)/T := by omega
  have hmul := (Int.le_ediv_iff_mul_le (by omega)).mp hi'
  rw [add_mul] at hmul
  omega

theorem le_tiles_mul {a b : ℤ} {T : ℕ} (hT : 1 ≤ T) (hab : a < b) :
    (b-a).toNat ≤ ((b-a+T-1).tdiv T).toNat*T := by
  have h := le_ceilTDiv_mul (n := b-a) (S := T) (by omega) (by omega)
  have hc : 0 ≤ ceilTDiv (b-a) T := ceilTDiv_nonneg (by omega)
  rw [ceilTDiv] at h hc
  zify
  rw [Int.toNat_of_nonneg hc]
  omega

theorem flatten_tiles {a b : ℤ} {T : ℕ} (hT : 1 ≤ T) (hab : a < b) :
    ∃ rest : Lanes F V, (∀ p ∈ rest, p.1 = ⊥) ∧ ((steppedRange a b T).map (tileLanes x v b T)).flatten =
        (interval a (b-a).toNat).map (laneOf x v) ++ rest := by
  have hle := le_tiles_mul hT hab
  obtain ⟨extra,hextra⟩ := Nat.exists_eq_add_of_le hle
  have hb : a+((b-a).toNat:ℤ) = b := by omega
  refine ⟨(interval b extra).map fun kv =>
    if kv < b then ((x kv : WithBot F),v kv) else (⊥,0),?_,?_⟩
  · intro p hp
    obtain ⟨kv,hkv,rfl⟩ := mem_map.mp hp
    rw [if_neg (not_lt.mpr (mem_interval.mp hkv).1)]
  · have hflat : ((steppedRange a b T).map (tileLanes x v b T)).flatten =
        (interval a (((b-a+T-1).tdiv T).toNat*T)).map fun kv =>
          if kv < b then ((x kv : WithBot F),v kv) else (⊥,0) := by
      rw [← flatMap_interval, List.map_flatMap, steppedRange, List.map_map, List.flatMap_def]
      rfl
    rw [hflat, hextra, ← interval_append, hb, map_append]
    congr 1
    apply map_congr_left
    intro kv hkv
    have hlt := (mem_interval.mp hkv).2
    rw [if_pos (by omega), laneOf]

def splitLanes (x : ℤ → F) (v : ℤ → V) (n : ℤ) (S s : ℕ) : Lanes F V :=
  (part n S s).map (laneOf x v)

structure Stands (E : ExpLog F) (p : SplitPartial F V) (pts : Lanes F V) : Prop where
  lse : E.expSub p.lse 0 = mass E pts
  out : E.expSub p.lse 0 • p.out = moment E pts
  finite : p.lse ≠ ⊥

theorem mass_pos_interval (a : ℤ) {m : ℕ} (hm : 0 < m) :
    0 < mass E ((interval a m).map (laneOf x v)) := by
  have hmem : a ∈ interval a m := mem_interval.mpr ⟨le_rfl,by omega⟩
  exact mass_pos E (mem_map_of_mem hmem) WithBot.coe_ne_bot

theorem decodeStage1_spec {n : ℤ} {S T sid : ℕ} (hT : 1 ≤ T) (mid : MidO F V)
    (h : partStart n S sid < partEnd n S sid) :
    ∃ p, decodeStage1 E x v n S T sid mid = some (update mid sid (some p)) ∧
      Stands E p (splitLanes x v n S sid) := by
  have htiles : ∀ tile ∈ (steppedRange (partStart n S sid) (partEnd n S sid) T).map
      (tileLanes x v (partEnd n S sid) T), ∃ p ∈ tile, p.1 ≠ ⊥ := by
    intro tile htile
    obtain ⟨y,hy,rfl⟩ := mem_map.mp htile
    have hlt := lt_of_mem_steppedRange hT h hy
    refine ⟨laneOf x v y,mem_map.mpr ⟨y,mem_interval.mpr ⟨le_rfl,by omega⟩,if_pos hlt⟩,?_⟩
    exact WithBot.coe_ne_bot
  obtain ⟨st,hst,hmax,hrep⟩ := (represents_empty E).absorbAll htiles
  obtain ⟨rest,hrest,hflat⟩ := flatten_tiles (x := x) (v := v) hT h
  have hlanes : splitLanes x v n S sid =
      (interval (partStart n S sid) (partEnd n S sid-partStart n S sid).toNat).map (laneOf x v) := by
    rw [splitLanes, part, partSize, max_eq_left (by omega)]
  rw [nil_append, hflat, ← hlanes] at hrep
  have hrep' : Represents E st (splitLanes x v n S sid) := by
    refine hrep.congr ?_ ?_
    · rw [mass_append, mass_of_masked E hrest, add_zero]
    · rw [moment_append, moment_of_masked E hrest, add_zero]
  have hne : steppedRange (partStart n S sid) (partEnd n S sid) T ≠ [] := by
    intro hnil
    rw [hnil] at hflat
    have hlen := congrArg List.length hflat
    simp only [map_nil, flatten_nil, length_nil, length_append, length_map, interval_length] at hlen
    omega
  have hfinite := hmax (by simpa using hne)
  have hpos : 0 < mass E (splitLanes x v n S sid) := by
    rw [hlanes]
    exact mass_pos_interval _ (by omega)
  have hmass := hrep'.mass_pos hfinite hpos
  refine ⟨⟨st.mass⁻¹ • st.acc,st.max+E.log st.mass⟩,?_,hrep'.lse hmass,?_,?_⟩
  · have hne' : ¬partEnd n S sid ≤ partStart n S sid := not_le.mpr h
    rw [partEnd, partStart] at hne' hst
    rw [decodeStage1, stage1Tile_eq_absorb]
    simp only [if_neg hne', hst, map_some, if_pos hmass]
  · show E.expSub (st.max+E.log st.mass) 0 • st.mass⁻¹ • st.acc = _
    rw [hrep'.lse hmass, hrep'.mean hfinite, smul_smul, mul_inv_cancel₀ hpos.ne', one_smul]
  · show st.max+(E.log st.mass : WithBot F) ≠ ⊥
    simpa using hfinite

theorem decodeStage1_empty {n : ℤ} {S sid : ℕ} (T : ℕ) (mid : MidO F V)
    (h : ¬partStart n S sid < partEnd n S sid) : decodeStage1 E x v n S T sid mid = some mid := by
  rw [decodeStage1]
  exact if_pos (not_lt.mp h)

end Lanes

section Stages

variable {E : ExpLog F} {x : ℤ → F} {v : ℤ → V} {n : ℤ} {S T : ℕ}

structure Stored (E : ExpLog F) (x : ℤ → F) (v : ℤ → V) (n : ℤ) (S : ℕ) (done : ℕ → Prop)
    (mid : MidO F V) : Prop where
  written : ∀ s, done s → partStart n S s < partEnd n S s →
    ∃ p, mid s = some p ∧ Stands E p (splitLanes x v n S s)
  isSome : ∀ s, (mid s).isSome = true → done s ∧ partStart n S s < partEnd n S s

theorem launchStage1_spec (hT : 1 ≤ T) (m : ℕ) :
    ∃ mid, (List.range m).foldlM (fun mid sid => decodeStage1 E x v n S T sid mid)
        (fun _ => none) = some mid ∧ Stored E x v n S (· < m) mid := by
  induction m with
  | zero => exact ⟨fun _ => none,rfl,by simp,by simp⟩
  | succ m ih =>
    obtain ⟨mid,hmid,hstored⟩ := ih
    rw [range_succ, foldlM_append, hmid]
    by_cases h : partStart n S m < partEnd n S m
    · obtain ⟨p,hp,hstands⟩ := decodeStage1_spec (E := E) (x := x) (v := v) hT mid h
      refine ⟨update mid m (some p),by simp [hp],fun s hs hne => ?_,fun s hs => ?_⟩
      · rcases Nat.lt_succ_iff_lt_or_eq.mp hs with hlt | rfl
        · rw [update_of_ne hlt.ne]
          exact hstored.written s hlt hne
        · exact ⟨p,update_self ..,hstands⟩
      · by_cases hsm : s = m
        · exact ⟨hsm ▸ Nat.lt_succ_self m,hsm ▸ h⟩
        · rw [update_of_ne hsm] at hs
          obtain ⟨hlt,hne⟩ := hstored.isSome s hs
          exact ⟨hlt.trans (Nat.lt_succ_self m),hne⟩
    · refine ⟨mid,by simp [decodeStage1_empty T mid h],fun s hs hne => ?_,fun s hs => ?_⟩
      · rcases Nat.lt_succ_iff_lt_or_eq.mp hs with hlt | rfl
        · exact hstored.written s hlt hne
        · exact absurd hne h
      · obtain ⟨hlt,hne⟩ := hstored.isSome s hs
        exact ⟨hlt.trans (Nat.lt_succ_self m),hne⟩

def Stage2.state (st : Stage2 F V) : State F V := ⟨st.eMax,st.eSum,st.acc⟩

theorem stage2Split_spec {mid : MidO F V} {st : Stage2 F V} {s : ℕ} {p : SplitPartial F V}
    {pts lanes : Lanes F V} (h : partStart n S s < partEnd n S s) (hp : mid s = some p)
    (hstands : Stands E p lanes) (hrep : Represents E st.state pts) :
    ∃ st', stage2Split E n S mid st s = some st' ∧ st'.eMax ≠ ⊥ ∧
      st'.reads = st.reads ++ [s] ∧ Represents E st'.state (pts ++ lanes) := by
  have hmem : (p.lse,p.out) ∈ [(p.lse,p.out)] := mem_singleton_self _
  obtain ⟨st',hst',hmax,hrep'⟩ := hrep.absorb hmem hstands.finite
  have hrep'' : Represents E st' (pts ++ lanes) := by
    refine hrep'.congr ?_ ?_
    · rw [mass_append, mass_append, ← hstands.lse]
      simp [mass]
    · rw [moment_append, moment_append, ← hstands.out]
      simp [moment]
  refine ⟨⟨st'.mass,st'.max,st'.acc,st.reads ++ [s]⟩,?_,hmax,rfl,hrep''⟩
  rw [partEnd, partStart] at h
  rw [stage2Split]
  simp only [if_pos h, hp, bind_some]
  rw [State.absorb, Stage2.state] at hst'
  simp only [map_cons, map_nil, foldr_cons, foldr_nil, sum_cons,
    sum_nil, add_zero, max_bot_right] at hst'
  cases hn : max p.lse st.eMax with
  | bot =>
    rw [hn] at hst'
    cases hst'
  | coe m =>
    rw [hn] at hst'
    cases hst'
    rfl

theorem stage2Split_empty (mid : MidO F V) (st : Stage2 F V) {s : ℕ}
    (h : ¬partStart n S s < partEnd n S s) : stage2Split E n S mid st s = some st := by
  rw [stage2Split]
  exact if_neg h

theorem splitLanes_empty {s : ℕ} (h : ¬partStart n S s < partEnd n S s) :
    splitLanes x v n S s = [] := by
  have hsize : partSize n S s = 0 := max_eq_right (by omega)
  rw [splitLanes, part, hsize, Int.toNat_zero, interval_zero, map_nil]

/-- The first `m` iterations of stage 2. -/
theorem stage2_run {mid : MidO F V} (hstored : Stored E x v n S (· < S) mid) {m : ℕ} (hm : m ≤ S) :
    ∃ st, (List.range m).foldlM (stage2Split E n S mid) ⟨0,⊥,0,[]⟩ = some st ∧
      (∀ s, s ∈ st.reads ↔ s < m ∧ partStart n S s < partEnd n S s) ∧ (st.reads ≠ [] → st.eMax ≠ ⊥) ∧
      Represents E st.state ((List.range m).flatMap (splitLanes x v n S)) := by
  induction m with
  | zero => exact ⟨_,rfl,by simp,by simp,represents_empty E⟩
  | succ m ih =>
    obtain ⟨st,hst,hreads,hmax,hrep⟩ := ih (by omega)
    rw [range_succ, foldlM_append, hst, flatMap_append, flatMap_singleton]
    by_cases h : partStart n S m < partEnd n S m
    · obtain ⟨p,hp,hstands⟩ := hstored.written m hm h
      obtain ⟨st',hst',hmax',hreads',hrep'⟩ := stage2Split_spec h hp hstands hrep
      refine ⟨st',by simp [hst'],fun s => ?_,fun _ => hmax',hrep'⟩
      rw [hreads', mem_append, hreads, mem_singleton]
      constructor
      · rintro (⟨hlt,hne⟩ | rfl)
        · exact ⟨by omega,hne⟩
        · exact ⟨by omega,h⟩
      · rintro ⟨hlt,hne⟩
        rcases Nat.lt_succ_iff_lt_or_eq.mp hlt with hlt | hs
        · exact .inl ⟨hlt,hne⟩
        · exact .inr hs
    · rw [splitLanes_empty h, append_nil]
      refine ⟨st,by simp [stage2Split_empty mid st h],fun s => ?_,hmax,hrep⟩
      rw [hreads]
      constructor
      · rintro ⟨hlt,hne⟩
        exact ⟨by omega,hne⟩
      · rintro ⟨hlt,hne⟩
        rcases Nat.lt_succ_iff_lt_or_eq.mp hlt with hlt | rfl
        · exact ⟨hlt,hne⟩
        · exact absurd hne h

theorem mass_interval (n : ℕ) :
    mass E ((interval 0 n).map (laneOf x v)) = ∑ i ∈ Finset.range n, E.exp (x i) := by
  rw [mass, interval, List.map_map, List.map_map, ← List.sum_toFinset _ List.nodup_range]
  simp [laneOf, List.toFinset_range]

theorem moment_interval (n : ℕ) :
    moment E ((interval 0 n).map (laneOf x v)) = ∑ i ∈ Finset.range n, E.exp (x i) • v i := by
  rw [moment, interval, List.map_map, List.map_map, ← List.sum_toFinset _ List.nodup_range]
  simp [laneOf, List.toFinset_range]

end Stages

/-- The two stages compute the softmax-weighted mean of all values and the logarithm of the total
weight, and stage 2 reads exactly the splits stage 1 stored. -/
theorem split_kv_decode_eq_attention (E : ExpLog F) (x : ℤ → F) (v : ℤ → V) {n S T : ℕ}
    (hn : 1 ≤ n) (hS : 1 ≤ S) (hT : 1 ≤ T) :
    ∃ mid r L, launchStage1 E x v n S T = some mid ∧ fwdKernelStage2 E n S mid = some r ∧
      r.out = (∑ i ∈ Finset.range n, E.exp (x i))⁻¹ • ∑ i ∈ Finset.range n, E.exp (x i) • v i ∧
      r.lse = (L : F) ∧ E.exp L = ∑ i ∈ Finset.range n, E.exp (x i) ∧
      (Function.Injective E.exp → L = E.log (∑ i ∈ Finset.range n, E.exp (x i))) ∧
      ∀ s, s ∈ r.reads ↔ (mid s).isSome = true := by
  obtain ⟨mid,hmid,hstored⟩ := launchStage1_spec (E := E) (x := x) (v := v) (n := n) (S := S) hT S
  obtain ⟨st,hst,hreads,hmax,hrep⟩ := stage2_run hstored le_rfl
  have hall : (List.range S).flatMap (splitLanes x v n S) = (interval 0 n).map (laneOf x v) := by
    have hparts := flatMap_part n (by omega : 0 < S)
    rw [Int.toNat_natCast] at hparts
    rw [← hparts, List.map_flatMap]
    rfl
  rw [hall] at hrep
  have hpos : 0 < mass E ((interval 0 n).map (laneOf x v)) := mass_pos_interval 0 (by omega)
  -- the first split is never empty
  have hfirst : partStart n S 0 < partEnd n S 0 := by
    have hcov := le_ceilTDiv_mul (n := (n:ℤ)) (S := S) (by omega) (by omega)
    have hlen : 0 < ceilTDiv n S := by
      by_contra hle
      have hnp := mul_nonpos_of_nonpos_of_nonneg (not_lt.mp hle) (Int.natCast_nonneg S)
      omega
    rw [partEnd, partStart]
    simp only [Nat.cast_zero, mul_zero, zero_add, lt_min_iff]
    omega
  have hne : st.reads ≠ [] := ne_nil_of_mem ((hreads 0).mpr ⟨by omega,hfirst⟩)
  have hfinite : st.state.max ≠ ⊥ := hmax hne
  have hmass : 0 < st.eSum := hrep.mass_pos hfinite hpos
  have hlse := hrep.lse hmass
  obtain ⟨m,hm⟩ := WithBot.ne_bot_iff_exists.mp hfinite
  have hm' : st.eMax = (m : WithBot F) := hm.symm
  have hexp : E.exp (m+E.log st.eSum) = ∑ i ∈ Finset.range n, E.exp (x i) := by
    rw [← mass_interval (E := E) (x := x) (v := v), ← hlse, ← hm, ← WithBot.coe_add, expSub_coe,
      sub_zero]
    rfl
  refine ⟨mid,⟨st.eSum⁻¹ • st.acc,st.eMax+E.log st.eSum,st.reads⟩,m+E.log st.eSum,hmid,?_,?_,?_,
    hexp,fun hinj => ?_,fun s => ?_⟩
  · rw [fwdKernelStage2, hst, map_some]
  · rw [← mass_interval (E := E) (x := x) (v := v), ← moment_interval]
    exact hrep.mean hfinite
  · show st.eMax+(E.log st.eSum : WithBot F) = _
    rw [hm', WithBot.coe_add]
  · apply hinj
    rw [hexp, E.exp_log]
    rw [← mass_interval (E := E) (x := x) (v := v)]
    exact hpos
  · rw [hreads]
    constructor
    · rintro ⟨hlt,hs⟩
      obtain ⟨p,hp,-⟩ := hstored.written s hlt hs
      rw [hp]
      rfl
    · exact hstored.isSome s

noncomputable def realExpLog : ExpLog ℝ where
  exp := Real.exp
  log := Real.log
  exp_pos := Real.exp_pos
  exp_add := Real.exp_add
  exp_log _ h := Real.exp_log h

/-- Five positions in four splits, the last of which is empty. -/
theorem split_kv_decode_eq_attention_five :
    ∃ mid r L, launchStage1 realExpLog (fun i => (i:ℝ)) (fun i => (i:ℝ)) (5:ℕ) 4 2 = some mid ∧
      fwdKernelStage2 realExpLog (5:ℕ) 4 mid = some r ∧
      r.out = (∑ i ∈ Finset.range 5, Real.exp ((i:ℤ):ℝ))⁻¹ •
        ∑ i ∈ Finset.range 5, Real.exp ((i:ℤ):ℝ) • ((i:ℤ):ℝ) ∧
      r.lse = (L : ℝ) ∧ Real.exp L = ∑ i ∈ Finset.range 5, Real.exp ((i:ℤ):ℝ) ∧
      (Function.Injective Real.exp → L = Real.log (∑ i ∈ Finset.range 5, Real.exp ((i:ℤ):ℝ))) ∧
      ∀ s, s ∈ r.reads ↔ (mid s).isSome = true :=
  split_kv_decode_eq_attention realExpLog (fun i => (i:ℝ)) (fun i => (i:ℝ)) (by decide) (by decide)
    (by decide)

end MetaZenith.TurboQuant
