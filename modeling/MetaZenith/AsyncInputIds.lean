import Mathlib

/-! `GPUModelRunner._prepare_input_ids`: with async scheduling the tokens sampled by the previous
step, and its drafts, are on the device only and have to be put in their places there. -/

namespace MetaZenith.InputIds

open List Option

variable {base cpu gpu : List Token} {i n pos : ℕ} {c : Common} {e : CurRequest}

abbrev ReqId := ℕ
abbrev Token := ℤ

structure CurRequest where
  reqId : ReqId
  numScheduledTokens : ℕ
  draftLen : ℕ

/-- What the previous step left: the first column of `prev_sampled_token_ids`, the rows of its
requests and its drafts. -/
structure PrevStep where
  sampledTokenIds : Option (List Token)
  reqIdToIndex : ReqId → Option ℕ
  draftTokenIds : Option (List (List Token))
  numSpecTokens : ℕ

def computePrevPositions (prev : PrevStep) (batch : List CurRequest) : List ℤ :=
  batch.map fun e => match prev.reqIdToIndex e.reqId with
    | some i => (i:ℤ)
    | none => -1

def cuNumTokens (start : ℕ) : List CurRequest → List ℕ
  | [] => []
  | e :: batch => (start+e.numScheduledTokens) :: cuNumTokens (start+e.numScheduledTokens) batch

structure Plan where
  sampleFlattenedIndices : List ℕ := []
  specFlattenedIndices : List ℕ := []
  prevDraftTokenIndices : List ℕ := []
  prevIndices : List ℕ := []
  commonIndicesMatch : Bool := true
  maxFlattenedIndex : ℤ := -1
  totalNumSpecTokens : ℕ := 0

def Plan.visit (prevNumSpecTokens : ℕ) (p : Plan) (prevIndex : ℤ) (cu draftLen : ℕ) : Plan :=
  if prevIndex < 0 then p
  else
    let prevIndex := prevIndex.toNat
    let flattenedIndex := cu-1
    let start := prevIndex*prevNumSpecTokens
    { sampleFlattenedIndices := p.sampleFlattenedIndices ++ [flattenedIndex-draftLen]
      specFlattenedIndices := p.specFlattenedIndices ++
        List.range' (flattenedIndex-draftLen+1) draftLen
      prevDraftTokenIndices := p.prevDraftTokenIndices ++ List.range' start draftLen
      prevIndices := p.prevIndices ++ [prevIndex]
      commonIndicesMatch := p.commonIndicesMatch && decide (prevIndex = flattenedIndex)
      maxFlattenedIndex := max p.maxFlattenedIndex flattenedIndex
      totalNumSpecTokens := p.totalNumSpecTokens+draftLen }

def visitBatch (prev : PrevStep) (batch : List CurRequest) : Plan :=
  ((computePrevPositions prev batch).zip ((cuNumTokens 0 batch).zip (batch.map (·.draftLen)))).foldl
    (fun p (prevIndex,cu,draftLen) => p.visit prev.numSpecTokens prevIndex cu draftLen) {}

def copyToGpu (n : ℕ) (cpu gpu : List Token) : List Token := cpu.take n ++ gpu.drop n

def scatter (gpu : List Token) (index : List ℕ) (src : List Token) : List Token :=
  (index.zip src).foldl (fun gpu w => gpu.set w.1 w.2) gpu

/-- The sampled tokens are scattered first, then the drafts; `none` where a gather is out of
range. -/
def scatterPrevious (prev : PrevStep) (sampled : List Token) (plan : Plan) (gpu : List Token) :
    Option (List Token) :=
  (plan.prevIndices.mapM fun i => sampled[i]?).bind fun src =>
    let gpu := scatter gpu plan.sampleFlattenedIndices src
    match prev.draftTokenIds with
    | none => some gpu
    | some drafts => if plan.specFlattenedIndices = [] then some gpu
      else (plan.prevDraftTokenIndices.mapM fun i => drafts.flatten[i]?).map fun src =>
        scatter gpu plan.specFlattenedIndices src

def prepareInputIds (prev : PrevStep) (batch : List CurRequest) (cpu gpu : List Token) :
    Option (List Token) :=
  let total := (batch.map (·.numScheduledTokens)).sum
  match prev.sampledTokenIds with
  | none => some (copyToGpu total cpu gpu)
  | some sampled =>
    let plan := visitBatch prev batch
    let numCommonTokens := plan.sampleFlattenedIndices.length
    let totalWithoutSpec := total-plan.totalNumSpecTokens
    let gpu := if numCommonTokens < totalWithoutSpec then copyToGpu total cpu gpu else gpu
    if numCommonTokens = 0 then some gpu
    else if plan.commonIndicesMatch ∧ plan.maxFlattenedIndex = numCommonTokens-1 then
      -- the batch is unchanged: one slice
      some (copyToGpu numCommonTokens sampled gpu)
    else scatterPrevious prev sampled plan gpu

structure Common where
  prevIndex : ℕ
  start : ℕ
  stop : ℕ
  draftLen : ℕ

def commons (prev : PrevStep) (start : ℕ) : List CurRequest → List Common
  | [] => []
  | e :: batch => match prev.reqIdToIndex e.reqId with
    | none => commons prev (start+e.numScheduledTokens) batch
    | some j => ⟨j,start,start+e.numScheduledTokens,e.draftLen⟩ ::
        commons prev (start+e.numScheduledTokens) batch

def planOf (prevNumSpecTokens : ℕ) (p : Plan) (cs : List Common) : Plan :=
  cs.foldl (fun p c => p.visit prevNumSpecTokens c.prevIndex c.stop c.draftLen) p

theorem visitBatch_eq (prev : PrevStep) (batch : List CurRequest) :
    visitBatch prev batch = planOf prev.numSpecTokens {} (commons prev 0 batch) := by
  have hall (start : ℕ) (p : Plan) :
      ((computePrevPositions prev batch).zip
        ((cuNumTokens start batch).zip (batch.map (·.draftLen)))).foldl
          (fun p (prevIndex,cu,draftLen) => p.visit prev.numSpecTokens prevIndex cu draftLen) p =
        planOf prev.numSpecTokens p (commons prev start batch) := by
    induction batch generalizing start p with
    | nil => rfl
    | cons e batch ih =>
      rw [commons]
      cases hprev : prev.reqIdToIndex e.reqId with
      | none =>
        have hskip : p.visit prev.numSpecTokens (-1) (start+e.numScheduledTokens) e.draftLen = p :=
          if_pos (by decide)
        simp only [computePrevPositions, map_cons, cuNumTokens, zip_cons_cons, hprev,
          foldl_cons, hskip]
        exact ih _ p
      | some j =>
        simp only [computePrevPositions, map_cons, cuNumTokens, zip_cons_cons, hprev,
          foldl_cons, planOf]
        exact ih _ _
  exact hall 0 {}

theorem planOf_eq (k : ℕ) (p : Plan) (cs : List Common) : planOf k p cs =
    { sampleFlattenedIndices := p.sampleFlattenedIndices ++
        cs.map fun c => c.stop-1-c.draftLen
      specFlattenedIndices := p.specFlattenedIndices ++
        cs.flatMap fun c => List.range' (c.stop-1-c.draftLen+1) c.draftLen
      prevDraftTokenIndices := p.prevDraftTokenIndices ++
        cs.flatMap fun c => List.range' (c.prevIndex*k) c.draftLen
      prevIndices := p.prevIndices ++ cs.map (·.prevIndex)
      commonIndicesMatch := p.commonIndicesMatch && cs.all fun c => decide (c.prevIndex = c.stop-1)
      maxFlattenedIndex := cs.foldl (fun m c => max m ((c.stop-1:ℕ):ℤ)) p.maxFlattenedIndex
      totalNumSpecTokens := p.totalNumSpecTokens+(cs.map (·.draftLen)).sum } := by
  induction cs generalizing p with
  | nil => simp [planOf]
  | cons c cs ih =>
    have hvisit : planOf k p (c :: cs) =
        planOf k (p.visit k c.prevIndex c.stop c.draftLen) cs := rfl
    rw [hvisit, ih, Plan.visit, if_neg (by omega)]
    simp [Bool.and_assoc, Nat.add_assoc]

theorem scatter_of_notMem {src : List Token} {index : List ℕ} (h : pos ∉ index) :
    (scatter gpu index src)[pos]? = gpu[pos]? := by
  induction index generalizing gpu src with
  | nil => rfl
  | cons i index ih =>
    cases src with
    | nil => rfl
    | cons x src =>
      obtain ⟨hne,hrest⟩ := not_or.mp (mt mem_cons.mpr h)
      have hstep : scatter gpu (i :: index) (x :: src) = scatter (gpu.set i x) index src := rfl
      rw [hstep, ih hrest, getElem?_set_ne (Ne.symm hne)]

theorem length_scatter (gpu src : List Token) (index : List ℕ) :
    (scatter gpu index src).length = gpu.length := by
  rw [scatter]
  generalize index.zip src = writes
  induction writes generalizing gpu with
  | nil => rfl
  | cons w writes ih => rw [foldl_cons, ih, length_set]

theorem scatter_at {src : List Token} {index : List ℕ} {k : ℕ} {x : Token} (hn : index.Nodup)
    (hk : index[k]? = some pos) (hx : src[k]? = some x) (hlt : pos < gpu.length) :
    (scatter gpu index src)[pos]? = some x := by
  induction index generalizing gpu src k with
  | nil => cases hk
  | cons i index ih =>
    cases src with
    | nil => cases hx
    | cons y src =>
      obtain ⟨hnot,hn⟩ := nodup_cons.mp hn
      have hstep : scatter gpu (i :: index) (y :: src) = scatter (gpu.set i y) index src := rfl
      cases k with
      | zero =>
        cases hk
        cases hx
        rw [hstep, scatter_of_notMem hnot, getElem?_set_self hlt]
      | succ k =>
        rw [hstep]
        exact ih hn hk hx (by rw [length_set]; exact hlt)

theorem copyToGpu_lt (hn : n ≤ cpu.length) (h : pos < n) :
    (copyToGpu n cpu gpu)[pos]? = cpu[pos]? := by
  rw [copyToGpu, getElem?_append_left (by rw [length_take]; omega),
    getElem?_take_of_lt h]

theorem copyToGpu_ge (hn : n ≤ cpu.length) (h : n ≤ pos) :
    (copyToGpu n cpu gpu)[pos]? = gpu[pos]? := by
  have hlen : (cpu.take n).length = n := by
    rw [length_take]
    omega
  rw [copyToGpu, getElem?_append_right (by omega), hlen, getElem?_drop]
  congr 1
  omega

theorem length_copyToGpu (hn : n ≤ cpu.length) (hg : n ≤ gpu.length) :
    (copyToGpu n cpu gpu).length = gpu.length := by
  rw [copyToGpu, length_append, length_take, length_drop]
  omega

theorem mapM_of_forall {α β : Type} {f : α → Option β} {g : α → β} {l : List α}
    (h : ∀ x ∈ l, f x = some (g x)) : l.mapM f = some (l.map g) := by
  induction l with
  | nil => rfl
  | cons a l ih =>
    rw [mapM_cons, h a mem_cons_self, ih fun x hx => h x (mem_cons_of_mem _ hx)]
    rfl

theorem getElem?_flatten_row {rows : List (List Token)} {k : ℕ} (hk : ∀ row ∈ rows, row.length = k)
    {j t : ℕ} (ht : t < k) : rows.flatten[j*k+t]? = (rows[j]?).bind fun row => row[t]? := by
  induction rows generalizing j with
  | nil => rfl
  | cons row rows ih =>
    have hrow := hk row mem_cons_self
    rw [flatten_cons]
    cases j with
    | zero =>
      rw [Nat.zero_mul, Nat.zero_add, getElem?_append_left (by omega)]
      rfl
    | succ j =>
      have hsub : (j+1)*k+t-row.length = j*k+t := by
        rw [Nat.succ_mul, hrow]
        omega
      rw [getElem?_append_right (by rw [hrow, Nat.succ_mul]; omega), hsub,
        ih fun r hr => hk r (mem_cons_of_mem _ hr)]
      rfl

section Placement

variable {prev : PrevStep} {batch : List CurRequest} {s : ℕ}

def startOf (batch : List CurRequest) (i : ℕ) : ℕ := ((batch.take i).map (·.numScheduledTokens)).sum

theorem startOf_cons_succ (e : CurRequest) (batch : List CurRequest) (i : ℕ) :
    startOf (e :: batch) (i+1) = e.numScheduledTokens+startOf batch i := rfl

theorem le_start_of_mem (hc : c ∈ commons prev s batch) : s ≤ c.start := by
  induction batch generalizing s with
  | nil => cases hc
  | cons e batch ih =>
    rw [commons] at hc
    cases hprev : prev.reqIdToIndex e.reqId with
    | none =>
      rw [hprev] at hc
      exact (Nat.le_add_right s _).trans (ih hc)
    | some j =>
      rw [hprev] at hc
      rcases mem_cons.mp hc with rfl | hc
      · exact le_rfl
      · exact (Nat.le_add_right s _).trans (ih hc)

theorem commons_sorted (prev : PrevStep) (s : ℕ) (batch : List CurRequest) :
    (commons prev s batch).Pairwise fun c c' => c.stop ≤ c'.start := by
  induction batch generalizing s with
  | nil => exact .nil
  | cons e batch ih =>
    rw [commons]
    cases prev.reqIdToIndex e.reqId with
    | none => exact ih _
    | some j => exact pairwise_cons.mpr ⟨fun c hc => le_start_of_mem hc,ih _⟩

theorem commons_disjoint {c' : Common} (hc : c ∈ commons prev s batch)
    (hc' : c' ∈ commons prev s batch) : c = c' ∨ c.stop ≤ c'.start ∨ c'.stop ≤ c.start := by
  obtain ⟨i,hi,rfl⟩ := mem_iff_getElem.mp hc
  obtain ⟨j,hj,rfl⟩ := mem_iff_getElem.mp hc'
  have hsorted := pairwise_iff_getElem.mp (commons_sorted prev s batch)
  rcases Nat.lt_trichotomy i j with hij | rfl | hij
  · exact .inr (.inl (hsorted i j hi hj hij))
  · exact .inl rfl
  · exact .inr (.inr (hsorted j i hj hi hij))

theorem commons_forall {P : Common → Prop}
    (h : ∀ e ∈ batch, ∀ j, prev.reqIdToIndex e.reqId = some j → ∀ start,
      P ⟨j,start,start+e.numScheduledTokens,e.draftLen⟩) : ∀ c ∈ commons prev s batch, P c := by
  induction batch generalizing s with
  | nil => exact fun _ hc => nomatch hc
  | cons e batch ih =>
    have hrest := ih (s := s+e.numScheduledTokens) fun x hx => h x (mem_cons_of_mem _ hx)
    rw [commons]
    cases hprev : prev.reqIdToIndex e.reqId with
    | none => exact hrest
    | some j => exact forall_mem_cons.mpr ⟨h e mem_cons_self j hprev s,hrest⟩

/-- A position of the `i`th request lies within a common request only if it is that one. -/
theorem commons_at (prev : PrevStep) (s : ℕ) (he : batch[i]? = some e) :
    (∀ j, prev.reqIdToIndex e.reqId = some j →
      ⟨j,s+startOf batch i,s+startOf batch i+e.numScheduledTokens,e.draftLen⟩ ∈
        commons prev s batch) ∧ ∀ c ∈ commons prev s batch, ∀ pos, s+startOf batch i ≤ pos →
      pos < s+startOf batch i+e.numScheduledTokens → c.start ≤ pos → pos < c.stop →
      prev.reqIdToIndex e.reqId = some c.prevIndex ∧
        c.stop = s+startOf batch i+e.numScheduledTokens ∧ c.draftLen = e.draftLen := by
  induction batch generalizing s i with
  | nil => cases he
  | cons a batch ih =>
    cases i with
    | zero =>
      cases he
      have hstart : s+startOf (e :: batch) 0 = s := rfl
      rw [hstart, commons]
      cases hprev : prev.reqIdToIndex e.reqId with
      | none =>
        refine ⟨(fun j hj => nomatch hj),fun c hc pos _ hpos hlo _ => ?_⟩
        have := le_start_of_mem hc
        omega
      | some j =>
        refine ⟨fun j' hj => ?_,fun c hc pos _ hpos hlo _ => ?_⟩
        · cases hj
          exact mem_cons_self
        · rcases mem_cons.mp hc with rfl | hc
          · exact ⟨rfl,rfl,rfl⟩
          · have := le_start_of_mem hc
            omega
    | succ i =>
      obtain ⟨hmem,hcover⟩ := ih (s := s+a.numScheduledTokens) (i := i) he
      have hstart : s+startOf (a :: batch) (i+1) = s+a.numScheduledTokens+startOf batch i := by
        rw [startOf_cons_succ]
        omega
      rw [hstart, commons]
      cases prev.reqIdToIndex a.reqId with
      | none => exact ⟨hmem,hcover⟩
      | some j =>
        refine ⟨fun j' hj => mem_cons_of_mem _ (hmem j' hj),fun c hc pos hge hpos hlo hhi => ?_⟩
        rcases mem_cons.mp hc with rfl | hc
        · change pos < s+a.numScheduledTokens at hhi
          omega
        · exact hcover c hc pos hge hpos hlo hhi

def slack (prev : PrevStep) (e : CurRequest) : ℕ :=
  if (prev.reqIdToIndex e.reqId).isSome then e.numScheduledTokens-1-e.draftLen
  else e.numScheduledTokens

theorem total_eq (prev : PrevStep) (s : ℕ) (hfit : ∀ e ∈ batch, 1+e.draftLen ≤ e.numScheduledTokens) :
    (batch.map (·.numScheduledTokens)).sum = (commons prev s batch).length+
      ((commons prev s batch).map (·.draftLen)).sum+(batch.map (slack prev)).sum := by
  induction batch generalizing s with
  | nil => rfl
  | cons e batch ih =>
    have hrest := ih (s := s+e.numScheduledTokens) fun x hx => hfit x (mem_cons_of_mem _ hx)
    have he := hfit e mem_cons_self
    rw [map_cons, sum_cons, hrest, commons, map_cons, sum_cons, slack]
    cases prev.reqIdToIndex e.reqId with
    | none =>
      simp only [isSome_none, Bool.false_eq_true, if_false]
      omega
    | some j =>
      simp only [isSome_some, if_true, length_cons, map_cons, sum_cons]
      omega

theorem startOf_add_le (he : batch[i]? = some e) :
    startOf batch i+e.numScheduledTokens ≤ (batch.map (·.numScheduledTokens)).sum := by
  induction batch generalizing i with
  | nil => cases he
  | cons a batch ih =>
    rw [map_cons, sum_cons]
    cases i with
    | zero =>
      cases he
      change 0+e.numScheduledTokens ≤ _
      omega
    | succ i =>
      have := ih he
      rw [startOf_cons_succ]
      omega

/-- If the common requests all end by `stop` and there are as many of them as positions up to there,
they come first and have one token each. -/
theorem slice_shape {stop : ℕ} (hfit : ∀ e ∈ batch, 1+e.draftLen ≤ e.numScheduledTokens)
    (hstop : ∀ c ∈ commons prev s batch, c.stop ≤ stop) :
    (commons prev s batch).length ≤ stop-s ∧ ((commons prev s batch).length = stop-s →
      ∀ i e, batch[i]? = some e → prev.reqIdToIndex e.reqId = none ∧ stop ≤ s+startOf batch i ∨
        (prev.reqIdToIndex e.reqId).isSome = true ∧ e.numScheduledTokens = 1) := by
  induction batch generalizing s with
  | nil => exact ⟨Nat.zero_le _,fun _ i e he => nomatch he⟩
  | cons a batch ih =>
    have ha := hfit a mem_cons_self
    rw [commons] at hstop ⊢
    have hshift (i : ℕ) : s+startOf (a :: batch) (i+1) = s+a.numScheduledTokens+startOf batch i := by
      rw [startOf_cons_succ]
      omega
    cases hprev : prev.reqIdToIndex a.reqId with
    | none =>
      simp only [hprev] at hstop ⊢
      obtain ⟨hle,hshape⟩ := ih (s := s+a.numScheduledTokens)
        (fun x hx => hfit x (mem_cons_of_mem _ hx)) hstop
      refine ⟨by omega,fun heq i e he => ?_⟩
      cases i with
      | zero =>
        cases he
        refine .inl ⟨hprev,?_⟩
        change stop ≤ s+0
        omega
      | succ i =>
        rw [hshift]
        exact hshape (by omega) i e he
    | some j =>
      simp only [hprev] at hstop ⊢
      have hhead : s+a.numScheduledTokens ≤ stop := hstop _ mem_cons_self
      obtain ⟨hle,hshape⟩ := ih (s := s+a.numScheduledTokens)
        (fun x hx => hfit x (mem_cons_of_mem _ hx))
        (fun c hc => hstop c (mem_cons_of_mem _ hc))
      rw [length_cons]
      refine ⟨by omega,fun heq i e he => ?_⟩
      cases i with
      | zero =>
        cases he
        refine .inr ⟨by rw [hprev]; rfl,by omega⟩
      | succ i =>
        rw [hshift]
        exact hshape (by omega) i e he

end Placement

structure Fits (prev : PrevStep) (batch : List CurRequest) (sampled : List Token)
    (cpu gpu : List Token) : Prop where
  available : prev.sampledTokenIds = some sampled
  counts : ∀ e ∈ batch, 1+e.draftLen ≤ e.numScheduledTokens
  rows : ∀ e ∈ batch, ∀ j, prev.reqIdToIndex e.reqId = some j → j < sampled.length
  width : ∀ rows ∈ prev.draftTokenIds, rows.length = sampled.length ∧
    ∀ row ∈ rows, row.length = prev.numSpecTokens
  drafts : ∀ e ∈ batch, (prev.reqIdToIndex e.reqId).isSome = true →
    e.draftLen ≤ if prev.draftTokenIds.isSome then prev.numSpecTokens else 0
  cpu_long : (batch.map (·.numScheduledTokens)).sum ≤ cpu.length
  gpu_long : (batch.map (·.numScheduledTokens)).sum ≤ gpu.length

def draftAt (prev : PrevStep) (j t : ℕ) : Option Token :=
  prev.draftTokenIds.bind fun rows => (rows[j]?).bind fun row => row[t]?

/-- The input id at offset `p` of a request whose tokens begin at `start`. -/
def expectedId (prev : PrevStep) (sampled cpu : List Token) (e : CurRequest) (start p : ℕ) :
    Option Token :=
  match prev.reqIdToIndex e.reqId with
  | none => cpu[start+p]?
  | some j =>
    if p+1+e.draftLen < e.numScheduledTokens then cpu[start+p]?
    else if p+1+e.draftLen = e.numScheduledTokens then sampled[j]?
    else draftAt prev j (p+e.draftLen-e.numScheduledTokens)

section Device

variable {prev : PrevStep} {batch : List CurRequest} {sampled cpu gpu : List Token}

def sampleIndices (cs : List Common) : List ℕ := cs.map fun c => c.stop-1-c.draftLen

def specIndices (cs : List Common) : List ℕ :=
  cs.flatMap fun c => List.range' (c.stop-1-c.draftLen+1) c.draftLen

def draftIndices (k : ℕ) (cs : List Common) : List ℕ :=
  cs.flatMap fun c => List.range' (c.prevIndex*k) c.draftLen

theorem Fits.common (h : Fits prev batch sampled cpu gpu) :
    ∀ c ∈ commons prev 0 batch, c.start+1+c.draftLen ≤ c.stop ∧ c.prevIndex < sampled.length ∧
      c.draftLen ≤ if prev.draftTokenIds.isSome then prev.numSpecTokens else 0 := by
  refine commons_forall fun e he j hj start => ⟨?_,h.rows e he j hj,?_⟩
  · have := h.counts e he
    change start+1+e.draftLen ≤ start+e.numScheduledTokens
    omega
  · exact h.drafts e he (by rw [hj]; rfl)

theorem Fits.sampleIndices_nodup (h : Fits prev batch sampled cpu gpu) :
    (sampleIndices (commons prev 0 batch)).Nodup := by
  refine List.Pairwise.map _ (R := fun c c' : Common => c.stop ≤ c'.start ∧
    c'.start+1+c'.draftLen ≤ c'.stop ∧ c.start+1+c.draftLen ≤ c.stop) ?_ ?_
  · intro c c' hcc
    omega
  · refine (commons_sorted _ _ _).imp_of_mem fun hc hc' hle => ⟨hle,(h.common _ hc').1,(h.common _ hc).1⟩

theorem mem_specIndices {cs : List Common} : pos ∈ specIndices cs ↔
    ∃ c ∈ cs, c.stop-1-c.draftLen < pos ∧ pos < c.stop-1-c.draftLen+1+c.draftLen := by
  simp only [specIndices, mem_flatMap, mem_range'_1, Nat.lt_iff_add_one_le]

theorem Fits.specIndices_nodup (h : Fits prev batch sampled cpu gpu) :
    (specIndices (commons prev 0 batch)).Nodup := by
  refine nodup_flatMap.mpr ⟨fun c _ => nodup_range',?_⟩
  refine (commons_sorted _ _ _).imp_of_mem fun {c c'} hc hc' hle => ?_
  have hroom := (h.common c hc).1
  have hroom' := (h.common c' hc').1
  intro x hx hx'
  rw [mem_range'_1] at hx hx'
  omega

theorem Fits.scatter_sampled (h : Fits prev batch sampled cpu gpu) (hc : c ∈ commons prev 0 batch)
    (hlt : c.stop-1-c.draftLen < base.length) : (scatter base (sampleIndices (commons prev 0 batch))
      ((commons prev 0 batch).map fun c => (sampled[c.prevIndex]?).getD 0))[c.stop-1-c.draftLen]? =
        sampled[c.prevIndex]? := by
  obtain ⟨k,hk⟩ := mem_iff_getElem?.mp hc
  have hrow := (h.common c hc).2.1
  have hget := getElem?_eq_getElem hrow
  rw [hget]
  refine scatter_at (k := k) h.sampleIndices_nodup ?_ ?_ hlt
  · rw [sampleIndices, getElem?_map, hk]
    rfl
  · rw [getElem?_map, hk, map_some, hget]
    rfl

theorem Fits.scatter_drafts (h : Fits prev batch sampled cpu gpu) {rows : List (List Token)}
    (hrows : prev.draftTokenIds = some rows) (hc : c ∈ commons prev 0 batch) {t : ℕ}
    (ht : t < c.draftLen) (hlt : c.stop-1-c.draftLen+1+t < base.length) :
    (scatter base (specIndices (commons prev 0 batch))
      ((draftIndices prev.numSpecTokens (commons prev 0 batch)).map fun i =>
        (rows.flatten[i]?).getD 0))[c.stop-1-c.draftLen+1+t]? = draftAt prev c.prevIndex t := by
  obtain ⟨hroom,hrow,hdraft⟩ := h.common c hc
  obtain ⟨hlen,hwidth⟩ := h.width rows hrows
  rw [hrows, isSome_some, if_pos rfl] at hdraft
  have hflat : rows.flatten[c.prevIndex*prev.numSpecTokens+t]? = draftAt prev c.prevIndex t := by
    rw [getElem?_flatten_row hwidth (by omega), draftAt, hrows, bind_some]
  obtain ⟨x,hx⟩ : ∃ x, draftAt prev c.prevIndex t = some x := by
    have hj : c.prevIndex < rows.length := by omega
    have hwide : t < rows[c.prevIndex].length := by
      rw [hwidth _ (getElem_mem hj)]
      omega
    refine ⟨rows[c.prevIndex][t],?_⟩
    rw [draftAt, hrows, bind_some, getElem?_eq_getElem hj, bind_some,
      getElem?_eq_getElem hwide]
  obtain ⟨before,after,hsplit⟩ := append_of_mem hc
  -- the drafts before those of `c` take the same number of places in both lists
  have hplace {f : Common → ℕ} :
      ((before ++ c :: after).flatMap fun c => List.range' (f c) c.draftLen)[
        (before.map (·.draftLen)).sum+t]? = some (f c+t) := by
    have hbefore : (before.flatMap fun c => List.range' (f c) c.draftLen).length =
        (before.map (·.draftLen)).sum := by
      rw [length_flatMap]
      simp
    rw [flatMap_append, getElem?_append_right (by omega), hbefore, Nat.add_sub_cancel_left,
      flatMap_cons, getElem?_append_left (by rw [length_range']; exact ht),
      getElem?_range' ht, Nat.one_mul]
  rw [hx]
  refine scatter_at (k := (before.map (·.draftLen)).sum+t) h.specIndices_nodup ?_ ?_ hlt
  · rw [specIndices, hsplit]
    exact hplace
  · rw [draftIndices, getElem?_map, hsplit, hplace, map_some, hflat, hx]
    rfl

def baseBuffer (prev : PrevStep) (batch : List CurRequest) (cpu gpu : List Token) : List Token :=
  let total := (batch.map (·.numScheduledTokens)).sum
  if (commons prev 0 batch).length < total-((commons prev 0 batch).map (·.draftLen)).sum then
    copyToGpu total cpu gpu
  else gpu

theorem Fits.length_baseBuffer (h : Fits prev batch sampled cpu gpu) :
    (baseBuffer prev batch cpu gpu).length = gpu.length := by
  rw [baseBuffer]
  split
  · exact length_copyToGpu h.cpu_long h.gpu_long
  · rfl

/-- A request with a token that is neither sampled nor drafted makes the CPU buffer be copied. -/
theorem Fits.baseBuffer_at (h : Fits prev batch sampled cpu gpu) (he : e ∈ batch)
    (hslack : 0 < slack prev e) (hpos : pos < (batch.map (·.numScheduledTokens)).sum) :
    (baseBuffer prev batch cpu gpu)[pos]? = cpu[pos]? := by
  have htotal := total_eq prev 0 h.counts
  have hle := single_le_sum (fun _ _ => Nat.zero_le _) _ (mem_map_of_mem (f := slack prev) he)
  rw [baseBuffer, if_pos (by omega)]
  exact copyToGpu_lt h.cpu_long hpos

theorem commons_stop (hc : c ∈ commons prev 0 batch) :
    c.stop ≤ (batch.map (·.numScheduledTokens)).sum := by
  have hall (l : List CurRequest) (s : ℕ) (c : Common) (hc : c ∈ commons prev s l) :
      c.stop ≤ s+(l.map (·.numScheduledTokens)).sum := by
    induction l generalizing s with
    | nil => cases hc
    | cons e l ih =>
      rw [map_cons, sum_cons, ← Nat.add_assoc]
      rw [commons] at hc
      cases hprev : prev.reqIdToIndex e.reqId with
      | none =>
        rw [hprev] at hc
        exact ih _ hc
      | some j =>
        rw [hprev] at hc
        rcases mem_cons.mp hc with rfl | hc
        · exact Nat.le_add_right _ _
        · exact ih _ hc
  have := hall batch 0 c hc
  omega

theorem visitBatch_plan (prev : PrevStep) (batch : List CurRequest) :
    (visitBatch prev batch).sampleFlattenedIndices = sampleIndices (commons prev 0 batch) ∧
    (visitBatch prev batch).specFlattenedIndices = specIndices (commons prev 0 batch) ∧
    (visitBatch prev batch).prevDraftTokenIndices =
      draftIndices prev.numSpecTokens (commons prev 0 batch) ∧
    (visitBatch prev batch).prevIndices = (commons prev 0 batch).map (·.prevIndex) ∧
    (visitBatch prev batch).totalNumSpecTokens = ((commons prev 0 batch).map (·.draftLen)).sum := by
  rw [visitBatch_eq, planOf_eq]
  exact ⟨rfl,rfl,rfl,rfl,Nat.zero_add _⟩

/-- After the two scatters: the sampled tokens and the drafts in their places, all other positions as
before. -/
theorem Fits.scatterPrevious (h : Fits prev batch sampled cpu gpu)
    (hbase : base.length = gpu.length) :
    ∃ out, scatterPrevious prev sampled (visitBatch prev batch) base = some out ∧
      (∀ pos, (∀ c ∈ commons prev 0 batch, pos < c.stop-1-c.draftLen ∨ c.stop ≤ pos) →
        out[pos]? = base[pos]?) ∧
      (∀ c ∈ commons prev 0 batch, out[c.stop-1-c.draftLen]? = sampled[c.prevIndex]?) ∧
      ∀ c ∈ commons prev 0 batch, ∀ t, t < c.draftLen →
        out[c.stop-1-c.draftLen+1+t]? = draftAt prev c.prevIndex t := by
  obtain ⟨hsample,hspec,hdraft,hindices,-⟩ := visitBatch_plan prev batch
  have hgather : ((commons prev 0 batch).map (·.prevIndex)).mapM (fun i => sampled[i]?) =
      some ((commons prev 0 batch).map fun c => (sampled[c.prevIndex]?).getD 0) := by
    rw [mapM_of_forall (g := fun i => (sampled[i]?).getD 0)]
    · rw [List.map_map]
      rfl
    · intro i hi
      obtain ⟨c,hc,rfl⟩ := mem_map.mp hi
      rw [getElem?_eq_getElem (h.common c hc).2.1]
      rfl
  set first := scatter base (sampleIndices (commons prev 0 batch))
    ((commons prev 0 batch).map fun c => (sampled[c.prevIndex]?).getD 0) with hfirst
  have hlong : first.length = gpu.length := (length_scatter _ _ _).trans hbase
  have hwithin {c : Common} (hc : c ∈ commons prev 0 batch) : c.stop ≤ gpu.length :=
    (commons_stop hc).trans h.gpu_long
  have hother (pos : ℕ)
      (hpos : ∀ c ∈ commons prev 0 batch, pos < c.stop-1-c.draftLen ∨ c.stop ≤ pos) :
      first[pos]? = base[pos]? := by
    refine scatter_of_notMem fun hmem => ?_
    obtain ⟨c,hc,rfl⟩ := mem_map.mp hmem
    have := hpos c hc
    have := (h.common c hc).1
    omega
  have hsampled (c : Common) (hc : c ∈ commons prev 0 batch) :
      first[c.stop-1-c.draftLen]? = sampled[c.prevIndex]? := by
    refine h.scatter_sampled hc ?_
    have := hwithin hc
    have := (h.common c hc).1
    omega
  -- without drafts the first scatter is all there is
  have hnodrafts (hnone : ∀ c ∈ commons prev 0 batch, c.draftLen = 0) :
      (∀ pos, (∀ c ∈ commons prev 0 batch, pos < c.stop-1-c.draftLen ∨ c.stop ≤ pos) →
        first[pos]? = base[pos]?) ∧
      (∀ c ∈ commons prev 0 batch, first[c.stop-1-c.draftLen]? = sampled[c.prevIndex]?) ∧
      ∀ c ∈ commons prev 0 batch, ∀ t, t < c.draftLen →
        first[c.stop-1-c.draftLen+1+t]? = draftAt prev c.prevIndex t := by
    refine ⟨hother,hsampled,fun c hc t ht => ?_⟩
    have := hnone c hc
    omega
  rw [InputIds.scatterPrevious, hindices, hgather, hsample, hspec, hdraft, bind_some]
  cases hrows : prev.draftTokenIds with
  | none =>
    refine ⟨first,rfl,hnodrafts fun c hc => ?_⟩
    have hdrafts := (h.common c hc).2.2
    rw [hrows] at hdrafts
    exact Nat.le_zero.mp hdrafts
  | some rows =>
    dsimp only
    by_cases hempty : specIndices (commons prev 0 batch) = []
    · rw [if_pos hempty]
      refine ⟨first,rfl,hnodrafts fun c hc => ?_⟩
      have := flatMap_eq_nil_iff.mp hempty c hc
      rwa [range'_eq_nil_iff] at this
    rw [if_neg hempty]
    have hgather' : (draftIndices prev.numSpecTokens (commons prev 0 batch)).mapM
        (fun i => rows.flatten[i]?) = some ((draftIndices prev.numSpecTokens
          (commons prev 0 batch)).map fun i => (rows.flatten[i]?).getD 0) := by
      refine mapM_of_forall fun i hi => ?_
      obtain ⟨c,hc,hmem⟩ := mem_flatMap.mp hi
      obtain ⟨hlo,hhi⟩ := mem_range'_1.mp hmem
      obtain ⟨-,hrow,hdrafts⟩ := h.common c hc
      obtain ⟨hlen,hwidth⟩ := h.width rows hrows
      rw [hrows, isSome_some, if_pos rfl] at hdrafts
      have hlt : i < rows.flatten.length := by
        have hflat : rows.flatten.length = rows.length*prev.numSpecTokens := by
          rw [length_flatten, map_congr_left hwidth, map_const', sum_replicate]
          rfl
        have hstep : (c.prevIndex+1)*prev.numSpecTokens ≤ rows.length*prev.numSpecTokens :=
          Nat.mul_le_mul_right _ (by omega)
        rw [Nat.succ_mul] at hstep
        omega
      rw [getElem?_eq_getElem hlt]
      rfl
    rw [hgather', map_some]
    refine ⟨_,rfl,fun pos hpos => ?_,fun c hc => ?_,fun c hc t ht => ?_⟩
    · rw [scatter_of_notMem, hother pos hpos]
      intro hmem
      obtain ⟨c,hc,hlo,hhi⟩ := mem_specIndices.mp hmem
      have := hpos c hc
      have := (h.common c hc).1
      omega
    · rw [scatter_of_notMem, hsampled c hc]
      intro hmem
      obtain ⟨c',hc',hlo,hhi⟩ := mem_specIndices.mp hmem
      have hroom := (h.common c hc).1
      have hroom' := (h.common c' hc').1
      -- two common requests do not overlap
      rcases commons_disjoint hc hc' with rfl | hle | hle <;> omega
    · refine h.scatter_drafts hrows hc ht ?_
      rw [hlong]
      have := hwithin hc
      have := (h.common c hc).1
      omega

theorem slack_pos_of_none (h : Fits prev batch sampled cpu gpu) (he : e ∈ batch)
    (hprev : prev.reqIdToIndex e.reqId = none) : 0 < slack prev e := by
  have := h.counts e he
  rw [slack, hprev, isSome_none, if_neg (by simp)]
  omega

theorem Fits.slice (h : Fits prev batch sampled cpu gpu)
    (hmatch : ∀ c ∈ commons prev 0 batch, c.prevIndex = c.stop-1)
    (hstop : ∀ c ∈ commons prev 0 batch, c.stop ≤ (commons prev 0 batch).length)
    (hlast : ∃ c ∈ commons prev 0 batch, c.stop = (commons prev 0 batch).length)
    (he : batch[i]? = some e) {p : ℕ} (hp : p < e.numScheduledTokens) :
    (copyToGpu (commons prev 0 batch).length sampled (baseBuffer prev batch cpu gpu))[
      startOf batch i+p]? = expectedId prev sampled cpu e (startOf batch i) p := by
  have hmem := mem_of_getElem? he
  have hshape := (slice_shape (s := 0) h.counts hstop).2 (by omega) i e he
  have hcovers : (commons prev 0 batch).length ≤ sampled.length := by
    -- the last position copied is the row of a common request
    obtain ⟨c,hc,heq⟩ := hlast
    have hrow := hmatch c hc
    have hlt := (h.common c hc).2.1
    omega
  rw [expectedId]
  rcases hshape with ⟨hprev,hstart⟩ | ⟨hsome,hone⟩
  · rw [hprev, copyToGpu_ge hcovers (by omega),
      h.baseBuffer_at hmem (slack_pos_of_none h hmem hprev)]
    have := startOf_add_le he
    omega
  · obtain ⟨j,hj⟩ := isSome_iff_exists.mp hsome
    have hc := (commons_at prev 0 he).1 j hj
    have hrow := hmatch _ hc
    have hend := hstop _ hc
    have hcount := h.counts e hmem
    simp only [Nat.zero_add] at hrow hend
    have hp0 : p = 0 := by omega
    have hd0 : e.draftLen = 0 := by omega
    rw [hj, copyToGpu_lt hcovers (by omega)]
    simp only [hp0, hd0, hone]
    rw [if_neg (by omega), if_pos trivial, hrow]
    congr 1
    omega

theorem foldl_max_spec (cs : List Common) (m : ℤ) :
    m ≤ cs.foldl (fun m c => max m ((c.stop-1:ℕ):ℤ)) m ∧
    (∀ c ∈ cs, ((c.stop-1:ℕ):ℤ) ≤ cs.foldl (fun m c => max m ((c.stop-1:ℕ):ℤ)) m) ∧
    (cs.foldl (fun m c => max m ((c.stop-1:ℕ):ℤ)) m = m ∨
      ∃ c ∈ cs, cs.foldl (fun m c => max m ((c.stop-1:ℕ):ℤ)) m = ((c.stop-1:ℕ):ℤ)) := by
  induction cs generalizing m with
  | nil => exact ⟨le_rfl,(fun _ hc => nomatch hc),.inl rfl⟩
  | cons a cs ih =>
    obtain ⟨hle,hall,hattained⟩ := ih (max m ((a.stop-1:ℕ):ℤ))
    refine ⟨(le_max_left _ _).trans hle,forall_mem_cons.mpr ⟨?_,hall⟩,?_⟩
    · exact (le_max_right _ _).trans hle
    rw [foldl_cons]
    rcases hattained with heq | ⟨c,hc,heq⟩
    · rcases max_choice m ((a.stop-1:ℕ):ℤ) with hm | ha
      · exact .inl (heq.trans hm)
      · exact .inr ⟨a,mem_cons_self,heq.trans ha⟩
    · exact .inr ⟨c,mem_cons_of_mem _ hc,heq⟩

/-- At every scheduled position the device holds the sampled token, the draft or the CPU's token that
belongs there. -/
theorem prepare_input_ids_complete (h : Fits prev batch sampled cpu gpu) :
    ∃ out, prepareInputIds prev batch cpu gpu = some out ∧
      ∀ i e, batch[i]? = some e → ∀ p, p < e.numScheduledTokens →
        out[startOf batch i+p]? = expectedId prev sampled cpu e (startOf batch i) p := by
  obtain ⟨hsample,hspec,hdraft,hindices,htotal⟩ := visitBatch_plan prev batch
  have hlen : (visitBatch prev batch).sampleFlattenedIndices.length =
      (commons prev 0 batch).length := by
    rw [hsample, sampleIndices, length_map]
  have hbuffer : (if (commons prev 0 batch).length < (batch.map (·.numScheduledTokens)).sum-
      ((commons prev 0 batch).map (·.draftLen)).sum then
        copyToGpu (batch.map (·.numScheduledTokens)).sum cpu gpu else gpu) =
      baseBuffer prev batch cpu gpu := rfl
  rw [prepareInputIds, h.available]
  simp only [hlen, htotal, hbuffer]
  by_cases hnone : (commons prev 0 batch).length = 0
  · -- nobody is common
    rw [if_pos hnone]
    refine ⟨_,rfl,fun i e he p hp => ?_⟩
    have hmem := mem_of_getElem? he
    cases hprev : prev.reqIdToIndex e.reqId with
    | none =>
      have := startOf_add_le he
      rw [expectedId, hprev, h.baseBuffer_at hmem (slack_pos_of_none h hmem hprev) (by omega)]
    | some j =>
      have hc := (commons_at prev 0 he).1 j hprev
      rw [eq_nil_of_length_eq_zero hnone] at hc
      cases hc
  rw [if_neg hnone]
  by_cases hslice : (visitBatch prev batch).commonIndicesMatch = true ∧
      (visitBatch prev batch).maxFlattenedIndex = ((commons prev 0 batch).length:ℤ)-1
  · rw [if_pos hslice]
    obtain ⟨hmatch,hmax⟩ := hslice
    rw [visitBatch_eq, planOf_eq] at hmatch hmax
    change (commons prev 0 batch).foldl (fun m c => max m ((c.stop-1:ℕ):ℤ)) (-1) = _ at hmax
    simp only [Bool.true_and, List.all_eq_true, decide_eq_true_eq] at hmatch
    obtain ⟨-,hbound,hattained⟩ := foldl_max_spec (commons prev 0 batch) (-1)
    rw [hmax] at hbound hattained
    refine ⟨_,rfl,fun i e he p hp => h.slice hmatch (fun c hc => ?_) ?_ he hp⟩
    · have := hbound c hc
      omega
    · rcases hattained with heq | ⟨c,hc,heq⟩
      · omega
      · have := (h.common c hc).1
        exact ⟨c,hc,by omega⟩
  rw [if_neg hslice]
  obtain ⟨out,hout,hother,hsampled,hdrafted⟩ := h.scatterPrevious h.length_baseBuffer
  refine ⟨out,hout,fun i e he p hp => ?_⟩
  have hmem := mem_of_getElem? he
  have hin := startOf_add_le he
  have hcount := h.counts e hmem
  obtain ⟨hcommon,hcover⟩ := commons_at prev 0 he
  simp only [Nat.zero_add] at hcommon hcover
  have hfree (hpos : ∀ c ∈ commons prev 0 batch, prev.reqIdToIndex e.reqId = some c.prevIndex →
      c.stop = startOf batch i+e.numScheduledTokens → c.draftLen = e.draftLen →
        startOf batch i+p < c.stop-1-c.draftLen) (hslack : 0 < slack prev e) :
      out[startOf batch i+p]? = cpu[startOf batch i+p]? := by
    rw [hother _ fun c hc => ?_, h.baseBuffer_at hmem hslack (by omega)]
    by_contra hcon
    obtain ⟨hlo,hhi⟩ := not_or.mp hcon
    have hroom := (h.common c hc).1
    obtain ⟨hj,hstop,hd⟩ := hcover c hc (startOf batch i+p) (by omega) (by omega) (by omega) (by omega)
    exact hlo (hpos c hc hj hstop hd)
  rw [expectedId]
  cases hprev : prev.reqIdToIndex e.reqId with
  | none =>
    refine hfree (fun c _ hj => ?_) (slack_pos_of_none h hmem hprev)
    rw [hprev] at hj
    cases hj
  | some j =>
    have hc := hcommon j hprev
    have hslack : slack prev e = e.numScheduledTokens-1-e.draftLen := by
      rw [slack, hprev]
      rfl
    dsimp only
    split
    · exact hfree (fun c _ _ hstop hd => by omega) (by omega)
    split
    · have := hsampled _ hc
      have hpos : startOf batch i+e.numScheduledTokens-1-e.draftLen = startOf batch i+p := by omega
      simp only [hpos] at this
      exact this
    · have := hdrafted _ hc (p+e.draftLen-e.numScheduledTokens) (by simp only; omega)
      have hpos : startOf batch i+e.numScheduledTokens-1-e.draftLen+1+
          (p+e.draftLen-e.numScheduledTokens) = startOf batch i+p := by omega
      simp only [hpos] at this
      exact this

/-- Two requests that changed places, one of them with a draft, and a new prompt. -/
theorem prepare_input_ids_swapped :
    let prev : PrevStep := ⟨some [70,71],fun r => if r = 0 then some 1 else if r = 1 then some 0 else none,
      some [[5],[6]],1⟩
    let batch : List CurRequest := [⟨0,2,1⟩,⟨1,1,0⟩,⟨2,3,0⟩]
    prepareInputIds prev batch [0,0,0,11,12,13] [0,0,0,0,0,0,0] =
        some [71,6,70,11,12,13,0] ∧
      ∃ out, prepareInputIds prev batch [0,0,0,11,12,13] [0,0,0,0,0,0,0] = some out ∧
        ∀ i e, batch[i]? = some e → ∀ p, p < e.numScheduledTokens →
          out[startOf batch i+p]? =
            expectedId prev [70,71] [0,0,0,11,12,13] e (startOf batch i) p := by
  refine ⟨by decide,prepare_input_ids_complete
    ⟨rfl,by decide,?_,by decide,by decide,by decide,by decide⟩⟩
  simp only [forall_mem_cons]
  refine ⟨?_,?_,?_,(fun _ h => nomatch h)⟩ <;> (intro j hj; cases hj <;> decide)

end Device

end MetaZenith.InputIds
