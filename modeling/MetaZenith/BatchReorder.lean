import MetaZenith.CycleSwaps

/-! `reorder_batch_to_split_decodes_and_prefills` and `split_decodes_and_prefills`: the batch is
rearranged in place into four regions, and the decodes are the requests in front with short
queries. -/

namespace MetaZenith.BatchReorder

open List Option CycleSwaps

structure BatchRow where
  reqId : ℕ
  numScheduledTokens : ℕ
  numComputedTokens : ℕ
  numPromptTokens : ℕ
  deriving DecidableEq, Repr

inductive Region where
  | decode | shortExtend | longExtend | prefill
  deriving DecidableEq, Repr

def Region.code : Region → ℕ
  | decode => 0
  | shortExtend => 1
  | longExtend => 2
  | prefill => 3

def BatchRow.region (decodeThreshold : ℕ) (row : BatchRow) : Region :=
  let hasContext := decide (0 < row.numComputedTokens)
  let isBelowThreshold := decide (row.numScheduledTokens ≤ decodeThreshold)
  let donePrefilling := decide (row.numPromptTokens ≤ row.numComputedTokens)
  if !hasContext then .prefill
  else if hasContext && !isBelowThreshold then .longExtend
  else if hasContext && isBelowThreshold && !donePrefilling then .shortExtend
  else .decode

variable (decodeThreshold : ℕ) (rows : List BatchRow)

def reqRegions : List Region := rows.map (BatchRow.region decodeThreshold)

def targetRegions : List Region :=
  let regions := reqRegions decodeThreshold rows
  List.replicate (regions.count .decode) .decode ++
    List.replicate (regions.count .shortExtend) .shortExtend ++
    List.replicate (regions.count .longExtend) .longExtend ++
    List.replicate (regions.count .prefill) .prefill

def needsSwap (i : ℕ) : Bool :=
  decide ((reqRegions decodeThreshold rows)[i]? ≠ (targetRegions decodeThreshold rows)[i]?)

def origIndices : List ℕ := (List.range rows.length).filter (needsSwap decodeThreshold rows)

def regionCode (i : ℕ) : ℕ := ((reqRegions decodeThreshold rows)[i]?.map Region.code).getD 0

def srcIndices : List ℕ :=
  (origIndices decodeThreshold rows).insertionSort fun a b =>
    regionCode decodeThreshold rows a ≤ regionCode decodeThreshold rows b

def srcDestMap (i : ℕ) : ℕ :=
  (((srcIndices decodeThreshold rows).zip (origIndices decodeThreshold rows)).lookup i).getD i

/-- The reordering of a batch of any kind with its `swap_states`: whether it was modified, and the
batch. `none` is a loop that has not ended. -/
def reorderBatchToSplitDecodesAndPrefills {β : Type*} (swapStates : β → ℕ → ℕ → β) (batch : β) :
    Option (Bool × β) :=
  if !(List.range rows.length).any (needsSwap decodeThreshold rows) then some (false,batch)
  else (followAll swapStates (rows.length+1) (srcIndices decodeThreshold rows)
    (srcDestMap decodeThreshold rows) batch).map (true,·)

/-- `split_decodes_and_prefills` of the query lengths of a batch: the numbers of decodes and
prefills and their tokens. `none` is a first length of an empty batch. -/
def splitDecodesAndPrefills (queryLens : List ℕ) (isPrefilling : List Bool) (requireUniform : Bool)
    (treatShortExtendsAsDecodes : Bool) : Option (ℕ × ℕ × ℕ × ℕ) :=
  let numReqs := queryLens.length
  let numTokens := queryLens.sum
  let allDecodes := (numReqs,0,numTokens,0)
  if (queryLens.foldl max 0 ≤ decodeThreshold ∧ (!requireUniform ∨ decodeThreshold ≤ 1)) ∧
      treatShortExtendsAsDecodes then some allDecodes
  else
    match queryLens with
    | [] => none
    | first :: _ =>
      if decodeThreshold < first then some (0,numReqs,0,numTokens)
      else if requireUniform && treatShortExtendsAsDecodes &&
          queryLens.all (fun l => l == first || l == 0) then some allDecodes
      else
        let isPrefill := queryLens.map fun l =>
          if requireUniform then l != first else decide (decodeThreshold < l)
        let isPrefill := if treatShortExtendsAsDecodes then isPrefill
          else isPrefill.zipWith (· || ·) isPrefilling
        match isPrefill.findIdx? id with
        | none => some allDecodes
        | some firstPrefill =>
          let numDecodeTokens := (queryLens.take firstPrefill).sum
          some (firstPrefill,numReqs-firstPrefill,numDecodeTokens,numTokens-numDecodeTokens)

section Positions

variable {decodeThreshold rows}

theorem lookup_zip {keys vals : List ℕ} (hnodup : keys.Nodup) {k x v : ℕ} (hk : keys[k]? = some x)
    (hv : vals[k]? = some v) : (keys.zip vals).lookup x = some v := by
  induction keys generalizing vals k with
  | nil => cases hk
  | cons key keys ih =>
    cases vals with
    | nil => cases hv
    | cons val vals =>
      obtain ⟨hnot,hnodup⟩ := nodup_cons.mp hnodup
      rw [zip_cons_cons]
      cases k with
      | zero =>
        cases hk
        cases hv
        exact lookup_cons_self
      | succ k =>
        rw [getElem?_cons_succ] at hk hv
        have hne : (x == key) = false := by
          refine beq_false_of_ne ?_
          rintro rfl
          exact hnot (mem_of_getElem? hk)
        rw [lookup_cons, hne]
        exact ih hnodup hk hv

theorem lookup_zip_eq_none {keys vals : List ℕ} {x : ℕ} (hx : x ∉ keys) :
    (keys.zip vals).lookup x = none := by
  refine lookup_eq_none_iff.mpr fun p hp => ?_
  rw [bne_iff_ne]
  rintro rfl
  exact hx (of_mem_zip hp).1

theorem srcIndices_perm : (srcIndices decodeThreshold rows).Perm (origIndices decodeThreshold rows) :=
  perm_insertionSort _ _

theorem origIndices_nodup : (origIndices decodeThreshold rows).Nodup :=
  nodup_range.filter _

theorem srcIndices_nodup : (srcIndices decodeThreshold rows).Nodup :=
  srcIndices_perm.nodup_iff.mpr origIndices_nodup

theorem mem_srcIndices {i : ℕ} : i ∈ srcIndices decodeThreshold rows ↔
    i < rows.length ∧ needsSwap decodeThreshold rows i = true := by
  rw [srcIndices_perm.mem_iff, origIndices, mem_filter, mem_range]

def destSrcMap (decodeThreshold : ℕ) (rows : List BatchRow) (i : ℕ) : ℕ :=
  (((origIndices decodeThreshold rows).zip (srcIndices decodeThreshold rows)).lookup i).getD i

/-- A position that needs swapping and its destination stand at the same place of the two lists. -/
theorem exists_destination {i : ℕ} (hi : i ∈ srcIndices decodeThreshold rows) :
    ∃ k j : ℕ, (srcIndices decodeThreshold rows)[k]? = some i ∧
      (origIndices decodeThreshold rows)[k]? = some j ∧
      srcDestMap decodeThreshold rows i = j ∧ destSrcMap decodeThreshold rows j = i := by
  obtain ⟨k,hk,hget⟩ := mem_iff_getElem.mp hi
  have hk' : k < (origIndices decodeThreshold rows).length := by
    rw [← srcIndices_perm.length_eq]
    exact hk
  have hsrc : (srcIndices decodeThreshold rows)[k]? = some i := by
    rw [getElem?_eq_getElem hk, hget]
  have horig := getElem?_eq_getElem hk'
  refine ⟨k,_,hsrc,horig,?_,?_⟩
  · rw [srcDestMap, lookup_zip srcIndices_nodup hsrc horig, getD_some]
  · rw [destSrcMap, lookup_zip origIndices_nodup horig hsrc, getD_some]

theorem exists_source {j : ℕ} (hj : j ∈ origIndices decodeThreshold rows) :
    ∃ i, srcDestMap decodeThreshold rows i = j := by
  obtain ⟨k,hk,hget⟩ := mem_iff_getElem.mp hj
  have hk' : k < (srcIndices decodeThreshold rows).length := by
    rw [srcIndices_perm.length_eq]
    exact hk
  have horig : (origIndices decodeThreshold rows)[k]? = some j := by
    rw [getElem?_eq_getElem hk, hget]
  refine ⟨(srcIndices decodeThreshold rows)[k],?_⟩
  rw [srcDestMap, lookup_zip srcIndices_nodup (getElem?_eq_getElem hk') horig, getD_some]

theorem srcDestMap_of_not_mem {i : ℕ} (hi : i ∉ srcIndices decodeThreshold rows) :
    srcDestMap decodeThreshold rows i = i := by
  rw [srcDestMap, lookup_zip_eq_none hi, getD_none]

theorem destSrcMap_of_not_mem {i : ℕ} (hi : i ∉ srcIndices decodeThreshold rows) :
    destSrcMap decodeThreshold rows i = i := by
  rw [srcIndices_perm.mem_iff] at hi
  rw [destSrcMap, lookup_zip_eq_none hi, getD_none]

theorem srcDestMap_injective : Function.Injective (srcDestMap decodeThreshold rows) := by
  apply Function.LeftInverse.injective (g := destSrcMap decodeThreshold rows)
  intro i
  by_cases hi : i ∈ srcIndices decodeThreshold rows
  · obtain ⟨k,j,-,-,hdest,hback⟩ := exists_destination hi
    rw [hdest, hback]
  · rw [srcDestMap_of_not_mem hi, destSrcMap_of_not_mem hi]

end Positions

section Regions

variable {decodeThreshold rows}

theorem perm_filter_of_perm {ι κ : Type*} {l : List ι} {f g : ι → κ} {p : ι → Bool}
    (hperm : (l.map f).Perm (l.map g)) (hagree : ∀ i ∈ l, p i = false → f i = g i) :
    ((l.filter p).map f).Perm ((l.filter p).map g) := by
  have hsplit (h : ι → κ) : (l.map h).Perm ((l.filter p).map h ++ (l.filter (!p ·)).map h) := by
    rw [← map_append]
    exact (filter_append_perm p l).symm.map h
  have hrest : (l.filter (!p ·)).map f = (l.filter (!p ·)).map g := by
    refine map_congr_left fun i hi => ?_
    obtain ⟨hmem,hp⟩ := mem_filter.mp hi
    exact hagree i hmem (by simpa using hp)
  have hwhole := ((hsplit f).symm.trans hperm).trans (hsplit g)
  rw [hrest] at hwhole
  exact (perm_append_right_iff _).mp hwhole

theorem targetRegions_perm :
    (targetRegions decodeThreshold rows).Perm (reqRegions decodeThreshold rows) := by
  rw [perm_iff_count]
  intro region
  cases region <;> simp [targetRegions, count_replicate]

theorem targetRegions_sorted :
    ((targetRegions decodeThreshold rows).map Region.code).Pairwise (· ≤ ·) := by
  have hpiece (n : ℕ) (c : ℕ) : (List.replicate n c).Pairwise (· ≤ ·) :=
    pairwise_replicate.mpr (.inr le_rfl)
  simp only [targetRegions, map_append, map_replicate, Region.code]
  refine pairwise_append.mpr ⟨pairwise_append.mpr ⟨pairwise_append.mpr
    ⟨hpiece _ _,hpiece _ _,?_⟩,hpiece _ _,?_⟩,hpiece _ _,?_⟩
  all_goals
    intro a ha b hb
    simp only [mem_append, mem_replicate] at ha hb
    omega

def targetCode (decodeThreshold : ℕ) (rows : List BatchRow) (i : ℕ) : ℕ :=
  ((targetRegions decodeThreshold rows)[i]?.map Region.code).getD 0

theorem length_targetRegions : (targetRegions decodeThreshold rows).length = rows.length := by
  rw [targetRegions_perm.length_eq, reqRegions, length_map]

theorem map_range_code {regions : List Region} :
    (List.range regions.length).map (fun i => (regions[i]?.map Region.code).getD 0) =
      regions.map Region.code := by
  refine ext_getElem (by simp) fun i hi hi' => ?_
  rw [length_map] at hi'
  simp [getElem?_eq_getElem hi']

theorem codes_eq (decodeThreshold : ℕ) (rows : List BatchRow) : (srcIndices decodeThreshold rows).map (regionCode decodeThreshold rows) =
    (origIndices decodeThreshold rows).map (targetCode decodeThreshold rows) := by
  have hreq : (List.range rows.length).map (regionCode decodeThreshold rows) =
      (reqRegions decodeThreshold rows).map Region.code := by
    have hlen : rows.length = (reqRegions decodeThreshold rows).length := by
      rw [reqRegions, length_map]
    rw [hlen]
    exact map_range_code
  have htarget : (List.range rows.length).map (targetCode decodeThreshold rows) =
      (targetRegions decodeThreshold rows).map Region.code := by
    have hlen : rows.length = (targetRegions decodeThreshold rows).length := length_targetRegions.symm
    rw [hlen]
    exact map_range_code
  -- both lists are sorted, and one is a rearrangement of the other
  have hperm : ((srcIndices decodeThreshold rows).map (regionCode decodeThreshold rows)).Perm
      ((origIndices decodeThreshold rows).map (targetCode decodeThreshold rows)) := by
    refine (srcIndices_perm.map _).trans (perm_filter_of_perm ?_ fun i _ hi => ?_)
    · rw [hreq, htarget]
      exact (targetRegions_perm.map _).symm
    · have heq : (reqRegions decodeThreshold rows)[i]? = (targetRegions decodeThreshold rows)[i]? := by
        simpa [needsSwap] using hi
      rw [regionCode, targetCode, heq]
  have hsrc : ((srcIndices decodeThreshold rows).map (regionCode decodeThreshold rows)).Pairwise
      (· ≤ ·) := by
    rw [pairwise_map]
    exact pairwise_insertionSort _ _
  have horig : ((origIndices decodeThreshold rows).map (targetCode decodeThreshold rows)).Pairwise
      (· ≤ ·) := by
    have hall : ((List.range rows.length).map (targetCode decodeThreshold rows)).Pairwise (· ≤ ·) := by
      rw [htarget]
      exact targetRegions_sorted
    exact hall.sublist (filter_sublist.map _)
  exact hperm.eq_of_pairwise (fun a b _ _ => Nat.le_antisymm) hsrc horig

theorem code_injective : Function.Injective Region.code := by
  intro a b h
  cases a <;> cases b <;> first | rfl | cases h

theorem region_at_destination (i : ℕ) : (reqRegions decodeThreshold rows)[i]? =
      (targetRegions decodeThreshold rows)[srcDestMap decodeThreshold rows i]? := by
  by_cases hi : i ∈ srcIndices decodeThreshold rows
  · obtain ⟨k,j,hk,hj,hdest,-⟩ := exists_destination hi
    have hlt : i < (reqRegions decodeThreshold rows).length := by
      rw [reqRegions, length_map]
      exact (mem_srcIndices.mp hi).1
    have hlt' : j < (targetRegions decodeThreshold rows).length := by
      have hmem := mem_of_getElem? hj
      rw [length_targetRegions]
      exact mem_range.mp (mem_of_mem_filter hmem)
    have hcode := congrArg (fun l : List ℕ => l[k]?) (codes_eq decodeThreshold rows)
    simp only [getElem?_map, hk, hj, map_some, Option.some.injEq, regionCode, targetCode,
      getElem?_eq_getElem hlt, getElem?_eq_getElem hlt', getD_some] at hcode
    rw [hdest, getElem?_eq_getElem hlt, getElem?_eq_getElem hlt', code_injective hcode]
  · rw [srcDestMap_of_not_mem hi]
    by_cases hlt : i < rows.length
    · have hno : needsSwap decodeThreshold rows i = false := by
        rw [mem_srcIndices] at hi
        simpa [hlt] using hi
      simpa [needsSwap] using hno
    · rw [getElem?_eq_none (by rw [reqRegions, length_map]; omega),
        getElem?_eq_none (by rw [length_targetRegions]; omega)]

/-- The swaps the reordering makes: each request goes to its destination, and only positions that
need swapping are touched. -/
theorem exists_swaps (decodeThreshold : ℕ) (rows : List BatchRow) :
    ∃ (modified : Bool) (log : List (ℕ × ℕ)), (∀ (β : Type) (swapStates : β → ℕ → ℕ → β) (batch : β),
        reorderBatchToSplitDecodesAndPrefills decodeThreshold rows swapStates batch =
          some (modified,applySwaps swapStates log batch)) ∧
      (∀ i, (applySwaps swapEntries log rows)[srcDestMap decodeThreshold rows i]? = rows[i]?) ∧
      ∀ p ∈ log, needsSwap decodeThreshold rows p.1 = true ∧
        needsSwap decodeThreshold rows p.2 = true := by
  have hmoves {i : ℕ} (hi : srcDestMap decodeThreshold rows i ≠ i) :
      i ∈ srcIndices decodeThreshold rows := by
    by_contra hmem
    exact hi (srcDestMap_of_not_mem hmem)
  have hfix (i : ℕ) (hi : rows.length ≤ i) : srcDestMap decodeThreshold rows i = i := by
    refine srcDestMap_of_not_mem fun hmem => ?_
    have := (mem_srcIndices.mp hmem).1
    omega
  have hnodup : (srcIndices decodeThreshold rows).Nodup := srcIndices_nodup
  obtain ⟨log,hfollow,hplace,hlog⟩ := swaps_of_followAll srcDestMap_injective hfix
    (fun _ => hmoves) hnodup
  have hneeds (p : ℕ × ℕ) (hp : p ∈ log) : needsSwap decodeThreshold rows p.1 = true ∧
      needsSwap decodeThreshold rows p.2 = true :=
    ⟨(mem_srcIndices.mp (hmoves (hlog p hp).1)).2,(mem_srcIndices.mp (hmoves (hlog p hp).2)).2⟩
  cases hany : (List.range rows.length).any (needsSwap decodeThreshold rows) with
  | false =>
    -- nothing needs swapping, and the map moves nothing
    have hnone (i : ℕ) : srcDestMap decodeThreshold rows i = i := by
      refine srcDestMap_of_not_mem fun hmem => ?_
      obtain ⟨hlt,hneed⟩ := mem_srcIndices.mp hmem
      have := any_eq_false.mp hany i (mem_range.mpr hlt)
      exact this hneed
    refine ⟨false,[],fun β swapStates batch => ?_,fun i => ?_,fun _ h => nomatch h⟩
    · rw [reorderBatchToSplitDecodesAndPrefills, hany]
      rfl
    · rw [hnone]
      rfl
  | true =>
    refine ⟨true,log,fun β swapStates batch => ?_,hplace,hneeds⟩
    have hall := followAll_eq_record swapStates (rows.length+1) (srcIndices decodeThreshold rows)
      (srcDestMap decodeThreshold rows) [] batch
    rw [hfollow] at hall
    rw [reorderBatchToSplitDecodesAndPrefills, hany]
    change (followAll swapStates _ _ _ (applySwaps swapStates [] batch)).map _ = _
    rw [hall]
    rfl

end Regions

theorem foldl_max_le {l : List ℕ} {a b : ℕ} (h : l.foldl max a ≤ b) : a ≤ b ∧ ∀ x ∈ l, x ≤ b := by
  induction l generalizing a with
  | nil => exact ⟨h,fun _ hx => nomatch hx⟩
  | cons x l ih =>
    obtain ⟨hax,hl⟩ := ih h
    refine ⟨by omega,fun y hy => ?_⟩
    rcases mem_cons.mp hy with rfl | hy
    · omega
    · exact hl y hy

/-- With the default flags the decodes are the longest run of short queries in front. -/
theorem splitDecodesAndPrefills_eq (decodeThreshold : ℕ) (queryLens : List ℕ) :
    splitDecodesAndPrefills decodeThreshold queryLens [] false true =
      some ((queryLens.takeWhile (· ≤ decodeThreshold)).length,
        queryLens.length-(queryLens.takeWhile (· ≤ decodeThreshold)).length,
        (queryLens.takeWhile (· ≤ decodeThreshold)).sum,
        queryLens.sum-(queryLens.takeWhile (· ≤ decodeThreshold)).sum) := by
  have hall (h : ∀ x ∈ queryLens, x ≤ decodeThreshold) :
      queryLens.takeWhile (· ≤ decodeThreshold) = queryLens := by
    refine takeWhile_eq_self_iff.mpr fun x hx => ?_
    exact decide_eq_true (h x hx)
  unfold splitDecodesAndPrefills
  dsimp only
  by_cases hmax : queryLens.foldl max 0 ≤ decodeThreshold
  · rw [if_pos (by simp [hmax]), hall (foldl_max_le hmax).2]
    simp
  rw [if_neg (by simp [hmax])]
  cases hlens : queryLens with
  | nil =>
    rw [hlens] at hmax
    exact absurd (Nat.zero_le _) hmax
  | cons first rest =>
    by_cases hfirst : decodeThreshold < first
    · have hnone : (first :: rest).takeWhile (· ≤ decodeThreshold) = [] := by
        rw [takeWhile_cons_of_neg (by simpa using hfirst)]
      simp only [if_pos hfirst, hnone]
      simp
    simp only [if_neg hfirst, Bool.false_and, Bool.false_eq_true, if_false, if_true]
    rw [← hlens]
    -- the first prefill is where the run ends
    have htake : queryLens.takeWhile (· ≤ decodeThreshold) =
        queryLens.take (queryLens.findIdx fun l => decide (decodeThreshold < l)) := by
      rw [takeWhile_eq_take_findIdx_not]
      congr 2
      funext l
      rw [← decide_not, decide_eq_decide]
      exact not_le
    rw [findIdx?_map]
    cases hfind : queryLens.findIdx? (id ∘ fun l => decide (decodeThreshold < l)) with
    | none =>
      have hshort : ∀ x ∈ queryLens, x ≤ decodeThreshold := by
        intro x hx
        have := findIdx?_eq_none_iff.mp hfind x hx
        simpa using this
      rw [hall hshort]
      simp
    | some idx =>
      obtain ⟨hlt,hidx⟩ := findIdx?_eq_some_iff_findIdx_eq.mp hfind
      change queryLens.findIdx (fun l => decide (decodeThreshold < l)) = idx at hidx
      rw [htake, hidx, length_take, min_eq_left hlt.le]

/-- The reordering ends, makes only swaps, and these move the requests into the order decode, short
extend, long extend, prefill; a request that stands in its region is not moved. On the new order the
split finds the longest run of short queries in front. -/
theorem reorder_batch_correct (decodeThreshold : ℕ) (rows : List BatchRow) :
    ∃ (modified : Bool) (swaps : List (ℕ × ℕ)),
      (∀ (β : Type) (swapStates : β → ℕ → ℕ → β) (batch : β),
        reorderBatchToSplitDecodesAndPrefills decodeThreshold rows swapStates batch =
          some (modified,applySwaps swapStates swaps batch)) ∧
      (applySwaps swapEntries swaps rows).Perm rows ∧
      ((reqRegions decodeThreshold (applySwaps swapEntries swaps rows)).map Region.code).Pairwise
        (· ≤ ·) ∧
      (∀ i, (reqRegions decodeThreshold rows)[i]? = (targetRegions decodeThreshold rows)[i]? →
        (applySwaps swapEntries swaps rows)[i]? = rows[i]? ∧ ∀ p ∈ swaps, p.1 ≠ i ∧ p.2 ≠ i) ∧
      splitDecodesAndPrefills decodeThreshold
          ((applySwaps swapEntries swaps rows).map BatchRow.numScheduledTokens) [] false true =
        let queryLens := (applySwaps swapEntries swaps rows).map BatchRow.numScheduledTokens
        let decodes := queryLens.takeWhile (· ≤ decodeThreshold)
        some (decodes.length,queryLens.length-decodes.length,decodes.sum,
          queryLens.sum-decodes.sum) := by
  obtain ⟨modified,swaps,hcalls,hplace,hneeds⟩ := exists_swaps decodeThreshold rows
  refine ⟨modified,swaps,hcalls,applySwaps_perm swaps rows,?_,fun i hi => ⟨?_,fun p hp => ?_⟩,
    splitDecodesAndPrefills_eq _ _⟩
  · -- position by position the regions are the target
    have hregions : reqRegions decodeThreshold (applySwaps swapEntries swaps rows) =
        targetRegions decodeThreshold rows := by
      refine ext_getElem? fun j => ?_
      obtain ⟨i,rfl⟩ : ∃ i, srcDestMap decodeThreshold rows i = j := by
        by_cases hj : j ∈ srcIndices decodeThreshold rows
        · exact exists_source (srcIndices_perm.mem_iff.mp hj)
        · exact ⟨j,srcDestMap_of_not_mem hj⟩
      rw [← region_at_destination, reqRegions, reqRegions, getElem?_map, getElem?_map,
        hplace]
    rw [hregions]
    exact targetRegions_sorted
  · have hstay : srcDestMap decodeThreshold rows i = i := by
      refine srcDestMap_of_not_mem fun hmem => ?_
      have := (mem_srcIndices.mp hmem).2
      simp [needsSwap, hi] at this
    have := hplace i
    rwa [hstay] at this
  · obtain ⟨h1,h2⟩ := hneeds p hp
    refine ⟨?_,?_⟩
    · rintro rfl
      simp [needsSwap, hi] at h1
    · rintro rfl
      simp [needsSwap, hi] at h2

end MetaZenith.BatchReorder
