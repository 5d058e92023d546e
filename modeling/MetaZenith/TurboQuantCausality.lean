import MetaZenith.TurboQuantAttention

namespace MetaZenith.TurboQuant

open KVEntry BatchRequest List RangeSplit

variable (impl : TurboQuantAttentionImpl) (i a c : ℕ) (reqs : List BatchRequest) (start : ℕ)

def tokenStart (i : ℕ) : ℕ := (queryLens (reqs.take i)).sum

def position (r : BatchRequest) : KVEntry → Option ℤ
  | .cached row pos => if row = i then some pos else none
  | .fresh token =>
    if start ≤ token ∧ token < start+r.queryLen then
      some ((r.seqLen:ℤ)-r.queryLen+((token:ℤ)-start))
    else none

/-- The `j`-th query token of request `i` attends to each of the positions
`0 .. seq_len - q + j` of its own request once, and to nothing else. -/
def Causal (out : List (List KVEntry)) : Prop :=
  ∀ i r, reqs[i]? = some r → ∀ j < r.queryLen,
    ∃ keys, out[tokenStart reqs i+j]? = some keys ∧
      (keys.map (position i (tokenStart reqs i) r)).Perm
        ((interval 0 (r.seqLen-r.queryLen+j+1)).map some)

def visible (f : ℕ) : List KVEntry :=
  (interval 0 c).map (cached i) ++ (List.range' start f).map fresh

def layout (view : ℕ → ℕ → BatchRequest → ℕ → List KVEntry) :
    ℕ → ℕ → List BatchRequest → List (List KVEntry)
  | _, _, [] => []
  | i, a, r :: rs => (List.range r.queryLen).map (view i a r) ++
      layout view (i+1) (a+r.queryLen) rs

section Layout

variable (view : ℕ → ℕ → BatchRequest → ℕ → List KVEntry)

theorem layout_length (i a : ℕ) (rs : List BatchRequest) :
    (layout view i a rs).length = (queryLens rs).sum := by
  induction rs generalizing i a with
  | nil => rfl
  | cons r rs ih => simp [layout, ih, queryLens]

theorem layout_append (i a : ℕ) (rs ts : List BatchRequest) : layout view i a (rs ++ ts) =
      layout view i a rs ++ layout view (i+rs.length) (a+(queryLens rs).sum) ts := by
  induction rs generalizing i a with
  | nil => simp [layout, queryLens]
  | cons r rs ih =>
    simp only [cons_append, layout, ih, append_assoc, queryLens, map_cons, sum_cons, length_cons]
    congr 3 <;> omega

theorem layout_congr (view' : ℕ → ℕ → BatchRequest → ℕ → List KVEntry) (i a : ℕ)
    (rs : List BatchRequest) (h : ∀ k r, rs[k]? = some r → ∀ a j, j < r.queryLen →
      view (i+k) a r j = view' (i+k) a r j) : layout view i a rs = layout view' i a rs := by
  induction rs generalizing i a with
  | nil => rfl
  | cons r rs ih =>
    simp only [layout]
    congr 1
    · apply map_congr_left
      intro j hj
      exact h 0 r rfl a j (mem_range.mp hj)
    · apply ih
      intro k r' hk a j hj
      have := h (k+1) r' (by simpa using hk) a j hj
      simpa [Nat.add_right_comm, Nat.add_assoc] using this

theorem layout_getElem? (i a : ℕ) (rs : List BatchRequest) (k : ℕ) (r : BatchRequest)
    (hr : rs[k]? = some r) (j : ℕ) (hj : j < r.queryLen) :
    (layout view i a rs)[tokenStart rs k+j]? = some (view (i+k) (a+tokenStart rs k) r j) := by
  induction rs generalizing i a k with
  | nil => simp at hr
  | cons r' rs ih =>
    cases k with
    | zero =>
      obtain rfl : r' = r := by simpa using hr
      simp [layout, tokenStart, queryLens, getElem?_append_left, hj]
    | succ k =>
      have ht : tokenStart (r' :: rs) (k+1) = r'.queryLen+tokenStart rs k := by
        simp [tokenStart, queryLens]
      rw [layout, ht, getElem?_append_right (by simp; omega)]
      have hi := ih (i+1) (a+r'.queryLen) k (by simpa using hr)
      simp only [length_map, length_range]
      rw [show r'.queryLen+tokenStart rs k+j-r'.queryLen = tokenStart rs k+j by omega, hi]
      congr 2 <;> omega

theorem causal_layout_iff (rs : List BatchRequest) :
    Causal rs (layout view 0 0 rs) ↔ ∀ i r, rs[i]? = some r → ∀ j < r.queryLen,
      ((view i (tokenStart rs i) r j).map (position i (tokenStart rs i) r)).Perm
        ((interval 0 (r.seqLen-r.queryLen+j+1)).map some) := by
  have hk i r (hr : rs[i]? = some r) j (hj : j < r.queryLen) :=
    layout_getElem? view 0 0 rs i r hr j hj
  simp only [Nat.zero_add] at hk
  constructor
  · intro h i r hr j hj
    obtain ⟨keys,hkeys,hp⟩ := h i r hr j hj
    rw [hk i r hr j hj, Option.some.injEq] at hkeys
    exact hkeys ▸ hp
  · intro h i r hr j hj
    exact ⟨_,hk i r hr j hj,h i r hr j hj⟩

end Layout

theorem visible_positions (f : ℕ) (r : BatchRequest) (hf : f ≤ r.queryLen) :
    (visible i c start f).map (position i start r) =
      (interval 0 c ++ interval ((r.seqLen:ℤ)-r.queryLen) f).map some := by
  have hcached : position i start r ∘ cached i = some := by
    funext pos
    simp [position]
  have hfresh : (List.range' start f).map (position i start r ∘ fresh) =
      (interval ((r.seqLen:ℤ)-r.queryLen) f).map some := by
    rw [range'_eq_map_range, interval, map_map, map_map]
    apply map_congr_left
    intro t ht
    have htf : t < f := mem_range.mp ht
    simp only [Function.comp_apply, position]
    rw [if_pos (by omega)]
    push_cast
    ring_nf
  rw [visible, map_append, map_map, map_map, hcached, hfresh, map_append]

theorem cached_perm_iff (r : BatchRequest) (n : ℕ) :
    ((visible i c start 0).map (position i start r)).Perm ((interval 0 n).map some) ↔ c = n := by
  rw [visible_positions i c start 0 r (by omega), interval_zero, append_nil]
  constructor
  · intro h
    simpa using h.length_eq
  · rintro rfl
    rfl

/-- A cached part followed by raw rows of the batch is the causal range when the
cached part ends where the batch's rows start. -/
theorem visible_perm_iff (j : ℕ) (r : BatchRequest) (hj : j < r.queryLen)
    (hq : r.queryLen ≤ r.seqLen) : ((visible i c start (j+1)).map (position i start r)).Perm
      ((interval 0 (r.seqLen-r.queryLen+j+1)).map some) ↔ c = r.seqLen-r.queryLen := by
  rw [visible_positions i c start (j+1) r hj]
  constructor
  · intro h
    have hl := h.length_eq
    simp only [length_map, length_append, interval_length] at hl
    omega
  · rintro rfl
    have hs : ((r.seqLen:ℤ)-r.queryLen) = 0+((r.seqLen-r.queryLen:ℕ):ℤ) := by omega
    rw [hs, interval_append, Nat.add_assoc]

def cachedView (L : BatchRequest → ℕ) (i a : ℕ) (r : BatchRequest) (j : ℕ) : List KVEntry :=
  visible i (L r-r.queryLen+1+j) a 0

def freshView (_ : BatchRequest) (j : ℕ) : List KVEntry := visible i 0 a (j+1)

def prefillView (r : BatchRequest) (j : ℕ) : List KVEntry :=
  if r.queryLen = r.seqLenCpu then freshView i a r j
  else if r.queryLen ≤ continuationDecodeThreshold then cachedView seqLenCpu i a r j
  else visible i (r.seqLenCpu-r.queryLen) a (j+1)

theorem cachedView_perm_iff (L : BatchRequest → ℕ) (i a j : ℕ) (r : BatchRequest)
    (hL : r.queryLen ≤ L r) (hq : r.queryLen ≤ r.seqLen) :
    ((cachedView L i a r j).map (position i a r)).Perm
      ((interval 0 (r.seqLen-r.queryLen+j+1)).map some) ↔ L r = r.seqLen := by
  rw [cachedView, cached_perm_iff]
  omega

theorem freshView_perm_iff (j : ℕ) (r : BatchRequest) (hj : j < r.queryLen)
    (hq : r.queryLen ≤ r.seqLen) : ((freshView i a r j).map (position i a r)).Perm
      ((interval 0 (r.seqLen-r.queryLen+j+1)).map some) ↔ r.seqLen = r.queryLen := by
  rw [freshView, visible_perm_iff i 0 a j r hj hq]
  omega

/-- Whichever branch the loop takes, it is exact when the CPU length is the true one. -/
theorem prefillView_perm_iff (j : ℕ) (r : BatchRequest) (hj : j < r.queryLen)
    (hq : r.queryLen ≤ r.seqLen) (hu : r.seqLen ≤ r.seqLenCpu) :
    ((prefillView i a r j).map (position i a r)).Perm
      ((interval 0 (r.seqLen-r.queryLen+j+1)).map some) ↔ r.seqLenCpu = r.seqLen := by
  unfold prefillView
  split_ifs with hfirst hsmall
  · rw [freshView_perm_iff i a j r hj hq]
    omega
  · exact cachedView_perm_iff seqLenCpu i a j r (by omega) hq
  · rw [visible_perm_iff i _ a j r hj hq]
    omega

theorem decodeRow_eq {S : ℕ} (hS : 0 < S) (row n : ℕ) :
    decodeRow S row n = (interval 0 n).map (cached row) := by
  rw [decodeRow, ← map_flatMap, flatMap_part _ hS, Int.toNat_natCast]

theorem slice_map_range' {α : Type} (g : ℕ → α) (a n x y : ℕ) (hy : y ≤ n) :
    slice ((List.range' a n).map g) x y = (List.range' (a+x) (y-x)).map g := by
  apply ext_getElem
  · simp [slice]
    omega
  · intro k h1 h2
    simp [slice, Nat.add_assoc]

theorem take_map_range' {α : Type} (g : ℕ → α) (a n y : ℕ) (hy : y ≤ n) :
    ((List.range' a n).map g).take y = (List.range' a y).map g := by
  simpa [slice] using slice_map_range' g a n 0 y hy

theorem interval_eq_range' (n : ℕ) : interval 0 n = (List.range' 0 n).map fun k : ℕ => (k:ℤ) := by
  rw [interval, range_eq_range']
  simp

theorem sdpa_le_eq (k : List KVEntry) (qLen c : ℕ) : sdpa k qLen (fun p j => decide (j ≤ p+c)) =
      (List.range qLen).map fun p => k.take (p+c+1) := by
  unfold sdpa
  apply map_congr_left
  intro p _
  have hz (b n : ℕ) (l : List KVEntry) :
      ((l.zipIdx b).filter fun e => decide (e.2 < b+n)).map Prod.fst = l.take n := by
    induction l generalizing b n with
    | nil => simp
    | cons x l ih =>
      cases n with
      | zero =>
        have hnone (e : KVEntry × ℕ) (he : e ∈ (x :: l).zipIdx b) : ¬e.2 < b := by
          have := le_snd_of_mem_zipIdx he
          omega
        simp only [Nat.add_zero, take_zero, map_eq_nil_iff, filter_eq_nil_iff, decide_eq_true_eq]
        exact hnone
      | succ n =>
        rw [zipIdx_cons, filter_cons_of_pos (by simp), map_cons, take_succ_cons]
        have hi := ih (b+1) n
        rw [show b+1+n = b+(n+1) by omega] at hi
        rw [hi]
  have h := hz 0 (p+c+1) k
  simpa [Nat.lt_succ_iff] using h

theorem flashAttnVarlen_single (k : List KVEntry) (q n : ℕ) (hq : q ≤ n) (hk : k.length = n) :
    flashAttnVarlen k [0,q] [0,n] = (List.range q).map fun t => k.take (t+(n-q)+1) := by
  simp only [flashAttnVarlen, flashSequence, segments, tail_cons, zip_cons_cons, zip_nil_right,
    flatMap_cons, flatMap_nil, append_nil, Nat.sub_zero, slice, drop_zero]
  apply map_congr_left
  intro t ht
  have htq : t < q := mem_range.mp ht
  rw [take_take]
  congr 1
  omega

theorem continuationPrefill_eq (q u : ℕ) (hq : q ≤ u) :
    continuationPrefill impl ((List.range' a q).map fresh) i q (u-q) u =
      (List.range q).map fun j => visible i (u-q) a (j+1) := by
  have halloc : u-q ≤ (u-q+impl.blockSize-1)/impl.blockSize*impl.blockSize := by
    have h := Nat.lt_div_mul_add (a := u-q+impl.blockSize-1) impl.blockSize_pos
    omega
  have hcached : ((interval 0 ((u-q+impl.blockSize-1)/impl.blockSize*impl.blockSize)).map
      (cached i)).take (u-q) = (interval 0 (u-q)).map (cached i) := by
    rw [interval_eq_range', interval_eq_range', map_map, map_map]
    exact take_map_range' _ 0 _ _ halloc
  have hkeys (j : ℕ) (hj : j < q) :
      ((interval 0 (u-q)).map (cached i) ++
        (List.range' a q).map fresh).take (j+(u-q)+1) = visible i (u-q) a (j+1) := by
    rw [take_append, take_of_length_le (by simp; omega), length_map,
      interval_length, show j+(u-q)+1-(u-q) = j+1 by omega, take_map_range' _ a q (j+1) hj,
      visible]
  simp only [continuationPrefill, hcached]
  split_ifs
  · rw [flashAttnVarlen_single _ q u hq (by simp; omega)]
    exact map_congr_left fun j hj => hkeys j (mem_range.mp hj)
  · rw [sdpa_le_eq]
    exact map_congr_left fun j hj => hkeys j (mem_range.mp hj)

theorem zipWith_decodeRow {S : ℕ} (hS : 0 < S) (i : ℕ) (lens : List ℕ) :
    List.zipWith (decodeRow S) (List.replicate lens.length i) (lens.map fun n : ℕ => (n:ℤ)) =
      lens.map fun n => (interval 0 n).map (cached i) := by
  induction lens with
  | nil => rfl
  | cons n lens ih =>
    simp only [length_cons, replicate_succ, map_cons, zipWith_cons_cons, ih, decodeRow_eq hS]

theorem continuation_decode_eq (q u maxSeqLen cacheLen : ℕ) (hq : q ≤ u) (hm : u ≤ maxSeqLen)
    (hc : maxSeqLen < cacheLen) : tritonDecodeAttention 32 q (List.replicate q i)
      (slice (interval 0 cacheLen) (u-q+1) (u+1)) =
      (List.range q).map fun j => visible i (u-q+1+j) a 0 := by
  have hlens : slice (interval 0 cacheLen) (u-q+1) (u+1) =
      (List.range' (u-q+1) q).map fun n : ℕ => (n:ℤ) := by
    rw [interval_eq_range', slice_map_range' _ 0 cacheLen _ _ (by omega), Nat.zero_add,
      show u+1-(u-q+1) = q by omega]
  have hrows := zipWith_decodeRow (by decide : 0 < 32) i (List.range' (u-q+1) q)
  rw [length_range'] at hrows
  rw [tritonDecodeAttention, hlens, hrows, take_of_length_le (by simp), range'_eq_map_range, map_map]
  apply map_congr_left
  intro j _
  simp [visible]

theorem prefillRequest_eq (maxSeqLen i a : ℕ) (r : BatchRequest) (hq : r.queryLen ≤ r.seqLenCpu)
    (hm : r.seqLenCpu ≤ maxSeqLen) :
    prefillRequest impl maxSeqLen ((List.range' a r.queryLen).map fresh) i r.queryLen
      r.seqLenCpu = (List.range r.queryLen).map (prefillView i a r) := by
  have hfirst (j : ℕ) (hj : j < r.queryLen) :
      ((List.range' a r.queryLen).map fresh).take (j+1) = freshView i a r j := by
    rw [take_map_range' _ a _ _ hj]
    simp [freshView, visible]
  unfold prefillRequest prefillView
  split_ifs with he hflash hs hc
  · rw [flashAttnVarlen_single _ _ _ le_rfl (by simp)]
    apply map_congr_left
    intro j hj
    simpa using hfirst j (mem_range.mp hj)
  · rw [show (fun p j : ℕ => decide (j ≤ p)) = fun p j : ℕ => decide (j ≤ p+0) from rfl, sdpa_le_eq]
    exact map_congr_left fun j hj => hfirst j (mem_range.mp hj)
  · exact continuation_decode_eq i a _ _ maxSeqLen _ hq hm (by omega)
  · exact continuation_decode_eq i a _ _ maxSeqLen _ hq hm (by omega)
  · exact continuationPrefill_eq impl i a _ _ hq

theorem segments_cumulative (q : ℕ) (qs : List ℕ) :
    segments (cumulative c (q :: qs)) = (c,c+q) :: segments (cumulative (c+q) qs) := by
  cases qs <;> rfl

theorem segments_cumulative_nil : segments (cumulative c []) = [] := rfl

/-- The flash fast path, on the raw rows from token `a` on. -/
theorem flashAttnVarlen_layout (n i c : ℕ) (rs : List BatchRequest) (hn : c+(queryLens rs).sum ≤ n) :
    flashAttnVarlen ((List.range' a n).map fresh) (cumulative c (queryLens rs))
      (cumulative c (queryLens rs)) = layout freshView i (a+c) rs := by
  induction rs generalizing i c with
  | nil => simp [queryLens, flashAttnVarlen, segments_cumulative_nil, layout]
  | cons r rs ih =>
    have hsum : (queryLens (r :: rs)).sum = r.queryLen+(queryLens rs).sum := rfl
    have hi := ih (i+1) (c+r.queryLen) (by omega)
    have hhead : flashSequence ((List.range' a n).map fresh) (c,c+r.queryLen)
        (c,c+r.queryLen) = (List.range r.queryLen).map (freshView i (a+c) r) := by
      simp only [flashSequence, Nat.add_sub_cancel_left]
      apply map_congr_left
      intro t ht
      have htq : t < r.queryLen := mem_range.mp ht
      rw [slice_map_range' _ a n c _ (by omega), Nat.add_sub_cancel_left,
        show ((t:ℤ)+1+(r.queryLen:ℤ)-(r.queryLen:ℤ)).toNat = t+1 by omega,
        take_map_range' _ _ _ _ (by omega)]
      simp [freshView, visible]
    rw [flashAttnVarlen] at hi ⊢
    rw [queryLens, map_cons, segments_cumulative, zip_cons_cons, flatMap_cons,
      ← queryLens, hi, hhead, layout, Nat.add_assoc]

theorem prefillLoop_layout (maxSeqLen a n i c : ℕ) (rs : List BatchRequest)
    (hpos : ∀ r ∈ rs, 0 < r.queryLen) (hq : ∀ r ∈ rs, r.queryLen ≤ r.seqLenCpu)
    (hm : ∀ r ∈ rs, r.seqLenCpu ≤ maxSeqLen) (hn : c+(queryLens rs).sum ≤ n)
    (written : List (List KVEntry)) (hw : written.length = c) :
    prefillLoop impl maxSeqLen ((List.range' a n).map fresh)
      ((segments (cumulative c (queryLens rs))).zip
        ((rs.map fun r => (r.seqLenCpu:ℤ)).zip (List.range' i rs.length)))
      (written ++ List.replicate (queryLens rs).sum []) =
      written ++ layout prefillView i (a+c) rs := by
  induction rs generalizing i c written with
  | nil => simp [queryLens, segments_cumulative_nil, prefillLoop, layout]
  | cons r rs ih =>
    have hsum : (queryLens (r :: rs)).sum = r.queryLen+(queryLens rs).sum := rfl
    have hrq := hpos r (by simp)
    have hout := prefillRequest_eq impl maxSeqLen i (a+c) r (hq r (by simp)) (hm r (by simp))
    rw [hsum]
    rw [queryLens, map_cons, segments_cumulative, map_cons, length_cons,
      range'_succ, zip_cons_cons, zip_cons_cons, prefillLoop, if_neg (by omega),
      slice_map_range' _ a n c _ (by omega), Nat.add_sub_cancel_left, Int.toNat_natCast, hout,
      ← queryLens]
    have hset : setSlice (written ++ List.replicate (r.queryLen+(queryLens rs).sum) []) c
        (c+r.queryLen) ((List.range r.queryLen).map (prefillView i (a+c) r)) =
        (written ++ (List.range r.queryLen).map (prefillView i (a+c) r)) ++
          List.replicate (queryLens rs).sum [] := by
      rw [setSlice, take_left' hw, replicate_add, ← append_assoc written, drop_left' (by simp [hw])]
    rw [hset, ih (i+1) (c+r.queryLen) (fun t ht => hpos t (by simp [ht]))
      (fun t ht => hq t (by simp [ht])) (fun t ht => hm t (by simp [ht])) (by omega) _
      (by simp [hw]), layout, append_assoc, Nat.add_assoc]

theorem zipWith_decodeRow_layout {S : ℕ} (hS : 0 < S) (i a : ℕ) (rs : List BatchRequest)
    (h1 : ∀ r ∈ rs, r.queryLen = 1) (hq : ∀ r ∈ rs, r.queryLen ≤ r.seqLen) :
    List.zipWith (decodeRow S) (List.range' i rs.length) (rs.map fun r => (r.seqLen:ℤ)) =
      layout (cachedView seqLen) i a rs := by
  induction rs generalizing i a with
  | nil => rfl
  | cons r rs ih =>
    have hr1 := h1 r (by simp)
    have hrq := hq r (by simp)
    rw [length_cons, range'_succ, map_cons, zipWith_cons_cons, layout,
      ih (i+1) (a+r.queryLen) (fun t ht => h1 t (by simp [ht])) (fun t ht => hq t (by simp [ht])),
      decodeRow_eq hS, hr1]
    have hlen : r.seqLen-1+1 = r.seqLen := by omega
    simp [cachedView, visible, hr1, hlen]

/-- The K+1 route: `k1` synthetic rows per request, one for each query token. -/
theorem zipWith_synth_layout {S k1 : ℕ} (hS : 0 < S) (i a : ℕ) (rs : List BatchRequest)
    (hk : ∀ r ∈ rs, r.queryLen = k1) (hq : ∀ r ∈ rs, r.queryLen ≤ r.seqLen) :
    List.zipWith (decodeRow S) ((List.range' i rs.length).flatMap (List.replicate k1))
      ((rs.map fun r => (r.seqLen:ℤ)).flatMap fun s =>
        (List.range k1).map fun o : ℕ => s-(k1:ℤ)+1+(o:ℤ)) =
      layout (cachedView seqLen) i a rs := by
  induction rs generalizing i a with
  | nil => rfl
  | cons r rs ih =>
    have hrk := hk r (by simp)
    have hrq := hq r (by simp)
    have hhead : List.zipWith (decodeRow S) (List.replicate k1 i)
        ((List.range k1).map fun o : ℕ => (r.seqLen:ℤ)-(k1:ℤ)+1+(o:ℤ)) =
        (List.range r.queryLen).map (cachedView seqLen i a r) := by
      have hz := zipWith_decodeRow hS i ((List.range k1).map fun o => r.seqLen-k1+1+o)
      rw [length_map, length_range, map_map, map_map] at hz
      have hcast : (List.range k1).map (fun o : ℕ => (r.seqLen:ℤ)-(k1:ℤ)+1+(o:ℤ)) =
          (List.range k1).map ((fun n : ℕ => (n:ℤ)) ∘ fun o => r.seqLen-k1+1+o) := by
        apply map_congr_left
        intro o _
        simp only [Function.comp_apply]
        omega
      rw [hcast, hz, hrk]
      apply map_congr_left
      intro o _
      simp [cachedView, visible, hrk]
    rw [length_cons, range'_succ, map_cons, flatMap_cons, flatMap_cons,
      zipWith_append (by simp), hhead, layout,
      ih (i+1) (a+r.queryLen) (fun t ht => hk t (by simp [ht])) (fun t ht => hq t (by simp [ht]))]

theorem le_listMax {l : List ℕ} {x : ℕ} (hx : x ∈ l) : x ≤ listMax l := by
  induction l with
  | nil => simp at hx
  | cons y l ih =>
    have hc : listMax (y :: l) = max y (listMax l) := rfl
    rcases mem_cons.mp hx with rfl | hx
    · omega
    · have := ih hx
      omega

theorem exists_of_lt_listMax {l : List ℕ} {n : ℕ} (h : n < listMax l) : ∃ x ∈ l, n < x := by
  induction l with
  | nil => simp [listMax] at h
  | cons y l ih =>
    have hc : listMax (y :: l) = max y (listMax l) := rfl
    by_cases hy : n < y
    · exact ⟨y, by simp, hy⟩
    · obtain ⟨x,hx,hn⟩ := ih (by omega)
      exact ⟨x, by simp [hx], hn⟩

theorem segments_cumulative_lens (qs : List ℕ) :
    (segments (cumulative c qs)).map (fun s => s.2-s.1) = qs := by
  induction qs generalizing c with
  | nil => rfl
  | cons q qs ih => rw [segments_cumulative, map_cons, ih, Nat.add_sub_cancel_left]

theorem cumulative_length (qs : List ℕ) : (cumulative c qs).length = qs.length+1 := by
  induction qs generalizing c with
  | nil => rfl
  | cons q qs ih => rw [cumulative, length_cons, ih, length_cons]

theorem cumulative_getD (k : ℕ) (qs : List ℕ) (hk : k ≤ qs.length) :
    (cumulative c qs).getD k 0 = c+(qs.take k).sum := by
  induction qs generalizing c k with
  | nil =>
    obtain rfl : k = 0 := by simpa using hk
    rfl
  | cons q qs ih =>
    cases k with
    | zero => rfl
    | succ k =>
      rw [cumulative, getD_cons_succ, ih (c+q) k (by simpa using hk), take_succ_cons,
        sum_cons, Nat.add_assoc]

theorem cumulative_drop (k : ℕ) (qs : List ℕ) (hk : k ≤ qs.length) :
    (cumulative c qs).drop k = cumulative (c+(qs.take k).sum) (qs.drop k) := by
  induction qs generalizing c k with
  | nil =>
    obtain rfl : k = 0 := by simpa using hk
    rfl
  | cons q qs ih =>
    cases k with
    | zero => rfl
    | succ k =>
      rw [cumulative, drop_succ_cons, ih (c+q) k (by simpa using hk), take_succ_cons,
        sum_cons, drop_succ_cons, Nat.add_assoc]

theorem cumulative_sub (d : ℕ) (qs : List ℕ) : (cumulative (c+d) qs).map (·-d) = cumulative c qs := by
  induction qs generalizing c with
  | nil => simp [cumulative]
  | cons q qs ih =>
    rw [cumulative, map_cons, Nat.add_sub_cancel, Nat.add_right_comm, ih, cumulative]

def firstPrefill : ℕ := (queryLens reqs).findIdx (1 < ·)

theorem firstPrefill_le : firstPrefill reqs ≤ reqs.length := by
  have h : firstPrefill reqs ≤ (queryLens reqs).length := findIdx_le_length
  simpa [queryLens] using h

section

variable (hpos : ∀ r ∈ reqs, 0 < r.queryLen)

include hpos

theorem queryLen_of_lt_firstPrefill (r : BatchRequest)
    (hr : r ∈ reqs.take (firstPrefill reqs)) : r.queryLen = 1 := by
  obtain ⟨k,hk,rfl⟩ := mem_iff_getElem.mp hr
  rw [getElem_take]
  have hlen : k < firstPrefill reqs ∧ k < reqs.length := by
    simp only [List.length_take] at hk
    omega
  have hlt := hlen.1
  have hnot := not_of_lt_findIdx hlt
  have hp := hpos (reqs.get ⟨k,hlen.2⟩) (getElem_mem _)
  simp only [queryLens, getElem_map, decide_eq_false_iff_not] at hnot
  simp only [get_eq_getElem] at hp
  omega

theorem sum_take_firstPrefill :
    (queryLens (reqs.take (firstPrefill reqs))).sum = firstPrefill reqs := by
  have h1 : queryLens (reqs.take (firstPrefill reqs)) =
      List.replicate (firstPrefill reqs) 1 := by
    rw [eq_replicate_iff]
    constructor
    · have := firstPrefill_le reqs
      simp [queryLens]
      omega
    · intro q hq
      obtain ⟨r,hr,rfl⟩ := mem_map.mp hq
      exact queryLen_of_lt_firstPrefill reqs hpos r hr
  rw [h1, sum_replicate, smul_eq_mul, mul_one]

theorem build_split (hmax : 1 < listMax (queryLens reqs)) :
    (build (buildAttentionMetadata reqs)).numDecodes = firstPrefill reqs ∧
      (build (buildAttentionMetadata reqs)).numDecodeTokens = firstPrefill reqs := by
  have hany : (queryLens reqs).any (1 < ·) = true := by
    obtain ⟨q,hq,h1⟩ := exists_of_lt_listMax hmax
    exact any_eq_true.mpr ⟨q,hq,by simpa using h1⟩
  have hstart : (cumulative 0 (queryLens reqs)).getD (firstPrefill reqs) 0 =
      firstPrefill reqs := by
    have hle := firstPrefill_le reqs
    rw [cumulative_getD 0 _ _ (by simpa [queryLens] using hle), Nat.zero_add, queryLens, ← map_take]
    exact sum_take_firstPrefill reqs hpos
  simp only [build, splitDecodesAndPrefills, buildAttentionMetadata, segments_cumulative_lens]
  rw [if_neg (by omega)]
  by_cases hhead : 1 < (queryLens reqs).headD 0
  · -- the first request is a prefill already, so the boundary is at zero
    have hzero : firstPrefill reqs = 0 := by
      cases reqs with
      | nil => rfl
      | cons r rs =>
        have h1 : 1 < r.queryLen := hhead
        simp [firstPrefill, queryLens, findIdx_cons, h1]
    rw [if_pos hhead, hzero]
    exact ⟨rfl,rfl⟩
  · rw [if_neg hhead, if_neg (by simp [hany])]
    exact ⟨rfl,hstart⟩

end

def Batch.prefills {K : ℕ} (b : Batch K) : List BatchRequest := b.reqs.drop b.metadata.numDecodes

/-- The batches on which every route sees the true lengths: the K+1 route and the
decode kernels read them from the device; the flash fast path needs first chunks
only, and the per-request loop needs the CPU lengths to be the true ones. -/
def ExactRoute {K : ℕ} (b : Batch K) : Prop :=
  verifyRoute b.metadata = true ∨ b.metadata.isPrefill = false ∨
    if impl.hasFlashAttn ∧
        b.metadata.maxQueryLen = listMax (b.prefills.map seqLenCpu) then
      ∀ r ∈ b.prefills, r.seqLen = r.queryLen
    else ∀ r ∈ b.prefills, r.seqLenCpu = r.seqLen

/-- All requests of a batch have the longest query length when that many tokens are there. -/
theorem queryLen_eq_of_sum (rs : List BatchRequest) (q : ℕ) (hle : ∀ r ∈ rs, r.queryLen ≤ q)
    (hsum : (queryLens rs).sum = rs.length*q) : ∀ r ∈ rs, r.queryLen = q := by
  induction rs with
  | nil => simp
  | cons r rs ih =>
    have hr := hle r (by simp)
    have hrest : (queryLens rs).sum ≤ rs.length*q := by
      have := sum_le_card_nsmul (queryLens rs) q (by
        intro x hx
        obtain ⟨t,ht,rfl⟩ := mem_map.mp hx
        exact hle t (by simp [ht]))
      simpa [queryLens] using this
    have hcons : (queryLens (r :: rs)).sum = r.queryLen+(queryLens rs).sum := rfl
    rw [hcons, length_cons, add_mul, one_mul] at hsum
    intro t ht
    rcases mem_cons.mp ht with rfl | ht
    · omega
    · exact ih (fun x hx => hle x (by simp [hx])) (by omega) t ht

theorem activeSplits_pos (B n : ℕ) : 0 < activeSplits impl B n := by
  unfold activeSplits longB4NumSplits
  split_ifs
  · decide
  · exact impl.splits_pos

theorem verifyRoute_iff (m : TurboQuantMetadata) :
    verifyRoute m = true ↔ m.isPrefill = true ∧ m.numDecodes = 0 ∧ 1 < m.maxQueryLen ∧
      m.maxQueryLen ≤ 16 ∧ m.maxQueryLen < m.maxSeqLen ∧ 0 < m.numActualTokens ∧
      m.numActualTokens%m.maxQueryLen = 0 ∧
      m.queryStartLoc.length = m.numActualTokens/m.maxQueryLen+1 := by
  simp [verifyRoute, and_assoc]

/-- A batch on the K+1 route has as many tokens as `num_reqs` full queries. -/
theorem verifyRoute_tokens {reqs : List BatchRequest}
    (h : verifyRoute (build (buildAttentionMetadata reqs)) = true) :
    0 < (queryLens reqs).sum ∧ (queryLens reqs).sum = reqs.length*listMax (queryLens reqs) ∧
      (queryLens reqs).sum/listMax (queryLens reqs) = reqs.length := by
  obtain ⟨_,_,_,_,_,hN,hmod,hlen⟩ := (verifyRoute_iff _).mp h
  simp only [build, buildAttentionMetadata, cumulative_length] at hN hmod hlen
  have hreqs : reqs.length = (queryLens reqs).sum/listMax (queryLens reqs) := by
    simpa [queryLens] using hlen
  refine ⟨hN,?_,hreqs.symm⟩
  rw [hreqs, Nat.div_mul_cancel (Nat.dvd_of_mod_eq_zero hmod)]

theorem forward_verify (hq : ∀ r ∈ reqs, r.queryLen ≤ r.seqLen)
    (h : verifyRoute (build (buildAttentionMetadata reqs)) = true) :
    forward impl (build (buildAttentionMetadata reqs)) = layout (cachedView seqLen) 0 0 reqs := by
  obtain ⟨hN,hsum,hb⟩ := verifyRoute_tokens h
  have hu : ∀ r ∈ reqs, r.queryLen = listMax (queryLens reqs) :=
    queryLen_eq_of_sum reqs _ (fun r hr => le_listMax (mem_map_of_mem hr)) hsum
  rw [forward, if_neg (by simpa [build, buildAttentionMetadata] using hN.ne'), if_pos h,
    decodeAttention, tritonDecodeAttention]
  simp only [synthMeta, build, buildAttentionMetadata, hb]
  have hbt : (List.range' 0 reqs.length).take reqs.length = List.range' 0 reqs.length :=
    take_of_length_le (by simp)
  have hlens : (reqs.map fun r => (r.seqLen:ℤ)).take reqs.length =
      reqs.map fun r => (r.seqLen:ℤ) := take_of_length_le (by simp)
  rw [hbt, hlens, zipWith_synth_layout (activeSplits_pos impl _ _) 0 0 reqs hu hq,
    take_of_length_le (by rw [layout_length])]

theorem forward_decode (hpos : ∀ r ∈ reqs, 0 < r.queryLen) (hq : ∀ r ∈ reqs, r.queryLen ≤ r.seqLen)
    (h : (build (buildAttentionMetadata reqs)).isPrefill = false) :
    forward impl (build (buildAttentionMetadata reqs)) = layout (cachedView seqLen) 0 0 reqs := by
  have hmax : ¬1 < listMax (queryLens reqs) := of_decide_eq_false h
  have h1 (r : BatchRequest) (hr : r ∈ reqs) : r.queryLen = 1 := by
    have hle : r.queryLen ≤ listMax (queryLens reqs) := le_listMax (mem_map_of_mem hr)
    have := hpos r hr
    omega
  have hv : verifyRoute (build (buildAttentionMetadata reqs)) = false := by
    simp [verifyRoute, h]
  unfold forward
  by_cases hN : (queryLens reqs).sum = 0
  · have hnil : layout (cachedView seqLen) 0 0 reqs = [] := by
      rw [← length_eq_zero_iff, layout_length, hN]
    rw [if_pos (by simpa [build, buildAttentionMetadata] using hN), hnil]
  · rw [if_neg (by simpa [build, buildAttentionMetadata] using hN), if_neg (by simp [hv]),
      if_pos (by simp [h]), decodeAttention, tritonDecodeAttention]
    simp only [build, buildAttentionMetadata]
    rw [zipWith_decodeRow_layout (activeSplits_pos impl _ _) 0 0 reqs h1 hq,
      take_of_length_le (by rw [layout_length])]

/-- `_prefill_attention` on the requests from index `i` on, whose tokens start at `a`. -/
theorem prefillAttention_layout (rs : List BatchRequest) (hpos : ∀ r ∈ rs, 0 < r.queryLen)
    (hq : ∀ r ∈ rs, r.queryLen ≤ r.seqLenCpu) (m : TurboQuantMetadata)
    (hqsl : m.queryStartLoc = cumulative 0 (queryLens rs))
    (hqslCpu : m.queryStartLocCpu = some (cumulative 0 (queryLens rs)))
    (hlens : m.seqLensCpu = some (rs.map fun r => (r.seqLenCpu:ℤ)))
    (hbt : m.blockTable = List.range' i rs.length)
    (hm : m.maxSeqLen = listMax (rs.map seqLenCpu)) :
    prefillAttention impl (queryLens rs).sum ((List.range' a (queryLens rs).sum).map fresh) m =
      layout (if impl.hasFlashAttn ∧ m.maxQueryLen = m.maxSeqLen then freshView
        else prefillView) i a rs := by
  unfold prefillAttention
  split_ifs with hfast
  · rw [hqsl]
    exact flashAttnVarlen_layout a _ i 0 rs (by omega)
  · rw [hqslCpu, hlens, hbt]
    simp only [Option.getD_some]
    have hle (r : BatchRequest) (hr : r ∈ rs) : r.seqLenCpu ≤ m.maxSeqLen := by
      rw [hm]
      exact le_listMax (mem_map_of_mem hr)
    exact prefillLoop_layout impl m.maxSeqLen a _ i 0 rs hpos hq hle (by omega) [] rfl

def restView {K : ℕ} (b : Batch K) : ℕ → ℕ → BatchRequest → ℕ → List KVEntry :=
  if impl.hasFlashAttn ∧
      b.metadata.maxQueryLen = listMax (b.prefills.map seqLenCpu) then freshView
  else prefillView

def mixedView {K : ℕ} (b : Batch K) (i a : ℕ) (r : BatchRequest) (j : ℕ) : List KVEntry :=
  if i < b.metadata.numDecodes then cachedView seqLen i a r j
  else restView impl b i a r j

theorem fresh_range_drop (n d : ℕ) :
    ((List.range n).map fresh).drop d = (List.range' d (n-d)).map fresh := by
  have h := slice_map_range' fresh 0 n d n le_rfl
  rw [slice, take_of_length_le (by simp), Nat.zero_add] at h
  rw [range_eq_range']
  exact h

section Mixed

variable {K : ℕ} (b : Batch K) (hp : b.metadata.isPrefill = true)
include hp

theorem Batch.numDecodes_eq : b.metadata.numDecodes = firstPrefill b.reqs :=
  (build_split b.reqs b.query_pos (of_decide_eq_true hp)).1

theorem Batch.numDecodeTokens_eq : b.metadata.numDecodeTokens = b.metadata.numDecodes :=
  (build_split b.reqs b.query_pos (of_decide_eq_true hp)).2.trans (b.numDecodes_eq hp).symm

theorem Batch.numDecodes_le : b.metadata.numDecodes ≤ b.reqs.length :=
  b.numDecodes_eq hp ▸ firstPrefill_le b.reqs

theorem Batch.sum_decodes :
    (queryLens (b.reqs.take b.metadata.numDecodes)).sum = b.metadata.numDecodes := by
  rw [b.numDecodes_eq hp]
  exact sum_take_firstPrefill b.reqs b.query_pos

theorem Batch.sum_prefills :
    (queryLens b.prefills).sum = (queryLens b.reqs).sum-b.metadata.numDecodes := by
  have h := congrArg (fun l => (queryLens l).sum)
    (take_append_drop b.metadata.numDecodes b.reqs)
  have hd := b.sum_decodes hp
  simp only [queryLens, map_append, sum_append, Batch.prefills] at h hd ⊢
  omega

theorem decode_part (impl : TurboQuantAttentionImpl) :
    decodeAttention impl b.metadata.numDecodeTokens (decodeMeta b.metadata) =
      layout (cachedView seqLen) 0 0 (b.reqs.take b.metadata.numDecodes) := by
  have hle := b.numDecodes_le hp
  have h1 (r : BatchRequest) (hr : r ∈ b.reqs.take b.metadata.numDecodes) : r.queryLen = 1 := by
    rw [b.numDecodes_eq hp] at hr
    exact queryLen_of_lt_firstPrefill b.reqs b.query_pos r hr
  have hbt : (decodeMeta b.metadata).blockTable =
      List.range' 0 (b.reqs.take b.metadata.numDecodes).length := by
    have h := take_map_range' id 0 b.reqs.length b.metadata.numDecodes hle
    rw [map_id, map_id] at h
    rw [List.length_take, min_eq_left hle]
    exact h
  have hlens : (decodeMeta b.metadata).seqLens =
      (b.reqs.take b.metadata.numDecodes).map fun r => (r.seqLen:ℤ) := map_take.symm
  rw [decodeAttention, tritonDecodeAttention, hbt, hlens,
    zipWith_decodeRow_layout (activeSplits_pos impl _ _) 0 0 _ h1
      (fun r hr => b.query_le r (mem_of_mem_take hr)),
    take_of_length_le (by rw [layout_length, b.sum_decodes hp, b.numDecodeTokens_eq hp])]

theorem prefill_part (impl : TurboQuantAttentionImpl) :
    prefillAttention impl ((queryLens b.reqs).sum-b.metadata.numDecodeTokens)
      (((List.range (queryLens b.reqs).sum).map fresh).drop b.metadata.numDecodeTokens)
      (prefillMeta b.metadata) =
      layout (restView impl b) b.metadata.numDecodes b.metadata.numDecodes b.prefills := by
  have hle := b.numDecodes_le hp
  have hmem {r : BatchRequest} (hr : r ∈ b.prefills) : r ∈ b.reqs := mem_of_mem_drop hr
  have hlens : queryLens b.prefills = (queryLens b.reqs).drop b.metadata.numDecodes :=
    map_drop
  have hqsl : (b.metadata.queryStartLoc.drop b.metadata.numDecodes).map
      (·-b.metadata.numDecodeTokens) = cumulative 0 (queryLens b.prefills) := by
    have hd := b.sum_decodes hp
    rw [queryLens, map_take, ← queryLens] at hd
    rw [b.numDecodeTokens_eq hp, hlens, ← cumulative_sub 0 b.metadata.numDecodes]
    congr 1
    have h := cumulative_drop 0 b.metadata.numDecodes (queryLens b.reqs) (by simpa [queryLens])
    rw [hd] at h
    exact h
  have hcpu : (prefillMeta b.metadata).seqLensCpu =
      some (b.prefills.map fun r => (r.seqLenCpu:ℤ)) := congrArg some map_drop.symm
  have hmax : (prefillMeta b.metadata).maxSeqLen =
      listMax (b.prefills.map seqLenCpu) := by
    have h : ((b.reqs.map fun r => (r.seqLenCpu:ℤ)).drop b.metadata.numDecodes).map Int.toNat =
        b.prefills.map seqLenCpu := by
      rw [← map_drop, map_map]
      rfl
    exact congrArg listMax h
  have hbt : (prefillMeta b.metadata).blockTable =
      List.range' b.metadata.numDecodes b.prefills.length := by
    have h := slice_map_range' id 0 b.reqs.length b.metadata.numDecodes b.reqs.length le_rfl
    rw [map_id, map_id, slice, take_of_length_le (by simp), Nat.zero_add] at h
    rw [Batch.prefills, length_drop]
    exact h
  have hall := prefillAttention_layout impl b.metadata.numDecodes b.metadata.numDecodes b.prefills
    (fun r hr => b.query_pos r (hmem hr))
    (fun r hr => (b.query_le r (hmem hr)).trans (b.le_cpu r (hmem hr)))
    (prefillMeta b.metadata) hqsl (congrArg some hqsl) hcpu hbt hmax
  rw [fresh_range_drop, b.numDecodeTokens_eq hp, ← b.sum_prefills hp, hall, hmax]
  rfl

theorem layout_mixedView (impl : TurboQuantAttentionImpl) : layout (mixedView impl b) 0 0 b.reqs =
      layout (cachedView seqLen) 0 0 (b.reqs.take b.metadata.numDecodes) ++
        layout (restView impl b) b.metadata.numDecodes b.metadata.numDecodes b.prefills := by
  have hle := b.numDecodes_le hp
  conv_lhs => rw [← take_append_drop b.metadata.numDecodes b.reqs]
  rw [layout_append, b.sum_decodes hp, List.length_take, min_eq_left hle, Nat.zero_add]
  congr 1
  · apply layout_congr
    intro k r hk a j _
    have hlt := (List.getElem?_eq_some_iff.mp hk).1
    rw [List.length_take] at hlt
    rw [mixedView, if_pos (by omega)]
  · apply layout_congr
    intro k r _ a j _
    rw [mixedView, if_neg (by omega)]

theorem prefillMeta_eq_self (h0 : b.metadata.numDecodes = 0) : prefillMeta b.metadata = b.metadata := by
  have hdt : b.metadata.numDecodeTokens = 0 := (b.numDecodeTokens_eq hp).trans h0
  have hqsl : (b.metadata.queryStartLoc.drop b.metadata.numDecodes).map
      (·-b.metadata.numDecodeTokens) = b.metadata.queryStartLoc := by
    rw [h0, hdt, drop_zero]
    exact map_id _
  have hmax : listMax (((b.reqs.map fun r => (r.seqLenCpu:ℤ)).drop b.metadata.numDecodes).map
      Int.toNat) = listMax (b.reqs.map seqLenCpu) := by
    rw [h0, drop_zero, map_map]
    rfl
  apply TurboQuantMetadata.ext
  case seqLens => simp [prefillMeta, h0]
  case blockTable => simp [prefillMeta, h0]
  case queryStartLoc => exact hqsl
  case numActualTokens => simp [prefillMeta, hdt]
  case maxQueryLen => rfl
  case maxSeqLen => exact hmax
  case isPrefill => exact hp.symm
  case numDecodes => exact h0.symm
  case numDecodeTokens => exact hdt.symm
  case queryStartLocCpu => exact congrArg some hqsl
  case seqLensCpu => exact congrArg some (by rw [h0, drop_zero])

theorem forward_prefill (impl : TurboQuantAttentionImpl) (hv : verifyRoute b.metadata = false) :
    forward impl b.metadata = layout (mixedView impl b) 0 0 b.reqs := by
  have hN : (queryLens b.reqs).sum ≠ 0 := by
    obtain ⟨q,hq,h1⟩ := exists_of_lt_listMax (of_decide_eq_true hp)
    have := single_le_sum (by simp) q hq
    omega
  have hd := decode_part b hp impl
  have hr := prefill_part b hp impl
  rw [layout_mixedView b hp impl, forward, if_neg (by exact hN), if_neg (by simp [hv]),
    if_neg (by simp [hp])]
  split_ifs with h0
  · have hdt := (b.numDecodeTokens_eq hp).trans h0
    rw [prefillMeta_eq_self b hp h0, hdt, Nat.sub_zero, drop_zero] at hr
    rw [← hr, h0, take_zero]
    rfl
  · rw [← hd, ← hr]
    rfl

end Mixed

theorem cachedView_causal {K : ℕ} (b : Batch K) :
    Causal b.reqs (layout (cachedView seqLen) 0 0 b.reqs) := by
  rw [causal_layout_iff]
  intro i r hr j _
  have hq := b.query_le r (mem_of_getElem? hr)
  exact (cachedView_perm_iff seqLen i _ j r hq hq).mpr rfl

theorem mixedView_causal_iff {K : ℕ} (b : Batch K) :
    Causal b.reqs (layout (mixedView impl b) 0 0 b.reqs) ↔
      if impl.hasFlashAttn ∧ b.metadata.maxQueryLen = listMax (b.prefills.map seqLenCpu) then
        ∀ r ∈ b.prefills, r.seqLen = r.queryLen else ∀ r ∈ b.prefills, r.seqLenCpu = r.seqLen := by
  have hrest (i a j : ℕ) (r : BatchRequest) (hr : r ∈ b.reqs) (hj : j < r.queryLen) :
      ((restView impl b i a r j).map (position i a r)).Perm
        ((interval 0 (r.seqLen-r.queryLen+j+1)).map some) ↔
        if impl.hasFlashAttn ∧
            b.metadata.maxQueryLen = listMax (b.prefills.map seqLenCpu) then
          r.seqLen = r.queryLen
        else r.seqLenCpu = r.seqLen := by
    unfold restView
    split_ifs
    · exact freshView_perm_iff i a j r hj (b.query_le r hr)
    · exact prefillView_perm_iff i a j r hj (b.query_le r hr) (b.le_cpu r hr)
  have hcond : (if impl.hasFlashAttn ∧ b.metadata.maxQueryLen = listMax (b.prefills.map seqLenCpu) then
      ∀ r ∈ b.prefills, r.seqLen = r.queryLen
      else ∀ r ∈ b.prefills, r.seqLenCpu = r.seqLen) ↔
      ∀ r ∈ b.prefills, if impl.hasFlashAttn ∧
        b.metadata.maxQueryLen = listMax (b.prefills.map seqLenCpu) then
      r.seqLen = r.queryLen else r.seqLenCpu = r.seqLen := by
    split_ifs <;> rfl
  rw [hcond, causal_layout_iff]
  constructor
  · intro h r hr
    obtain ⟨k,hk⟩ := mem_iff_getElem?.mp hr
    rw [Batch.prefills, getElem?_drop] at hk
    have hmem := mem_of_getElem? hk
    have h0 := h _ r hk 0 (b.query_pos r hmem)
    rw [mixedView, if_neg (by omega)] at h0
    exact (hrest _ _ 0 r hmem (b.query_pos r hmem)).mp h0
  · intro h i r hr j hj
    have hmem := mem_of_getElem? hr
    have hq := b.query_le r hmem
    unfold mixedView
    split_ifs with hi
    · exact (cachedView_perm_iff seqLen i _ j r hq hq).mpr rfl
    · refine (hrest i _ j r hmem hj).mpr (h r ?_)
      apply mem_of_getElem? (i := i-b.metadata.numDecodes)
      rw [Batch.prefills, getElem?_drop, ← hr]
      congr 1
      omega

/-- `forward` is causal on exactly the batches whose route sees the true lengths. -/
theorem forward_causal_iff (impl : TurboQuantAttentionImpl) {K : ℕ} (b : Batch K) :
    Causal b.reqs (forward impl b.metadata) ↔ ExactRoute impl b := by
  unfold ExactRoute
  by_cases hv : verifyRoute b.metadata = true
  · rw [Batch.metadata, forward_verify impl b.reqs b.query_le hv]
    exact ⟨fun _ => Or.inl hv, fun _ => cachedView_causal b⟩
  · by_cases hp : b.metadata.isPrefill = true
    · have h := mixedView_causal_iff impl b
      rw [forward_prefill b hp impl (by simpa using hv), h]
      simp [hv, hp]
    · have hd : b.metadata.isPrefill = false := by simpa using hp
      rw [Batch.metadata, forward_decode impl b.reqs b.query_pos b.query_le hd]
      exact ⟨fun _ => Or.inr (Or.inl hd), fun _ => cachedView_causal b⟩

theorem not_causal_of_length {reqs : List BatchRequest} {out : List (List KVEntry)} (j : ℕ)
    (r : BatchRequest) (hr : reqs[i]? = some r) (hj : j < r.queryLen)
    (h : (out[tokenStart reqs i+j]?).map List.length ≠ some (r.seqLen-r.queryLen+j+1)) :
    ¬Causal reqs out := by
  intro hc
  obtain ⟨keys,hk,hp⟩ := hc i r hr j hj
  have hl := hp.length_eq
  simp only [length_map, interval_length] at hl
  exact h (by rw [hk, Option.map_some, hl])

def flashImpl : TurboQuantAttentionImpl :=
  ⟨true,32,false,16,none,by decide,by decide⟩

def shortContinuationBatch : Batch 3 where
  reqs := [⟨10,10,10,false⟩,⟨4,8,8,false⟩]
  query_pos := by decide
  query_le := by decide
  le_cpu := by decide
  cpu_le := by decide
  decodes_first := by decide

def mixedVerifyBatch : Batch 3 where
  reqs := [⟨1,50,50,false⟩,⟨4,20,21,true⟩]
  query_pos := by decide
  query_le := by decide
  le_cpu := by decide
  cpu_le := by decide
  decodes_first := by decide

/-- The fast path drops the cached tokens of the short continuation, and the
per-request loop lets the verification request see one position too many. -/
theorem forward_not_causal :
    ¬Causal shortContinuationBatch.reqs (forward flashImpl shortContinuationBatch.metadata) ∧
      ¬Causal mixedVerifyBatch.reqs (forward flashImpl mixedVerifyBatch.metadata) := by
  constructor
  · exact not_causal_of_length 1 0 ⟨4,8,8,false⟩ rfl (by decide) (by decide +kernel)
  · exact not_causal_of_length 1 0 ⟨4,20,21,true⟩ rfl (by decide) (by decide +kernel)

end MetaZenith.TurboQuant
