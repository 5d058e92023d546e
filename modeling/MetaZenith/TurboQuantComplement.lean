import MetaZenith.TurboQuantKernels

namespace MetaZenith.TurboQuant

open List Function

variable {position : ℤ} {table : Table} {S head row split tableStride : ℕ} {seq : ℕ → ℤ}
open RangeSplit TilePipeline

def rowSlot (table : Table) (tableStride row : ℕ) (position : ℤ) : Slot :=
  (table (row*tableStride+position/16),position%16)

def rowFold (S : ℕ) (table : Table) (tableStride : ℕ) (seq : ℕ → ℤ) (row split : ℕ) : Trace :=
  pairUp ((part (seq row) S split).map fun position => some (rowSlot table tableStride row position))

theorem loadCell_valid {limit : ℤ} (table : Table) (rowBase : ℤ) (h0 : 0 ≤ position)
    (hl : position < limit) :
    loadCell table rowBase position limit = some (table (rowBase+position/16),position%16) := by
  rw [loadCell, if_pos hl, pageOf, Int.tdiv_eq_ediv_of_nonneg h0]
  congr 2
  omega

theorem le_numTiles_mul {n : ℤ} {T : ℕ} (hT : 0 < T) (hn : 0 ≤ n) : n.toNat ≤ numTiles n T*T := by
  have h := le_ceilTDiv_mul hT hn
  have hc : 0 ≤ ceilTDiv n T := ceilTDiv_nonneg (by omega)
  have hcast : ((numTiles n T*T:ℕ):ℤ) = ceilTDiv n T*T := by
    rw [Nat.cast_mul, numTiles, ← ceilTDiv, Int.toNat_of_nonneg hc]
  omega

theorem loadCell_eq_rowSlot {rowBase limit : ℤ} (h0 : 0 ≤ position) (hl : position < limit)
    (ht : table (rowBase+position/16) = table (row*tableStride+position/16)) :
    loadCell table rowBase position limit = some (rowSlot table tableStride row position) := by
  rw [loadCell_valid table rowBase h0 hl, ht, rowSlot]

/-- A fold over cells `c` is the row's fold when the cells hold the row's slots. -/
theorem pairUp_cells_eq_rowFold {c : ℕ → Cell} (h : ∀ t < (partSize (seq row) S split).toNat,
      c t = some (rowSlot table tableStride row (partStart (seq row) S split+t))) :
    pairUp ((List.range (partSize (seq row) S split).toNat).map c) =
      rowFold S table tableStride seq row split := by
  rw [rowFold, part, interval, map_map]
  congr 1
  exact map_congr_left fun t ht => h t (mem_range.mp ht)

theorem headParallelTrace_eq (hS : 0 < S) (table : Table) (tableStride : ℕ) (seq : ℕ → ℤ)
    (shared : ℕ → ℕ → Cell) (batch split : ℕ) :
    headParallelTrace S table tableStride seq shared batch split =
      rowFold S table tableStride seq batch split := by
  let c (t : ℕ) := loadCell table (batch*tableStride) (partStart (seq batch) S split+t)
    (partEnd (seq batch) S split)
  have hcells : pairUp ((List.range (partSize (seq batch) S split).toNat).map c) =
      rowFold S table tableStride seq batch split := by
    apply pairUp_cells_eq_rowFold
    intro t ht
    obtain ⟨_,h0,hlt,_⟩ := part_bounds hS ht
    exact loadCell_eq_rowSlot (by omega) hlt rfl
  have hload (i : ℕ) (buf : ℕ → Cell) (t : ℕ) (ht : t < 8) :
      loadCells (List.range 8) (fun t : ℕ => loadCell table (batch*tableStride)
        (partStart (seq batch) S split+((i*8:ℕ):ℤ)+(t:ℤ)) (partEnd (seq batch) S split)) buf t =
        c (i*8+t) := by
    rw [loadCells_of_mem _ _ (mem_range.mpr ht)]
    simp only [c]
    push_cast
    rw [add_assoc]
  have hn : 0 ≤ partSize (seq batch) S split := le_max_right _ _
  rw [← hcells]
  apply doubleBuffered_masked (by decide) (le_numTiles_mul (by decide) hn) hload
  intro hk t ht
  rw [if_pos hk, update_self]
  simpa using hload 0 (shared 0) t ht

section Proof

variable {S : ℕ} {table : Table} {tableStride : ℕ} {seq : ℕ → ℤ}

section

variable (h : tableIdentityProof S table tableStride seq = 0)

include h

theorem proofThread_false {block thread : ℕ}
    (hb : block < 4) (ht : thread < 256) : proofThread S table tableStride seq block thread = false := by
  by_contra hne
  have hany : ((List.range 4).any fun block => (List.range 256).any fun thread =>
      proofThread S table tableStride seq block thread) = true := by
    rw [any_eq_true]
    refine ⟨block,mem_range.mpr hb,?_⟩
    rw [any_eq_true]
    exact ⟨thread,mem_range.mpr ht,by simpa using hne⟩
  rw [tableIdentityProof, if_pos hany] at h
  exact absurd h (by decide)

theorem proof_split (hr : row < 4) : ceilTDiv (seq row) S = ceilTDiv (seq 0) S := by
  have hf := proofThread_false h (by decide : 0 < 4) (by decide : 0 < 256)
  simp only [proofThread, beq_self_eq_true, Bool.true_and, any_cons, any_nil,
    Bool.or_false, Bool.or_eq_false_iff, bne_eq_false_iff_eq] at hf
  have hcases : row = 0 ∨ row = 1 ∨ row = 2 ∨ row = 3 := by omega
  rcases hcases with rfl | rfl | rfl | rfl
  · rfl
  · exact hf.1.1.1
  · exact hf.1.1.2.1
  · exact hf.1.1.2.2

theorem proof_pages : activePages seq ≤ tableStride := by
  have hf := proofThread_false h (by decide : 0 < 4) (by decide : 0 < 256)
  simp only [proofThread, beq_self_eq_true, Bool.true_and, Bool.or_eq_false_iff,
    decide_eq_false_iff_not] at hf
  omega

theorem proof_table {page : ℕ} (hr : row < 4) (hp : (page:ℤ) < activePages seq) :
    table (((row*tableStride+page:ℕ):ℤ)) = table page := by
  have hstride := proof_pages h
  have hf := proofThread_false h (Nat.div_lt_of_lt_mul (Nat.mod_lt page (by decide : 0 < 256*4)))
    (Nat.mod_lt (page%(256*4)) (by decide : 0 < 256))
  have hmem : page ∈ gridStride (256*4) (min (activePages seq) tableStride).toNat
      (min (activePages seq) tableStride).toNat (page%(256*4)/256*256+page%(256*4)%256) := by
    have hstart : page%(256*4)/256*256+page%(256*4)%256+page/(256*4)*(256*4) = page := by omega
    have hlt : page < (min (activePages seq) tableStride).toNat := by omega
    rw [← hstart] at hlt
    have hvisit := mem_gridStride (min (activePages seq) tableStride).toNat _ (by omega) hlt
    rwa [hstart] at hvisit
  simp only [proofThread, Bool.or_eq_false_iff, any_eq_false] at hf
  have hrows := hf.2 page hmem
  simp only [any_cons, any_nil, Bool.or_false, Bool.or_eq_true, bne_iff_ne, ne_eq,
    not_or, not_not] at hrows
  have hcases : row = 0 ∨ row = 1 ∨ row = 2 ∨ row = 3 := by omega
  rcases hcases with rfl | rfl | rfl | rfl
  · simp
  · exact hrows.1
  · exact hrows.2.1
  · exact hrows.2.2

end

end Proof

theorem partEnd_le_loadSplitEnd (S : ℕ) (seq : ℕ → ℤ) {rows : ℕ} (split : ℕ) (hr : row < rows) :
    partEnd (seq row) S split ≤ loadSplitEnd S seq rows split :=
  (foldl_max_le_iff.mp le_rfl).2 row (mem_range.mpr hr)

theorem loadSplitEnd_le_maxSeq (S : ℕ) (seq : ℕ → ℤ) (split : ℕ) :
    loadSplitEnd S seq 4 split ≤ maxSeq seq := by
  have hm := foldl_max_le_iff.mp (le_refl (maxSeq seq))
  exact foldl_max_le_iff.mpr ⟨hm.1,fun r hr => (min_le_right _ _).trans (hm.2 r hr)⟩

theorem page_lt_activePages (h0 : 0 ≤ position) (h : position < maxSeq seq) :
    position/16 < activePages seq := by
  rw [activePages, Int.tdiv_eq_ediv_of_nonneg (by omega)]
  omega

section Shared

variable {S : ℕ} (hS : 0 < S) {table : Table} {tableStride : ℕ} {seq : ℕ → ℤ}
  (h : tableIdentityProof S table tableStride seq = 0)
include hS h

theorem shared4Trace_eq (shared : ℕ → ℕ → Cell) (hr : row < 4) (split : ℕ) :
    shared4Trace S table seq shared row split = rowFold S table tableStride seq row split := by
  have hstart : partStart (seq row) S split = shared4Start S seq split := by
    rw [partStart, shared4Start, proof_split h hr]
  have hend := partEnd_le_loadSplitEnd S seq split hr
  let c (t : ℕ) := loadCell table 0 (shared4Start S seq split+t) (loadSplitEnd S seq 4 split)
  have hcells : pairUp ((List.range (partSize (seq row) S split).toNat).map c) =
      rowFold S table tableStride seq row split := by
    apply pairUp_cells_eq_rowFold
    intro t ht
    obtain ⟨_,h0,hlt,_⟩ := part_bounds hS ht
    have hmax := loadSplitEnd_le_maxSeq S seq split
    rw [hstart] at h0 hlt ⊢
    -- row 0 and this row have the same entry on the page of every loaded position
    have hpage : (shared4Start S seq split+t)/16 < activePages seq :=
      page_lt_activePages (by omega) (by omega)
    have htable := proof_table h hr
      (by omega : (((shared4Start S seq split+t)/16).toNat:ℤ) < activePages seq)
    rw [Nat.cast_add, Nat.cast_mul, Int.toNat_of_nonneg (by omega)] at htable
    exact loadCell_eq_rowSlot (by omega) (by omega) (by rw [zero_add, htable])
  have hload (i : ℕ) (buf : ℕ → Cell) (t : ℕ) (ht : t < 12) :
      loadCells (stridedTokens 8 12) (fun t : ℕ => loadCell table 0
        (shared4Start S seq split+((i*12:ℕ):ℤ)+(t:ℤ)) (loadSplitEnd S seq 4 split)) buf t =
        c (i*12+t) := by
    rw [loadCells_of_mem _ _ (mem_stridedTokens (by decide) ht)]
    simp only [c]
    push_cast
    rw [add_assoc]
  have htiles : (partSize (seq row) S split).toNat ≤ shared4Tiles S seq split*12 := by
    have hcover := le_numTiles_mul (by decide : 0 < 12)
      (le_max_right (loadSplitEnd S seq 4 split-shared4Start S seq split) 0)
    rw [← shared4Tiles] at hcover
    have hsize : partSize (seq row) S split ≤
        max (loadSplitEnd S seq 4 split-shared4Start S seq split) 0 := by
      unfold partSize
      omega
    omega
  rw [← hcells]
  apply doubleBuffered_pairs (by decide) htiles hload
  intro hk t ht
  rw [if_pos hk, update_self]
  simpa using hload 0 (shared 0) t ht

omit hS in
theorem shared4Reads_inside (hseq : -(S:ℤ) < seq 0) (split : ℕ) (page : ℤ)
    (hp : page ∈ shared4Reads S seq split) : 0 ≤ page ∧ page < tableStride := by
  obtain ⟨i,_,hi⟩ := mem_flatMap.mp hp
  obtain ⟨position,hpos,hsome⟩ := mem_filterMap.mp hi
  obtain ⟨t,_,rfl⟩ := mem_map.mp hpos
  split_ifs at hsome with hlt
  obtain rfl : pageOf _ = page := Option.some.inj hsome
  have h0 : 0 ≤ shared4Start S seq split := mul_nonneg (ceilTDiv_nonneg hseq) (by omega)
  have hmax := loadSplitEnd_le_maxSeq S seq split
  have hpages := proof_pages h
  have hactive : (shared4Start S seq split+((i*12:ℕ):ℤ)+(t:ℤ))/16 < activePages seq :=
    page_lt_activePages (by omega) (by omega)
  rw [pageOf, Int.tdiv_eq_ediv_of_nonneg (by omega)]
  omega

end Shared

theorem filter_eq_singleton {β γ : Type} [DecidableEq β] {l : List (β × γ)} {b : β} {c : γ}
    (hn : (l.map Prod.fst).Nodup) (hm : (b,c) ∈ l) : l.filter (fun e => e.1 = b) = [(b,c)] := by
  induction l with
  | nil => simp at hm
  | cons e l ih =>
    rw [map_cons, nodup_cons] at hn
    rcases mem_cons.mp hm with rfl | hm
    · have hrest : l.filter (fun e => e.1 = b) = [] := by
        rw [filter_eq_nil_iff]
        intro x hx
        have hne : x.1 ≠ b := fun hb => hn.1 (mem_map.mpr ⟨x,hx,hb⟩)
        simpa using hne
      simp [hrest]
    · have hne : e.1 ≠ b := fun hb => hn.1 (hb ▸ mem_map_of_mem hm)
      simp [hne, ih hn.2 hm]

theorem shared4Kernel_writes (table : Table) (seq : ℕ → ℤ) (shared : ℕ → ℕ → Cell) (hr : row < 4)
    (hh : head < 24) (hs : split < S) :
    (shared4Kernel S table seq 0 shared).filter (fun w => w.1 = (row,head,split)) =
      [((row,head,split),shared4Trace S table seq shared row split)] := by
  rw [shared4Kernel, if_neg (by simp)]
  apply filter_eq_singleton
  · rw [map_map]
    refine List.Nodup.map_on ?_ (nodup_range.product (nodup_range.product
      (nodup_range.product (nodup_range.product nodup_range))))
    rintro ⟨g,k,s,r,h⟩ hx ⟨g',k',s',r',h'⟩ hy heq
    simp only [mem_product, mem_range, Function.comp_apply, Prod.mk.injEq] at hx hy heq ⊢
    omega
  · rw [mem_map]
    refine ⟨(head%6/2,head/6,split,row,head%2),?_,?_⟩
    · simp only [mem_product, mem_range]
      omega
    · simp only [Prod.mk.injEq, and_true, true_and]
      omega

theorem headParallelKernel_writes {B : ℕ} (table : Table) (tableStride : ℕ) (seq : ℕ → ℤ)
    {boundaryOnly : Bool} {mismatch : ℤ} (hrun : ¬(boundaryOnly ∧ mismatch = 0))
    (shared : ℕ → ℕ → Cell) (hr : row < B) (hh : head < 24) (hs : split < S) :
    (headParallelKernel S table tableStride seq boundaryOnly mismatch B shared).filter
        (fun w => w.1 = (row,head,split)) =
      [((row,head,split),headParallelTrace S table tableStride seq shared row split)] := by
  rw [headParallelKernel, if_neg hrun]
  apply filter_eq_singleton
  · rw [map_map]
    refine List.Nodup.map_on ?_ (nodup_range.product (nodup_range.product
      (nodup_range.product (nodup_range.product nodup_range))))
    rintro ⟨b,k,s,w,h⟩ hx ⟨b',k',s',w',h'⟩ hy heq
    simp only [mem_product, mem_range, Function.comp_apply, Prod.mk.injEq] at hx hy heq ⊢
    omega
  · rw [mem_map]
    refine ⟨(row,head/6,split,head%6/2,head%2),?_,?_⟩
    · simp only [mem_product, mem_range]
      omega
    · simp only [Prod.mk.injEq, and_true, true_and]
      omega

def b4Writes (S : ℕ) (table : Table) (tableStride : ℕ) (seq : ℕ → ℤ)
    (sharedSmem boundarySmem : ℕ → ℕ → Cell) : List (PartialIndex × Trace) :=
  let mismatch := tableIdentityProof S table tableStride seq
  shared4Kernel S table seq mismatch sharedSmem ++
    headParallelKernel S table tableStride seq true mismatch 4 boundarySmem

theorem shared4Kernel_of_mismatch {mismatch : ℤ} {shared : ℕ → ℕ → Cell} (h : mismatch ≠ 0) :
    shared4Kernel S table seq mismatch shared = [] :=
  if_pos h

theorem headParallelKernel_boundary_skips {B : ℕ} {shared : ℕ → ℕ → Cell} :
    headParallelKernel S table tableStride seq true 0 B shared = [] :=
  if_pos ⟨rfl,rfl⟩

/-- Every partial is written once, by one of the two kernels, with the row's own fold. -/
theorem b4Writes_filter (table : Table) (tableStride : ℕ) (seq : ℕ → ℤ)
    (sharedSmem boundarySmem : ℕ → ℕ → Cell) (hr : row < 4) (hh : head < 24) (hs : split < S) :
    (b4Writes S table tableStride seq sharedSmem boundarySmem).filter
        (fun w => w.1 = (row,head,split)) =
      [((row,head,split),rowFold S table tableStride seq row split)] := by
  have hS : 0 < S := by omega
  rw [b4Writes]
  by_cases hm : tableIdentityProof S table tableStride seq = 0
  · rw [hm, headParallelKernel_boundary_skips, append_nil,
      shared4Kernel_writes table seq _ hr hh hs, shared4Trace_eq hS hm _ hr]
  · rw [shared4Kernel_of_mismatch hm, nil_append,
      headParallelKernel_writes table tableStride seq (by simp [hm]) _ hr hh hs,
      headParallelTrace_eq hS]

/-- The shared kernel and the boundary-only kernel complement each other for every split count:
together they leave what the plain kernel leaves, each partial written once and with its row's
own positions, and the shared kernel reads no table entry outside the row. -/
theorem shared4_boundary_complement {S : ℕ} (table : Table) (tableStride : ℕ)
    (seq : ℕ → ℤ) (sharedSmem boundarySmem plainSmem : ℕ → ℕ → Cell)
    {row head split : ℕ} (hr : row < 4) (hh : head < 24) (hs : split < S) :
    (b4Writes S table tableStride seq sharedSmem boundarySmem).filter
        (fun w => w.1 = (row,head,split)) =
      [((row,head,split),pairUp ((part (seq row) S split).map fun position =>
        some (rowSlot table tableStride row position)))] ∧
    (headParallelKernel S table tableStride seq false 0 4 plainSmem).filter
        (fun w => w.1 = (row,head,split)) =
      [((row,head,split),pairUp ((part (seq row) S split).map fun position =>
        some (rowSlot table tableStride row position)))] ∧
    (shared4Kernel S table seq (tableIdentityProof S table tableStride seq) sharedSmem = [] ∨
      headParallelKernel S table tableStride seq true (tableIdentityProof S table tableStride seq) 4
        boundarySmem = []) ∧
    (tableIdentityProof S table tableStride seq = 0 → -(S:ℤ) < seq 0 →
      ∀ page ∈ shared4Reads S seq split, 0 ≤ page ∧ page < tableStride) := by
  have hpos : 0 < S := by omega
  refine ⟨b4Writes_filter table tableStride seq sharedSmem boundarySmem hr hh hs,?_,?_,?_⟩
  · rw [headParallelKernel_writes table tableStride seq (by simp) _ hr hh hs,
      headParallelTrace_eq hpos, rowFold]
  · by_cases hm : tableIdentityProof S table tableStride seq = 0
    · exact Or.inr (hm ▸ headParallelKernel_boundary_skips)
    · exact Or.inl (shared4Kernel_of_mismatch hm)
  · exact fun hm hseq page hp => shared4Reads_inside hm hseq split page hp

theorem shared4_boundary_complement_four_equal_rows :
    (b4Writes 28 (fun _ => 3) 8 (fun _ => 100) (fun _ _ => none) fun _ _ => none).filter
        (fun w => w.1 = (1,5,24)) = [((1,5,24),[(some (3,0),some (some (3,1))),
          (some (3,2),some (some (3,3)))])] ∧
      ∀ page ∈ shared4Reads 28 (fun _ => 100) 24, 0 ≤ page ∧ page < 8 := by
  have h := shared4_boundary_complement (fun _ => 3) 8 (fun _ => 100) (fun _ _ => none)
    (fun _ _ => none) (fun _ _ => none) (by decide : 1 < 4) (by decide : 5 < 24)
    (by decide : 24 < 28)
  exact ⟨h.1,h.2.2.2 (by decide +kernel) (by decide)⟩

end MetaZenith.TurboQuant
