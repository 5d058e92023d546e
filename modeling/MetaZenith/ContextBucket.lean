import Mathlib

/-! The context bucket of a FULL CUDA graph in `GPUModelRunner.execute_model`. The bucket is read from
`optimistic_seq_lens_cpu`, a buffer that lives across steps: `_prepare_inputs` rewrites it later in
the same step and the drafter adds to it in place through the views it was given. -/

namespace MetaZenith.ContextBucket

open List

structure Buckets where
  first : ℕ
  rest : List ℕ
  ascending : (first :: rest).Pairwise (· < ·)

def turboquantFullCudagraphMaxSeqLens : Buckets := ⟨8192-1,[8192,32768],by decide⟩

def selectLoop (maxSeqLen cur : ℕ) : List ℕ → ℕ
  | [] => cur
  | bucket :: rest => if maxSeqLen < bucket then cur else selectLoop maxSeqLen bucket rest

def Buckets.select (b : Buckets) (maxSeqLen : ℕ) : ℕ := selectLoop maxSeqLen b.first b.rest

def Buckets.IsBucketOf (b : Buckets) (len x : ℕ) : Prop :=
  (x ∈ b.first :: b.rest ∧ x ≤ len ∧ ∀ y ∈ b.first :: b.rest, y ≤ len → y ≤ x) ∨
    ((∀ y ∈ b.first :: b.rest, len < y) ∧ x = b.first)

theorem selectLoop_spec (len : ℕ) {cur : ℕ} {rest : List ℕ} (h : (cur :: rest).Pairwise (· < ·)) :
    selectLoop len cur rest ∈ cur :: rest ∧
      (selectLoop len cur rest ≤ len ∨ selectLoop len cur rest = cur) ∧
      ∀ y ∈ cur :: rest, y ≤ len → y ≤ selectLoop len cur rest := by
  induction rest generalizing cur with
  | nil => exact ⟨mem_cons_self,.inr rfl,fun y hy _ => (mem_singleton.mp hy).le⟩
  | cons bucket rest ih =>
    obtain ⟨hcur,hrest⟩ := pairwise_cons.mp h
    rw [selectLoop]
    split
    · rename_i hlt
      -- the buckets after this one exceed the length too
      refine ⟨mem_cons_self,.inr rfl,forall_mem_cons.mpr ⟨fun _ => le_rfl,fun y hy hle => ?_⟩⟩
      rcases mem_cons.mp hy with rfl | hy
      · omega
      · have := (pairwise_cons.mp hrest).1 y hy
        omega
    · rename_i hge
      obtain ⟨hmem,hle,hall⟩ := ih hrest
      have hbucket := hall bucket mem_cons_self (by omega)
      refine ⟨mem_cons_of_mem _ hmem,.inl ?_,forall_mem_cons.mpr ⟨fun _ => ?_,hall⟩⟩
      · omega
      · have := hcur bucket mem_cons_self
        omega

namespace Buckets

variable {b : Buckets} {len m n x : ℕ}

theorem first_le (hx : x ∈ b.first :: b.rest) : b.first ≤ x := by
  rcases mem_cons.mp hx with rfl | hx
  · exact le_rfl
  · exact ((pairwise_cons.mp b.ascending).1 x hx).le

theorem isBucketOf_select (b : Buckets) (len : ℕ) : b.IsBucketOf len (b.select len) := by
  obtain ⟨hmem,hle,hall⟩ := selectLoop_spec len b.ascending
  by_cases hfirst : b.first ≤ len
  · refine .inl ⟨hmem,?_,hall⟩
    rcases hle with hle | heq
    · exact hle
    · exact (le_of_eq heq).trans hfirst
  · have hnone : ∀ y ∈ b.first :: b.rest, len < y := fun y hy => by
      have := first_le hy
      omega
    refine .inr ⟨hnone,hle.resolve_left ?_⟩
    have := hnone _ hmem
    omega

theorem IsBucketOf.eq_select (h : b.IsBucketOf len x) : x = b.select len := by
  rcases h with ⟨hx,hxle,hxmax⟩ | ⟨hnone,rfl⟩ <;>
    rcases b.isBucketOf_select len with ⟨hs,hsle,hsmax⟩ | ⟨hnone',hs⟩
  · exact le_antisymm (hsmax x hx hxle) (hxmax _ hs hsle)
  · have := hnone' x hx
    omega
  · have := hnone _ hs
    omega
  · exact hs.symm

/-- A bucket after the first is reached by the length exactly if the selected bucket reaches it. -/
theorem le_select_iff (len : ℕ) (hx : x ∈ b.rest) : x ≤ b.select len ↔ x ≤ len := by
  rcases b.isBucketOf_select len with ⟨-,hle,hmax⟩ | ⟨hnone,heq⟩
  · exact ⟨fun h => h.trans hle,hmax x (mem_cons_of_mem _ hx)⟩
  · have hlt := hnone x (mem_cons_of_mem _ hx)
    have hfirst := (pairwise_cons.mp b.ascending).1 x hx
    rw [heq]
    omega

theorem select_mem (b : Buckets) (len : ℕ) : b.select len ∈ b.first :: b.rest :=
  (selectLoop_spec len b.ascending).1

theorem select_le_of_forall (h : ∀ x ∈ b.rest, x ≤ m → x ≤ n) : b.select m ≤ b.select n := by
  rcases mem_cons.mp (b.select_mem m) with heq | hmem
  · rw [heq]
    exact first_le (b.select_mem n)
  · exact (le_select_iff n hmem).mpr (h _ hmem ((le_select_iff m hmem).mp le_rfl))

/-- Two lengths select one bucket exactly if no bucket after the first lies between them. -/
theorem select_eq_select_iff : b.select m = b.select n ↔ ∀ x ∈ b.rest, x ≤ m ↔ x ≤ n := by
  constructor
  · intro h x hx
    rw [← le_select_iff m hx, h, le_select_iff n hx]
  · intro h
    exact le_antisymm (select_le_of_forall fun x hx => (h x hx).mp)
      (select_le_of_forall fun x hx => (h x hx).mpr)

end Buckets

structure BatchRow where
  numComputedTokens : ℕ
  numScheduledTokens : ℕ

def BatchRow.optimisticSeqLen (r : BatchRow) : ℕ := r.numComputedTokens+r.numScheduledTokens

structure Batch (maxNumReqs : ℕ) where
  rows : List BatchRow
  nonempty : rows ≠ []
  fits : rows.length ≤ maxNumReqs

/-- The drafter's part of a step. The flags say whether `_seq_lens_cpu` and
`seq_lens_cpu_upper_bound` of the metadata it is given are views of the buffer: the first is `None`
with async scheduling and once tokens were rejected, the second after `unpadded`. -/
structure Drafting where
  numSpeculativeTokens : ℕ
  seqLensCpu : Bool
  seqLensCpuUpperBound : Bool

/-- A call of `execute_model`. Without scheduled tokens it returns early, possibly after a dummy run
of so many requests of one length. -/
inductive Step (maxNumReqs : ℕ) where
  | idle (dummyRun : Option (Fin (maxNumReqs+1) × ℕ))
  | run (batch : Batch maxNumReqs) (drafting : Option Drafting)

structure Buffer (maxNumReqs : ℕ) where
  lens : List ℕ
  length_eq : lens.length = maxNumReqs

variable {maxNumReqs : ℕ}

variable (d : Drafting) (buffer : Buffer maxNumReqs)

def Buffer.write (lens : List ℕ) (h : lens.length ≤ maxNumReqs) : Buffer maxNumReqs :=
  ⟨lens ++ (buffer.lens.drop lens.length).map fun _ => 0, by
    rw [length_append, length_map, length_drop, buffer.length_eq]
    omega⟩

def prepareInputs (batch : Batch maxNumReqs) : Buffer maxNumReqs :=
  buffer.write (batch.rows.map (·.optimisticSeqLen)) (by rw [length_map]; exact batch.fits)

def Buffer.increment (n : ℕ) : Buffer maxNumReqs :=
  ⟨(buffer.lens.take n).map (·+1) ++ buffer.lens.drop n, by
    rw [length_append, length_map, length_take, length_drop, buffer.length_eq]
    omega⟩

def updatePositionsDependentMetadata (n : ℕ) (buffer : Buffer maxNumReqs) : Buffer maxNumReqs :=
  let buffer := if d.seqLensCpu then buffer.increment n else buffer
  if d.seqLensCpuUpperBound then buffer.increment n else buffer

def propose (n : ℕ) (buffer : Buffer maxNumReqs) : Buffer maxNumReqs :=
  (updatePositionsDependentMetadata d n)^[d.numSpeculativeTokens-1] buffer

def maxSeqLen (lens : List ℕ) : ℕ := lens.foldl max 0

def executeModel (b : Buckets) (buffer : Buffer maxNumReqs) :
    Step maxNumReqs → Option ℕ × Buffer maxNumReqs
  | .idle none => (none,buffer)
  | .idle (some (n,len)) => (none,buffer.write (replicate n len) (by
      rw [length_replicate]; omega))
  | .run batch drafting =>
    -- read before the lengths of this step are written
    let chosen := b.select (maxSeqLen (buffer.lens.take batch.rows.length))
    let buffer := prepareInputs buffer batch
    match drafting with
    | none => (some chosen,buffer)
    | some d => (some chosen,propose d batch.rows.length buffer)

def chosen (b : Buckets) (buffer : Buffer maxNumReqs) : List (Step maxNumReqs) → List (Option ℕ)
  | [] => []
  | step :: steps => (executeModel b buffer step).1 :: chosen b (executeModel b buffer step).2 steps

def Exact (b : Buckets) (buffer : Buffer maxNumReqs) (steps : List (Step maxNumReqs)) : Prop :=
  ∀ (i : ℕ) (batch : Batch maxNumReqs) (drafting : Option Drafting),
    steps[i]? = some (.run batch drafting) → ∃ x, (chosen b buffer steps)[i]? = some (some x) ∧
        b.IsBucketOf (maxSeqLen (batch.rows.map (·.optimisticSeqLen))) x

def Drafting.added : ℕ :=
  (d.numSpeculativeTokens-1)*((if d.seqLensCpu then 1 else 0)+if d.seqLensCpuUpperBound then 1 else 0)

def Step.leaves : Step maxNumReqs → Option (ℕ → ℕ)
  | .idle none => none
  | .idle (some (n,len)) => some fun row => if row < n then len else 0
  | .run batch drafting => some fun row => match batch.rows[row]? with
    | none => 0
    | some r => r.optimisticSeqLen+(drafting.map (·.added)).getD 0

def leftAfter (init : ℕ → ℕ) (past : List (Step maxNumReqs)) : ℕ → ℕ :=
  past.foldl (fun left step => step.leaves.getD left) init

def Buffer.at (row : ℕ) : ℕ := (buffer.lens[row]?).getD 0

theorem Buffer.write_at {lens : List ℕ} (h : lens.length ≤ maxNumReqs) (row : ℕ) :
    (buffer.write lens h).at row = (lens[row]?).getD 0 := by
  rw [Buffer.at, Buffer.write]
  dsimp only
  rcases Nat.lt_or_ge row lens.length with hlt | hge
  · rw [getElem?_append_left hlt]
  · rw [getElem?_append_right hge, getElem?_eq_none hge, getElem?_map]
    cases (buffer.lens.drop lens.length)[row-lens.length]? <;> rfl

theorem Buffer.increment_at {n : ℕ} (hn : n ≤ maxNumReqs) (row : ℕ) :
    (buffer.increment n).at row = buffer.at row+if row < n then 1 else 0 := by
  have hlen := buffer.length_eq
  have htake : ((buffer.lens.take n).map (·+1)).length = n := by
    rw [length_map, length_take]
    omega
  rw [Buffer.at, Buffer.at, Buffer.increment]
  dsimp only
  split
  · rename_i hlt
    rw [getElem?_append_left (by omega), getElem?_map, getElem?_take_of_lt hlt,
      getElem?_eq_getElem (by omega)]
    rfl
  · rw [getElem?_append_right (by omega), htake, getElem?_drop]
    congr 3
    omega

theorem updatePositionsDependentMetadata_at {n : ℕ} (hn : n ≤ maxNumReqs)
    (buffer : Buffer maxNumReqs) (row : ℕ) :
    (updatePositionsDependentMetadata d n buffer).at row = buffer.at row+if row < n then
      (if d.seqLensCpu then 1 else 0)+(if d.seqLensCpuUpperBound then 1 else 0) else 0 := by
  rw [updatePositionsDependentMetadata]
  cases d.seqLensCpu <;> cases d.seqLensCpuUpperBound <;>
    simp only [Bool.false_eq_true, if_true, if_false, Buffer.increment_at _ hn] <;> split <;> omega

theorem propose_at {n : ℕ} (hn : n ≤ maxNumReqs) (buffer : Buffer maxNumReqs) (row : ℕ) :
    (propose d n buffer).at row = buffer.at row+if row < n then d.added else 0 := by
  have hiter (k : ℕ) : ((updatePositionsDependentMetadata d n)^[k] buffer).at row = buffer.at row+
      if row < n then k*((if d.seqLensCpu then 1 else 0)+
        if d.seqLensCpuUpperBound then 1 else 0) else 0 := by
    induction k with
    | zero => simp
    | succ k ih =>
      rw [Function.iterate_succ_apply', updatePositionsDependentMetadata_at d hn, ih]
      split
      · rw [Nat.succ_mul, Nat.add_assoc]
      · rfl
  exact hiter _

theorem executeModel_at (b : Buckets) (buffer : Buffer maxNumReqs) (step : Step maxNumReqs) :
    (executeModel b buffer step).2.at = step.leaves.getD buffer.at := by
  funext row
  cases step with
  | idle dummyRun =>
    cases dummyRun with
    | none => rfl
    | some run =>
      obtain ⟨n,len⟩ := run
      rw [executeModel, Step.leaves, Option.getD_some, Buffer.write_at, getElem?_replicate]
      split <;> rfl
  | run batch drafting =>
    have hprepared : (prepareInputs buffer batch).at row =
        ((batch.rows[row]?).map (·.optimisticSeqLen)).getD 0 := by
      rw [prepareInputs, Buffer.write_at, getElem?_map]
    cases drafting with
    | none =>
      rw [executeModel, Step.leaves, Option.getD_some]
      dsimp only
      rw [hprepared]
      cases batch.rows[row]? <;> rfl
    | some d =>
      rw [executeModel, Step.leaves, Option.getD_some]
      dsimp only
      rw [propose_at d batch.fits, hprepared]
      rcases Nat.lt_or_ge row batch.rows.length with hlt | hge
      · rw [getElem?_eq_getElem hlt, if_pos hlt]
        rfl
      · rw [getElem?_eq_none hge, if_neg (by omega)]
        rfl

/-- A run: the bucket of the `i`th step is chosen from what the steps before it left. -/
theorem chosen_getElem? (b : Buckets) (buffer : Buffer maxNumReqs) (steps : List (Step maxNumReqs))
    (i : ℕ) : ∃ now : Buffer maxNumReqs, now.at = leftAfter buffer.at (steps.take i) ∧
      (chosen b buffer steps)[i]? = (steps[i]?).map fun step => (executeModel b now step).1 := by
  induction steps generalizing buffer i with
  | nil => exact ⟨buffer,by rw [take_nil]; rfl,rfl⟩
  | cons step steps ih =>
    cases i with
    | zero => exact ⟨buffer,rfl,rfl⟩
    | succ i =>
      obtain ⟨now,hleft,hchosen⟩ := ih (executeModel b buffer step).2 i
      refine ⟨now,?_,hchosen⟩
      rw [hleft, executeModel_at]
      rfl

theorem le_maxSeqLen_iff {lens : List ℕ} {x : ℕ} (hx : 0 < x) :
    x ≤ maxSeqLen lens ↔ ∃ len ∈ lens, x ≤ len := by
  have hall (m : ℕ) : x ≤ lens.foldl max m ↔ x ≤ m ∨ ∃ len ∈ lens, x ≤ len := by
    induction lens generalizing m with
    | nil => simp
    | cons len lens ih =>
      rw [foldl_cons, ih, le_max_iff, exists_mem_cons_iff, or_assoc]
  rw [maxSeqLen, hall]
  constructor
  · rintro (h | h)
    · omega
    · exact h
  · exact .inr

theorem Buffer.le_maxSeqLen_iff (buffer : Buffer maxNumReqs) {n x : ℕ} (hn : n ≤ maxNumReqs)
    (hx : 0 < x) : x ≤ maxSeqLen (buffer.lens.take n) ↔ ∃ row < n, x ≤ buffer.at row := by
  have hlen := buffer.length_eq
  rw [ContextBucket.le_maxSeqLen_iff hx]
  constructor
  · rintro ⟨len,hmem,hle⟩
    obtain ⟨row,hrow,rfl⟩ := mem_take_iff_getElem.mp hmem
    refine ⟨row,by omega,?_⟩
    rw [Buffer.at, getElem?_eq_getElem (by omega)]
    exact hle
  · rintro ⟨row,hrow,hle⟩
    rw [Buffer.at, getElem?_eq_getElem (by omega)] at hle
    exact ⟨_,mem_take_iff_getElem.mpr ⟨row,by omega,rfl⟩,hle⟩

/-- Every bucket after the first is reached by a length of the step exactly if it is reached by a
length that the last step left in the rows the step uses. -/
def SameSide (b : Buckets) (left : ℕ → ℕ) (batch : Batch maxNumReqs) : Prop :=
  ∀ x ∈ b.rest, (∃ row < batch.rows.length, x ≤ left row) ↔ ∃ r ∈ batch.rows, x ≤ r.optimisticSeqLen

theorem chosen_exact_iff (b : Buckets) (buffer : Buffer maxNumReqs) (batch : Batch maxNumReqs) :
    b.IsBucketOf (maxSeqLen (batch.rows.map (·.optimisticSeqLen)))
      (b.select (maxSeqLen (buffer.lens.take batch.rows.length))) ↔ SameSide b buffer.at batch := by
  have hpos {x : ℕ} (hx : x ∈ b.rest) : 0 < x := by
    have := (pairwise_cons.mp b.ascending).1 x hx
    omega
  have heq : b.IsBucketOf (maxSeqLen (batch.rows.map (·.optimisticSeqLen)))
      (b.select (maxSeqLen (buffer.lens.take batch.rows.length))) ↔
      b.select (maxSeqLen (buffer.lens.take batch.rows.length)) =
        b.select (maxSeqLen (batch.rows.map (·.optimisticSeqLen))) := by
    constructor
    · exact fun h => h.eq_select
    · intro h
      rw [h]
      exact b.isBucketOf_select _
  rw [heq, Buckets.select_eq_select_iff]
  refine forall₂_congr fun x hx => ?_
  rw [buffer.le_maxSeqLen_iff batch.fits (hpos hx), le_maxSeqLen_iff (hpos hx)]
  simp

/-- A decode that crosses a bucket: the step at length 8192 still runs in the graph of 8191. -/
theorem decode_crossing_bucket :
    let step (n : ℕ) : Step 1 := .run ⟨[⟨n,1⟩],cons_ne_nil _ _,le_rfl⟩ none
    ¬ Exact turboquantFullCudagraphMaxSeqLens ⟨[0],rfl⟩ [step 8190,step 8191] := by
  intro step h
  obtain ⟨x,hx,hbucket⟩ := h 1 _ _ rfl
  cases hx
  rw [chosen_exact_iff] at hbucket
  have := (hbucket 8192 (by decide)).mpr ⟨_,mem_cons_self,by decide⟩
  revert this
  decide

/-- Over every run the chosen buckets are those of the steps exactly if no bucket after the first
separates the lengths of a step from those the last step left. -/
theorem context_bucket_exact_iff (b : Buckets) (init : Buffer maxNumReqs)
    (steps : List (Step maxNumReqs)) : Exact b init steps ↔
      ∀ (i : ℕ) (batch : Batch maxNumReqs) (drafting : Option Drafting),
        steps[i]? = some (.run batch drafting) →
          SameSide b (leftAfter init.at (steps.take i)) batch := by
  rw [Exact]
  refine forall₄_congr fun i batch drafting hstep => ?_
  obtain ⟨now,hleft,hchosen⟩ := chosen_getElem? b init steps i
  have hnow : (chosen b init steps)[i]? =
      some (some (b.select (maxSeqLen (now.lens.take batch.rows.length)))) := by
    rw [hchosen, hstep]
    cases drafting <;> rfl
  rw [← hleft, ← chosen_exact_iff, hnow]
  constructor
  · rintro ⟨x,hx,hbucket⟩
    cases hx
    exact hbucket
  · exact fun h => ⟨_,rfl,h⟩

end MetaZenith.ContextBucket
