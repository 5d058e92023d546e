import Mathlib

/-! Tiled loops over shared buffers: loaders fill a tile cell by cell, a consumer folds
the tile two cells at a time, with one buffer or with two that alternate. -/

namespace MetaZenith.TilePipeline

open List List Function

variable {α σ : Type}

def loadCells (tokens : List ℕ) (cell : ℕ → α) (buf : ℕ → α) : ℕ → α :=
  tokens.foldl (fun b t => update b t (cell t)) buf

def stridedTokens (w T : ℕ) : List ℕ :=
  (range w).flatMap fun i =>
    ((range ((T+w-1)/w)).map fun k => i+k*w).filter (· < T)

def singleBuffered (load : ℕ → (ℕ → α) → ℕ → α) (consume : ℕ → (ℕ → α) → σ → σ) :
    ℕ → ℕ → (ℕ → α) → σ → σ
  | 0, _, _, s => s
  | k+1, i, buf, s =>
    let buf' := load i buf
    singleBuffered load consume k (i+1) buf' (consume i buf' s)

/-- Load the next tile into the other buffer while the current one is consumed;
the buffer of tile `i` is `i % 2`. -/
def doubleBuffered (load : ℕ → (ℕ → α) → ℕ → α) (consume : ℕ → (ℕ → α) → σ → σ) :
    ℕ → ℕ → (ℕ → ℕ → α) → σ → σ
  | 0, _, _, s => s
  | k+1, i, bufs, s =>
    let bufs' := if 0 < k then update bufs ((i+1)%2) (load (i+1) (bufs ((i+1)%2)))
      else bufs
    doubleBuffered load consume k (i+1) bufs' (consume i (bufs' (i%2)) s)

theorem loadCells_of_mem {tokens : List ℕ} (cell : ℕ → α) (buf : ℕ → α) {t : ℕ}
    (ht : t ∈ tokens) : loadCells tokens cell buf t = cell t := by
  induction tokens using reverseRecOn with
  | nil => simp at ht
  | append_singleton l u ih =>
    simp only [loadCells, foldl_append, foldl_cons, foldl_nil]
    by_cases h : t = u
    · rw [h, update_self]
    · rw [update_of_ne h]
      exact ih (by simpa [h] using ht)

theorem mem_stridedTokens {w T t : ℕ} (hw : 0 < w) (ht : t < T) : t ∈ stridedTokens w T := by
  have hdiv : t/w < (T+w-1)/w := by
    rw [Nat.div_lt_iff_lt_mul hw]
    have h := Nat.lt_div_mul_add (a := T+w-1) hw
    omega
  rw [stridedTokens, mem_flatMap]
  refine ⟨t%w,mem_range.mpr (Nat.mod_lt _ hw),?_⟩
  rw [mem_filter, mem_map]
  refine ⟨⟨t/w,mem_range.mpr hdiv,?_⟩,by simpa using ht⟩
  rw [Nat.mul_comm]
  exact Nat.mod_add_div t w

section Run

variable {load : ℕ → (ℕ → α) → ℕ → α} {consume : ℕ → (ℕ → α) → σ → σ} {T : ℕ}
  (cell : ℕ → ℕ → α) (hload : ∀ i buf, ∀ t < T, load i buf t = cell i t)
  (hconsume : ∀ i b b', (∀ t < T, b t = b' t) → ∀ s, consume i b s = consume i b' s)
include hload hconsume

theorem singleBuffered_eq (k i : ℕ) (buf : ℕ → α) (s : σ) : singleBuffered load consume k i buf s =
      (range' i k).foldl (fun s i => consume i (cell i) s) s := by
  induction k generalizing i buf s with
  | zero => rfl
  | succ k ih =>
    rw [singleBuffered, ih, range'_succ, foldl_cons, hconsume i (load i buf) (cell i) (hload i buf)]

/-- The hand-off invariant: when tile `i` is consumed its buffer holds tile `i`. -/
theorem doubleBuffered_eq (k i : ℕ) (bufs : ℕ → ℕ → α) (s : σ)
    (h : 0 < k → ∀ t < T, bufs (i%2) t = cell i t) : doubleBuffered load consume k i bufs s =
      (range' i k).foldl (fun s i => consume i (cell i) s) s := by
  induction k generalizing i bufs s with
  | zero => rfl
  | succ k ih =>
    have hne : i%2 ≠ (i+1)%2 := by omega
    rw [doubleBuffered, range'_succ, foldl_cons]
    split_ifs with hk
    · rw [update_of_ne hne, hconsume i (bufs (i%2)) (cell i) (h (by omega))]
      apply ih
      intro _ t ht
      rw [update_self]
      exact hload (i+1) _ t ht
    · obtain rfl : k = 0 := by omega
      rw [hconsume i (bufs (i%2)) (cell i) (h (by omega))]
      rfl

end Run

def pairUp : List α → List (α × Option α)
  | [] => []
  | [a] => [(a,none)]
  | a :: b :: l => (a,some b) :: pairUp l

def tilePairs (T n i : ℕ) (buf : ℕ → α) : List (α × Option α) :=
  ((range (T/2)).filter fun p => i*T+2*p < n).map fun p =>
    (buf (2*p),if i*T+(2*p+1) < n then some (buf (2*p+1)) else none)

theorem flatMap_blocks (f : ℕ → List α) (h k : ℕ) :
    (range k).flatMap (fun i => (range h).flatMap fun p => f (i*h+p)) = (range (k*h)).flatMap f := by
  induction k with
  | zero => simp
  | succ k ih =>
    rw [range_succ, flatMap_append, ih, flatMap_singleton, Nat.succ_mul,
      range_add, flatMap_append, flatMap_map]

theorem flatMap_pairs (n M : ℕ) (c : ℕ → α) (hM : n ≤ 2*M) : (range M).flatMap (fun q => if 2*q < n then
      [(c (2*q),if 2*q+1 < n then some (c (2*q+1)) else none)] else []) =
      pairUp ((range n).map c) := by
  induction n using Nat.strong_induction_on generalizing M c with
  | _ n ih =>
    rcases n with _ | _ | n
    · simp [pairUp]
    · obtain ⟨M,rfl⟩ : ∃ N, M = N+1 := ⟨M-1,by omega⟩
      rw [range_succ_eq_map, flatMap_cons, flatMap_map]
      simp [pairUp]
    · obtain ⟨M,rfl⟩ : ∃ N, M = N+1 := ⟨M-1,by omega⟩
      have hrange : (range (n+1+1)).map c =
          c 0 :: c 1 :: (range n).map fun t => c (t+2) := by
        rw [range_succ_eq_map, map_cons, map_map, range_succ_eq_map, map_cons, map_map]
        rfl
      have hi := ih n (by omega) M (fun t => c (t+2)) (by omega)
      rw [hrange, pairUp, ← hi, range_succ_eq_map, flatMap_cons, flatMap_map]
      have hstep (q : ℕ) : (if 2*(q+1) < n+2 then
          [(c (2*(q+1)),if 2*(q+1)+1 < n+2 then some (c (2*(q+1)+1)) else none)] else []) =
          if 2*q < n then [(c (2*q+2),if 2*q+1 < n then some (c (2*q+1+2)) else none)] else [] := by
        rw [show 2*(q+1)+1 = 2*q+1+2 by ring, show 2*(q+1) = 2*q+2 by ring]
        simp
      simp only [Nat.succ_eq_add_one, hstep]
      simp

theorem flatMap_tilePairs {T n k : ℕ} (hT : 2 ∣ T) (hk : n ≤ k*T) (c : ℕ → α) :
    (range k).flatMap (fun i => tilePairs T n i fun t => c (i*T+t)) = pairUp ((range n).map c) := by
  obtain ⟨h,rfl⟩ := hT
  have htile (i : ℕ) : tilePairs (2*h) n i (fun t => c (i*(2*h)+t)) =
      (range h).flatMap fun p => if 2*(i*h+p) < n then
        [(c (2*(i*h+p)),if 2*(i*h+p)+1 < n then some (c (2*(i*h+p)+1)) else none)] else [] := by
    have hidx (p : ℕ) : i*(2*h)+2*p = 2*(i*h+p) := by ring
    simp only [tilePairs, Nat.mul_div_cancel_left h (by decide : 0 < 2), ← Nat.add_assoc, hidx]
    induction (range h) with
    | nil => rfl
    | cons p l ih =>
      rw [flatMap_cons, filter_cons, ← ih]
      split_ifs with hp hp' hp' <;> simp_all
  simp only [htile]
  rw [flatMap_blocks (fun q => if 2*q < n then
    [(c (2*q),if 2*q+1 < n then some (c (2*q+1)) else none)] else []) h k]
  refine flatMap_pairs n (k*h) c ?_
  calc
    n ≤ k*(2*h) := hk
    _ = 2*(k*h) := by ring

def maskedTile (T n i : ℕ) (buf : ℕ → α) : List (Option α × Option α) :=
  (range (T/2)).map fun p =>
    (if i*T+2*p < n then some (buf (2*p)) else none,
      if i*T+(2*p+1) < n then some (buf (2*p+1)) else none)

def unmask (l : List (Option α × Option α)) : List (α × Option α) :=
  l.filterMap fun e => e.1.map fun a => (a,e.2)

theorem unmask_maskedTile (T n i : ℕ) (buf : ℕ → α) :
    unmask (maskedTile T n i buf) = tilePairs T n i buf := by
  unfold unmask maskedTile tilePairs
  induction (range (T/2)) with
  | nil => rfl
  | cons p l ih =>
    rw [map_cons, filterMap_cons, filter_cons, ih]
    by_cases hp : i*T+2*p < n <;> simp [hp]

theorem tilePairs_congr {T n i : ℕ} (hT : 2 ∣ T) {b b' : ℕ → α} (h : ∀ t < T, b t = b' t) :
    tilePairs T n i b = tilePairs T n i b' := by
  obtain ⟨m,rfl⟩ := hT
  unfold tilePairs
  apply map_congr_left
  intro p hp
  have hlt : p < 2*m/2 := mem_range.mp (mem_of_mem_filter hp)
  rw [h (2*p) (by omega), h (2*p+1) (by omega)]

theorem maskedTile_congr {T n i : ℕ} (hT : 2 ∣ T) {b b' : ℕ → α} (h : ∀ t < T, b t = b' t) :
    maskedTile T n i b = maskedTile T n i b' := by
  obtain ⟨m,rfl⟩ := hT
  unfold maskedTile
  apply map_congr_left
  intro p hp
  have hlt : p < 2*m/2 := mem_range.mp hp
  rw [h (2*p) (by omega), h (2*p+1) (by omega)]

theorem foldl_append {β : Type} (f : ℕ → List β) (l : List ℕ) (s : List β) :
    l.foldl (fun s i => s ++ f i) s = s ++ l.flatMap f := by
  induction l generalizing s with
  | nil => simp
  | cons i l ih => rw [foldl_cons, ih, flatMap_cons, append_assoc]

section Collect

variable {load : ℕ → (ℕ → α) → ℕ → α} {T n k : ℕ} {c : ℕ → α} (hT : 2 ∣ T) (hk : n ≤ k*T)
  (hload : ∀ i buf, ∀ t < T, load i buf t = c (i*T+t))
include hT hk hload

/-- A double-buffered consumer sees the sequence two at a time, and its last pairs masked. -/
theorem doubleBuffered_masked (bufs : ℕ → ℕ → α) (h : 0 < k → ∀ t < T, bufs 0 t = c t) :
    unmask (doubleBuffered load (fun i buf s => s ++ maskedTile T n i buf) k 0 bufs []) =
      pairUp ((range n).map c) := by
  rw [doubleBuffered_eq (fun i t => c (i*T+t)) hload
    (fun i b b' hb s => by rw [maskedTile_congr hT hb]) k 0 bufs [] (by simpa using h),
    foldl_append, nil_append, unmask, filterMap_flatMap, ← range_eq_range',
    ← flatMap_tilePairs hT hk c]
  simp [← unmask_maskedTile, unmask]

theorem doubleBuffered_pairs (bufs : ℕ → ℕ → α) (h : 0 < k → ∀ t < T, bufs 0 t = c t) :
    doubleBuffered load (fun i buf s => s ++ tilePairs T n i buf) k 0 bufs [] =
      pairUp ((range n).map c) := by
  rw [doubleBuffered_eq (fun i t => c (i*T+t)) hload
    (fun i b b' hb s => by rw [tilePairs_congr hT hb]) k 0 bufs [] (by simpa using h),
    foldl_append, nil_append, ← range_eq_range', ← flatMap_tilePairs hT hk c]

theorem singleBuffered_pairs (buf : ℕ → α) :
    singleBuffered load (fun i buf s => s ++ tilePairs T n i buf) k 0 buf [] =
      pairUp ((range n).map c) := by
  rw [singleBuffered_eq (fun i t => c (i*T+t)) hload
    (fun i b b' hb s => by rw [tilePairs_congr hT hb]) k 0 buf [],
    foldl_append, nil_append, ← range_eq_range', ← flatMap_tilePairs hT hk c]

end Collect

def gridStride (step bound : ℕ) : ℕ → ℕ → List ℕ
  | 0, _ => []
  | fuel+1, p => if p < bound then p :: gridStride step bound fuel (p+step) else []

theorem mem_gridStride {step bound j : ℕ} (fuel p : ℕ) (hj : j < fuel)
    (hp : p+j*step < bound) : p+j*step ∈ gridStride step bound fuel p := by
  induction fuel generalizing p j with
  | zero => omega
  | succ fuel ih =>
    rw [gridStride, if_pos (by omega)]
    cases j with
    | zero => simp
    | succ j =>
      rw [Nat.succ_mul, Nat.add_comm (j*step), ← Nat.add_assoc] at hp ⊢
      exact mem_cons_of_mem _ (ih (p+step) (by omega) hp)

end MetaZenith.TilePipeline
