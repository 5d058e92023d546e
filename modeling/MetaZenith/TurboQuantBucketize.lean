import Mathlib

/-! The bucketisation of keys in `_tq_fused_store_mse`: a binary search of fixed length over the
midpoints between neighbouring centroids. -/

namespace MetaZenith.TurboQuant

structure Centroids (bits : ℕ) where
  value : ℕ → ℚ
  increasing : ∀ i j, i < j → j < 2^bits → value i < value j

def Centroids.midpoint {bits : ℕ} (c : Centroids bits) (i : ℕ) : ℚ := (c.value i+c.value (i+1))/2

/-- One lane of the search, with the indices it has loaded. -/
structure Bucketizing where
  lo : ℕ
  hi : ℕ
  loads : List ℕ

def Bucketizing.probe (midpoints : ℕ → ℚ) (numCentroids : ℕ) (y : ℚ) (s : Bucketizing) :
    Bucketizing :=
  let mid := (s.lo+s.hi)/2
  let safeMid := min mid (numCentroids-2)
  let midVal := midpoints safeMid
  { lo := if midVal ≤ y then mid+1 else s.lo
    hi := if midVal ≤ y then s.hi else mid
    loads := s.loads ++ [safeMid] }

def bucketize (midpoints : ℕ → ℚ) (mseBits : ℕ) (y : ℚ) : ℕ × List ℕ :=
  let numCentroids := 2^mseBits
  let s := (Bucketizing.probe midpoints numCentroids y)^[mseBits] ⟨0,numCentroids-1,[]⟩
  (min s.lo (numCentroids-1),s.loads)

variable {bits : ℕ} {c : Centroids bits} {y : ℚ}

theorem Centroids.value_le {i j : ℕ} (h : i ≤ j) (hj : j < 2^bits) : c.value i ≤ c.value j := by
  rcases Nat.eq_or_lt_of_le h with rfl | h
  · exact le_rfl
  · exact (c.increasing i j h hj).le

theorem Centroids.midpoint_le {i j : ℕ} (h : i ≤ j) (hj : j+1 < 2^bits) :
    c.midpoint i ≤ c.midpoint j := by
  have hlow : c.value i ≤ c.value j := value_le h (Nat.lt_of_succ_lt hj)
  have hhigh : c.value (i+1) ≤ c.value (j+1) := value_le (Nat.succ_le_succ h) hj
  rw [midpoint, midpoint]
  linarith

/-- The answer lies among the `2 ^ r` indices from `lo` to `hi`. -/
structure Narrowed (c : Centroids bits) (y : ℚ) (r : ℕ) (s : Bucketizing) : Prop where
  length : s.hi+1 = s.lo+2^r
  lt : s.hi < 2^bits
  below : ∀ j < s.lo, c.midpoint j ≤ y
  above : ∀ j, s.hi ≤ j → j+1 < 2^bits → y < c.midpoint j
  loads : ∀ j ∈ s.loads, j+1 < 2^bits

theorem Narrowed.probe {r : ℕ} {s : Bucketizing} (h : Narrowed c y (r+1) s) :
    Narrowed c y r (s.probe c.midpoint (2^bits) y) := by
  obtain ⟨hlen,hlt,hbelow,habove,hloads⟩ := h
  have hpos : 0 < 2^r := Nat.two_pow_pos r
  rw [Nat.pow_succ] at hlen
  -- an interval of this length is cut in the middle, and never at its upper end
  have hmid : (s.lo+s.hi)/2+1 = s.lo+2^r := by omega
  have hsafe : min ((s.lo+s.hi)/2) (2^bits-2) = (s.lo+s.hi)/2 := min_eq_left (by omega)
  rw [Bucketizing.probe, hsafe]
  have hloads' : ∀ j ∈ s.loads ++ [(s.lo+s.hi)/2], j+1 < 2^bits := by
    intro j hj
    rcases List.mem_append.mp hj with hj | hj
    · exact hloads j hj
    · rw [List.mem_singleton.mp hj]
      omega
  by_cases hy : c.midpoint ((s.lo+s.hi)/2) ≤ y
  · simp only [if_pos hy]
    refine ⟨by dsimp only; omega,hlt,fun j hj => ?_,habove,hloads'⟩
    have hle : c.midpoint j ≤ c.midpoint ((s.lo+s.hi)/2) :=
      Centroids.midpoint_le (Nat.lt_succ_iff.mp hj) (by omega)
    exact hle.trans hy
  · simp only [if_neg hy]
    refine ⟨hmid,by dsimp only; omega,hbelow,fun j hj hj' => ?_,hloads'⟩
    have hle : c.midpoint ((s.lo+s.hi)/2) ≤ c.midpoint j := Centroids.midpoint_le hj hj'
    exact (not_le.mp hy).trans_le hle

theorem Narrowed.iterate {k r : ℕ} {s : Bucketizing} (h : Narrowed c y (r+k) s) :
    Narrowed c y r ((Bucketizing.probe c.midpoint (2^bits) y)^[k] s) := by
  induction k generalizing s with
  | zero => exact h
  | succ k ih =>
    rw [Function.iterate_succ_apply]
    exact ih h.probe

theorem narrowed_bucketize (c : Centroids bits) (y : ℚ) :
    ∃ s, Narrowed c y 0 s ∧ s.lo = s.hi ∧ bucketize c.midpoint bits y = (s.lo,s.loads) := by
  have hpos : 0 < 2^bits := Nat.two_pow_pos bits
  have hstart : Narrowed c y (0+bits) ⟨0,2^bits-1,[]⟩ := by
    refine ⟨?_,by dsimp only; omega,fun j hj => absurd hj (Nat.not_lt_zero j),fun j hj hj' => ?_,
      fun j hj => by cases hj⟩
    · rw [Nat.zero_add, Nat.zero_add]
      exact Nat.sub_add_cancel hpos
    · dsimp only at hj
      omega
  have hend := hstart.iterate
  have hlen := hend.length
  have hlt := hend.lt
  have hlo : min ((Bucketizing.probe c.midpoint (2^bits) y)^[bits] ⟨0,2^bits-1,[]⟩).lo
      (2^bits-1) = ((Bucketizing.probe c.midpoint (2^bits) y)^[bits] ⟨0,2^bits-1,[]⟩).lo := by
    apply min_eq_left
    omega
  exact ⟨_,hend,by omega,by rw [bucketize, hlo]⟩

theorem abs_sub_le_of_midpoints {i j : ℕ} (hi : i < 2^bits) (hj : j < 2^bits)
    (hbelow : ∀ k < i, c.midpoint k ≤ y) (habove : i+1 < 2^bits → y < c.midpoint i) :
    |y-c.value i| ≤ |y-c.value j| := by
  rcases lt_trichotomy j i with hlt | rfl | hlt
  · obtain ⟨k,rfl⟩ : ∃ k, i = k+1 := ⟨i-1,by omega⟩
    have hmid := hbelow k (Nat.lt_succ_self k)
    rw [Centroids.midpoint] at hmid
    have hle : c.value j ≤ c.value k := Centroids.value_le (Nat.lt_succ_iff.mp hlt) (by omega)
    have hle' : c.value j ≤ c.value (k+1) := Centroids.value_le hlt.le hi
    have habs := le_abs_self (y-c.value j)
    exact abs_le.mpr ⟨by linarith,by linarith⟩
  · exact le_rfl
  · have hmid := habove (by omega)
    rw [Centroids.midpoint] at hmid
    have hle : c.value (i+1) ≤ c.value j := Centroids.value_le hlt hj
    have hle' : c.value i ≤ c.value j := Centroids.value_le hlt.le hj
    have habs := neg_le_abs (y-c.value j)
    exact abs_le.mpr ⟨by linarith,by linarith⟩

/-- The search returns the number of midpoints up to `y`, which is the index of a nearest centroid,
and its probes stay inside the table. -/
theorem bucketize_nearest (c : Centroids bits) (y : ℚ) :
    (bucketize c.midpoint bits y).1 < 2^bits ∧
    (bucketize c.midpoint bits y).1 =
      ((Finset.range (2^bits-1)).filter fun j => c.midpoint j ≤ y).card ∧
    (∀ j ∈ (bucketize c.midpoint bits y).2, j < 2^bits-1) ∧
    ∀ j < 2^bits, |y-c.value (bucketize c.midpoint bits y).1| ≤ |y-c.value j| := by
  obtain ⟨s,hs,hlo,heq⟩ := narrowed_bucketize c y
  rw [heq]
  have hlt : s.lo < 2^bits := hlo ▸ hs.lt
  refine ⟨hlt,?_,fun j hj => ?_,fun j hj => ?_⟩
  · have hfilter : ((Finset.range (2^bits-1)).filter fun j => c.midpoint j ≤ y) =
        Finset.range s.lo := by
      ext j
      rw [Finset.mem_filter, Finset.mem_range, Finset.mem_range]
      constructor
      · intro ⟨hj,hy⟩
        by_contra hge
        exact absurd hy (not_le.mpr (hs.above j (by omega) (by omega)))
      · intro hj
        exact ⟨by omega,hs.below j hj⟩
    rw [hfilter, Finset.card_range]
  · have := hs.loads j hj
    omega
  · exact abs_sub_le_of_midpoints hlt hj hs.below fun h => hs.above s.lo hlo.ge h

end MetaZenith.TurboQuant
