import Mathlib

/-! Cutting the range `0 .. n-1` into `S` consecutive parts of one ceil-divided
length, with the truncating division of machine integers. -/

namespace MetaZenith.RangeSplit

variable {n : ℤ} {S : ℕ}

def ceilTDiv (n : ℤ) (S : ℕ) : ℤ := (n+S-1).tdiv S

def partStart (n : ℤ) (S i : ℕ) : ℤ := ceilTDiv n S*i

def partEnd (n : ℤ) (S i : ℕ) : ℤ := min (partStart n S i+ceilTDiv n S) n

def partSize (n : ℤ) (S i : ℕ) : ℤ := max (partEnd n S i-partStart n S i) 0

def interval (a : ℤ) (m : ℕ) : List ℤ := (List.range m).map fun k : ℕ => a+(k:ℤ)

def part (n : ℤ) (S i : ℕ) : List ℤ := interval (partStart n S i) (partSize n S i).toNat

@[simp] theorem interval_zero (a : ℤ) : interval a 0 = [] := rfl

@[simp] theorem interval_length (a : ℤ) (m : ℕ) : (interval a m).length = m := by
  simp [interval]

theorem interval_append (a : ℤ) (m k : ℕ) : interval a m ++ interval (a+m) k = interval a (m+k) := by
  simp only [interval, List.range_add, List.map_append, List.map_map]
  congr 1
  apply List.map_congr_left
  intro x _
  simp only [Function.comp_apply]
  push_cast
  ring

theorem mem_interval {a x : ℤ} {m : ℕ} : x ∈ interval a m ↔ a ≤ x ∧ x < a+m := by
  simp only [interval, List.mem_map, List.mem_range]
  constructor
  · rintro ⟨k,hk,rfl⟩
    omega
  · rintro ⟨ha,hx⟩
    exact ⟨(x-a).toNat, by omega, by omega⟩

theorem ceilTDiv_nonneg (hn : -(S:ℤ) < n) : 0 ≤ ceilTDiv n S :=
  Int.tdiv_nonneg (by omega) (by omega)

theorem ceilTDiv_nonpos (hS : 0 < S) (hn : n ≤ 0) : ceilTDiv n S ≤ 0 := by
  by_cases h : 0 ≤ n+S-1
  · rw [ceilTDiv, Int.tdiv_eq_zero_of_lt h (by omega)]
  · have hq : 0 ≤ (-(n+S-1)).tdiv S := Int.tdiv_nonneg (by omega) (by omega)
    rw [Int.neg_tdiv] at hq
    rw [ceilTDiv]
    omega

theorem le_ceilTDiv_mul (hS : 0 < S) (hn : 0 ≤ n) : n ≤ ceilTDiv n S*S := by
  rw [ceilTDiv, Int.tdiv_eq_ediv_of_nonneg (by omega)]
  have h := Int.lt_ediv_add_one_mul_self (n+S-1) (by omega : (0:ℤ) < S)
  rw [add_mul] at h
  omega

theorem partSize_of_nonpos (hS : 0 < S) (hn : n ≤ 0) (i : ℕ) : partSize n S i = 0 := by
  have hc := ceilTDiv_nonpos hS hn
  unfold partSize partEnd
  have h : min (partStart n S i+ceilTDiv n S) n ≤ partStart n S i := by
    omega
  omega

/-- The first `m` parts, in order, are an initial segment of the range. -/
theorem flatMap_part_range (hS : 0 < S) (hn : 0 ≤ n) (m : ℕ) :
    (List.range m).flatMap (part n S) = interval 0 (min (ceilTDiv n S*m) n).toNat := by
  have hc : 0 ≤ ceilTDiv n S := ceilTDiv_nonneg (by omega)
  induction m with
  | zero => simp [hn]
  | succ m ih =>
    have hs : 0 ≤ ceilTDiv n S*m := mul_nonneg hc (by omega)
    rw [List.range_succ, List.flatMap_append, ih, List.flatMap_singleton, Nat.cast_succ,
      mul_add, mul_one, part, partSize, partEnd, partStart]
    generalize ceilTDiv n S*m = a at hs ⊢
    rcases le_total n a with h | h
    · -- past the end of the range the remaining parts are empty
      have hz : (max (min (a+ceilTDiv n S) n-a) 0).toNat = 0 := by omega
      rw [hz, interval_zero, List.append_nil]
      congr 1
      omega
    · have ha : a = 0+((min a n).toNat:ℤ) := by omega
      have hl : (min (a+ceilTDiv n S) n).toNat =
          (min a n).toNat+(max (min (a+ceilTDiv n S) n-a) 0).toNat := by omega
      rw [hl, ← interval_append, ← ha]

theorem flatMap_part (n : ℤ) (hS : 0 < S) : (List.range S).flatMap (part n S) = interval 0 n.toNat := by
  rcases le_total 0 n with hn | hn
  · rw [flatMap_part_range hS hn, min_eq_right (le_ceilTDiv_mul hS hn)]
  · have hp (i : ℕ) : part n S i = [] := by
      rw [part, partSize_of_nonpos hS hn, Int.toNat_zero, interval_zero]
    have hf : part n S = fun _ => [] := funext hp
    rw [hf, Int.toNat_of_nonpos hn]
    simp

theorem part_bounds {i t : ℕ} (hS : 0 < S) (ht : t < (partSize n S i).toNat) :
    0 < n ∧ 0 ≤ partStart n S i ∧ partStart n S i+t < partEnd n S i ∧ partEnd n S i ≤ n := by
  have hn : 0 < n := by
    by_contra h
    rw [partSize_of_nonpos hS (by omega) i] at ht
    simp at ht
  have hc : 0 ≤ ceilTDiv n S := ceilTDiv_nonneg (by omega)
  refine ⟨hn,mul_nonneg hc (by omega),?_,min_le_right _ _⟩
  unfold partSize at ht
  omega

theorem foldl_max_le_iff {l : List ℕ} {f : ℕ → ℤ} {a b : ℤ} :
    l.foldl (fun m r => max m (f r)) a ≤ b ↔ a ≤ b ∧ ∀ r ∈ l, f r ≤ b := by
  induction l generalizing a with
  | nil => simp
  | cons r l ih =>
    rw [List.foldl_cons, ih]
    simp [and_assoc]

end MetaZenith.RangeSplit
