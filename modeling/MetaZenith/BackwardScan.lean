import Mathlib

/-! A scan from the right for a run of present elements that ends where it may: it keeps the elements
of the run and stops as soon as the run is long enough, or at the left end. -/

namespace MetaZenith.BackwardScan

open List

variable {β : Type*} (present : ℕ → Option β) (mayEnd : ℕ → Bool) (need : ℕ)

/-- The positions below `i` are unread, and the `run` positions from `i` on are the current run. -/
def scan : ℕ → List (Option β) → ℕ → List (Option β) × Bool
  | 0, kept, run => (kept.take run,false)
  | i+1, kept, run =>
    match present i with
    | some b =>
      if run = 0 ∧ mayEnd i = false then scan i kept 0
      else if need ≤ run+1 then ((kept.set i (some b)).take (i+(run+1)),true)
      else scan i (kept.set i (some b)) (run+1)
    | none => scan i kept 0

def runList (len : ℕ) : List (Option β) :=
  replicate (len-need) none ++ (range' (len-need) (min need len)).map present

structure EndsAt (n e : ℕ) : Prop where
  lt : e < n
  mayEnd : mayEnd e = true
  present : ∀ j ≤ e, e < j+need → (present j).isSome = true

variable {present mayEnd need}

theorem length_runList (len : ℕ) : (runList present need len).length = len := by
  simp [runList]
  omega

theorem runList_getElem? {len j : ℕ} (hj : j < len) :
    (runList present need len)[j]? = some (if len ≤ j+need then present j else none) := by
  by_cases h : len ≤ j+need
  · rw [if_pos h, runList, getElem?_append_right (by simp; omega), length_replicate, getElem?_map,
      getElem?_range' (by omega)]
    simp [show len-need+(j-(len-need)) = j by omega]
  · rw [if_neg h, runList, getElem?_append_left (by simp; omega), getElem?_replicate, if_pos (by omega)]

theorem dropLast_runList (len : ℕ) :
    (runList present (need+1) len).dropLast = runList present need (len-1) := by
  apply ext_getElem?
  intro j
  rw [getElem?_dropLast, length_runList]
  by_cases hj : j < len-1
  · rw [if_pos hj, runList_getElem? (by omega), runList_getElem? hj]
    congr 2
    exact propext ⟨fun h => by omega,fun h => by omega⟩
  · rw [if_neg hj, getElem?_eq_none (by rw [length_runList]; omega)]

theorem scan_spec {n i run : ℕ} {kept : List (Option β)} (hneed : run < need)
    (hkept : kept.take (i+run) = replicate i none ++ (range' i run).map present)
    (hrun : ∀ j, i ≤ j → j < i+run → (present j).isSome = true)
    (hend : run ≠ 0 → mayEnd (i+run-1) = true) (hn : i+run ≤ n)
    (hmax : ∀ e, EndsAt present mayEnd need n e → e < i+run) :
    ∃ len, (scan present mayEnd need i kept run).1 = runList present need len ∧
      (len = 0 ∨ EndsAt present mayEnd need n (len-1)) ∧
      (∀ e, EndsAt present mayEnd need n e → e < len) ∧
      ((scan present mayEnd need i kept run).2 = true ↔ need ≤ len) := by
  induction i generalizing kept run with
  | zero =>
    rw [Nat.zero_add] at hkept
    refine ⟨run,?_,?_,by simpa using hmax,by simpa [scan] using hneed⟩
    · rw [scan, hkept, runList, show run-need = 0 by omega, min_eq_right hneed.le]
    · refine (Nat.eq_zero_or_pos run).imp_right fun hpos => ⟨by omega,?_,fun j hj _ => ?_⟩
      · simpa using hend hpos.ne'
      · exact hrun j (Nat.zero_le j) (by omega)
  | succ i ih =>
    have hnil : kept.take (i+0) = replicate i none ++ (range' i 0).map present := by
      have h := congrArg (List.take i) hkept
      rw [take_take, min_eq_left (by omega), take_append_of_le_length (by simp), take_replicate,
        min_eq_left (Nat.le_succ i)] at h
      simpa using h
    rw [scan]
    cases hi : present i with
    | none =>
      -- a run of the needed length that ends in the current run contains this position
      refine ih (by omega) hnil (fun j h h' => by omega) (fun h => absurd rfl h) (by omega) ?_
      intro e he
      by_contra hge
      have := hmax e he
      have := he.present i (by omega) (by omega)
      rw [hi] at this
      cases this
    | some b =>
      dsimp only
      have hmax' : ∀ e, EndsAt present mayEnd need n e → e < i+(run+1) := by
        intro e he
        have := hmax e he
        omega
      by_cases hskip : run = 0 ∧ mayEnd i = false
      · rw [if_pos hskip]
        refine ih (by omega) hnil (fun j h h' => by omega) (fun h => absurd rfl h) (by omega) ?_
        intro e he
        rcases Nat.lt_succ_iff_lt_or_eq.mp (show e < i+1 by have := hmax' e he; omega) with h | rfl
        · exact h
        · have := he.mayEnd
          rw [hskip.2] at this
          cases this
      rw [if_neg hskip]
      have hkept' : (kept.set i (some b)).take (i+(run+1)) =
          replicate i none ++ (range' i (run+1)).map present := by
        rw [take_set, show i+(run+1) = i+1+run by omega, hkept, set_append_left _ _ (by simp),
          range'_succ, map_cons, hi, replicate_succ', set_append_right _ _ (by simp)]
        simp
      have hrun' : ∀ j, i ≤ j → j < i+(run+1) → (present j).isSome = true := by
        intro j h h'
        rcases Nat.eq_or_lt_of_le h with rfl | h
        · rw [hi]
          rfl
        · exact hrun j h (by omega)
      have hend' : mayEnd (i+(run+1)-1) = true := by
        by_cases h0 : run = 0
        · subst h0
          simpa using hskip
        · have := hend h0
          rwa [show i+1+run-1 = i+(run+1)-1 by omega] at this
      by_cases hfound : need ≤ run+1
      · rw [if_pos hfound]
        obtain rfl : need = run+1 := by omega
        refine ⟨i+(run+1),?_,.inr ⟨by omega,hend',fun j h h' => hrun' j (by omega) (by omega)⟩,hmax',
          by simp⟩
        rw [hkept', runList, Nat.add_sub_cancel, min_eq_left (by omega)]
      · rw [if_neg hfound]
        exact ih (by omega) hkept' hrun' (fun _ => hend') (by omega) hmax'

/-- The longest run that ends where it may. -/
theorem scan_from_start (present : ℕ → Option β) (mayEnd : ℕ → Bool) (hneed : 0 < need) (n : ℕ) :
    ∃ len, (scan present mayEnd need n (replicate n none) 0).1 = runList present need len ∧
      (len = 0 ∨ EndsAt present mayEnd need n (len-1)) ∧
      (∀ e, EndsAt present mayEnd need n e → e < len) ∧
      ((scan present mayEnd need n (replicate n none) 0).2 = true ↔ need ≤ len) :=
  scan_spec hneed (by simp) (fun j h h' => by omega) (fun h => absurd rfl h) le_rfl fun e he => he.lt

/-- One element is always needed. -/
theorem scan_zero (i : ℕ) (kept : List (Option β)) (run : ℕ) :
    scan present mayEnd 0 i kept run = scan present mayEnd 1 i kept run := by
  induction i generalizing kept run with
  | zero => rfl
  | succ i ih =>
    rw [scan, scan]
    cases present i with
    | none => exact ih _ _
    | some b => simp [ih]

end MetaZenith.BackwardScan
