import Mathlib

/-! Tables stored column by column: a row is what all columns hold at one index. -/

namespace MetaZenith

open List Function

variable {α : Type*}

variable (c : ℕ → α) (d : ℕ → Option α) (i j : ℕ) (row : ℕ → α) (m : ℕ → ℕ → α)

def colMove (src dst : ℕ) : ℕ → α := update c dst (c src)

/-- `c[i], c[j] = c[j], c[i]` where indexing copies the element out. -/
def colSwap : ℕ → α := update (update c i (c j)) j (c i)

def colSwapViews : ℕ → α :=
  let c' := update c i (c j)
  update c' j (c' i)

theorem colMove_apply (src dst k : ℕ) : colMove c src dst k = c (if k = dst then src else k) := by
  unfold colMove
  by_cases hk : k = dst
  · rw [hk, update_self, if_pos rfl]
  · rw [update_of_ne hk, if_neg hk]

theorem colSwap_apply (k : ℕ) : colSwap c i j k = c (Equiv.swap i j k) := by
  unfold colSwap
  by_cases hj : k = j
  · rw [hj, update_self, Equiv.swap_apply_right]
  · rw [update_of_ne hj]
    by_cases hi : k = i
    · rw [hi, update_self, Equiv.swap_apply_left]
    · rw [update_of_ne hi, Equiv.swap_apply_of_ne_of_ne hi hj]

theorem colSwapViews_apply (k : ℕ) : colSwapViews c i j k = if k = i then c j else c k := by
  unfold colSwapViews
  simp only [update_self]
  by_cases hj : k = j
  · subst hj
    rw [update_self, ite_self]
  · rw [update_of_ne hj]
    by_cases hi : k = i
    · rw [hi, update_self, if_pos rfl]
    · rw [update_of_ne hi, if_neg hi]

theorem colSwapViews_eq_colSwap_iff : colSwapViews c i j = colSwap c i j ↔ c i = c j := by
  constructor
  · intro h
    have hj := congrFun h j
    rw [colSwapViews_apply, colSwap_apply, Equiv.swap_apply_right] at hj
    rw [← hj, ite_self]
  · intro h
    ext k
    rw [colSwapViews_apply, colSwap_apply]
    by_cases hi : k = i
    · rw [if_pos hi, hi, Equiv.swap_apply_left]
    · rw [if_neg hi]
      by_cases hj : k = j
      · rw [hj, Equiv.swap_apply_right, h]
      · rw [Equiv.swap_apply_of_ne_of_ne hi hj]

def matMovePrefix (src dst n : ℕ) : ℕ → ℕ → α :=
  update m dst fun c => if c < n then m src c else m dst c

def matSwapPrefix (i j n : ℕ) : ℕ → ℕ → α :=
  let m' := matMovePrefix m j i n
  update m' j fun c => if c < n then m i c else m' j c

variable {dst k n src : ℕ}

theorem matMovePrefix_apply {c : ℕ} (hc : k = dst → c < n) :
    matMovePrefix m src dst n k c = m (if k = dst then src else k) c := by
  unfold matMovePrefix
  by_cases hk : k = dst
  · rw [hk, update_self, if_pos (hc hk), if_pos rfl]
  · rw [update_of_ne hk, if_neg hk]

theorem matSwapPrefix_apply {i j c : ℕ} (hc : k = i ∨ k = j → c < n) :
    matSwapPrefix m i j n k c = m (Equiv.swap i j k) c := by
  unfold matSwapPrefix
  by_cases hj : k = j
  · rw [hj, update_self, if_pos (hc (.inr hj)), Equiv.swap_apply_right]
  · rw [update_of_ne hj, matMovePrefix_apply m fun hi => hc (.inl hi)]
    by_cases hi : k = i
    · rw [if_pos hi, hi, Equiv.swap_apply_left]
    · rw [if_neg hi, Equiv.swap_apply_of_ne_of_ne hi hj]

def writeSlice (start : ℕ) (l : List α) : ℕ → α :=
  fun c => if start ≤ c then (l[c-start]?).getD (row c) else row c

theorem writeSlice_of_lt {start c : ℕ} (l : List α) (hc : c < start) :
    writeSlice row start l c = row c := if_neg (by omega)

theorem writeSlice_of_mem {start c : ℕ} (l : List α) (hs : start ≤ c) (hc : c < start+l.length) :
    some (writeSlice row start l c) = l[c-start]? := by
  have hlt : c-start < l.length := by omega
  rw [writeSlice, if_pos hs, getElem?_eq_getElem hlt, Option.getD_some]

def readPrefix (n : ℕ) : List α := (List.range n).map row

@[simp] theorem length_readPrefix (n : ℕ) : (readPrefix row n).length = n := by
  simp [readPrefix]

theorem readPrefix_congr {row row' : ℕ → α} (h : ∀ c < n, row c = row' c) :
    readPrefix row n = readPrefix row' n :=
  map_congr_left fun c hc => h c (mem_range.mp hc)

theorem readPrefix_writeSlice (n : ℕ) (l : List α) :
    readPrefix (writeSlice row n l) (n+l.length) = readPrefix row n ++ l := by
  apply ext_getElem?
  intro c
  by_cases hc : c < n
  · rw [getElem?_append_left (by simpa using hc)]
    simp [readPrefix, hc, Nat.lt_add_right l.length hc, writeSlice_of_lt row l hc]
  · rw [getElem?_append_right (by simpa using hc), length_readPrefix]
    by_cases hl : c < n+l.length
    · rw [← writeSlice_of_mem row l (by omega) hl]
      simp [readPrefix, hl]
    · rw [getElem?_eq_none (by simpa using hl), getElem?_eq_none (by omega)]

theorem take_readPrefix (m n : ℕ) : (readPrefix row n).take m = readPrefix row (min m n) := by
  simp [readPrefix, ← map_take, take_range]

theorem readPrefix_writeSlice_zero {l : List α} (hl : l.length = n) :
    readPrefix (writeSlice row 0 l) n = l := by
  have h := readPrefix_writeSlice row 0 l
  rw [Nat.zero_add, hl] at h
  exact h

theorem readPrefix_zipWith {β γ : Type*} (f : α → β → γ) (row : ℕ → α) (row' : ℕ → β) (n : ℕ) :
    readPrefix (fun c => f (row c) (row' c)) n =
      List.zipWith f (readPrefix row n) (readPrefix row' n) := by
  simp [readPrefix, zipWith_map, zipWith_self]

def dictMove (src dst : ℕ) : ℕ → Option α :=
  let d' := update d src none
  match d src with
  | some v => update d' dst (some v)
  | none => d'

def dictSwap : ℕ → Option α :=
  let v₁ := d i
  let v₂ := d j
  let d₁ := match v₁ with
    | some v => update d j (some v)
    | none => update d j none
  match v₂ with
  | some v => update d₁ i (some v)
  | none => update d₁ i none

theorem dictSwap_apply (k : ℕ) : dictSwap d i j k = d (Equiv.swap i j k) := by
  have hset : dictSwap d i j = update (update d j (d i)) i (d j) := by
    unfold dictSwap
    cases d i <;> cases d j <;> rfl
  rw [hset]
  by_cases hi : k = i
  · rw [hi, update_self, Equiv.swap_apply_left]
  · rw [update_of_ne hi]
    by_cases hj : k = j
    · rw [hj, update_self, Equiv.swap_apply_right]
    · rw [update_of_ne hj, Equiv.swap_apply_of_ne_of_ne hi hj]

theorem dictMove_apply (hdst : d dst = none) (hk : k ≠ src) :
    dictMove d src dst k = d (if k = dst then src else k) := by
  by_cases hkd : k = dst
  · subst hkd
    cases hv : d src <;> simp [dictMove, hv, hdst, update_of_ne hk]
  · cases hv : d src <;>
      simp [dictMove, hv, update_of_ne hk, hkd]

theorem dictMove_src (hne : src ≠ dst) : dictMove d src dst src = none := by
  cases hv : d src <;> simp [dictMove, hv, update_of_ne hne]

end MetaZenith
