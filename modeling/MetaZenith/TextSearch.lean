import Mathlib

/-! Searching several patterns in a growing text. Matches are named by where they end: whether a pattern
ends at a position depends on the text up to there only, so a search may be cut at any position. -/

namespace MetaZenith.TextSearch

open List Option

variable {e hi i lo start : ℕ}

variable {α : Type*} [DecidableEq α]

variable (pats : List (List α)) (text : List α)

def findFrom (pat : List α) (start : ℕ) : Option ℕ :=
  (List.range' start (text.length+1-start)).find? fun i => decide (pat <+: text.drop i)

def EndsAt (pat : List α) (e : ℕ) : Prop := e ≤ text.length ∧ pat <:+ text.take e

instance (text pat : List α) (e : ℕ) : Decidable (EndsAt text pat e) :=
  inferInstanceAs (Decidable (_ ∧ _))

def patternAt (e : ℕ) : Option (List α) :=
  pats.find? fun pat => decide (EndsAt text pat e)

def firstEnd (lo hi : ℕ) : Option (List α × ℕ) :=
  ((List.range' (lo+1) (hi-lo)).find? fun e => (patternAt pats text e).isSome).bind fun e =>
    (patternAt pats text e).map fun pat => (pat,e)

omit [DecidableEq α] in
variable {more pat : List α}

theorem endsAt_add_length {text : List α} (hi : i ≤ text.length) :
    EndsAt text pat (i+pat.length) ↔ pat <+: text.drop i := by
  constructor
  · rintro ⟨hle,hsuffix⟩
    rw [suffix_iff_eq_drop, length_take, min_eq_left hle, Nat.add_sub_cancel,
      drop_take, Nat.add_sub_cancel_left] at hsuffix
    rw [hsuffix]
    exact List.take_prefix _ _
  · intro hp
    have hlen := hp.length_le
    rw [length_drop] at hlen
    refine ⟨by omega,?_⟩
    rw [suffix_iff_eq_drop, length_take, min_eq_left (by omega), Nat.add_sub_cancel,
      drop_take, Nat.add_sub_cancel_left]
    exact prefix_iff_eq_take.mp hp

omit [DecidableEq α] in
theorem EndsAt.length_le {text : List α} (h : EndsAt text pat e) : pat.length ≤ e :=
  h.2.length_le.trans (length_take_le e text)

omit [DecidableEq α] in
theorem endsAt_append {text : List α} (he : e ≤ text.length) :
    EndsAt (text ++ more) pat e ↔ EndsAt text pat e := by
  rw [EndsAt, EndsAt, take_append_of_le_length he, length_append]
  exact and_congr_left fun _ => ⟨fun _ => he,fun _ => by omega⟩

variable {pats : List (List α)}

theorem patternAt_append {text : List α} (he : e ≤ text.length) :
    patternAt pats (text ++ more) e = patternAt pats text e := by
  simp [patternAt, endsAt_append he]

/-- What is found is the first listed pattern that ends at the first end in the range. -/
theorem firstEnd_eq_some {text : List α} : firstEnd pats text lo hi = some (pat,e) ↔
      lo < e ∧ e ≤ hi ∧ patternAt pats text e = some pat ∧
        ∀ e', lo < e' → e' < e → patternAt pats text e' = none := by
  rw [firstEnd, bind_eq_some_iff]
  constructor
  · rintro ⟨e',hfind,hpat⟩
    obtain ⟨pat',hpat',heq⟩ := map_eq_some_iff.mp hpat
    cases heq
    obtain ⟨-,hrange,hfirst⟩ := find?_range'_eq_some.mp hfind
    rw [mem_range'_1] at hrange
    refine ⟨by omega,by omega,hpat',?_⟩
    intro e' hlo hlt
    simpa using hfirst e' hlo hlt
  · rintro ⟨hlo,hhi,hpat,hfirst⟩
    refine ⟨e,find?_range'_eq_some.mpr ⟨?_,?_,?_⟩,?_⟩
    · rw [hpat]
      rfl
    · rw [mem_range'_1]
      omega
    · intro e' hlo' hlt
      rw [hfirst e' hlo' hlt]
      rfl
    · rw [hpat]
      rfl

theorem firstEnd_eq_none {text : List α} :
    firstEnd pats text lo hi = none ↔ ∀ e, lo < e → e ≤ hi → patternAt pats text e = none := by
  rw [firstEnd, bind_eq_none_iff]
  constructor
  · intro h
    -- an end in the range would be found
    have hnone : (List.range' (lo+1) (hi-lo)).find?
        (fun e => (patternAt pats text e).isSome) = none := by
      rw [eq_none_iff_forall_not_mem]
      intro e he
      have hsome := find?_some he
      rw [isSome_iff_exists] at hsome
      obtain ⟨pat,hpat⟩ := hsome
      have hbad := h e he
      rw [hpat] at hbad
      cases hbad
    rw [find?_range'_eq_none] at hnone
    intro e hlo hhi
    simpa using hnone e hlo (by omega)
  · intro h e hfind
    obtain ⟨-,hrange,-⟩ := find?_range'_eq_some.mp hfind
    rw [mem_range'_1] at hrange
    rw [h e (by omega) (by omega)]
    rfl

theorem firstEnd_self (lo : ℕ) : firstEnd pats text lo lo = none := by
  rw [firstEnd, Nat.sub_self]
  rfl

theorem firstEnd_split {mid : ℕ} (hlo : lo ≤ mid) (hhi : mid ≤ hi) :
    firstEnd pats text lo hi = (firstEnd pats text lo mid).or (firstEnd pats text mid hi) := by
  cases hfirst : firstEnd pats text lo mid with
  | some found =>
    obtain ⟨hlt,hle,hpat,hbefore⟩ := firstEnd_eq_some.mp hfirst
    exact firstEnd_eq_some.mpr ⟨hlt,hle.trans hhi,hpat,hbefore⟩
  | none =>
    rw [firstEnd_eq_none] at hfirst
    cases hsecond : firstEnd pats text mid hi with
    | some found =>
      obtain ⟨hlt,hle,hpat,hbefore⟩ := firstEnd_eq_some.mp hsecond
      refine firstEnd_eq_some.mpr ⟨by omega,hle,hpat,?_⟩
      intro e hloe hlt
      by_cases hmid : e ≤ mid
      · exact hfirst e hloe hmid
      · exact hbefore e (by omega) hlt
    | none =>
      rw [firstEnd_eq_none] at hsecond
      refine firstEnd_eq_none.mpr fun e hloe hle => ?_
      by_cases hmid : e ≤ mid
      · exact hfirst e hloe hmid
      · exact hsecond e (by omega) hle

theorem firstEnd_append {text : List α} (hhi : hi ≤ text.length) :
    firstEnd pats (text ++ more) lo hi = firstEnd pats text lo hi := by
  apply Option.ext
  rintro ⟨pat,e⟩
  rw [firstEnd_eq_some, firstEnd_eq_some]
  refine and_congr_right fun _ => and_congr_right fun hle => ?_
  rw [patternAt_append (by omega)]
  refine and_congr_right fun _ => forall_congr' fun e' => imp_congr_right fun _ =>
    imp_congr_right fun hlt => ?_
  rw [patternAt_append (by omega)]

def earlier : Option (List α × ℕ) → Option (List α × ℕ) → Option (List α × ℕ)
  | none, found => found
  | some found, none => some found
  | some found, some found' => if found'.2 < found.2 then some found' else some found

theorem patternAt_append_patterns (pats' : List (List α)) (text : List α) (e : ℕ) :
    patternAt (pats ++ pats') text e = (patternAt pats text e).or (patternAt pats' text e) :=
  find?_append

theorem firstEnd_append_patterns (pats' : List (List α)) (text : List α) (lo hi : ℕ) :
    firstEnd (pats ++ pats') text lo hi =
      earlier (firstEnd pats text lo hi) (firstEnd pats' text lo hi) := by
  cases hfirst : firstEnd pats text lo hi with
  | none =>
    rw [firstEnd_eq_none] at hfirst
    rw [earlier]
    apply Option.ext
    rintro ⟨pat,e⟩
    rw [firstEnd_eq_some, firstEnd_eq_some]
    refine and_congr_right fun hlo => and_congr_right fun hle => ?_
    rw [patternAt_append_patterns, hfirst e hlo hle, none_or]
    refine and_congr_right fun _ => forall_congr' fun e' => imp_congr_right fun hlo' =>
      imp_congr_right fun hlt => ?_
    rw [patternAt_append_patterns, hfirst e' hlo' (by omega), none_or]
  | some found =>
    obtain ⟨hlo,hle,hpat,hbefore⟩ := firstEnd_eq_some.mp hfirst
    cases hsecond : firstEnd pats' text lo hi with
    | none =>
      rw [firstEnd_eq_none] at hsecond
      refine firstEnd_eq_some.mpr ⟨hlo,hle,?_,?_⟩
      · rw [patternAt_append_patterns, hpat, some_or]
      · intro e' hlo' hlt
        rw [patternAt_append_patterns, hbefore e' hlo' hlt, hsecond e' hlo' (by omega), none_or]
    | some found' =>
      obtain ⟨hlo₂,hle₂,hpat₂,hbefore₂⟩ := firstEnd_eq_some.mp hsecond
      rw [earlier]
      split
      · rename_i hlt
        refine firstEnd_eq_some.mpr ⟨hlo₂,hle₂,?_,?_⟩
        · rw [patternAt_append_patterns, hbefore _ hlo₂ hlt, hpat₂, none_or]
        · intro e' hlo' hlt'
          rw [patternAt_append_patterns, hbefore e' hlo' (by omega), hbefore₂ e' hlo' hlt', none_or]
      · rename_i hge
        refine firstEnd_eq_some.mpr ⟨hlo,hle,?_,?_⟩
        · rw [patternAt_append_patterns, hpat, some_or]
        · intro e' hlo' hlt'
          rw [patternAt_append_patterns, hbefore e' hlo' hlt', hbefore₂ e' hlo' (by omega), none_or]

theorem patternAt_eq_some {text : List α}
    (h : patternAt pats text e = some pat) : pat ∈ pats ∧ EndsAt text pat e := by
  have hend := find?_some (p := fun pat => decide (EndsAt text pat e)) h
  exact ⟨mem_of_find?_eq_some h,of_decide_eq_true hend⟩

theorem patternAt_singleton (pat text : List α) (e : ℕ) :
    patternAt [pat] text e = if EndsAt text pat e then some pat else none := by
  rw [patternAt, find?_singleton]
  simp

theorem findFrom_eq_some {text : List α} :
    findFrom text pat start = some i ↔ start ≤ i ∧ EndsAt text pat (i+pat.length) ∧
      ∀ j, start ≤ j → j < i → ¬EndsAt text pat (j+pat.length) := by
  rw [findFrom, find?_range'_eq_some, mem_range'_1]
  constructor
  · rintro ⟨hi,hrange,hfirst⟩
    refine ⟨hrange.1,(endsAt_add_length (by omega)).mpr (of_decide_eq_true hi),?_⟩
    intro j hj hlt
    rw [endsAt_add_length (by omega)]
    simpa using hfirst j hj hlt
  · rintro ⟨hstart,hend,hfirst⟩
    have hlen := hend.1
    refine ⟨decide_eq_true ((endsAt_add_length (by omega)).mp hend),by omega,?_⟩
    intro j hj hlt
    have hno := hfirst j hj hlt
    rw [endsAt_add_length (by omega)] at hno
    simpa using hno

theorem findFrom_eq_none {text : List α} :
    findFrom text pat start = none ↔ ∀ j, start ≤ j → ¬EndsAt text pat (j+pat.length) := by
  rw [findFrom, find?_range'_eq_none]
  constructor
  · intro h j hj hend
    have hlen := hend.1
    have hno := h j hj (by omega)
    rw [decide_eq_true ((endsAt_add_length (by omega)).mp hend)] at hno
    cases hno
  · intro h j hj hlt
    have hno := h j hj
    rw [endsAt_add_length (by omega)] at hno
    simpa using hno

/-- A pattern searched so that it ends behind `lo`. -/
theorem findFrom_eq_firstEnd (pat : List α) (hstart : start = lo+1-pat.length) (hpat : pat ≠ []) :
    (findFrom text pat start).map (fun i => (pat,i+pat.length)) =
      firstEnd [pat] text lo text.length := by
  have hlen : 0 < pat.length := length_pos_of_ne_nil hpat
  cases hfind : findFrom text pat start with
  | none =>
    rw [findFrom_eq_none] at hfind
    refine (firstEnd_eq_none.mpr fun e hlo _ => ?_).symm
    rw [patternAt_singleton, if_neg]
    intro hend
    have hle := hend.length_le
    have hsplit : e = e-pat.length+pat.length := by omega
    rw [hsplit] at hend
    exact hfind _ (by omega) hend
  | some i =>
    obtain ⟨hi,hend,hfirst⟩ := findFrom_eq_some.mp hfind
    refine (firstEnd_eq_some.mpr ⟨by omega,hend.1,?_,?_⟩).symm
    · rw [patternAt_singleton, if_pos hend]
    · intro e hlo hlt
      rw [patternAt_singleton, if_neg]
      intro hend'
      have hle := hend'.length_le
      have hsplit : e = e-pat.length+pat.length := by omega
      rw [hsplit] at hend'
      exact hfirst _ (by omega) (by omega) hend'

def rfindTo (pat : List α) (stop : ℕ) : Option ℕ :=
  (List.range (stop+1)).reverse.find? fun i => decide (pat <+: (text.take stop).drop i)

theorem findFrom_zero_of_first {text : List α} (hi : i ≤ text.length) (hocc : pat <+: text.drop i)
    (hfirst : ∀ j, pat <+: text.drop j → i ≤ j) : findFrom text pat 0 = some i := by
  refine findFrom_eq_some.mpr ⟨Nat.zero_le _,(endsAt_add_length hi).mpr hocc,fun j _ hlt hend => ?_⟩
  have := hfirst j ((endsAt_add_length (by omega)).mp hend)
  omega

theorem findFrom_zero_eq_none {text : List α} (h : ∀ j, ¬pat <+: text.drop j) :
    findFrom text pat 0 = none := by
  refine findFrom_eq_none.mpr fun j _ hend => h j ?_
  have hle := hend.1
  exact (endsAt_add_length (by omega)).mp hend

theorem isPrefix_of_findFrom {text : List α} (h : findFrom text pat start = some i) :
    pat <+: text.drop i := by
  obtain ⟨-,hend,-⟩ := findFrom_eq_some.mp h
  have hle := hend.1
  exact (endsAt_add_length (by omega)).mp hend

theorem rfindTo_of_unique {text : List α} {stop : ℕ} (hocc : pat <+: (text.take stop).drop i)
    (hi : i ≤ stop) (hunique : ∀ j, pat <+: (text.take stop).drop j → j = i) :
    rfindTo text pat stop = some i := by
  cases hfind : rfindTo text pat stop with
  | none =>
    have hno := find?_eq_none.mp hfind i (mem_reverse.mpr (mem_range.mpr (by omega)))
    exact absurd (decide_eq_true hocc) hno
  | some j =>
    have hj := find?_some hfind
    rw [hunique j (of_decide_eq_true hj)]

theorem rfindTo_eq_none {text : List α} {stop : ℕ} (h : ∀ j, ¬pat <+: (text.take stop).drop j) :
    rfindTo text pat stop = none :=
  find?_eq_none.mpr fun j _ hj => h j (of_decide_eq_true hj)

end MetaZenith.TextSearch
