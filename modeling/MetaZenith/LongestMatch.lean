import Mathlib

/-! Cutting a text into named literals and single letters, the longest literal first. Whether a
literal is found at the front is settled once the text is not a proper prefix of a literal, so a
text may be cut as it grows. -/

namespace MetaZenith.LongestMatch

open List

variable {α N : Type*} [DecidableEq α]

def longer (text : List α) (best : Option (List α × N)) (cand : List α × N) : Option (List α × N) :=
  if cand.1 <+: text ∧ best.all (fun b => b.1.length < cand.1.length) then some cand else best

def longest (lits : List (List α × N)) (text : List α) : Option (List α × N) :=
  lits.foldl (longer text) none

def munch (lits : List (List α × N)) : List α → List (α ⊕ (List α × N))
  | [] => []
  | c :: rest =>
    match longest lits (c :: rest) with
    | some m => .inr m :: munch lits (rest.drop (m.1.length-1))
    | none => .inl c :: munch lits rest
  termination_by text => text.length
  decreasing_by all_goals simp; try omega

/-- `items` cuts `text` from left to right, each time at the longest literal there is at that place,
or after one letter if there is none. -/
inductive LeftmostLongest (lits : List (List α × N)) : List α → List (α ⊕ (List α × N)) → Prop
  | nil : LeftmostLongest lits [] []
  | literal {m : List α × N} {rest : List α} {items : List (α ⊕ (List α × N))} (hmem : m ∈ lits)
      (hmax : ∀ l ∈ lits, l.1 <+: m.1 ++ rest → l.1.length ≤ m.1.length)
      (hrest : LeftmostLongest lits rest items) :
      LeftmostLongest lits (m.1 ++ rest) (.inr m :: items)
  | letter {c : α} {rest : List α} {items : List (α ⊕ (List α × N))}
      (hnone : ∀ l ∈ lits, ¬l.1 <+: c :: rest) (hrest : LeftmostLongest lits rest items) :
      LeftmostLongest lits (c :: rest) (.inl c :: items)

def Barren (lits : List (List α × N)) (text : List α) : Prop :=
  ∀ l ∈ lits, ¬l.1 <+: text ∧ ¬text <+: l.1

variable {text : List α} {m : List α × N} {lits : List (List α × N)}

theorem longer_eq {best : Option (List α × N)} {cand : List α × N}
    (h : longer text best cand = some m) : m = cand ∧ cand.1 <+: text ∨ best = some m := by
  unfold longer at h
  split at h
  · case isTrue hc =>
    cases h
    exact .inl ⟨rfl,hc.1⟩
  · exact .inr h

theorem longest_eq_some (h : longest lits text = some m) : m ∈ lits ∧ m.1 <+: text := by
  have hfold (best : Option (List α × N)) (h : lits.foldl (longer text) best = some m) :
      (m ∈ lits ∧ m.1 <+: text) ∨ best = some m := by
    clear * - h
    induction lits generalizing best with
    | nil => exact .inr h
    | cons l lits ih =>
      rcases ih _ h with hm | hbest
      · exact .inl ⟨mem_cons_of_mem _ hm.1,hm.2⟩
      · rcases longer_eq hbest with ⟨rfl,hp⟩ | hbest
        · exact .inl ⟨mem_cons_self,hp⟩
        · exact .inr hbest
  rcases hfold none h with hm | hm
  · exact hm
  · cases hm

theorem exists_longest {l : List α × N} (hl : l ∈ lits) (hp : l.1 <+: text) :
    ∃ m, longest lits text = some m ∧ l.1.length ≤ m.1.length := by
  -- the best match so far never gets shorter
  have hkeep (lits : List (List α × N)) (b : List α × N) :
      ∃ m, lits.foldl (longer text) (some b) = some m ∧ b.1.length ≤ m.1.length := by
    induction lits generalizing b with
    | nil => exact ⟨b,rfl,le_rfl⟩
    | cons cand lits ih =>
      rw [foldl_cons, longer]
      split
      · case isTrue h =>
        obtain ⟨m,hm,hle⟩ := ih cand
        exact ⟨m,hm,(le_of_lt (by simpa using h.2)).trans hle⟩
      · exact ih b
  obtain ⟨front,back,rfl⟩ := append_of_mem hl
  rw [longest, foldl_append, foldl_cons]
  obtain ⟨b,hb,hle⟩ : ∃ b, longer text (front.foldl (longer text) none) l = some b ∧
      l.1.length ≤ b.1.length := by
    rw [longer]
    cases front.foldl (longer text) none with
    | none => exact ⟨l,by simp [hp],le_rfl⟩
    | some b =>
      by_cases hlt : b.1.length < l.1.length
      · exact ⟨l,by simp [hp, hlt],le_rfl⟩
      · exact ⟨b,by simp [hlt],not_lt.mp hlt⟩
  obtain ⟨m,hm,hle'⟩ := hkeep back b
  exact ⟨m,by rw [hb, hm],hle.trans hle'⟩

theorem longest_congr {text' : List α} (h : ∀ l ∈ lits, (l.1 <+: text ↔ l.1 <+: text')) :
    longest lits text = longest lits text' := by
  have hfold (best : Option (List α × N)) :
      lits.foldl (longer text) best = lits.foldl (longer text') best := by
    induction lits generalizing best with
    | nil => rfl
    | cons l lits ih =>
      have hl : longer text best l = longer text' best l := by
        simp [longer, h l mem_cons_self]
      rw [foldl_cons, foldl_cons, hl]
      exact ih (fun l' hl' => h l' (mem_cons_of_mem _ hl')) _
  exact hfold none

theorem longest_eq_none (h : ∀ l ∈ lits, ¬l.1 <+: text) : longest lits text = none := by
  cases hm : longest lits text with
  | none => rfl
  | some m =>
    obtain ⟨hmem,hp⟩ := longest_eq_some hm
    exact absurd hp (h m hmem)

theorem longest_append (h : ∀ l ∈ lits, text <+: l.1 → text = l.1) (more : List α) :
    longest lits (text ++ more) = longest lits text := by
  refine longest_congr fun l hl => ⟨fun hp => ?_,fun hp => hp.trans (prefix_append _ _)⟩
  rcases prefix_or_prefix_of_prefix hp (prefix_append text more) with hp' | hp'
  · exact hp'
  · rw [h l hl hp']

theorem longest_append_of_barren (h : Barren lits text) (more : List α) :
    longest lits (text ++ more) = none := by
  rw [longest_append fun l hl hp => absurd hp (h l hl).2]
  exact longest_eq_none fun l hl => (h l hl).1

theorem munch_cons_none {c : α} {rest : List α} (h : longest lits (c :: rest) = none) :
    munch lits (c :: rest) = .inl c :: munch lits rest := by
  rw [munch, h]

theorem munch_some (hlits : ∀ l ∈ lits, l.1 ≠ []) (h : longest lits text = some m) :
    munch lits text = .inr m :: munch lits (text.drop m.1.length) := by
  obtain ⟨hmem,hp⟩ := longest_eq_some h
  have hpos : 0 < m.1.length := length_pos_iff.mpr (hlits m hmem)
  cases text with
  | nil => exact absurd (prefix_nil.mp hp) (hlits m hmem)
  | cons c rest =>
    rw [munch, h]
    obtain ⟨k,hk⟩ : ∃ k, m.1.length = k+1 := ⟨m.1.length-1,by omega⟩
    simp [hk]

theorem leftmostLongest_munch (hlits : ∀ l ∈ lits, l.1 ≠ []) (text : List α) :
    LeftmostLongest lits text (munch lits text) := by
  induction hn : text.length using Nat.strong_induction_on generalizing text with
  | _ n ih =>
    cases hlong : longest lits text with
    | some m =>
      obtain ⟨hmem,rest,rfl⟩ := longest_eq_some hlong
      rw [munch_some hlits hlong, drop_left]
      refine .literal hmem (fun l hl hp => ?_) (ih _ ?_ rest rfl)
      · obtain ⟨m',hm',hle⟩ := exists_longest hl hp
        rw [hlong] at hm'
        cases hm'
        exact hle
      · have := length_pos_iff.mpr (hlits m hmem)
        rw [length_append] at hn
        omega
    | none =>
      cases text with
      | nil =>
        rw [munch]
        exact .nil
      | cons c rest =>
        rw [munch_cons_none hlong]
        refine .letter (fun l hl hp => ?_) (ih _ (by simp at hn; omega) rest rfl)
        obtain ⟨m,hm,-⟩ := exists_longest hl hp
        rw [hlong] at hm
        cases hm

theorem munch_append_of_barren (front rest : List α)
    (h : ∀ i < front.length, longest lits (front.drop i ++ rest) = none) :
    munch lits (front ++ rest) = front.map .inl ++ munch lits rest := by
  induction front with
  | nil => rfl
  | cons c front ih =>
    have hc : longest lits (c :: (front ++ rest)) = none := h 0 (Nat.zero_lt_succ _)
    rw [cons_append, munch_cons_none hc, map_cons, cons_append]
    refine congrArg (Sum.inl c :: ·) (ih fun i hi => ?_)
    exact h (i+1) (Nat.succ_lt_succ hi)

end MetaZenith.LongestMatch
