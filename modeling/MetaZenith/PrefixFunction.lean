import Mathlib

/-! The prefixes of a sequence that end at a position, by which text is searched in linear time. -/

namespace MetaZenith.PrefixFunction

variable {α : Type*} {f : ℕ → α} {u v j m b : ℕ}

/-- The first `v` letters stand again right before position `j`. -/
def Ends (f : ℕ → α) (v j : ℕ) : Prop := v ≤ j ∧ ∀ x < v, f x = f (j-v+x)

/-- `b` is the longest prefix of at most `m` letters that ends at `j`, other than the whole. -/
structure LongestEnd (f : ℕ → α) (m j b : ℕ) : Prop where
  le : b ≤ m
  lt : b < j
  ends : Ends f b j
  longest : ∀ v ≤ m, v < j → Ends f v j → v ≤ b

theorem ends_zero : Ends f 0 j := ⟨Nat.zero_le _,fun _ hx => absurd hx (Nat.not_lt_zero _)⟩

theorem ends_succ : Ends f (v+1) (j+1) ↔ Ends f v j ∧ f v = f j := by
  constructor
  · intro ⟨hle,h⟩
    refine ⟨⟨Nat.le_of_succ_le_succ hle,fun x hx => ?_⟩,?_⟩
    · rw [h x (Nat.lt_succ_of_lt hx), Nat.add_sub_add_right]
    · rw [h v (Nat.lt_succ_self v), Nat.add_sub_add_right, Nat.sub_add_cancel (Nat.le_of_succ_le_succ hle)]
  · intro ⟨⟨hle,h⟩,hlast⟩
    refine ⟨Nat.succ_le_succ hle,fun x hx => ?_⟩
    rw [Nat.add_sub_add_right]
    rcases Nat.eq_or_lt_of_le (Nat.lt_succ_iff.mp hx) with rfl | hx
    · rw [Nat.sub_add_cancel hle, hlast]
    · exact h x hx

theorem Ends.trans (h : Ends f u v) (h' : Ends f v j) : Ends f u j := by
  refine ⟨h.1.trans h'.1,fun x hx => ?_⟩
  have hle := h.1
  have hle' := h'.1
  rw [h.2 x hx, h'.2 _ (by omega)]
  congr 1
  omega

theorem Ends.of_ends (h : Ends f u j) (h' : Ends f v j) (hle : u ≤ v) : Ends f u v := by
  refine ⟨hle,fun x hx => ?_⟩
  have hle' := h'.1
  rw [h.2 x hx, h'.2 (v-u+x) (by omega)]
  congr 1
  omega

end MetaZenith.PrefixFunction
