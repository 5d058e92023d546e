import Mathlib

/-! Dealing positions out to `R` parts in turn, `I` positions at a time. -/

namespace MetaZenith.Interleave

def part (I R x : ℕ) : ℕ := x/I%R

def offset (I R x : ℕ) : ℕ := x/(R*I)*I+x%I

/-- The position with offset `o` in part `r`. -/
def place (I R r o : ℕ) : ℕ := (o/I*R+r)*I+o%I

variable {I R B r o x : ℕ}

theorem place_div (hI : 0 < I) : place I R r o/I = o/I*R+r := by
  rw [place, Nat.mul_comm, Nat.mul_add_div hI, Nat.div_eq_of_lt (Nat.mod_lt _ hI), Nat.add_zero]

theorem part_place (hI : 0 < I) (hr : r < R) : part I R (place I R r o) = r := by
  rw [part, place_div hI, Nat.mul_add_mod_self_right, Nat.mod_eq_of_lt hr]

theorem offset_place (hI : 0 < I) (hr : r < R) : offset I R (place I R r o) = o := by
  have hdiv : place I R r o/(R*I) = o/I := by
    rw [Nat.mul_comm, ← Nat.div_div_eq_div_mul, place_div hI, Nat.mul_comm,
      Nat.mul_add_div (Nat.zero_lt_of_lt hr), Nat.div_eq_of_lt hr, Nat.add_zero]
  rw [offset, hdiv, place, Nat.mul_add_mod_self_right, Nat.mod_mod, Nat.div_add_mod']

theorem place_part_offset (hI : 0 < I) (x : ℕ) : place I R (part I R x) (offset I R x) = x := by
  have hdiv : offset I R x/I = x/I/R := by
    rw [offset, Nat.mul_comm (_/_), Nat.mul_add_div hI, Nat.div_eq_of_lt (Nat.mod_lt _ hI),
      Nat.add_zero, Nat.div_div_eq_div_mul, Nat.mul_comm I]
  have hmod : offset I R x%I = x%I := by
    rw [offset, Nat.mul_add_mod_self_right, Nat.mod_mod]
  rw [place, hdiv, hmod, part, Nat.div_add_mod', Nat.div_add_mod']

theorem place_lt (hI : 0 < I) (hB : I ∣ B) (hr : r < R) (ho : o < B) : place I R r o < B*R := by
  obtain ⟨m,rfl⟩ := hB
  have hq : o/I < m := Nat.div_lt_of_lt_mul ho
  have ht := Nat.mod_lt o hI
  calc place I R r o < (o/I*R+r+1)*I := by
        rw [place, Nat.succ_mul]
        omega
    _ ≤ (o/I+1)*R*I := by
        apply Nat.mul_le_mul_right
        rw [Nat.succ_mul]
        omega
    _ ≤ m*R*I := Nat.mul_le_mul_right _ (Nat.mul_le_mul_right _ hq)
    _ = I*m*R := by ring

theorem offset_lt (hI : 0 < I) (hB : I ∣ B) (hx : x < B*R) : offset I R x < B := by
  obtain ⟨m,rfl⟩ := hB
  have hq : x/(R*I) < m := Nat.div_lt_of_lt_mul (by linarith)
  have ht := Nat.mod_lt x hI
  calc offset I R x < (x/(R*I)+1)*I := by
        rw [offset, Nat.succ_mul]
        omega
    _ ≤ m*I := Nat.mul_le_mul_right _ hq
    _ = I*m := Nat.mul_comm _ _

end MetaZenith.Interleave
