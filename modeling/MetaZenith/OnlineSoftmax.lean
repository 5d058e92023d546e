import Mathlib

/-! Softmax-weighted sums computed one tile at a time. A running maximum, a running mass and a
running weighted sum stand for all lanes seen so far, whatever the maximum is. -/

namespace MetaZenith.OnlineSoftmax

open List

set_option linter.unusedSectionVars false

variable {F V : Type*} [Field F] [LinearOrder F] [IsStrictOrderedRing F] [AddCommGroup V] [Module F V]

/-- A positive function that turns sums into products, with a right inverse on positive numbers. -/
structure ExpLog (F : Type*) [Field F] [LinearOrder F] where
  exp : F → F
  log : F → F
  exp_pos : ∀ a, 0 < exp a
  exp_add : ∀ a b, exp (a+b) = exp a*exp b
  exp_log : ∀ y, 0 < y → exp (log y) = y

def ExpLog.expSub (E : ExpLog F) (a : WithBot F) (m : F) : F :=
  a.recBotCoe 0 fun x => E.exp (x-m)

abbrev Lanes (F V : Type*) := List (WithBot F × V)

structure State (F V : Type*) where
  max : WithBot F
  mass : F
  acc : V

namespace State

def empty : State F V := ⟨⊥,0,0⟩

/-- Rescale to the new maximum and add a tile. `none` when there is no finite score yet, which
would subtract infinities. -/
def absorb (E : ExpLog F) (st : State F V) (tile : Lanes F V) : Option (State F V) :=
  (Max.max ((tile.map Prod.fst).foldr Max.max ⊥) st.max).recBotCoe none fun n =>
    some ⟨n,st.mass*E.expSub st.max n+(tile.map fun p => E.expSub p.1 n).sum,
      E.expSub st.max n • st.acc+(tile.map fun p => E.expSub p.1 n • p.2).sum⟩

end State

def mass (E : ExpLog F) (pts : Lanes F V) : F := (pts.map fun p => E.expSub p.1 0).sum

def moment (E : ExpLog F) (pts : Lanes F V) : V := (pts.map fun p => E.expSub p.1 0 • p.2).sum

structure Represents (E : ExpLog F) (st : State F V) (pts : Lanes F V) : Prop where
  mass : E.expSub st.max 0*st.mass = mass E pts
  acc : E.expSub st.max 0 • st.acc = moment E pts

section Weights

variable (E : ExpLog F)

@[simp] theorem expSub_bot (m : F) : E.expSub ⊥ m = 0 := rfl

@[simp] theorem expSub_coe (x m : F) : E.expSub (x : WithBot F) m = E.exp (x-m) := rfl

theorem exp_mul_expSub (a : WithBot F) (m : F) : E.exp m*E.expSub a m = E.expSub a 0 := by
  cases a with
  | bot => simp
  | coe x =>
    rw [expSub_coe, expSub_coe, ← E.exp_add]
    congr 1
    ring

theorem expSub_nonneg (a : WithBot F) (m : F) : 0 ≤ E.expSub a m := by
  cases a with
  | bot => exact le_rfl
  | coe x => exact (E.exp_pos _).le

theorem expSub_pos {a : WithBot F} (h : a ≠ ⊥) (m : F) : 0 < E.expSub a m := by
  cases a with
  | bot => exact absurd rfl h
  | coe x => exact E.exp_pos _

theorem exp_mul_sum_expSub (pts : Lanes F V) (m : F) :
    E.exp m*(pts.map fun p => E.expSub p.1 m).sum = mass E pts := by
  rw [mass, ← sum_map_mul_left]
  simp [exp_mul_expSub]

theorem exp_smul_sum_expSub (pts : Lanes F V) (m : F) :
    E.exp m • (pts.map fun p => E.expSub p.1 m • p.2).sum = moment E pts := by
  rw [moment, smul_sum, map_map]
  congr 1
  apply map_congr_left
  intro p _
  simp [smul_smul, exp_mul_expSub]

@[simp] theorem mass_nil : mass E ([] : Lanes F V) = 0 := rfl

@[simp] theorem moment_nil : moment E ([] : Lanes F V) = 0 := rfl

theorem mass_append (a b : Lanes F V) : mass E (a ++ b) = mass E a+mass E b := by
  simp [mass]

theorem moment_append (a b : Lanes F V) : moment E (a ++ b) = moment E a+moment E b := by
  simp [moment]

theorem mass_nonneg (pts : Lanes F V) : 0 ≤ mass E pts := by
  apply sum_nonneg
  intro y hy
  obtain ⟨p,-,rfl⟩ := mem_map.mp hy
  exact expSub_nonneg E p.1 0

variable {pts : Lanes F V}

theorem mass_pos {p : WithBot F × V} (hp : p ∈ pts) (h : p.1 ≠ ⊥) : 0 < mass E pts := by
  obtain ⟨a,b,rfl⟩ := append_of_mem hp
  have ha := mass_nonneg E a
  have hb := mass_nonneg E b
  have hpos := expSub_pos E h 0
  rw [mass_append, mass, mass, map_cons, sum_cons]
  rw [mass] at ha hb
  linarith

theorem mass_of_masked (h : ∀ p ∈ pts, p.1 = ⊥) : mass E pts = 0 := by
  apply sum_eq_zero
  intro y hy
  obtain ⟨p,hp,rfl⟩ := mem_map.mp hy
  rw [h p hp, expSub_bot]

theorem moment_of_masked (h : ∀ p ∈ pts, p.1 = ⊥) : moment E pts = 0 := by
  apply sum_eq_zero
  intro y hy
  obtain ⟨p,hp,rfl⟩ := mem_map.mp hy
  rw [h p hp, expSub_bot, zero_smul]

end Weights

section Run

variable {E : ExpLog F} {st : State F V} {pts tile : Lanes F V}

theorem le_foldr_max {l : List (WithBot F)} {a : WithBot F} (h : a ∈ l) : a ≤ l.foldr Max.max ⊥ := by
  induction l with
  | nil => simp at h
  | cons b l ih =>
    rcases mem_cons.mp h with rfl | h
    · exact le_max_left _ _
    · exact (ih h).trans (le_max_right _ _)

theorem represents_empty (E : ExpLog F) : Represents E (State.empty : State F V) [] :=
  ⟨by simp [State.empty],by simp [State.empty]⟩

section

variable (h : Represents E st pts)

include h

theorem Represents.absorb {p : WithBot F × V} (hp : p ∈ tile) (hfinite : p.1 ≠ ⊥) :
    ∃ st', st.absorb E tile = some st' ∧ st'.max ≠ ⊥ ∧ Represents E st' (pts ++ tile) := by
  have hle := (le_foldr_max (mem_map_of_mem (f := Prod.fst) hp)).trans
    (le_max_left _ st.max)
  rw [State.absorb]
  generalize Max.max ((tile.map Prod.fst).foldr Max.max ⊥) st.max = n at hle ⊢
  cases n with
  | bot => exact absurd (le_bot_iff.mp hle) hfinite
  | coe n =>
    refine ⟨_,rfl,WithBot.coe_ne_bot,?_,?_⟩
    · have hold : E.exp n*(st.mass*E.expSub st.max n) = OnlineSoftmax.mass E pts := by
        rw [← h.mass, ← exp_mul_expSub E st.max n]
        ring
      rw [mass_append, expSub_coe, sub_zero, mul_add, hold, exp_mul_sum_expSub]
    · rw [moment_append, expSub_coe, sub_zero, smul_add, smul_smul, exp_mul_expSub, h.acc,
        exp_smul_sum_expSub]

theorem Represents.congr {pts' : Lanes F V}
    (hmass : OnlineSoftmax.mass E pts = OnlineSoftmax.mass E pts')
    (hmoment : moment E pts = moment E pts') : Represents E st pts' :=
  ⟨h.mass.trans hmass,h.acc.trans hmoment⟩

theorem Represents.absorbAll {tiles : List (Lanes F V)} (htiles : ∀ tile ∈ tiles, ∃ p ∈ tile, p.1 ≠ ⊥) :
    ∃ st', tiles.foldlM (State.absorb E) st = some st' ∧ (tiles ≠ [] → st'.max ≠ ⊥) ∧
      Represents E st' (pts ++ tiles.flatten) := by
  induction tiles generalizing st pts with
  | nil => exact ⟨st,rfl,fun h => absurd rfl h,by simpa using h⟩
  | cons tile tiles ih =>
    obtain ⟨p,hp,hfinite⟩ := htiles tile mem_cons_self
    obtain ⟨st1,hst1,hmax,hrep⟩ := h.absorb hp hfinite
    obtain ⟨st2,hst2,hmax2,hrep2⟩ := ih hrep fun t ht => htiles t (mem_cons_of_mem _ ht)
    refine ⟨st2,?_,fun _ => ?_,?_⟩
    · rw [foldlM_cons, hst1]
      exact hst2
    · cases tiles with
      | nil =>
        cases hst2
        exact hmax
      | cons => exact hmax2 (by simp)
    · simpa using hrep2

theorem Represents.mass_pos (hmax : st.max ≠ ⊥)
    (hpts : 0 < OnlineSoftmax.mass E pts) : 0 < st.mass := by
  rw [← h.mass] at hpts
  exact (mul_pos_iff_of_pos_left (expSub_pos E hmax 0)).mp hpts

theorem Represents.mean (hmax : st.max ≠ ⊥) :
    st.mass⁻¹ • st.acc = (OnlineSoftmax.mass E pts)⁻¹ • moment E pts := by
  have hne := (expSub_pos E hmax 0).ne'
  rw [← h.mass, ← h.acc, mul_inv_rev, smul_smul, mul_assoc, inv_mul_cancel₀ hne, mul_one]

/-- The maximum plus the logarithm of the running mass is a logarithm of the total weight. -/
theorem Represents.lse (hpos : 0 < st.mass) :
    E.expSub (st.max+E.log st.mass) 0 = OnlineSoftmax.mass E pts := by
  rw [← h.mass]
  cases hm : st.max with
  | bot => simp
  | coe m =>
    rw [← WithBot.coe_add, expSub_coe, expSub_coe, sub_zero, sub_zero, E.exp_add, E.exp_log _ hpos]

end

end Run

end MetaZenith.OnlineSoftmax
