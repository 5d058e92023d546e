import Mathlib

/-! A list of rows with holes and the dictionary that finds the row of each occupant. -/

namespace MetaZenith

open List

variable {α : Type*} [DecidableEq α]

def InverseOf (index : AList fun _ : α => ℕ) (l : List (Option α)) : Prop :=
  ∀ a i, index.lookup a = some i ↔ l[i]? = some (some a)

namespace InverseOf

variable {index : AList fun _ : α => ℕ} {l : List (Option α)} {a b : α} {i j : ℕ}

theorem empty : InverseOf (∅ : AList fun _ : α => ℕ) [] := by
  intro a i
  simp

section

variable (h : InverseOf index l)

include h

theorem eq_of_row (hi : l[i]? = some (some a)) (hj : l[j]? = some (some a)) : i = j :=
  Option.some.inj (((h a i).mpr hi).symm.trans ((h a j).mpr hj))

theorem erase (hi : l[i]? = some (some a)) : InverseOf (index.erase a) (l.set i none) := by
  intro c k
  by_cases hc : c = a
  · subst hc
    rw [AList.lookup_erase]
    constructor
    · intro hnone
      cases hnone
    · intro hk
      by_cases hki : i = k
      · subst hki
        rw [List.getElem?_set_self (List.getElem?_eq_some_iff.mp hi).1] at hk
        cases hk
      · rw [getElem?_set_ne hki] at hk
        exact absurd (h.eq_of_row hi hk) hki
  · rw [AList.lookup_erase_ne hc, h c k]
    by_cases hki : i = k
    · subst hki
      rw [List.getElem?_set_self (List.getElem?_eq_some_iff.mp hi).1, hi]
      simp [Ne.symm hc]
    · rw [getElem?_set_ne hki]

theorem insert (ha : index.lookup a = none) (hi : l[i]? = some none) :
    InverseOf (index.insert a i) (l.set i (some a)) := by
  have hlt := (List.getElem?_eq_some_iff.mp hi).1
  intro c k
  by_cases hki : i = k
  · subst hki
    rw [List.getElem?_set_self hlt]
    by_cases hc : c = a
    · subst hc
      rw [AList.lookup_insert]
      simp
    · rw [AList.lookup_insert_ne hc, h c i, hi]
      simp [Ne.symm hc]
  · rw [getElem?_set_ne hki, ← h c k]
    by_cases hc : c = a
    · subst hc
      rw [AList.lookup_insert, ha]
      simp [hki]
    · rw [AList.lookup_insert_ne hc]

theorem append (ha : index.lookup a = none) : InverseOf (index.insert a l.length) (l ++ [some a]) := by
  intro c k
  by_cases hc : c = a
  · subst hc
    rw [AList.lookup_insert, Option.some.injEq]
    rcases Nat.lt_trichotomy k l.length with hk | hk | hk
    · rw [getElem?_append_left hk, ← h c k, ha]
      simp [hk.ne']
    · simp [hk]
    · rw [getElem?_eq_none (by simpa using hk)]
      simp [hk.ne]
  · rw [AList.lookup_insert_ne hc, h c k]
    rcases Nat.lt_trichotomy k l.length with hk | hk | hk
    · rw [getElem?_append_left hk]
    · simp [hk, Ne.symm hc]
    · rw [getElem?_eq_none hk.le, getElem?_eq_none (by simpa using hk)]

theorem move (hj : l[j]? = some (some a)) (hi : l[i]? = some none) :
    InverseOf (index.insert a i) ((l.set i (some a)).set j none) := by
  have hne : i ≠ j := by
    intro heq
    rw [heq, hj] at hi
    cases hi
  have hset : (l.set i (some a)).set j none = (l.set j none).set i (some a) :=
    set_comm _ _ hne
  have hstep := (h.erase hj).insert (a := a) (i := i) (AList.lookup_erase ..)
    (by rw [getElem?_set_ne hne.symm, hi])
  rw [hset]
  intro c k
  rw [← hstep c k]
  by_cases hc : c = a
  · rw [hc, AList.lookup_insert, AList.lookup_insert]
  · rw [AList.lookup_insert_ne hc, AList.lookup_insert_ne hc, AList.lookup_erase_ne hc]

theorem swap (hi : l[i]? = some (some a)) (hj : l[j]? = some (some b)) :
    InverseOf ((index.insert a j).insert b i) ((l.set i (some b)).set j (some a)) := by
  have hilt := (List.getElem?_eq_some_iff.mp hi).1
  have hjlt := (List.getElem?_eq_some_iff.mp hj).1
  by_cases hab : a = b
  · -- one occupant: nothing moves
    subst hab
    obtain rfl := h.eq_of_row hi hj
    intro c k
    rw [set_set]
    by_cases hki : i = k
    · subst hki
      rw [List.getElem?_set_self hilt, ← hi, ← h c i]
      by_cases hc : c = a
      · subst hc
        rw [AList.lookup_insert, (h c i).mpr hi]
      · rw [AList.lookup_insert_ne hc, AList.lookup_insert_ne hc]
    · rw [getElem?_set_ne hki, ← h c k]
      by_cases hc : c = a
      · subst hc
        rw [AList.lookup_insert, (h c i).mpr hi]
      · rw [AList.lookup_insert_ne hc, AList.lookup_insert_ne hc]
  · have hij : i ≠ j := by
      rintro rfl
      exact hab (Option.some.inj (Option.some.inj (hi.symm.trans hj)))
    intro c k
    by_cases hcb : c = b
    · subst hcb
      rw [AList.lookup_insert, Option.some.injEq]
      by_cases hkj : j = k
      · subst hkj
        rw [List.getElem?_set_self (by simpa using hjlt)]
        simp [hij, hab]
      · rw [getElem?_set_ne hkj]
        by_cases hki : i = k
        · subst hki
          rw [List.getElem?_set_self hilt]
          simp
        · rw [getElem?_set_ne hki, ← h c k, (h c j).mpr hj]
          simp [hki, hkj]
    · rw [AList.lookup_insert_ne hcb]
      by_cases hca : c = a
      · subst hca
        rw [AList.lookup_insert, Option.some.injEq]
        by_cases hkj : j = k
        · subst hkj
          rw [List.getElem?_set_self (by simpa using hjlt)]
          simp
        · rw [getElem?_set_ne hkj]
          by_cases hki : i = k
          · subst hki
            rw [List.getElem?_set_self hilt]
            simp [hij.symm, Ne.symm hab]
          · rw [getElem?_set_ne hki, ← h c k, (h c i).mpr hi]
            simp [hki, hkj]
      · rw [AList.lookup_insert_ne hca, h c k]
        by_cases hkj : j = k
        · subst hkj
          rw [List.getElem?_set_self (by simpa using hjlt), hj]
          simp [Ne.symm hcb, Ne.symm hca]
        · rw [getElem?_set_ne hkj]
          by_cases hki : i = k
          · subst hki
            rw [List.getElem?_set_self hilt, hi]
            simp [Ne.symm hcb, Ne.symm hca]
          · rw [getElem?_set_ne hki]

theorem take {n : ℕ} (hrest : ∀ k, n ≤ k → k < l.length → l[k]? = some none) :
    InverseOf index (l.take n) := by
  intro c k
  rw [h c k, getElem?_take]
  by_cases hk : k < n
  · rw [if_pos hk]
  · rw [if_neg hk]
    refine iff_of_false ?_ (by simp)
    intro hc
    have hlt := (List.getElem?_eq_some_iff.mp hc).1
    rw [hrest k (Nat.le_of_not_lt hk) hlt] at hc
    cases hc

theorem length_keys : index.keys.length = l.countP Option.isSome := by
  have hnodup : (l.filterMap id).Nodup := by
    unfold List.Nodup
    rw [pairwise_filterMap, pairwise_iff_getElem]
    intro i j hi hj hij a ha b hb hab
    subst hab
    have hrow := h.eq_of_row (List.getElem?_eq_some_iff.mpr ⟨hi, ha⟩)
      (List.getElem?_eq_some_iff.mpr ⟨hj, hb⟩)
    omega
  have hmem : ∀ a, a ∈ index.keys ↔ a ∈ l.filterMap id := by
    intro a
    rw [← AList.mem_keys, ← AList.lookup_isSome, Option.isSome_iff_exists, mem_filterMap]
    constructor
    · rintro ⟨i,hi⟩
      exact ⟨some a, mem_of_getElem? ((h a i).mp hi), rfl⟩
    · rintro ⟨x,hx,rfl⟩
      obtain ⟨i,hi⟩ := mem_iff_getElem?.mp hx
      exact ⟨i, (h a i).mpr hi⟩
  have hperm : index.keys.Perm (l.filterMap id) :=
    (perm_ext_iff_of_nodup index.nodupKeys hnodup).mpr hmem
  rw [hperm.length_eq, length_filterMap_eq_countP]
  rfl

end

end InverseOf

structure HolesOf {α : Type*} (holes : List ℕ) (l : List (Option α)) : Prop where
  mem_iff : ∀ i, i ∈ holes ↔ l[i]? = some none
  nodup : holes.Nodup

namespace HolesOf

variable {α : Type*} {holes : List ℕ} {l : List (Option α)} {i : ℕ}

theorem perm {holes' : List ℕ} (h : HolesOf holes l) (hp : holes'.Perm holes) : HolesOf holes' l where
  mem_iff k := by rw [hp.mem_iff, h.mem_iff]
  nodup := hp.nodup_iff.mpr h.nodup

theorem erase (h : HolesOf holes l) {a : α} (hi : l[i]? = some (some a)) :
    HolesOf (holes ++ [i]) (l.set i none) := by
  have hlt := (List.getElem?_eq_some_iff.mp hi).1
  refine ⟨fun k => ?_, ?_⟩
  · rw [mem_append, mem_singleton, h.mem_iff]
    by_cases hki : i = k
    · subst hki
      simp [hlt]
    · rw [getElem?_set_ne hki]
      simp [Ne.symm hki]
  · rw [List.nodup_append]
    refine ⟨h.nodup, nodup_singleton i, ?_⟩
    intro k hk m hm hkm
    rw [mem_singleton] at hm
    rw [h.mem_iff, hkm, hm, hi] at hk
    cases hk

theorem fill (h : HolesOf (holes ++ [i]) l) (a : α) : HolesOf holes (l.set i (some a)) := by
  have hi := (h.mem_iff i).mp (by simp)
  have hlt := (List.getElem?_eq_some_iff.mp hi).1
  have hnodup := List.nodup_append.mp h.nodup
  refine ⟨fun k => ?_, hnodup.1⟩
  by_cases hki : i = k
  · subst hki
    rw [List.getElem?_set_self hlt]
    have hnot : i ∉ holes := fun hmem => hnodup.2.2 i hmem i (by simp) rfl
    simp [hnot]
  · rw [getElem?_set_ne hki, ← h.mem_iff]
    simp [Ne.symm hki]

theorem append (h : HolesOf holes l) (a : α) : HolesOf holes (l ++ [some a]) := by
  refine ⟨fun k => ?_, h.nodup⟩
  rw [h.mem_iff]
  rcases Nat.lt_trichotomy k l.length with hk | hk | hk
  · rw [getElem?_append_left hk]
  · simp [hk]
  · rw [getElem?_eq_none hk.le, getElem?_eq_none (by simpa using hk)]

theorem length_add (h : HolesOf holes l) : holes.length+l.countP Option.isSome = l.length := by
  classical
  have hperm : holes.Perm ((List.range l.length).filter fun i => decide (l[i]? = some none)) := by
    refine (perm_ext_iff_of_nodup h.nodup (nodup_range.filter _)).mpr ?_
    intro k
    rw [h.mem_iff, mem_filter, mem_range, decide_eq_true_iff]
    refine ⟨fun hk => ⟨(List.getElem?_eq_some_iff.mp hk).1, hk⟩, And.right⟩
  have hcount : ((List.range l.length).filter fun i => decide (l[i]? = some none)).length =
      l.countP fun x => !x.isSome := by
    rw [← countP_eq_length_filter]
    have hl : l = (List.range l.length).map fun i => l.getD i none := by
      apply ext_getElem (by simp)
      intro i hi _
      simp [hi]
    conv_rhs => rw [hl, countP_map]
    apply countP_congr
    intro k hk
    rw [mem_range] at hk
    simp [hk]
  rw [hperm.length_eq, hcount, Nat.add_comm]
  have hsplit := length_eq_countP_add_countP (p := Option.isSome) (l := l)
  simpa only [Bool.not_eq_true, Bool.decide_eq_false] using hsplit.symm

end HolesOf

end MetaZenith
