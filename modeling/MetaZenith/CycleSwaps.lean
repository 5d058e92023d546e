import Mathlib

/-! Rearranging in place: each cycle of a map of destinations is followed with swaps, and the map is
overwritten on the way. What is left to move is a permutation that loses one point with each swap. -/

namespace MetaZenith.CycleSwaps

open List Function Finset

variable {β : Type*}

/-- Follow the cycle of `src`: what is at `src` goes to `dst`, and `dst` is done. `none` is a loop
that has not ended. -/
def follow (swap : β → ℕ → ℕ → β) (src : ℕ) : ℕ → ℕ → (ℕ → ℕ) → β → Option ((ℕ → ℕ) × β)
  | 0, _, _, _ => none
  | fuel+1, dst, dest, batch =>
    if src = dst then some (dest,batch)
    else follow swap src fuel (dest dst) (update dest dst dst) (swap batch src dst)

def followAll (swap : β → ℕ → ℕ → β) (fuel : ℕ) : List ℕ → (ℕ → ℕ) → β → Option β
  | [], _, batch => some batch
  | src :: srcs, dest, batch =>
    (follow swap src fuel (dest src) dest batch).bind fun r => followAll swap fuel srcs r.1 r.2

def advance (τ : ℕ → ℕ) (src dst : ℕ) : ℕ → ℕ := τ ∘ Equiv.swap src dst

def moved (n : ℕ) (τ : ℕ → ℕ) : Finset ℕ := (Finset.range n).filter fun x => τ x ≠ x

section Advance

variable {τ : ℕ → ℕ} {src dst : ℕ} (hinj : Function.Injective τ) (hsrc : τ src = dst) (hne : src ≠ dst)

include hinj in
theorem advance_injective : Function.Injective (advance τ src dst) :=
  hinj.comp (Equiv.injective _)

include hsrc in
theorem advance_dst : advance τ src dst dst = dst := by
  rw [advance, Function.comp_apply, Equiv.swap_apply_right, hsrc]

theorem advance_src : advance τ src dst src = τ dst := by
  rw [advance, Function.comp_apply, Equiv.swap_apply_left]

theorem advance_of_ne {x : ℕ} (hs : x ≠ src) (hd : x ≠ dst) : advance τ src dst x = τ x := by
  rw [advance, Function.comp_apply, Equiv.swap_apply_of_ne_of_ne hs hd]

include hinj hsrc hne in
theorem dst_moves : τ dst ≠ dst := by
  intro hdst
  exact hne (hinj (hsrc.trans hdst.symm))

include hsrc hne in
theorem advance_fixed {x : ℕ} (hx : τ x = x) : advance τ src dst x = x := by
  have hs : x ≠ src := by
    rintro rfl
    exact hne (hx.symm.trans hsrc)
  by_cases hd : x = dst
  · rw [hd, advance_dst hsrc]
  · rw [advance_of_ne hs hd, hx]

include hinj hsrc hne in
theorem card_moved_advance {n : ℕ} (hfix : ∀ x, n ≤ x → τ x = x) :
    (moved n (advance τ src dst)).card < (moved n τ).card := by
  apply card_lt_card
  rw [ssubset_iff_of_subset]
  · refine ⟨dst,?_,?_⟩
    · have hlt : dst < n := by
        by_contra hge
        exact dst_moves hinj hsrc hne (hfix dst (not_lt.mp hge))
      exact Finset.mem_filter.mpr ⟨Finset.mem_range.mpr hlt,dst_moves hinj hsrc hne⟩
    · intro hmem
      exact (Finset.mem_filter.mp hmem).2 (advance_dst hsrc)
  · intro x hx
    obtain ⟨hlt,hmoves⟩ := Finset.mem_filter.mp hx
    refine Finset.mem_filter.mpr ⟨hlt,fun hx' => hmoves ?_⟩
    exact advance_fixed hsrc hne hx'

end Advance

structure Rule (swap : β → ℕ → ℕ → β) (P : (ℕ → ℕ) → β → Prop) : Prop where
  step : ∀ τ batch src dst, Function.Injective τ → τ src = dst → src ≠ dst → P τ batch →
    P (advance τ src dst) (swap batch src dst)

variable {swap : β → ℕ → ℕ → β} {P : (ℕ → ℕ) → β → Prop} {n : ℕ}

/-- Following one cycle ends, and its source is then in place. The map is right except at sources
that are done. -/
theorem follow_spec (hrule : Rule swap P) {src dst fuel : ℕ} {τ dest : ℕ → ℕ} {done : List ℕ}
    {batch : β} (hinj : Function.Injective τ) (hfix : ∀ x, n ≤ x → τ x = x) (hsrc : τ src = dst)
    (hdest : ∀ x, x ≠ src → x ∉ done → dest x = τ x) (hdone : ∀ x ∈ done, τ x = x)
    (hP : P τ batch) (hfuel : (moved n τ).card < fuel) :
    ∃ τ' dest' batch', follow swap src fuel dst dest batch = some (dest',batch') ∧
      Function.Injective τ' ∧ (∀ x, τ x = x → τ' x = x) ∧ τ' src = src ∧
      (∀ x, x ≠ src → x ∉ done → dest' x = τ' x) ∧ P τ' batch' := by
  induction fuel generalizing dst τ dest batch with
  | zero => omega
  | succ fuel ih =>
    by_cases hne : src = dst
    · refine ⟨τ,dest,batch,?_,hinj,fun _ h => h,hsrc.trans hne.symm,hdest,hP⟩
      rw [follow, if_pos hne]
    · have hmoves := dst_moves hinj hsrc hne
      -- the destination is not done yet, so the map tells where it goes
      have hnext : dest dst = τ dst :=
        hdest dst (fun h => hne h.symm) fun hmem => hmoves (hdone dst hmem)
      have hcard := card_moved_advance hinj hsrc hne hfix
      have hupdated : ∀ x, x ≠ src → x ∉ done →
          update dest dst dst x = advance τ src dst x := by
        intro x hxs hxd
        by_cases hx : x = dst
        · rw [hx, update_self, advance_dst hsrc]
        · rw [update_of_ne hx, advance_of_ne hxs hx, hdest x hxs hxd]
      obtain ⟨τ',dest',batch',hfollow,hinj',hfixed,hsrc',hdest',hP'⟩ := ih
        (advance_injective hinj) (fun x hx => advance_fixed hsrc hne (hfix x hx))
        (advance_src.trans hnext.symm) hupdated
        (fun x hx => advance_fixed hsrc hne (hdone x hx))
        (hrule.step τ batch src dst hinj hsrc hne hP) (by omega)
      refine ⟨τ',dest',batch',?_,hinj',fun x hx => hfixed x (advance_fixed hsrc hne hx),hsrc',hdest',hP'⟩
      rw [follow, if_neg hne]
      exact hfollow

theorem followAll_spec (hrule : Rule swap P) {fuel : ℕ} {srcs done : List ℕ} {τ dest : ℕ → ℕ}
    {batch : β} (hinj : Function.Injective τ) (hfix : ∀ x, n ≤ x → τ x = x)
    (hdest : ∀ x, x ∉ done → dest x = τ x) (hdone : ∀ x ∈ done, τ x = x)
    (hsrcs : ∀ x, τ x ≠ x → x ∈ srcs) (hnodup : (done ++ srcs).Nodup) (hP : P τ batch)
    (hfuel : n < fuel) :
    ∃ batch', followAll swap fuel srcs dest batch = some batch' ∧ P id batch' := by
  induction srcs generalizing done τ dest batch with
  | nil =>
    have hid : τ = id := by
      funext x
      by_contra hx
      cases hsrcs x hx
    exact ⟨batch,rfl,hid ▸ hP⟩
  | cons src srcs ih =>
    have hnot : src ∉ done := by
      intro hmem
      exact (disjoint_of_nodup_append hnodup) hmem mem_cons_self
    have hcard : (moved n τ).card < fuel := by
      have hle := card_filter_le (Finset.range n) fun x => τ x ≠ x
      rw [card_range] at hle
      exact hle.trans_lt hfuel
    obtain ⟨τ',dest',batch',hfollow,hinj',hfixed,hsrc',hdest',hP'⟩ := follow_spec hrule hinj hfix
      (hdest src hnot).symm (fun x _ hx => hdest x hx) hdone hP hcard
    have hdest'' : ∀ x, x ∉ done ++ [src] → dest' x = τ' x := by
      intro x hx
      rw [List.mem_append, not_or, List.mem_singleton] at hx
      exact hdest' x hx.2 hx.1
    have hdone' : ∀ x ∈ done ++ [src], τ' x = x := by
      intro x hx
      rcases List.mem_append.mp hx with hx | hx
      · exact hfixed x (hdone x hx)
      · rw [List.mem_singleton.mp hx, hsrc']
    have hsrcs' : ∀ x, τ' x ≠ x → x ∈ srcs := by
      intro x hx
      rcases mem_cons.mp (hsrcs x fun h => hx (hfixed x h)) with rfl | hmem
      · exact absurd hsrc' hx
      · exact hmem
    obtain ⟨batch'',hall,hP''⟩ := ih hinj' (fun x hx => hfixed x (hfix x hx)) hdest'' hdone' hsrcs'
      (by rwa [append_assoc]) hP'
    refine ⟨batch'',?_,hP''⟩
    rw [followAll, hfollow]
    exact hall

def record (log : List (ℕ × ℕ)) (i j : ℕ) : List (ℕ × ℕ) := log ++ [(i,j)]

def applySwaps (swap : β → ℕ → ℕ → β) (log : List (ℕ × ℕ)) (batch : β) : β :=
  log.foldl (fun batch p => swap batch p.1 p.2) batch

theorem applySwaps_record (swap : β → ℕ → ℕ → β) (log : List (ℕ × ℕ)) (i j : ℕ) (batch : β) :
    applySwaps swap (record log i j) batch = swap (applySwaps swap log batch) i j := by
  rw [applySwaps, record, foldl_append]
  rfl

theorem follow_eq_record (swap : β → ℕ → ℕ → β) (src fuel dst : ℕ) (dest : ℕ → ℕ)
    (log : List (ℕ × ℕ)) (batch : β) : follow swap src fuel dst dest (applySwaps swap log batch) =
      (follow record src fuel dst dest log).map fun r => (r.1,applySwaps swap r.2 batch) := by
  induction fuel generalizing dst dest log with
  | zero => rfl
  | succ fuel ih =>
    rw [follow, follow]
    split
    · rfl
    · rw [← applySwaps_record swap, ih]

theorem followAll_eq_record (swap : β → ℕ → ℕ → β) (fuel : ℕ) (srcs : List ℕ) (dest : ℕ → ℕ)
    (log : List (ℕ × ℕ)) (batch : β) : followAll swap fuel srcs dest (applySwaps swap log batch) =
      (followAll record fuel srcs dest log).map fun log => applySwaps swap log batch := by
  induction srcs generalizing dest log with
  | nil => rfl
  | cons src srcs ih =>
    rw [followAll, followAll, follow_eq_record]
    cases follow record src fuel (dest src) dest log with
    | none => rfl
    | some r => exact ih r.1 r.2

def swapEntries {α : Type*} (l : List α) (i j : ℕ) : List α :=
  match l[i]?, l[j]? with
  | some a, some b => (l.set i b).set j a
  | _, _ => l

theorem getElem?_swapEntries {α : Type*} {l : List α} {i j : ℕ} (hi : i < l.length)
    (hj : j < l.length) (x : ℕ) : (swapEntries l i j)[x]? = l[Equiv.swap i j x]? := by
  have hswap : swapEntries l i j = (l.set i l[j]).set j l[i] := by
    simp [swapEntries, getElem?_eq_getElem hi, getElem?_eq_getElem hj]
  rw [hswap, getElem?_set, getElem?_set]
  by_cases hxj : j = x
  · subst hxj
    rw [if_pos rfl, Equiv.swap_apply_right, length_set, if_pos hj, getElem?_eq_getElem hi]
  · rw [if_neg hxj]
    by_cases hxi : i = x
    · subst hxi
      rw [if_pos rfl, if_pos hi, Equiv.swap_apply_left, getElem?_eq_getElem hj]
    · rw [if_neg hxi, Equiv.swap_apply_of_ne_of_ne (fun h => hxi h.symm) fun h => hxj h.symm]

theorem swapEntries_perm {α : Type*} (l : List α) (i j : ℕ) : (swapEntries l i j).Perm l := by
  unfold swapEntries
  split
  · case h_1 a b ha hb =>
    obtain ⟨hi,rfl⟩ := List.getElem?_eq_some_iff.mp ha
    obtain ⟨hj,rfl⟩ := List.getElem?_eq_some_iff.mp hb
    exact set_set_perm hi hj
  · exact List.Perm.refl l

theorem applySwaps_perm {α : Type*} (log : List (ℕ × ℕ)) (l : List α) :
    (applySwaps swapEntries log l).Perm l := by
  induction log generalizing l with
  | nil => exact List.Perm.refl l
  | cons p log ih => exact (ih (swapEntries l p.1 p.2)).trans (swapEntries_perm l p.1 p.2)

/-- A list whose entries go where `σ` sends them: the swaps bring each entry to its destination. -/
theorem swaps_of_followAll {α : Type*} {rows : List α} {σ : ℕ → ℕ} {srcs : List ℕ}
    (hinj : Function.Injective σ) (hfix : ∀ x, rows.length ≤ x → σ x = x)
    (hsrcs : ∀ x, σ x ≠ x → x ∈ srcs) (hnodup : srcs.Nodup) :
    ∃ log, followAll record (rows.length+1) srcs σ [] = some log ∧
      (∀ x, (applySwaps swapEntries log rows)[σ x]? = rows[x]?) ∧
      ∀ p ∈ log, σ p.1 ≠ p.1 ∧ σ p.2 ≠ p.2 := by
  -- an entry that is now at `x` and was at `y` still has to make the rest of the way of `y`
  let P (τ : ℕ → ℕ) (log : List (ℕ × ℕ)) : Prop :=
    (∀ x, ∃ y, σ y = τ x ∧ (applySwaps swapEntries log rows)[x]? = rows[y]?) ∧
      (∀ x, σ x = x → τ x = x) ∧ ∀ p ∈ log, σ p.1 ≠ p.1 ∧ σ p.2 ≠ p.2
  have hlen (log : List (ℕ × ℕ)) : (applySwaps swapEntries log rows).length = rows.length :=
    (applySwaps_perm log rows).length_eq
  have hrule : Rule record P := by
    refine ⟨fun τ log src dst hτ hsrc hne hP => ?_⟩
    obtain ⟨hplace,hkeep,hlog⟩ := hP
    have hdst := dst_moves hτ hsrc hne
    have hmoves {x : ℕ} (hx : τ x ≠ x) : x < rows.length ∧ σ x ≠ x :=
      ⟨by_contra fun hge => hx (hkeep x (hfix x (not_lt.mp hge))),fun h => hx (hkeep x h)⟩
    have hsrc' := hmoves (x := src) (by rw [hsrc]; exact fun h => hne h.symm)
    have hdst' := hmoves hdst
    refine ⟨fun x => ?_,fun x hx => advance_fixed hsrc hne (hkeep x hx),fun p hp => ?_⟩
    · obtain ⟨y,hy,hrow⟩ := hplace (Equiv.swap src dst x)
      refine ⟨y,hy,?_⟩
      rw [applySwaps_record swapEntries, getElem?_swapEntries (by rw [hlen]; exact hsrc'.1)
        (by rw [hlen]; exact hdst'.1), hrow]
    · rcases List.mem_append.mp hp with hp | hp
      · exact hlog p hp
      · rw [List.mem_singleton.mp hp]
        exact ⟨hsrc'.2,hdst'.2⟩
  have hP : P σ [] := ⟨fun x => ⟨x,rfl,rfl⟩,fun _ h => h,fun _ h => nomatch h⟩
  have hnodup' : ([] ++ srcs).Nodup := hnodup
  have hnone : ∀ x ∈ ([] : List ℕ), σ x = x := fun _ h => nomatch h
  obtain ⟨log,hfollow,hplace,-,hlog⟩ := followAll_spec hrule hinj hfix
    (fun _ _ => rfl) hnone hsrcs hnodup' hP (Nat.lt_succ_self _)
  refine ⟨log,hfollow,fun x => ?_,hlog⟩
  obtain ⟨y,hy,hrow⟩ := hplace (σ x)
  rw [hrow, hinj hy]

end MetaZenith.CycleSwaps
