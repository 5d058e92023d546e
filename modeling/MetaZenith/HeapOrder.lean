import MetaZenith.SchedQueue

/-! What the heap operations keep of the order: after each of them a parent stands before its
children, so the root is least. Only the items of the heap have to be comparable. -/

namespace MetaZenith.Sched

open List

section Order

variable {α : Type} {lt : α → α → Bool} {k pos : ℕ} {heap : List α}

/-- On these items `lt` is the strict part of a total preorder. -/
structure WeakOrderOn (lt : α → α → Bool) (items : List α) : Prop where
  asymm : ∀ a ∈ items, ∀ b ∈ items, lt a b = true → lt b a = false
  trans : ∀ a ∈ items, ∀ b ∈ items, ∀ c ∈ items, lt b a = false → lt c b = false → lt c a = false

theorem WeakOrderOn.subset {items items' : List α} (h : WeakOrderOn lt items)
    (hsub : ∀ x ∈ items', x ∈ items) : WeakOrderOn lt items' where
  asymm a ha b hb := h.asymm a (hsub a ha) b (hsub b hb)
  trans a ha b hb c hc := h.trans a (hsub a ha) b (hsub b hb) c (hsub c hc)

theorem WeakOrderOn.perm {items items' : List α} (h : WeakOrderOn lt items)
    (hperm : items'.Perm items) : WeakOrderOn lt items' :=
  h.subset fun _ hx => hperm.mem_iff.mp hx

theorem WeakOrderOn.irrefl {items : List α} (h : WeakOrderOn lt items) {a : α} (ha : a ∈ items) :
    lt a a = false := by
  cases haa : lt a a with
  | false => rfl
  | true => exact haa.symm.trans (h.asymm a ha a ha haa)

def OrderedFrom (lt : α → α → Bool) (k : ℕ) (heap : List α) : Prop :=
  ∀ i x y, 0 < i → k ≤ (i-1)/2 → heap[(i-1)/2]? = some x → heap[i]? = some y → lt y x = false

def IsHeap (lt : α → α → Bool) (heap : List α) : Prop := OrderedFrom lt 0 heap

theorem isHeap_nil : IsHeap lt [] := fun _ _ _ _ _ _ hy => nomatch hy

theorem IsHeap.congr {lt' : α → α → Bool} (h : IsHeap lt heap)
    (hlt : ∀ a ∈ heap, ∀ b ∈ heap, lt' a b = lt a b) : IsHeap lt' heap := by
  intro i x y hi hk hx hy
  rw [hlt y (mem_of_getElem? hy) x (mem_of_getElem? hx)]
  exact h i x y hi hk hx hy

variable {item y : α}

theorem IsHeap.root_least (h : IsHeap lt heap) (hw : WeakOrderOn lt heap) {root : α}
    (hroot : heap[0]? = some root) (hy : y ∈ heap) : lt y root = false := by
  obtain ⟨i,hi⟩ := mem_iff_getElem?.mp hy
  -- along the path from the root to position `i`
  induction i using Nat.strong_induction_on generalizing y with
  | _ i ih =>
    rcases Nat.eq_zero_or_pos i with rfl | hpos
    · rw [hroot] at hi
      cases hi
      exact hw.irrefl (mem_of_getElem? hroot)
    · have hlen := (List.getElem?_eq_some_iff.mp hi).1
      have hparent := List.getElem?_eq_getElem (l := heap) (i := (i-1)/2) (by omega)
      have hmem := mem_of_getElem? hparent
      exact hw.trans root (mem_of_getElem? hroot) _ hmem y hy
        (ih _ (by omega) hmem hparent) (h i _ y hpos (Nat.zero_le _) hparent hi)

theorem getElem?_swap {i j : ℕ} {a b : α} (hi : heap[i]? = some a) (hj : heap[j]? = some b)
    (m : ℕ) : ((heap.set i b).set j a)[m]? =
      if m = j then some a else if m = i then some b else heap[m]? := by
  obtain ⟨hilt,-⟩ := List.getElem?_eq_some_iff.mp hi
  obtain ⟨hjlt,-⟩ := List.getElem?_eq_some_iff.mp hj
  rw [getElem?_set, getElem?_set, length_set]
  by_cases hmj : m = j
  · rw [if_pos hmj.symm, if_pos hmj, if_pos hjlt]
  · rw [if_neg (Ne.symm hmj), if_neg hmj]
    by_cases hmi : m = i
    · rw [if_pos hmi.symm, if_pos hmi, if_pos hilt]
    · rw [if_neg (Ne.symm hmi), if_neg hmi]

inductive Below (root : ℕ) : ℕ → Prop
  | refl : Below root root
  | child {c : ℕ} : 0 < c → Below root ((c-1)/2) → Below root c

theorem Below.le {root : ℕ} (h : Below root pos) : root ≤ pos := by
  induction h with
  | refl => exact le_rfl
  | child hc _ ih => omega

theorem below_zero (pos : ℕ) : Below 0 pos := by
  induction pos using Nat.strong_induction_on with
  | _ pos ih =>
    rcases Nat.eq_zero_or_pos pos with rfl | hpos
    · exact .refl
    · exact .child hpos (ih _ (by omega))

def GrandOrdered (lt : α → α → Bool) (k : ℕ) (heap : List α) (pos : ℕ) : Prop :=
  ∀ c x y, 0 < c → (c-1)/2 = pos → 0 < pos → k ≤ (pos-1)/2 → heap[(pos-1)/2]? = some x →
    heap[c]? = some y → lt y x = false

/-- Ordered but for the item at `pos`, which may belong further up. -/
structure Rising (lt : α → α → Bool) (k : ℕ) (heap : List α) (pos : ℕ) : Prop where
  rest : ∀ i x y, 0 < i → i ≠ pos → k ≤ (i-1)/2 → heap[(i-1)/2]? = some x → heap[i]? = some y →
    lt y x = false
  grand : GrandOrdered lt k heap pos

/-- Ordered but for the item at `pos`, which may belong anywhere. -/
structure Sinking (lt : α → α → Bool) (k : ℕ) (heap : List α) (pos : ℕ) : Prop where
  rest : ∀ i x y, 0 < i → i ≠ pos → (i-1)/2 ≠ pos → k ≤ (i-1)/2 → heap[(i-1)/2]? = some x →
    heap[i]? = some y → lt y x = false
  grand : GrandOrdered lt k heap pos

theorem Rising.at_root (h : Rising lt k heap pos) (hpos : pos ≤ k) : OrderedFrom lt k heap := by
  intro i x y hi hk
  exact h.rest i x y hi (by omega) hk

theorem Rising.in_place (h : Rising lt k heap pos) {x : α} (hx : heap[(pos-1)/2]? = some x)
    (hy : heap[pos]? = some y) (hle : lt y x = false) : OrderedFrom lt k heap := by
  intro i u v hi hk hu hv
  by_cases hip : i = pos
  · subst hip
    rw [hx] at hu
    rw [hy] at hv
    cases hu
    cases hv
    exact hle
  · exact h.rest i u v hi hip hk hu hv

theorem Rising.move (h : Rising lt k heap pos) (hw : WeakOrderOn lt heap) {x : α} (hpos : 0 < pos)
    (hk : k ≤ (pos-1)/2) (hx : heap[(pos-1)/2]? = some x) (hy : heap[pos]? = some y)
    (hlt : lt y x = true) : Rising lt k ((heap.set pos x).set ((pos-1)/2) y) ((pos-1)/2) := by
  have hxm := mem_of_getElem? hx
  have hym := mem_of_getElem? hy
  have hyx : lt x y = false := hw.asymm y hym x hxm hlt
  refine ⟨fun i u v hi hip hki hu hv => ?_,fun c u v hc hcp hp hkp hu hv => ?_⟩
  · rw [getElem?_swap hy hx] at hu hv
    rw [if_neg hip] at hv
    by_cases hipos : i = pos
    · rw [if_pos hipos] at hv
      rw [if_pos (by rw [hipos])] at hu
      cases hu
      cases hv
      exact hyx
    · rw [if_neg hipos] at hv
      by_cases hparent : (i-1)/2 = (pos-1)/2
      · -- the other child of the parent
        rw [if_pos hparent] at hu
        cases hu
        have hxv := h.rest i x v hi hipos hki (by rw [hparent]; exact hx) hv
        exact hw.trans _ hym x hxm v (mem_of_getElem? hv) hyx hxv
      · rw [if_neg hparent] at hu
        by_cases hchild : (i-1)/2 = pos
        · rw [if_pos hchild] at hu
          cases hu
          exact h.grand i _ v hi hchild hpos hk hx hv
        · rw [if_neg hchild] at hu
          exact h.rest i u v hi hipos hki hu hv
  · rw [getElem?_swap hy hx] at hu hv
    rw [if_neg (by omega), if_neg (by omega)] at hu
    have hum := mem_of_getElem? hu
    have hux : lt x u = false := h.rest ((pos-1)/2) u x hp (by omega) hkp hu hx
    rw [if_neg (by omega)] at hv
    by_cases hcpos : c = pos
    · rw [if_pos hcpos] at hv
      cases hv
      exact hux
    · rw [if_neg hcpos] at hv
      have hxv := h.rest c x v hc hcpos (by omega) (by rw [hcp]; exact hx) hv
      exact hw.trans u hum x hxm v (mem_of_getElem? hv) hux hxv

theorem siftdown_ordered (fuel : ℕ) (hw : WeakOrderOn lt heap) (h : Rising lt k heap pos)
    (hb : Below k pos) (hf : pos ≤ fuel) : OrderedFrom lt k (siftdown lt fuel heap k pos) := by
  induction fuel generalizing heap pos with
  | zero => exact h.at_root (by omega)
  | succ fuel ih =>
    rw [siftdown]
    by_cases hroot : pos ≤ k
    · rw [if_pos hroot]
      exact h.at_root hroot
    rw [if_neg hroot]
    obtain ⟨hpos,hup⟩ : 0 < pos ∧ Below k ((pos-1)/2) := by
      cases hb with
      | refl => exact absurd le_rfl hroot
      | child hc hup => exact ⟨hc,hup⟩
    dsimp only
    split
    · rename_i y x hy hx
      split
      · rename_i hlt
        exact ih (hw.perm (set_swap_perm hy hx)) (h.move hw hpos hup.le hx hy hlt) hup (by omega)
      · rename_i hle
        exact h.in_place hx hy (Bool.eq_false_iff.mpr hle)
    · rename_i hnone
      -- the position lies past the end
      intro i u v hi hki hu hv
      refine h.rest i u v hi ?_ hki hu hv
      rintro rfl
      exact hnone _ _ hv hu

theorem Sinking.move (h : Sinking lt k heap pos) (hk : k ≤ pos) {c : ℕ} {child : α} (hc : 0 < c)
    (hcp : (c-1)/2 = pos) (hitem : heap[pos]? = some item) (hchild : heap[c]? = some child)
    (hleast : ∀ d y, 0 < d → (d-1)/2 = pos → d ≠ c → heap[d]? = some y → lt y child = false) :
    Sinking lt k ((heap.set pos child).set c item) c := by
  refine ⟨fun i u v hi hic hpc hki hu hv => ?_,fun d u v hd hdc _ hkc hu hv => ?_⟩
  · rw [getElem?_swap hitem hchild] at hu hv
    rw [if_neg hic] at hv
    rw [if_neg hpc] at hu
    by_cases hipos : i = pos
    · rw [if_pos hipos] at hv
      rw [if_neg (by omega)] at hu
      cases hv
      rw [hipos] at hu hki hi
      exact h.grand c u _ hc hcp hi hki hu hchild
    · rw [if_neg hipos] at hv
      by_cases hparent : (i-1)/2 = pos
      · rw [if_pos hparent] at hu
        cases hu
        exact hleast i v hi hparent hic hv
      · rw [if_neg hparent] at hu
        exact h.rest i u v hi hipos hparent hki hu hv
  · rw [getElem?_swap hitem hchild] at hu hv
    rw [if_neg (by omega), if_pos hcp] at hu
    rw [if_neg (by omega), if_neg (by omega)] at hv
    cases hu
    exact h.rest d _ v hd (by omega) (by omega) (by omega) (by rw [hdc]; exact hchild) hv

theorem Sinking.rising (h : Sinking lt k heap pos) (hleaf : heap.length ≤ 2*pos+1) :
    Rising lt k heap pos := by
  refine ⟨fun i x y hi hip hki hx hy => ?_,h.grand⟩
  have hlen := (List.getElem?_eq_some_iff.mp hy).1
  exact h.rest i x y hi hip (by omega) hki hx hy

/-- The smaller of the two children, as `_siftup` picks it. -/
theorem siftupToLeaf_sinking (fuel : ℕ) (hw : WeakOrderOn lt heap) (h : Sinking lt k heap pos)
    (hb : Below k pos) (hlt : pos < heap.length) (hf : heap.length ≤ fuel+pos) :
    Sinking lt k (siftupToLeaf lt fuel heap pos).1 (siftupToLeaf lt fuel heap pos).2 ∧
      Below k (siftupToLeaf lt fuel heap pos).2 ∧ (siftupToLeaf lt fuel heap pos).2 < heap.length ∧
      heap.length ≤ 2*(siftupToLeaf lt fuel heap pos).2+1 := by
  induction fuel generalizing heap pos with
  | zero => omega
  | succ fuel ih =>
    obtain ⟨item,hitem⟩ : ∃ item, heap[pos]? = some item :=
      ⟨_,List.getElem?_eq_getElem hlt⟩
    have hk := hb.le
    rw [siftupToLeaf]
    simp only [hitem]
    -- the child at `c` takes the item's place
    have descend {c : ℕ} {child : α} (hc : 0 < c) (hcp : (c-1)/2 = pos)
        (hchild : heap[c]? = some child)
        (hleast : ∀ d y, 0 < d → (d-1)/2 = pos → d ≠ c → heap[d]? = some y → lt y child = false) :
        let heap' := (heap.set pos child).set c item
        Sinking lt k (siftupToLeaf lt fuel heap' c).1 (siftupToLeaf lt fuel heap' c).2 ∧
          Below k (siftupToLeaf lt fuel heap' c).2 ∧
          (siftupToLeaf lt fuel heap' c).2 < heap.length ∧
          heap.length ≤ 2*(siftupToLeaf lt fuel heap' c).2+1 := by
      intro heap'
      have hperm : heap'.Perm heap := set_swap_perm hitem hchild
      have hclt := (List.getElem?_eq_some_iff.mp hchild).1
      have hstep := ih (hw.perm hperm) (h.move hk hc hcp hitem hchild hleast)
        (.child hc (by rw [hcp]; exact hb)) (by rw [hperm.length_eq]; exact hclt)
        (by rw [hperm.length_eq]; omega)
      rw [hperm.length_eq] at hstep
      exact hstep
    cases hleft : heap[2*pos+1]? with
    | none =>
      have hlen := getElem?_eq_none_iff.mp hleft
      exact ⟨h,hb,hlt,hlen⟩
    | some left =>
      simp only
      have hleftm := mem_of_getElem? hleft
      cases hright : heap[2*pos+1+1]? with
      | none =>
        refine descend (c := 2*pos+1) (by omega) (by omega) hleft fun d y hd hdp hdc hy => ?_
        have hd2 : d = 2*pos+1+1 := by omega
        rw [hd2, hright] at hy
        cases hy
      | some right =>
        have hrightm := mem_of_getElem? hright
        by_cases hle : lt left right = true
        · simp only [if_pos hle]
          refine descend (c := 2*pos+1) (by omega) (by omega) hleft fun d y hd hdp hdc hy => ?_
          have hd2 : d = 2*pos+1+1 := by omega
          rw [hd2, hright] at hy
          cases hy
          exact hw.asymm left hleftm _ hrightm hle
        · simp only [if_neg hle]
          refine descend (c := 2*pos+1+1) (by omega) (by omega) hright fun d y hd hdp hdc hy => ?_
          have hd1 : d = 2*pos+1 := by omega
          rw [hd1, hleft] at hy
          cases hy
          exact Bool.eq_false_iff.mpr hle

theorem siftup_ordered (hw : WeakOrderOn lt heap) (h : OrderedFrom lt (pos+1) heap)
    (hlt : pos < heap.length) : OrderedFrom lt pos (siftup lt heap pos) := by
  have hstart : Sinking lt pos heap pos := by
    refine ⟨fun i x y hi hip hpp hki hx hy => ?_,fun c x y hc hcp hp hk => ?_⟩
    · exact h i x y hi (by omega) hx hy
    · omega
  have hperm := siftupToLeaf_perm lt heap.length heap pos
  obtain ⟨hsink,hbelow,hleaf,hlen⟩ :=
    siftupToLeaf_sinking heap.length hw hstart .refl hlt (by omega)
  rw [siftup]
  exact siftdown_ordered _ (hw.perm hperm) (hsink.rising (by rw [hperm.length_eq]; exact hlen)) hbelow
    (by rw [hperm.length_eq]; exact hleaf.le)

theorem heappush_isHeap (hw : WeakOrderOn lt (item :: heap)) (h : IsHeap lt heap) :
    IsHeap lt (heappush lt heap item) := by
  have hlast (c : ℕ) (hc : 0 < c) (hcp : (c-1)/2 = heap.length) : (heap ++ [item])[c]? = none := by
    rw [getElem?_eq_none_iff, List.length_append, List.length_singleton]
    omega
  refine siftdown_ordered _ (hw.perm (perm_append_singleton item heap)) ?_ (below_zero _)
    (by omega)
  refine ⟨fun i x y hi hip hk hx hy => ?_,fun c x y hc hcp hp hk hx hy => ?_⟩
  · have hlen := (List.getElem?_eq_some_iff.mp hy).1
    rw [List.length_append, List.length_singleton] at hlen
    rw [getElem?_append_left (by omega)] at hx hy
    exact h i x y hi hk hx hy
  · rw [hlast c hc hcp] at hy
    cases hy

theorem heappop_head {rest : List α} (h : heappop lt heap = some (item,rest)) :
    heap[0]? = some item := by
  match heap with
  | [] => cases h
  | [x] =>
    obtain ⟨rfl,-⟩ : x = item ∧ [] = rest := by simpa [heappop] using h
    rfl
  | x :: y :: tail =>
    simp only [heappop, Option.some.injEq, Prod.mk.injEq] at h
    obtain ⟨rfl,-⟩ := h
    rfl

theorem heappop_isHeap {rest : List α} (hw : WeakOrderOn lt heap) (h : IsHeap lt heap)
    (hpop : heappop lt heap = some (item,rest)) : IsHeap lt rest := by
  match heap with
  | [] => cases hpop
  | [x] =>
    obtain ⟨-,rfl⟩ : x = item ∧ [] = rest := by simpa [heappop] using hpop
    exact isHeap_nil
  | x :: y :: tail =>
    have hperm := heappop_perm lt hpop
    simp only [heappop, Option.some.injEq, Prod.mk.injEq] at hpop
    obtain ⟨rfl,rfl⟩ := hpop
    have hw' := (hw.perm hperm).subset fun z hz => mem_cons_of_mem _ hz
    refine siftup_ordered (hw'.perm (siftup_perm lt _ _).symm) ?_ (Nat.zero_lt_succ _)
    -- below the root nothing has moved
    intro i u v hi hk hu hv
    obtain ⟨j,rfl⟩ : ∃ j, i = j+1 := ⟨i-1,by omega⟩
    obtain ⟨m,hm⟩ : ∃ m, (j+1-1)/2 = m+1 := ⟨(j+1-1)/2-1,by omega⟩
    rw [hm, getElem?_cons_succ, getElem?_dropLast] at hu
    rw [getElem?_cons_succ, getElem?_dropLast] at hv
    obtain ⟨-,hv⟩ := Option.ite_none_right_eq_some.mp hv
    obtain ⟨-,hu⟩ := Option.ite_none_right_eq_some.mp hu
    refine h (j+1) u v hi (Nat.zero_le _) ?_ ?_
    · rw [hm, getElem?_cons_succ]
      exact hu
    · rw [getElem?_cons_succ]
      exact hv

theorem heapify_isHeap (hw : WeakOrderOn lt heap) : IsHeap lt (heapify lt heap) := by
  -- positions `n-1, …, 0` are sifted; those from `n` on are in order already
  have hall (n : ℕ) (l : List α) (hl : l.Perm heap) (hn : n ≤ l.length) (ho : OrderedFrom lt n l) :
      IsHeap lt (((List.range n).reverse).foldl (siftup lt) l) := by
    induction n generalizing l with
    | zero => exact ho
    | succ n ih =>
      rw [range_succ, reverse_append, reverse_singleton, singleton_append, foldl_cons]
      have hperm := siftup_perm lt l n
      exact ih _ (hperm.trans hl) (by rw [hperm.length_eq]; omega)
        (siftup_ordered (hw.perm hl) ho (by omega))
  refine hall _ heap (.refl _) (by omega) fun i x y hi hk hx hy => ?_
  have hlen := (List.getElem?_eq_some_iff.mp hy).1
  omega

end Order

end MetaZenith.Sched
