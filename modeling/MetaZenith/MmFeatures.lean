import Mathlib

/-! Placeholder ranges of multimodal features and the window of features that a token range
touches (`vllm/multimodal/inputs.py`, `vllm/multimodal/utils.py`). -/

namespace MetaZenith.Encoder

open List

variable {f : MmFeature} {a b i x : ℕ}

/-- Hashes of multimodal items are opaque keys; `ℕ` stands for the strings of the source. -/
abbrev MmHash := ℕ

abbrev RequestId := ℕ

structure PlaceholderRange where
  offset : ℕ
  length : ℕ
  isEmbed : Option (List Bool)
  mask_length : ∀ mask ∈ isEmbed, mask.length = length

variable (p : PlaceholderRange)

namespace PlaceholderRange

def embedsCumsum : Option (List ℕ) :=
  p.isEmbed.map fun mask => (mask.scanl (fun total b => total+b.toNat) 0).tail

def getNumEmbeds : ℕ :=
  match p.embedsCumsum with
  | none => p.length
  | some cumsum => cumsum.getLastD 0

def getEmbedsIndicesInRange (startIdx endIdx : ℕ) : ℕ × ℕ :=
  match p.embedsCumsum with
  | none => (startIdx,endIdx)
  | some cumsum =>
    (if 0 < startIdx then cumsum.getD (startIdx-1) 0 else 0,
      if 0 < endIdx then cumsum.getD (endIdx-1) 0 else 0)

def EmbedAt (k : ℕ) : Prop :=
  match p.isEmbed with
  | none => True
  | some mask => mask.getD k false = true

instance (p : PlaceholderRange) (k : ℕ) : Decidable (p.EmbedAt k) := by
  unfold EmbedAt
  split <;> infer_instance

end PlaceholderRange

structure MmFeature where
  identifier : MmHash
  position : PlaceholderRange

namespace MmFeature

def start (f : MmFeature) : ℕ := f.position.offset

def stop (f : MmFeature) : ℕ := f.position.offset+f.position.length

def EmbedsWithin (f : MmFeature) (a b : ℕ) : Prop :=
  ∃ t, a ≤ t ∧ t < b ∧ f.start ≤ t ∧ t < f.stop ∧ f.position.EmbedAt (t-f.start)

theorem EmbedsWithin.mono {a' b' : ℕ} (h : f.EmbedsWithin a b) (ha : a' ≤ a) (hb : b ≤ b') :
    f.EmbedsWithin a' b' := by
  obtain ⟨t,hat,htb,ht⟩ := h
  exact ⟨t,ha.trans hat,htb.trans_le hb,ht⟩

end MmFeature

structure MmRequest where
  requestId : RequestId
  mmFeatures : List MmFeature
  ordered : mmFeatures.Pairwise fun f g => f.stop ≤ g.start

def bisectLeft (fs : List MmFeature) (x : ℕ) (key : MmFeature → ℕ) : ℕ :=
  fs.findIdx fun f => x ≤ key f

def getMmFeaturesInWindow (fs : List MmFeature) (start stop : ℕ) : ℕ × ℕ :=
  (bisectLeft fs (start+1) MmFeature.stop, bisectLeft fs stop MmFeature.start)

def windowIndices (fs : List MmFeature) (start stop : ℕ) : List ℕ :=
  let (lo,hi) := getMmFeaturesInWindow fs start stop
  List.range' lo (hi-lo)

theorem getD_scanl_tail_add (mask : List Bool) (total k : ℕ) (hk : k < mask.length) :
    (mask.scanl (fun total b => total+b.toNat) total).tail.getD k 0 =
      total+(mask.take (k+1)).count true := by
  induction mask generalizing total k with
  | nil => simp at hk
  | cons b mask ih =>
    cases k with
    | zero =>
      cases mask <;> cases b <;> simp [scanl_cons]
    | succ k =>
      have hk' : k < mask.length := by simpa using hk
      have hrest := ih (total+b.toNat) k hk'
      cases mask with
      | nil => simp at hk'
      | cons b' mask =>
        simp only [scanl_cons, tail_cons, getD_cons_succ] at hrest ⊢
        rw [hrest, take_succ_cons (a := b)]
        cases b <;> simp
        omega

theorem count_take_eq_iff (mask : List Bool) (hab : a ≤ b) :
    (mask.take a).count true = (mask.take b).count true ↔
      ∀ k, a ≤ k → k < b → mask.getD k false = false := by
  have hsplit : mask.take b = mask.take a ++ (mask.drop a).take (b-a) := by
    rw [← take_add, Nat.add_sub_cancel' hab]
  rw [hsplit, count_append, left_eq_add, count_eq_zero]
  constructor
  · intro hnone k hak hkb
    by_contra hk
    have hlen : k < mask.length := by
      by_contra hge
      exact hk (getD_eq_default _ _ (not_lt.mp hge))
    refine hnone (mem_iff_getElem.mpr ⟨k-a,by simp; omega,?_⟩)
    rw [getD_eq_getElem _ _ hlen, Bool.not_eq_false] at hk
    simpa [Nat.add_sub_cancel' hak] using hk
  · intro hall hmem
    obtain ⟨j,hj,hval⟩ := mem_iff_getElem.mp hmem
    simp only [length_take, length_drop] at hj
    have hlen : a+j < mask.length := by omega
    have hfalse := hall (a+j) (by omega) (by omega)
    rw [getD_eq_getElem _ _ hlen] at hfalse
    simp only [getElem_take, getElem_drop] at hval
    rw [hfalse] at hval
    exact Bool.noConfusion hval

namespace PlaceholderRange

/-- The entry of the running sum before position `k` counts the embeddings before `k`. -/
theorem cumsum_getD (mask : List Bool) {k : ℕ} (hk : k ≤ mask.length) :
    (if 0 < k then (mask.scanl (fun total b => total+b.toNat) 0).tail.getD (k-1) 0 else 0) =
      (mask.take k).count true := by
  cases k with
  | zero => simp
  | succ k => simpa using getD_scanl_tail_add mask 0 k (by omega)

/-- The index range is empty exactly if no position of the token range takes an embedding. -/
theorem indices_eq_iff (hab : a ≤ b) (hb : b ≤ p.length) :
    (p.getEmbedsIndicesInRange a b).1 = (p.getEmbedsIndicesInRange a b).2 ↔
      ∀ k, a ≤ k → k < b → ¬ p.EmbedAt k := by
  unfold getEmbedsIndicesInRange embedsCumsum EmbedAt
  cases hmask : p.isEmbed with
  | none =>
    simp only [Option.map_none, not_true_eq_false, imp_false, not_lt]
    exact ⟨fun h k hk => h ▸ hk,fun h => le_antisymm hab (h a le_rfl)⟩
  | some mask =>
    have hlen := p.mask_length mask (by rw [hmask]; rfl)
    simp only [Option.map_some]
    rw [cumsum_getD mask (by omega), cumsum_getD mask (by omega), count_take_eq_iff mask hab]
    simp

end PlaceholderRange

/-- The relative index range of a feature covers the token range `[a, b)`. -/
theorem MmFeature.indices_eq_iff (f : MmFeature) (hstop : a < f.stop) (hab : a ≤ b) :
    (f.position.getEmbedsIndicesInRange (a-f.start) (min f.position.length (b-f.start))).1 =
      (f.position.getEmbedsIndicesInRange (a-f.start) (min f.position.length (b-f.start))).2 ↔
      ¬ f.EmbedsWithin a b := by
  have hlen : f.stop = f.start+f.position.length := rfl
  rw [f.position.indices_eq_iff (by omega) (min_le_left _ _)]
  constructor
  · rintro hnone ⟨t,hat,htb,hst,hts,hemb⟩
    exact hnone (t-f.start) (by omega) (by omega) hemb
  · intro hnone k hak hkb hemb
    refine hnone ⟨f.start+k,by omega,by omega,by omega,by omega,?_⟩
    rwa [Nat.add_sub_cancel_left]

/-- On a list along which `p` stays true, `findIdx` is the point where it turns true. -/
theorem findIdx_le_iff {α : Type*} {p : α → Bool} {l : List α}
    (hmono : l.Pairwise fun a b => p a = true → p b = true) {a : α} (hi : l[i]? = some a) :
    l.findIdx p ≤ i ↔ p a = true := by
  induction l generalizing i with
  | nil => simp at hi
  | cons x l ih =>
    obtain ⟨hx,hl⟩ := pairwise_cons.mp hmono
    cases i with
    | zero =>
      obtain rfl : x = a := by simpa using hi
      cases hp : p x <;> simp [findIdx_cons, hp]
    | succ i =>
      have hi' : l[i]? = some a := by simpa using hi
      cases hp : p x with
      | true => simp [findIdx_cons, hp, hx a (mem_of_getElem? hi') hp]
      | false => simp [findIdx_cons, hp, ih hl hi']

theorem bisectLeft_le_iff {fs : List MmFeature} {key : MmFeature → ℕ}
    (hsorted : fs.Pairwise fun f g => key f ≤ key g) (hi : fs[i]? = some f) :
    bisectLeft fs x key ≤ i ↔ x ≤ key f := by
  have hmono : fs.Pairwise fun f g => decide (x ≤ key f) = true → decide (x ≤ key g) = true := by
    refine hsorted.imp fun hfg hx => ?_
    simp only [decide_eq_true_eq] at hx ⊢
    exact hx.trans hfg
  exact (findIdx_le_iff hmono hi).trans decide_eq_true_iff

theorem MmRequest.bisectLeft_stop_le_iff (req : MmRequest) (hi : req.mmFeatures[i]? = some f) :
    bisectLeft req.mmFeatures x MmFeature.stop ≤ i ↔ x ≤ f.stop :=
  bisectLeft_le_iff (req.ordered.imp fun hfg => hfg.trans (Nat.le_add_right _ _)) hi

theorem MmRequest.bisectLeft_start_le_iff (req : MmRequest) (hi : req.mmFeatures[i]? = some f) :
    bisectLeft req.mmFeatures x MmFeature.start ≤ i ↔ x ≤ f.start :=
  bisectLeft_le_iff (req.ordered.imp fun hfg => (Nat.le_add_right _ _).trans hfg) hi

theorem MmRequest.mem_windowIndices (req : MmRequest) : i ∈ windowIndices req.mmFeatures a b ↔
      ∃ f, req.mmFeatures[i]? = some f ∧ a < f.stop ∧ f.start < b := by
  have hmem : i ∈ windowIndices req.mmFeatures a b ↔
      bisectLeft req.mmFeatures (a+1) MmFeature.stop ≤ i ∧
        i < bisectLeft req.mmFeatures b MmFeature.start := by
    unfold windowIndices getMmFeaturesInWindow
    simp only [mem_range'_1]
    omega
  rw [hmem]
  cases hi : req.mmFeatures[i]? with
  | none =>
    have hlen := getElem?_eq_none_iff.mp hi
    have hle : bisectLeft req.mmFeatures b MmFeature.start ≤ req.mmFeatures.length :=
      findIdx_le_length
    simp only [reduceCtorEq, false_and, exists_false, iff_false]
    omega
  | some f =>
    rw [req.bisectLeft_stop_le_iff hi, ← not_le, req.bisectLeft_start_le_iff hi]
    simp

theorem MmRequest.start_mono (req : MmRequest) {j : ℕ} {g : MmFeature} (hij : i ≤ j)
    (hi : req.mmFeatures[i]? = some f) (hj : req.mmFeatures[j]? = some g) : f.start ≤ g.start := by
  have hle := req.bisectLeft_start_le_iff (x := f.start) hi
  exact (req.bisectLeft_start_le_iff hj).mp ((hle.mpr le_rfl).trans hij)

end MetaZenith.Encoder
