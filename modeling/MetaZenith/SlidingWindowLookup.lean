import MetaZenith.BackwardScan
import MetaZenith.SingleTypeManager

/-! `SlidingWindowManager.find_longest_cache_hit` against what it is to find: the longest aligned
prefix whose last blocks are cached. -/

namespace MetaZenith.KVCache

open List BackwardScan

/-- A look-up. `cached i` is what `get_cached_block` finds under the `i`-th block hash. -/
structure SlidingWindowLookup (β : Type*) where
  cached : ℕ → Option β
  maxLength : ℕ
  blockSize : ℕ
  slidingWindow : ℕ
  dropEagleBlock : Bool
  alignmentTokens : ℕ
  blockSize_pos : 0 < blockSize
  slidingWindow_pos : 0 < slidingWindow
  alignment_pos : 0 < alignmentTokens
  blockSize_dvd : blockSize ∣ alignmentTokens

variable {m : ℕ}

namespace SlidingWindowLookup

variable {β : Type*} (q : SlidingWindowLookup β)

def windowBlocks : ℕ := cdiv (q.slidingWindow-1) q.blockSize

def contiguousBlocksForHit : ℕ := q.windowBlocks+(if q.dropEagleBlock then 1 else 0)

def mayEnd (i : ℕ) : Bool :=
  q.blockSize = q.alignmentTokens ||
    (if q.dropEagleBlock then i else i+1)*q.blockSize%q.alignmentTokens = 0

def realign : ℕ → ℕ
  | 0 => 0
  | len+1 =>
    if q.blockSize ≠ q.alignmentTokens ∧ (len+1)*q.blockSize%q.alignmentTokens ≠ 0 then realign len
    else len+1

def scanned : List (Option β) × Bool :=
  scan q.cached q.mayEnd q.contiguousBlocksForHit (q.maxLength/q.blockSize)
    (replicate (q.maxLength/q.blockSize) none) 0

def trimmed : List (Option β) :=
  if q.scanned.2 then q.scanned.1 else q.scanned.1.take (q.realign q.scanned.1.length)

def popEagle (computed : List (Option β)) : List (Option β) :=
  if q.dropEagleBlock ∧ computed ≠ [] then
    computed.dropLast.take (q.realign computed.dropLast.length)
  else computed

def findLongestCacheHit : List (Option β) × ℕ :=
  let computed := q.popEagle q.trimmed
  (computed,computed.length*q.blockSize)

/-- Block `j` holds one of the last `sliding_window - 1` tokens before block `m`. -/
def InWindow (m j : ℕ) : Prop := m*q.blockSize < (j+1)*q.blockSize+(q.slidingWindow-1)

instance (m j : ℕ) : Decidable (q.InWindow m j) := inferInstanceAs (Decidable (_ < _))

structure IsHit (m : ℕ) : Prop where
  le : m*q.blockSize ≤ q.maxLength
  aligned : q.alignmentTokens ∣ m*q.blockSize
  window : ∀ j < m, q.InWindow m j → (q.cached j).isSome = true
  next : q.dropEagleBlock = true → (m+1)*q.blockSize ≤ q.maxLength ∧ (q.cached m).isSome = true

open Classical in
noncomputable def longestHit : ℕ := Nat.findGreatest q.IsHit (q.maxLength/q.blockSize)

def hitBlocks (m : ℕ) : List (Option β) :=
  (range m).map fun j => if q.InWindow m j then q.cached j else none

variable {q}

theorem inWindow_iff {j : ℕ} : q.InWindow m j ↔ m ≤ j+q.windowBlocks := by
  rw [InWindow]
  rcases Nat.lt_or_ge j m with hj | hj
  · obtain ⟨k,rfl⟩ : ∃ k, m = j+1+k := ⟨m-j-1,by omega⟩
    have hk := lt_cdiv_iff (a := q.slidingWindow-1) (k := k) q.blockSize_pos
    rw [Nat.add_mul (j+1) k, Nat.add_lt_add_iff_left, ← hk, windowBlocks]
    omega
  · have hle : m*q.blockSize ≤ j*q.blockSize := Nat.mul_le_mul_right _ hj
    have hpos := q.blockSize_pos
    rw [Nat.add_mul]
    omega

theorem hitBlocks_eq (m : ℕ) : q.hitBlocks m = runList q.cached q.windowBlocks m := by
  apply ext_getElem?
  intro j
  by_cases hj : j < m
  · rw [runList_getElem? hj, hitBlocks, getElem?_map, getElem?_range hj]
    simp [inWindow_iff]
  · rw [getElem?_eq_none (by simpa [hitBlocks] using hj),
      getElem?_eq_none (by rw [length_runList]; omega)]

theorem realign_le (len : ℕ) : q.realign len ≤ len := by
  induction len with
  | zero => exact le_rfl
  | succ len ih =>
    rw [realign]
    split
    · exact ih.trans (Nat.le_succ len)
    · exact le_rfl

theorem realign_of_dvd {len : ℕ} (h : q.alignmentTokens ∣ len*q.blockSize) : q.realign len = len := by
  cases len with
  | zero => rfl
  | succ len => exact if_neg fun hne => hne.2 (Nat.mod_eq_zero_of_dvd h)

theorem realign_succ_of_dvd (hne : q.blockSize ≠ q.alignmentTokens)
    (h : q.alignmentTokens ∣ m*q.blockSize) : q.realign (m+1) = m := by
  have hlt := lt_of_le_of_ne (Nat.le_of_dvd q.alignment_pos q.blockSize_dvd) hne
  have hmod : (m+1)*q.blockSize%q.alignmentTokens ≠ 0 := by
    rw [Nat.add_mul, Nat.one_mul, Nat.add_mod, Nat.mod_eq_zero_of_dvd h, Nat.zero_add, Nat.mod_mod,
      Nat.mod_eq_of_lt hlt]
    exact q.blockSize_pos.ne'
  rw [realign, if_pos ⟨hne,hmod⟩, realign_of_dvd h]

theorem mayEnd_iff {i : ℕ} : q.mayEnd i = true ↔
    q.alignmentTokens ∣ (if q.dropEagleBlock then i else i+1)*q.blockSize := by
  rw [mayEnd, Bool.or_eq_true, decide_eq_true_eq, decide_eq_true_eq, Nat.dvd_iff_mod_eq_zero]
  refine or_iff_right_of_imp fun h => ?_
  rw [← h]
  exact Nat.mul_mod_left _ _

theorem isHit_le (h : q.IsHit m) : m ≤ q.maxLength/q.blockSize :=
  (Nat.le_div_iff_mul_le q.blockSize_pos).mpr h.le

theorem le_longestHit (h : q.IsHit m) : m ≤ q.longestHit := by
  classical
  exact Nat.le_findGreatest (isHit_le h) h

theorem longestHit_eq (hm : m = 0 ∨ q.IsHit m) (hmax : ∀ m', q.IsHit m' → m' ≤ m) :
    q.longestHit = m := by
  classical
  refine Nat.findGreatest_eq_iff.mpr ⟨?_,fun h => hm.resolve_left h,fun m' hlt _ h => ?_⟩
  · rcases hm with rfl | hm
    · exact Nat.zero_le _
    · exact isHit_le hm
  · exact absurd (hmax m' h) (by omega)

theorem endsAt_iff_of_eagle (hdrop : q.dropEagleBlock = true) :
    EndsAt q.cached q.mayEnd q.contiguousBlocksForHit (q.maxLength/q.blockSize) m ↔ q.IsHit m := by
  have hneed : q.contiguousBlocksForHit = q.windowBlocks+1 := by simp [contiguousBlocksForHit, hdrop]
  have hlt : m < q.maxLength/q.blockSize ↔ (m+1)*q.blockSize ≤ q.maxLength :=
    Nat.le_div_iff_mul_le q.blockSize_pos
  rw [hneed]
  constructor
  · intro h
    have hmay := mayEnd_iff.mp h.mayEnd
    rw [if_pos hdrop] at hmay
    have hle := hlt.mp h.lt
    refine ⟨(Nat.mul_le_mul_right _ (Nat.le_succ m)).trans hle,hmay,fun j hj hw => ?_,
      fun _ => ⟨hle,h.present m le_rfl (by omega)⟩⟩
    exact h.present j hj.le (by have := inWindow_iff.mp hw; omega)
  · intro h
    obtain ⟨hle,hnext⟩ := h.next hdrop
    refine ⟨hlt.mpr hle,mayEnd_iff.mpr (by rw [if_pos hdrop]; exact h.aligned),fun j hj hw => ?_⟩
    rcases Nat.eq_or_lt_of_le hj with rfl | hj
    · exact hnext
    · exact h.window j hj (inWindow_iff.mpr (by omega))

theorem endsAt_iff (hdrop : q.dropEagleBlock = false) :
    EndsAt q.cached q.mayEnd q.contiguousBlocksForHit (q.maxLength/q.blockSize) m ↔
      q.IsHit (m+1) := by
  have hneed : q.contiguousBlocksForHit = q.windowBlocks := by simp [contiguousBlocksForHit, hdrop]
  have hlt : m < q.maxLength/q.blockSize ↔ (m+1)*q.blockSize ≤ q.maxLength :=
    Nat.le_div_iff_mul_le q.blockSize_pos
  have hmay := mayEnd_iff (q := q) (i := m)
  rw [hdrop, if_neg Bool.false_ne_true] at hmay
  rw [hneed]
  constructor
  · intro h
    refine ⟨hlt.mp h.lt,hmay.mp h.mayEnd,fun j hj hw => ?_,fun h => by rw [hdrop] at h; cases h⟩
    exact h.present j (by omega) (by have := inWindow_iff.mp hw; omega)
  · intro h
    refine ⟨hlt.mpr h.le,hmay.mpr h.aligned,fun j hj hw => ?_⟩
    exact h.window j (by omega) (inWindow_iff.mpr (by omega))

theorem take_realign_hit (hm : m = 0 ∨ q.IsHit m) :
    (runList q.cached q.windowBlocks m).take (q.realign m) = q.hitBlocks m := by
  have hlen : q.realign m = m := by
    rcases hm with rfl | hm
    · rfl
    · exact realign_of_dvd hm.aligned
  rw [hlen, take_of_length_le (length_runList m).le, hitBlocks_eq]

theorem findLongestCacheHit_eq_iff :
    q.findLongestCacheHit = (q.hitBlocks m,m*q.blockSize) ↔ q.popEagle q.trimmed = q.hitBlocks m := by
  rw [findLongestCacheHit]
  refine ⟨fun heq => (Prod.mk.inj heq).1,fun heq => ?_⟩
  rw [heq, show (q.hitBlocks m).length = m by simp [hitBlocks]]

/-- Without alignment to heed, or at an aligned length, nothing more is popped. -/
theorem trimmed_eq {need len : ℕ} (hlist : q.scanned.1 = runList q.cached need len)
    (hlen : q.scanned.2 = true ∨ q.realign len = len) : q.trimmed = runList q.cached need len := by
  rw [trimmed, hlist, length_runList]
  split
  · rfl
  · rw [hlen.resolve_left ‹_›, take_of_length_le (length_runList len).le]

theorem find_of_eagle (hdrop : q.dropEagleBlock = true) :
    q.findLongestCacheHit = (q.hitBlocks q.longestHit,q.longestHit*q.blockSize) ↔
      ¬(q.blockSize ≠ q.alignmentTokens ∧ 0 < q.longestHit ∧ q.longestHit < q.windowBlocks) := by
  have hneed : q.contiguousBlocksForHit = q.windowBlocks+1 := by simp [contiguousBlocksForHit, hdrop]
  obtain ⟨len,hlist,hend,hmax,hfound⟩ := scan_from_start q.cached q.mayEnd
    (show 0 < q.contiguousBlocksForHit by omega) (q.maxLength/q.blockSize)
  have hhit : len-1 = 0 ∨ q.IsHit (len-1) :=
    hend.imp (fun h => by rw [h]) (endsAt_iff_of_eagle hdrop).mp
  have hlongest : q.longestHit = len-1 := longestHit_eq hhit fun m hm => by
    have := hmax m ((endsAt_iff_of_eagle hdrop).mpr hm)
    omega
  change q.scanned.1 = _ at hlist
  change q.scanned.2 = true ↔ _ at hfound
  rw [hneed] at hlist hfound
  rw [findLongestCacheHit_eq_iff, hlongest]
  have hpop (htrimmed : q.trimmed = runList q.cached (q.windowBlocks+1) len) :
      q.popEagle q.trimmed = q.hitBlocks (len-1) := by
    rw [popEagle, htrimmed]
    split
    · rw [dropLast_runList, length_runList, take_realign_hit hhit]
    · rename_i hempty
      have hnil : runList q.cached (q.windowBlocks+1) len = [] := by
        by_contra hne
        exact hempty ⟨hdrop,hne⟩
      have hzero : (runList q.cached (q.windowBlocks+1) len).length = len := length_runList len
      rw [hnil] at hzero ⊢
      rw [← hzero]
      rfl
  rcases len with _ | m
  · exact iff_of_true (hpop (trimmed_eq hlist (.inr rfl))) (by omega)
  have haligned : q.alignmentTokens ∣ m*q.blockSize :=
    ((endsAt_iff_of_eagle hdrop).mp (hend.resolve_left (Nat.succ_ne_zero m))).aligned
  by_cases hall : q.scanned.2 = true ∨ q.blockSize = q.alignmentTokens
  · refine iff_of_true (hpop (trimmed_eq hlist (hall.imp_right fun h => ?_))) fun ⟨hne,hpos,hlt⟩ => ?_
    · exact realign_of_dvd (h ▸ Nat.dvd_mul_left _ _)
    · have := hfound.mp (hall.resolve_right hne)
      omega
  · -- the block to drop is popped by the first realignment, and another one after it
    rw [not_or] at hall
    have hlen : q.trimmed = (runList q.cached (q.windowBlocks+1) (m+1)).take m := by
      rw [trimmed, if_neg hall.1, hlist, length_runList, realign_succ_of_dvd hall.2 haligned]
    have hshort : q.windowBlocks+1 > m+1 := not_le.mp fun h => hall.1 (hfound.mpr h)
    rcases Nat.eq_zero_or_pos m with rfl | hpos
    · refine iff_of_true ?_ (by omega)
      rw [hlen, take_zero, popEagle, if_neg (by simp)]
      rfl
    · refine iff_of_false (fun h => ?_) (not_not.mpr ⟨hall.2,hpos,by omega⟩)
      have hle := congrArg length h
      have hbound := q.realign_le (m-1)
      rw [popEagle, hlen] at hle
      split at hle
      · simp only [length_take, length_dropLast, length_runList, hitBlocks, length_map,
          length_range] at hle
        omega
      · rename_i hempty
        refine hempty ⟨hdrop,fun hnil => ?_⟩
        have := congrArg length hnil
        simp only [length_take, length_runList, length_nil] at this
        omega

/-- A run needs an element even if the window needs no block. -/
theorem find_of_no_eagle (hdrop : q.dropEagleBlock = false) :
    q.findLongestCacheHit = (q.hitBlocks q.longestHit,q.longestHit*q.blockSize) ↔
      0 < q.windowBlocks ∨ q.longestHit = 0 := by
  have hneed : q.contiguousBlocksForHit = q.windowBlocks := by simp [contiguousBlocksForHit, hdrop]
  have hpop : q.popEagle q.trimmed = q.trimmed := by simp [popEagle, hdrop]
  rw [findLongestCacheHit_eq_iff, hpop]
  rcases Nat.eq_zero_or_pos q.windowBlocks with hzero | hwindow
  · obtain ⟨len,hlist,hend,hmax,hfound⟩ := scan_from_start q.cached q.mayEnd Nat.one_pos
      (q.maxLength/q.blockSize)
    have hscan : q.scanned = scan q.cached q.mayEnd 1 (q.maxLength/q.blockSize)
        (replicate (q.maxLength/q.blockSize) none) 0 := by
      rw [scanned, hneed, hzero, scan_zero]
    rw [← hscan] at hlist hfound
    have htrimmed : q.trimmed = runList q.cached 1 len := trimmed_eq hlist
      ((Nat.eq_zero_or_pos len).elim (fun h => .inr (by rw [h]; rfl)) fun h => .inl (hfound.mpr h))
    rw [htrimmed, or_iff_right (by omega)]
    constructor
    · intro heq
      by_contra hne
      have hlen : len = q.longestHit := by
        have := congrArg length heq
        rwa [length_runList, hitBlocks_eq, length_runList] at this
      obtain ⟨m,rfl⟩ : ∃ m, len = m+1 := ⟨len-1,by omega⟩
      -- the last block is cached, but the window needs none
      have hlast := (hend.resolve_left (Nat.succ_ne_zero m)).present m le_rfl (Nat.lt_succ_self m)
      have hentry := congrArg (·[m]?) heq
      rw [hitBlocks_eq, ← hlen, hzero] at hentry
      simp only [runList_getElem? (Nat.lt_succ_self m)] at hentry
      simp only [le_refl, if_true, Nat.add_zero, Nat.not_succ_le_self, if_false,
        Option.some.injEq] at hentry
      rw [hentry] at hlast
      cases hlast
    · intro hlongest
      rcases len with _ | m
      · rw [hlongest]
        rfl
      · have hends := hend.resolve_left (Nat.succ_ne_zero m)
        have hhit : q.IsHit (m+1) := (endsAt_iff hdrop).mp
          ⟨hends.lt,hends.mayEnd,fun j hj hw => hends.present j hj (by omega)⟩
        have := le_longestHit hhit
        omega
  · obtain ⟨len,hlist,hend,hmax,hfound⟩ := scan_from_start q.cached q.mayEnd
      (show 0 < q.contiguousBlocksForHit by omega) (q.maxLength/q.blockSize)
    change q.scanned.1 = _ at hlist
    rw [hneed] at hlist
    have hhit : len = 0 ∨ q.IsHit len := by
      rcases len with _ | m
      · exact .inl rfl
      · exact .inr ((endsAt_iff hdrop).mp (hend.resolve_left (Nat.succ_ne_zero m)))
    have hlongest : q.longestHit = len := longestHit_eq hhit fun m hm => by
      rcases m with _ | m
      · exact Nat.zero_le _
      · exact hmax m ((endsAt_iff hdrop).mpr hm)
    refine iff_of_true ?_ (.inl hwindow)
    rw [hlongest, trimmed_eq hlist (.inr ?_), hitBlocks_eq]
    exact hhit.elim (fun h => by rw [h]; rfl) fun h => realign_of_dvd h.aligned

/-- The look-up is exact unless the window is a single token without a drop, or the hit is shorter
than the window, not every block is aligned and an EAGLE block is dropped: then the length is
realigned before and after the drop. -/
theorem find_longest_cache_hit_exact_iff (q : SlidingWindowLookup β) :
    q.findLongestCacheHit = (q.hitBlocks q.longestHit,q.longestHit*q.blockSize) ↔
      (1 < q.slidingWindow ∨ q.dropEagleBlock = true ∨ q.longestHit = 0) ∧
      ¬(q.dropEagleBlock = true ∧ q.blockSize ≠ q.alignmentTokens ∧ 0 < q.longestHit ∧
        q.longestHit < q.windowBlocks) := by
  have hwindow : 0 < q.windowBlocks ↔ 1 < q.slidingWindow := by
    rw [windowBlocks, lt_cdiv_iff q.blockSize_pos]
    omega
  cases hdrop : q.dropEagleBlock with
  | true => simp [find_of_eagle hdrop]
  | false => simp [find_of_no_eagle hdrop, hwindow]

def threeBlocks : SlidingWindowLookup ℕ where
  cached := fun i => if i < 3 then some (7+i) else none
  maxLength := 3
  blockSize := 1
  slidingWindow := 10
  dropEagleBlock := true
  alignmentTokens := 2
  blockSize_pos := by decide
  slidingWindow_pos := by decide
  alignment_pos := by decide
  blockSize_dvd := by decide

/-- Two blocks can be hit, and none is. -/
theorem eagle_hit_lost : threeBlocks.IsHit 2 ∧ threeBlocks.findLongestCacheHit = ([],0) := by
  refine ⟨⟨by decide,by decide,fun j hj _ => ?_,fun _ => by decide⟩,by decide⟩
  revert j
  decide

end SlidingWindowLookup

end MetaZenith.KVCache
