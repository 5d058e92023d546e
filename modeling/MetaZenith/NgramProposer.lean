import MetaZenith.PrefixFunction

/-! The n-gram drafter: a search with a failure function over the reversed tokens, whose table is cut
at `max_ngram` entries. -/

namespace MetaZenith.Ngram

open Function PrefixFunction

structure Search where
  i : ℕ
  prevLps : ℕ
  longestNgram : ℕ
  position : ℕ
  lps : ℕ → ℕ

variable {τ : Type*}

section Model

variable [DecidableEq τ]

def Search.step (tokens : List τ) (maxNgram : ℕ) (s : Search) : Search :=
  if tokens[s.prevLps]? = tokens[s.i]? then
    let prevLps := s.prevLps+1
    let lps := if s.i < maxNgram then update s.lps s.i prevLps else s.lps
    { i := s.i+1
      prevLps := if prevLps = maxNgram then lps (maxNgram-1) else prevLps
      longestNgram := if s.longestNgram ≤ prevLps then prevLps else s.longestNgram
      position := if s.longestNgram ≤ prevLps then s.i else s.position
      lps }
  else if s.prevLps ≠ 0 then { s with prevLps := s.lps (s.prevLps-1) }
  else { s with i := s.i+1 }

/-- The `while` loop; `none` when the fuel does not suffice. -/
def search (tokens : List τ) (maxNgram : ℕ) : ℕ → Search → Option Search
  | 0, _ => none
  | fuel+1, s =>
    if s.i < tokens.length then search tokens maxNgram fuel (s.step tokens maxNgram) else some s

def proposal (originTokens : List τ) (minNgram k : ℕ) (s : Search) : List τ :=
  if s.longestNgram < minNgram then []
  else
    let startPosition := originTokens.length-1-s.position+s.longestNgram
    (originTokens.drop startPosition).take (min k (originTokens.length-startPosition))

def findLongestMatchedNgramAndProposeTokens (originTokens : List τ)
    (minNgram maxNgram maxModelLen k : ℕ) : Option (List τ) :=
  let totalToken := originTokens.length
  if totalToken < minNgram then some []
  else
    let k := min k (maxModelLen-totalToken)
    if k = 0 then some []
    else
      (search originTokens.reverse maxNgram (2*totalToken+1) ⟨1,0,0,0,fun _ => 0⟩).map
        (proposal originTokens minNgram k)

end Model

/-- The last `L` tokens also stand at `start`, and end there before the last position. -/
def OccursAt (tokens : List τ) (L start : ℕ) : Prop :=
  start+L < tokens.length ∧ ∀ x < L, tokens[start+x]? = tokens[tokens.length-L+x]?

structure Searching (f : ℕ → Option τ) (m : ℕ) (s : Search) : Prop where
  lt_index : s.prevLps < s.i
  lt_max : s.prevLps < m
  ends : Ends f s.prevLps s.i
  rejected : ∀ v, s.prevLps < v → v < m → v < s.i → Ends f v s.i → f v ≠ f s.i
  table : ∀ j < m, j < s.i → LongestEnd f m (j+1) (s.lps j)
  fresh : ∀ j, s.i ≤ j → s.lps j = 0
  found : 0 < s.longestNgram → s.longestNgram ≤ m ∧ s.longestNgram ≤ s.position ∧ s.position < s.i ∧
    Ends f s.longestNgram (s.position+1)
  bound : ∀ j < s.i, ∀ v ≤ m, 0 < v → v ≤ j → Ends f v (j+1) →
    v < s.longestNgram ∨ v = s.longestNgram ∧ j ≤ s.position

variable {f : ℕ → Option τ} {m b : ℕ} {s : Search}

theorem Searching.longestEnd_succ (h : Searching f m s) (hmatch : f s.prevLps = f s.i) :
    LongestEnd f m (s.i+1) (s.prevLps+1) := by
  refine ⟨h.lt_max,Nat.succ_lt_succ h.lt_index,ends_succ.mpr ⟨h.ends,hmatch⟩,fun v hm hlt hends => ?_⟩
  cases v with
  | zero => exact Nat.zero_le _
  | succ u =>
    obtain ⟨hu,heq⟩ := ends_succ.mp hends
    by_contra hgt
    exact h.rejected u (by omega) hm (by omega) hu heq

theorem Searching.longestEnd_zero (h : Searching f m s) (hzero : s.prevLps = 0)
    (hmatch : f s.prevLps ≠ f s.i) : LongestEnd f m (s.i+1) 0 := by
  refine ⟨Nat.zero_le _,Nat.succ_pos _,ends_zero,fun v hm hlt hends => ?_⟩
  cases v with
  | zero => exact le_rfl
  | succ u =>
    obtain ⟨hu,heq⟩ := ends_succ.mp hends
    rcases Nat.eq_zero_or_pos u with rfl | hpos
    · exact absurd heq (hzero ▸ hmatch)
    · exact absurd heq (h.rejected u (by omega) hm (by omega) hu)

/-- The search goes on to the next position with the longest prefix that can still be extended. -/
theorem Searching.advance {s' : Search} (h : Searching f m s) (hb : LongestEnd f m (s.i+1) b)
    (hi : s'.i = s.i+1) (hprev : s'.prevLps = if b = m then s'.lps (m-1) else b)
    (hold : ∀ j < s.i, s'.lps j = s.lps j) (hnew : s.i < m → s'.lps s.i = b)
    (hfresh : ∀ j, s.i < j → s'.lps j = 0)
    (hbest : s'.longestNgram = b ∧ s'.position = s.i ∧ s.longestNgram ≤ b ∨
      s'.longestNgram = s.longestNgram ∧ s'.position = s.position ∧ (b = 0 ∨ b < s.longestNgram)) :
    Searching f m s' := by
  have htable : ∀ j < m, j < s.i+1 → LongestEnd f m (j+1) (s'.lps j) := by
    intro j hj hi
    rcases Nat.eq_or_lt_of_le (Nat.lt_succ_iff.mp hi) with rfl | hi
    · rw [hnew hj]
      exact hb
    · rw [hold j hi]
      exact h.table j hj hi
  have hpos : 0 < m := Nat.zero_lt_of_lt h.lt_max
  have hnext : s'.prevLps < m ∧ s'.prevLps ≤ b ∧ Ends f s'.prevLps (s.i+1) ∧
      ∀ v < m, v < s.i+1 → Ends f v (s.i+1) → v ≤ s'.prevLps := by
    rw [hprev]
    split
    · case isTrue heq =>
      subst heq
      have hlast := htable (b-1) (by omega) (by have := hb.lt; omega)
      rw [Nat.sub_add_cancel hpos] at hlast
      refine ⟨hlast.lt,hlast.le,hlast.ends.trans hb.ends,fun v hv _ hends => ?_⟩
      exact hlast.longest v hv.le hv (hends.of_ends hb.ends hv.le)
    · case isFalse hne =>
      exact ⟨lt_of_le_of_ne hb.le hne,le_rfl,hb.ends,fun v hv hlt => hb.longest v hv.le hlt⟩
  rw [← hi] at hnext htable
  refine ⟨hi ▸ hnext.2.1.trans_lt hb.lt,hnext.1,hnext.2.2.1,fun v hp hv hi hends => ?_,htable,
    fun j hj => hfresh j (by omega),fun hl => ?_,fun j hj v hv hvpos hle hends => ?_⟩
  · exact absurd (hnext.2.2.2 v hv hi hends) (not_le.mpr hp)
  · rcases hbest with ⟨hlongest,hposition,-⟩ | ⟨hlongest,hposition,-⟩
    · rw [hlongest, hposition]
      exact ⟨hb.le,Nat.lt_succ_iff.mp hb.lt,by omega,hb.ends⟩
    · rw [hlongest] at hl
      rw [hlongest, hposition]
      obtain ⟨hle,hpos,hlt,hends⟩ := h.found hl
      exact ⟨hle,hpos,by omega,hends⟩
  · rcases Nat.eq_or_lt_of_le (Nat.lt_succ_iff.mp (hi ▸ hj)) with rfl | hj
    · have := hb.longest v hv (Nat.lt_succ_of_le hle) hends
      omega
    · have := h.bound j hj v hv hvpos hle hends
      omega

theorem Searching.fallBack (h : Searching f m s) (hne : s.prevLps ≠ 0) (hmatch : f s.prevLps ≠ f s.i) :
    s.lps (s.prevLps-1) < s.prevLps ∧ Searching f m { s with prevLps := s.lps (s.prevLps-1) } := by
  have hlast := h.table (s.prevLps-1) (by have := h.lt_max; omega) (by have := h.lt_index; omega)
  rw [Nat.sub_add_cancel (Nat.pos_of_ne_zero hne)] at hlast
  refine ⟨hlast.lt,hlast.lt.trans h.lt_index,hlast.lt.trans h.lt_max,hlast.ends.trans h.ends,
    fun v hp hv hi hends => ?_,h.table,h.fresh,h.found,h.bound⟩
  rcases lt_trichotomy v s.prevLps with hlt | rfl | hgt
  · exact absurd (hlast.longest v hv.le hlt (hends.of_ends h.ends hlt.le)) (not_le.mpr hp)
  · exact hmatch
  · exact h.rejected v hgt hv hi hends

variable [DecidableEq τ] {tokens : List τ}

theorem Searching.step (h : Searching (tokens[·]?) m s) :
    Searching (tokens[·]?) m (s.step tokens m) := by
  rw [Search.step]
  split
  · case isTrue hmatch =>
    refine h.advance (h.longestEnd_succ hmatch) rfl rfl (fun j hj => ?_) (fun hlt => ?_)
      (fun j hj => ?_) ?_
    · dsimp only
      split
      · exact update_of_ne hj.ne _ _
      · rfl
    · simp [hlt]
    · dsimp only
      split
      · rw [update_of_ne hj.ne']
        exact h.fresh j hj.le
      · exact h.fresh j hj.le
    · dsimp only
      split
      · case isTrue hle => exact .inl ⟨rfl,rfl,hle⟩
      · case isFalse hlt => exact .inr ⟨rfl,rfl,.inr (not_le.mp hlt)⟩
  · case isFalse hmatch =>
    split
    · case isTrue hne => exact (h.fallBack hne hmatch).2
    · case isFalse hzero =>
      have hzero := not_not.mp hzero
      refine h.advance (h.longestEnd_zero hzero hmatch) rfl ?_ (fun _ _ => rfl)
        (fun _ => h.fresh _ le_rfl) (fun j hj => h.fresh j hj.le) (.inr ⟨rfl,rfl,.inl rfl⟩)
      rw [if_neg (Nat.zero_lt_of_lt h.lt_max).ne]
      exact hzero

theorem Searching.step_measure (h : Searching (tokens[·]?) m s) :
    2*s.i+(s.step tokens m).prevLps < 2*(s.step tokens m).i+s.prevLps := by
  have hnew := h.step.lt_max
  by_cases hmatch : tokens[s.prevLps]? = tokens[s.i]?
  · by_cases hmax : s.prevLps+1 = m
    · simp only [Search.step, if_pos hmatch, if_pos hmax] at hnew ⊢
      omega
    · simp only [Search.step, if_pos hmatch, if_neg hmax]
      omega
  · by_cases hne : s.prevLps ≠ 0
    · have := (h.fallBack hne hmatch).1
      simp only [Search.step, if_neg hmatch, if_pos hne]
      omega
    · simp only [Search.step, if_neg hmatch, if_neg hne]
      omega

omit [DecidableEq τ] in
theorem searching_init (tokens : List τ) (hm : 0 < m) :
    Searching (tokens[·]?) m ⟨1,0,0,0,fun _ => 0⟩ := by
  have hzero (j : ℕ) (hj : j < 1) : LongestEnd (tokens[·]?) m (j+1) 0 :=
    ⟨Nat.zero_le _,Nat.succ_pos _,ends_zero,fun v _ hv _ => by omega⟩
  refine ⟨Nat.zero_lt_one,hm,ends_zero,fun v hpos _ hv => ?_,fun j _ hj => hzero j hj,fun _ _ => rfl,
    nofun,fun j hj v _ hpos hle => ?_⟩
  · dsimp only at *
    omega
  · dsimp only at hj
    omega

theorem exists_search {fuel : ℕ} (h : Searching (tokens[·]?) m s) (hi : s.i ≤ tokens.length)
    (hfuel : 2*tokens.length+s.prevLps < fuel+2*s.i) : ∃ s', search tokens m fuel s = some s' ∧
      Searching (tokens[·]?) m s' ∧ s'.i = tokens.length := by
  induction fuel generalizing s with
  | zero => omega
  | succ fuel ih =>
    rw [search]
    split
    · case isTrue hlt =>
      have hmeasure := h.step_measure
      have hle : (s.step tokens m).i ≤ s.i+1 := by
        rw [Search.step]
        split_ifs <;> simp
      exact ih h.step (by omega) (by omega)
    · case isFalse hge => exact ⟨s,rfl,h,by omega⟩

omit [DecidableEq τ] in
theorem occursAt_iff {L i : ℕ} (hi : i < tokens.length) (hL : L ≤ i) :
    OccursAt tokens L (tokens.length-1-i) ↔ Ends (tokens.reverse[·]?) L (i+1) := by
  have hrev {x : ℕ} (hx : x < L) : tokens.reverse[x]? = tokens[tokens.length-L+(L-1-x)]? ∧
      tokens.reverse[i+1-L+x]? = tokens[tokens.length-1-i+(L-1-x)]? := by
    rw [List.getElem?_reverse (by omega), List.getElem?_reverse (by omega)]
    constructor <;> congr 1 <;> omega
  constructor
  · intro ⟨_,h⟩
    refine ⟨by omega,fun x hx => ?_⟩
    dsimp only
    rw [(hrev hx).1, (hrev hx).2, h _ (by omega)]
  · intro ⟨_,h⟩
    refine ⟨by omega,fun x hx => ?_⟩
    have heq := h (L-1-x) (by omega)
    dsimp only at heq
    rwa [(hrev (by omega)).1, (hrev (by omega)).2, Nat.sub_sub_self (by omega), eq_comm] at heq

/-- The draft is what follows the earliest occurrence of the longest admissible suffix. -/
theorem propose_longest_match (tokens : List τ) (minNgram maxNgram maxModelLen k : ℕ)
    (hmin : 1 ≤ minNgram) (hmax : minNgram ≤ maxNgram) (hk : 1 ≤ k) :
    ∃ draft, findLongestMatchedNgramAndProposeTokens tokens minNgram maxNgram maxModelLen k =
        some draft ∧
      (maxModelLen ≤ tokens.length ∨
        (∀ L start, minNgram ≤ L → L ≤ maxNgram → ¬OccursAt tokens L start) → draft = []) ∧
      ∀ L start, tokens.length < maxModelLen → minNgram ≤ L → L ≤ maxNgram →
        OccursAt tokens L start →
        (∀ L' start', L < L' → L' ≤ maxNgram → ¬OccursAt tokens L' start') →
        (∀ start' < start, ¬OccursAt tokens L start') →
        draft = (tokens.drop (start+L)).take (min k (maxModelLen-tokens.length)) := by
  by_cases hlen : tokens.length < minNgram
  · refine ⟨[],if_pos hlen,fun _ => rfl,fun L start _ hL _ h => ?_⟩
    have := h.1
    omega
  by_cases hroom : min k (maxModelLen-tokens.length) = 0
  · refine ⟨[],?_,fun _ => rfl,fun L start hlt => by omega⟩
    rw [findLongestMatchedNgramAndProposeTokens, if_neg hlen]
    exact if_pos hroom
  obtain ⟨s,hs,hdone,hi⟩ := exists_search (searching_init tokens.reverse (hmin.trans hmax)) (by simp; omega)
    (show 2*_+0 < 2*tokens.length+1+2*1 by simp; omega)
  rw [List.length_reverse] at hi
  have hfound (hpos : 0 < s.longestNgram) : s.longestNgram ≤ maxNgram ∧ s.position < tokens.length ∧
      OccursAt tokens s.longestNgram (tokens.length-1-s.position) := by
    obtain ⟨hle,hpos,hlt,hends⟩ := hdone.found hpos
    exact ⟨hle,hi ▸ hlt,(occursAt_iff (hi ▸ hlt) hpos).mpr hends⟩
  refine ⟨proposal tokens minNgram (min k (maxModelLen-tokens.length)) s,?_,fun hnone => ?_,
    fun L start hlt hL hLmax hocc hlongest hearliest => ?_⟩
  · rw [findLongestMatchedNgramAndProposeTokens, if_neg hlen]
    dsimp only
    rw [if_neg hroom, hs]
    rfl
  · rcases hnone with hfull | hnone
    · omega
    · refine if_pos (not_le.mp fun hge => ?_)
      obtain ⟨hle,-,hocc⟩ := hfound (by omega)
      exact hnone _ _ hge hle hocc
  · have hend := hocc.1
    have hbound : L < s.longestNgram ∨ L = s.longestNgram ∧ tokens.length-1-start ≤ s.position := by
      refine hdone.bound (tokens.length-1-start) (by omega) L hLmax (by omega) (by omega) ?_
      rw [← occursAt_iff (by omega) (by omega), Nat.sub_sub_self (by omega)]
      exact hocc
    obtain ⟨hle,hposition,hocc'⟩ := hfound (by omega)
    rcases hbound with hshorter | ⟨rfl,hle'⟩
    · exact absurd hocc' (hlongest _ _ hshorter hle)
    · have hstart : ¬tokens.length-1-s.position < start := fun h => hearliest _ h hocc'
      have heq : tokens.length-1-s.position = start := by omega
      rw [proposal, if_neg (by omega), heq, List.take_eq_take_iff, List.length_drop]
      omega

theorem propose_longest_match_repeated :
    findLongestMatchedNgramAndProposeTokens [1,2,3,1,2] 1 2 10 2 = some [3,1] := by
  obtain ⟨draft,hsome,-,hdraft⟩ :=
    propose_longest_match [1,2,3,1,2] 1 2 10 2 (by decide) (by decide) (by decide)
  rw [hsome, hdraft 2 0 (by decide) (by decide) (by decide) ⟨by decide,by decide⟩
    (fun L' _ hlt hle => absurd hlt (not_lt.mpr hle)) (fun _ h => absurd h (Nat.not_lt_zero _))]
  rfl

end MetaZenith.Ngram
