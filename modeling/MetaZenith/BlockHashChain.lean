import MetaZenith.BlockHashing
import MetaZenith.SchedConservation

/-! The block hashes of a request are those of its current tokens, as long as no call drops a
hashed token and no feature but the last one reaches into a block hashed later. -/

namespace MetaZenith.KVCache

open MmFeature List

variable {limit : ℕ} {idx : ℤ} {call : TokenCall}

open MetaZenith.Sched (Request Token StreamingUpdate updateRequestAsSession System sessionModel)

universe u

def MmFeature.overlaps (startTokenIdx endTokenIdx : ℕ) (f : MmFeature) : Bool :=
  decide (f.offset < endTokenIdx ∧ startTokenIdx < f.stop)

def mmKeys (features : List MmFeature) (startTokenIdx endTokenIdx : ℕ) : List ExtraKey :=
  (features.filter (overlaps startTokenIdx endTokenIdx)).map fun f =>
    ExtraKey.mm f.identifier ((f.offset:ℤ)-startTokenIdx)

section Keys

variable {features : List MmFeature} {st en : ℕ}

theorem mmKeys_eq_nil (h : ∀ f ∈ features, f.overlaps st en = false) : mmKeys features st en = [] := by
  rw [mmKeys, filter_eq_nil_iff.mpr fun f hf => by simp [h f hf], map_nil]

theorem mmKeys_append (l l' : List MmFeature) :
    mmKeys (l ++ l') st en = mmKeys l st en ++ mmKeys l' st en := by
  rw [mmKeys, filter_append, map_append]
  rfl

theorem mmKeys_cons (f : MmFeature) : mmKeys (f :: features) st en = (if f.overlaps st en then
      [ExtraKey.mm f.identifier ((f.offset:ℤ)-st)] else []) ++ mmKeys features st en := by
  rw [mmKeys, filter_cons]
  split <;> rfl

/-- On sorted features the loop finds every key, and passes only features that end in time. -/
theorem genMmLoop_spec (hd : Disjoint features) (hse : st ≤ en) :
    (genMmLoop st en features).1 = mmKeys features st en ∧
      ∀ f ∈ features.take (genMmLoop st en features).2, f.stop ≤ en := by
  induction features with
  | nil => exact ⟨rfl,by simp [genMmLoop]⟩
  | cons f features ih =>
    obtain ⟨hf,hd⟩ := pairwise_cons.mp hd
    obtain ⟨hkeys,hpassed⟩ := ih hd
    -- the features behind `f` start where it ends, or later
    have hnone (hstop : en ≤ f.stop) : mmKeys features st en = [] :=
      mmKeys_eq_nil fun g hg => by
        have := hf g hg
        simp only [overlaps, decide_eq_false_iff_not]
        omega
    rw [genMmLoop, mmKeys_cons]
    by_cases hreach : f.offset < en
    · rw [if_pos hreach]
      by_cases hpast : f.stop ≤ st
      · have hov : f.overlaps st en = false := by simp [overlaps, hpast]
        simp only [if_pos hpast, hov, Bool.false_eq_true, if_false, nil_append]
        refine ⟨hkeys,fun g hg => ?_⟩
        rcases mem_cons.mp hg with rfl | hg
        · omega
        · exact hpassed g hg
      · have hov : f.overlaps st en = true := by simp [overlaps, hreach, not_le.mp hpast]
        simp only [if_neg hpast, hov, if_true]
        by_cases hstop : f.stop ≤ en
        · simp only [if_pos hstop, hkeys]
          refine ⟨rfl,fun g hg => ?_⟩
          rcases mem_cons.mp hg with rfl | hg
          · exact hstop
          · exact hpassed g hg
        · simp only [if_neg hstop, hnone (by omega), append_nil]
          simp
    · have hov : f.overlaps st en = false := by simp [overlaps, hreach]
      have hstop : en ≤ f.stop := by
        rw [stop]
        omega
      simp only [if_neg hreach, hov, Bool.false_eq_true, if_false, hnone hstop, append_nil]
      simp

def before (features : List MmFeature) (idx : ℤ) : List MmFeature :=
  features.take (if idx < 0 then features.length+idx else idx).toNat

def Skippable (features : List MmFeature) (limit st : ℕ) (idx : ℤ) : Prop :=
  ∀ f ∈ before features idx, f.stop ≤ st ∨ limit ≤ f.offset

theorem Skippable.mono (h : Skippable features limit st idx) (hse : st ≤ en) :
    Skippable features limit en idx :=
  fun f hf => (h f hf).imp_left fun hle => hle.trans hse

theorem genMmExtraHashKeys_spec (hd : Disjoint features) (h : Skippable features limit st idx)
    (hidx : -1 ≤ idx) (hse : st ≤ en) (hlim : en ≤ limit) :
    (genMmExtraHashKeys features st en idx).1 = mmKeys features st en ∧
      Skippable features limit en (genMmExtraHashKeys features st en idx).2 ∧
      -1 ≤ (genMmExtraHashKeys features st en idx).2 := by
  rw [genMmExtraHashKeys]
  cases hlast : features.getLast? with
  | none =>
    rw [getLast?_eq_none_iff] at hlast
    exact ⟨by simp [hlast, mmKeys],h.mono hse,hidx⟩
  | some last =>
    have hsplit := dropLast_append_getLast? last hlast
    simp only
    split
    · rename_i hpast
      refine ⟨(mmKeys_eq_nil fun f hf => ?_).symm,h.mono hse,hidx⟩
      -- the last feature ends last
      have hstop : f.stop ≤ last.stop := by
        rw [← hsplit] at hf hd
        rcases mem_append.mp hf with hf | hf
        · have := (pairwise_append.mp hd).2.2 f hf last (by simp)
          rw [stop] at this ⊢
          rw [stop]
          omega
        · rw [mem_singleton.mp hf]
      simp only [overlaps, decide_eq_false_iff_not]
      omega
    · have hlen : 1 ≤ features.length := by
        rw [← hsplit]
        simp
      set k := (if idx < 0 then features.length+idx else idx) with hk
      have hk0 : 0 ≤ k := by
        rw [hk]
        split <;> omega
      have hdrop : Disjoint (features.drop k.toNat) := hd.sublist (drop_sublist _ _)
      have hskip : mmKeys (features.take k.toNat) st en = [] := mmKeys_eq_nil fun f hf => by
        have := h f hf
        simp only [overlaps, decide_eq_false_iff_not]
        omega
      obtain ⟨hkeys,hpassed⟩ := genMmLoop_spec hdrop hse
      set m := (genMmLoop st en (features.drop k.toNat)).2 with hm
      refine ⟨?_,?_,by omega⟩
      · rw [hkeys]
        conv_rhs => rw [← take_append_drop k.toNat features, mmKeys_append]
        rw [hskip, nil_append]
      · intro f hf
        rw [before, if_neg (by omega), show (k+m).toNat = k.toNat+m by omega, take_add] at hf
        rcases mem_append.mp hf with hf | hf
        · exact (h.mono hse) f hf
        · exact .inl (hpassed f hf)

end Keys

section Chain

variable {H : Type u} (fn : HashFunction H) (hashBlockSize : ℕ)

def blockKeys (r : HashedRequest H) (st en : ℕ) : Option (List ExtraKey) :=
  let extraKeys := r.loraName.toList.map ExtraKey.lora ++ mmKeys r.mmFeatures st en ++
    (if st = 0 then r.cacheSalt.toList.map ExtraKey.salt else []) ++
    r.promptEmbedsHash.toList.map fun hash => ExtraKey.embeds (hash st en)
  if extraKeys.isEmpty then none else some extraKeys

def hashChain (r : HashedRequest H) : ℕ → Option H → ℕ → List H
  | 0, _, _ => []
  | n+1, prev, st =>
    let h := hashBlockTokens fn prev (blockTokens hashBlockSize r st)
      (blockKeys r st (st+hashBlockSize))
    h :: hashChain r n (some h) (st+hashBlockSize)

variable {hashBlockSize} {r r' : HashedRequest H}

theorem hasherLoop_eq_hashChain (hd : Disjoint r.mmFeatures) (n : ℕ) (prev : Option H) {st : ℕ}
    (hskip : Skippable r.mmFeatures limit st idx) (hidx : -1 ≤ idx)
    (hlim : st+n*hashBlockSize ≤ limit) :
    hasherLoop fn hashBlockSize r n prev idx st = hashChain fn hashBlockSize r n prev st := by
  induction n generalizing prev idx st with
  | zero => rfl
  | succ n ih =>
    rw [Nat.succ_mul] at hlim
    obtain ⟨hkeys,hskip',hidx'⟩ := genMmExtraHashKeys_spec hd hskip hidx
      (Nat.le_add_right st hashBlockSize) (by omega)
    have hextra : (generateBlockHashExtraKeys r st (st+hashBlockSize) idx).1 =
        blockKeys r st (st+hashBlockSize) := by
      simp [generateBlockHashExtraKeys, blockKeys, hkeys]
    rw [hasherLoop, hashChain]
    simp only [hextra]
    congr 1
    exact ih _ hskip' hidx' (by omega)

theorem hashChain_length (n : ℕ) (prev : Option H) (st : ℕ) :
    (hashChain fn hashBlockSize r n prev st).length = n := by
  induction n generalizing prev st with
  | zero => rfl
  | succ n ih => rw [hashChain, length_cons, ih]

theorem hashChain_add (m n : ℕ) (prev : Option H) (st : ℕ) :
    hashChain fn hashBlockSize r (m+n) prev st = hashChain fn hashBlockSize r m prev st ++
      hashChain fn hashBlockSize r n ((hashChain fn hashBlockSize r m prev st).getLast?.or prev)
        (st+m*hashBlockSize) := by
  induction m generalizing prev st with
  | zero => simp [hashChain]
  | succ m ih =>
    rw [Nat.succ_add, hashChain, hashChain, cons_append, ih]
    congr 3
    · rw [getLast?_cons]
      cases (hashChain fn hashBlockSize r m _ _).getLast? <;> rfl
    · rw [Nat.succ_mul]
      omega

theorem hashChain_congr (n : ℕ) (prev : Option H) (st : ℕ)
    (h : ∀ i < n, blockTokens hashBlockSize r (st+i*hashBlockSize) =
        blockTokens hashBlockSize r' (st+i*hashBlockSize) ∧
      blockKeys r (st+i*hashBlockSize) (st+i*hashBlockSize+hashBlockSize) =
        blockKeys r' (st+i*hashBlockSize) (st+i*hashBlockSize+hashBlockSize)) :
    hashChain fn hashBlockSize r n prev st = hashChain fn hashBlockSize r' n prev st := by
  induction n generalizing prev st with
  | zero => rfl
  | succ n ih =>
    have h0 := h 0 (Nat.succ_pos n)
    simp only [Nat.zero_mul, Nat.add_zero] at h0
    rw [hashChain, hashChain, h0.1, h0.2]
    congr 1
    refine ih _ _ fun i hi => ?_
    have hstep := h (i+1) (Nat.succ_lt_succ hi)
    rwa [Nat.succ_mul, show st+(i*hashBlockSize+hashBlockSize) =
      st+hashBlockSize+i*hashBlockSize by omega] at hstep

def fullChain (hashBlockSize : ℕ) (r : HashedRequest H) : List H :=
  hashChain fn hashBlockSize r (r.request.allTokenIds.length/hashBlockSize) none 0

theorem fullChain_blockHashes (r : HashedRequest H) (hashes : List H) :
    fullChain fn hashBlockSize { r with blockHashes := hashes } = fullChain fn hashBlockSize r :=
  hashChain_congr fn _ _ _ fun _ _ => ⟨rfl,rfl⟩

def OnlyLastReaches (hashBlockSize : ℕ) (r : HashedRequest H) : Prop :=
  r.blockHashes = [] ∨ ∀ f ∈ r.mmFeatures.dropLast, f.stop ≤ r.blockHashes.length*hashBlockSize ∨
    r.request.allTokenIds.length/hashBlockSize*hashBlockSize ≤ f.offset

theorem OnlyLastReaches.skippable (h : OnlyLastReaches hashBlockSize r) :
    Skippable r.mmFeatures (r.request.allTokenIds.length/hashBlockSize*hashBlockSize)
      (r.blockHashes.length*hashBlockSize)
      (if 0 < r.blockHashes.length*hashBlockSize then -1 else 0) := by
  intro f hf
  split at hf
  · rename_i hpos
    rcases h with hnil | h
    · simp [hnil] at hpos
    · refine h f ?_
      rw [before, if_pos (by omega)] at hf
      rw [dropLast_eq_take]
      convert hf using 2
      omega
  · simp [before] at hf

theorem updateBlockHashes_eq_fullChain (hpos : 0 < hashBlockSize) (hd : Disjoint r.mmFeatures)
    {m : ℕ} (hm : m*hashBlockSize ≤ r.request.allTokenIds.length)
    (hold : r.blockHashes = hashChain fn hashBlockSize r m none 0)
    (hlast : OnlyLastReaches hashBlockSize r) :
    (updateBlockHashes fn hashBlockSize r).blockHashes = fullChain fn hashBlockSize r := by
  have hlen : r.blockHashes.length = m := by rw [hold, hashChain_length]
  have hmn : m ≤ r.request.allTokenIds.length/hashBlockSize := (Nat.le_div_iff_mul_le hpos).mpr hm
  have hcount : (r.request.allTokenIds.length-m*hashBlockSize)/hashBlockSize =
      r.request.allTokenIds.length/hashBlockSize-m := by
    rw [Nat.mul_comm, Nat.sub_mul_div]
  have hskip := hlast.skippable
  rw [hlen] at hskip
  have hloop : requestBlockHasher fn hashBlockSize r = hashChain fn hashBlockSize r
      (r.request.allTokenIds.length/hashBlockSize-m) r.blockHashes.getLast? (m*hashBlockSize) := by
    rw [requestBlockHasher]
    simp only [hlen, hcount]
    refine hasherLoop_eq_hashChain fn hd _ _ hskip (by split <;> omega) ?_
    rw [← Nat.add_mul, Nat.add_sub_cancel' hmn]
  show r.blockHashes ++ requestBlockHasher fn hashBlockSize r = _
  rw [hloop, hold, fullChain]
  conv_rhs => rw [← Nat.add_sub_cancel' hmn, hashChain_add]
  simp

theorem hashesFromScratch_eq (hpos : 0 < hashBlockSize) (hd : Disjoint r.mmFeatures) :
    hashesFromScratch fn hashBlockSize r = fullChain fn hashBlockSize r := by
  let bare : HashedRequest H := { r with blockHashes := [] }
  have hupdate : (updateBlockHashes fn hashBlockSize bare).blockHashes =
      fullChain fn hashBlockSize bare := by
    refine updateBlockHashes_eq_fullChain fn hpos hd (m := 0) ?_ rfl (.inl rfl)
    rw [Nat.zero_mul]
    exact Nat.zero_le _
  rw [← fullChain_blockHashes fn r [], ← hupdate]
  rfl

end Chain

section Calls

variable {H : Type u} (fn : HashFunction H) {hashBlockSize : ℕ} {r : HashedRequest H}

def TokenCall.apply (r : HashedRequest H) : TokenCall → HashedRequest H
  | .append tokens => { r with request := tokens.foldl Request.appendOutputTokenId r.request }
  | .update numComputedTokens u features =>
    { r with
      request := updateRequestAsSession { r.request with numComputedTokens := numComputedTokens } u
      mmFeatures := r.mmFeatures ++ features.map
        (shift (r.request.allTokenIds.take numComputedTokens).length) }

theorem step_eq (call : TokenCall) : r.step fn hashBlockSize call =
    some (updateBlockHashes fn hashBlockSize (call.apply r)) := by
  cases call <;> rfl

def TokenCall.KeepsHashed (hashBlockSize : ℕ) (r : HashedRequest H) : TokenCall → Prop
  | .append _ => True
  | .update numComputedTokens _ features => Disjoint features ∧
    r.blockHashes.length*hashBlockSize ≤ (r.request.allTokenIds.take numComputedTokens).length ∧
    ∀ f ∈ r.mmFeatures, f.stop ≤ (r.request.allTokenIds.take numComputedTokens).length

def TokenCall.Proper (hashBlockSize : ℕ) (r : HashedRequest H) (call : TokenCall) : Prop :=
  call.KeepsHashed hashBlockSize r ∧ OnlyLastReaches hashBlockSize (call.apply r)

theorem foldl_append_tokens (tokens : List Token) (q : Request) :
    (tokens.foldl Request.appendOutputTokenId q).allTokenIds = q.allTokenIds ++ tokens := by
  induction tokens generalizing q with
  | nil => simp
  | cons t tokens ih =>
    rw [foldl_cons, ih]
    simp [Request.appendOutputTokenId]

theorem TokenCall.KeepsHashed.apply (h : call.KeepsHashed hashBlockSize r) (hd : Disjoint r.mmFeatures)
    (hlen : r.blockHashes.length*hashBlockSize ≤ r.request.allTokenIds.length) :
    Disjoint (call.apply r).mmFeatures ∧ (∃ rest, (call.apply r).request.allTokenIds =
        r.request.allTokenIds.take (r.blockHashes.length*hashBlockSize) ++ rest) ∧
      ∃ more, (call.apply r).mmFeatures = r.mmFeatures ++ more ∧
        ∀ f ∈ more, r.blockHashes.length*hashBlockSize ≤ f.offset := by
  cases call with
  | append tokens =>
    refine ⟨hd,⟨r.request.allTokenIds.drop (r.blockHashes.length*hashBlockSize) ++ tokens,?_⟩,
      [],by simp [TokenCall.apply],by simp⟩
    rw [← append_assoc, take_append_drop]
    exact foldl_append_tokens tokens r.request
  | update numComputedTokens u features =>
    obtain ⟨hfeatures,hkept,hstop⟩ := h
    set kept := r.request.allTokenIds.take numComputedTokens with hkeptdef
    refine ⟨?_,⟨kept.drop (r.blockHashes.length*hashBlockSize) ++ u.promptTokenIds,?_⟩,
      features.map (shift kept.length),rfl,?_⟩
    · refine pairwise_append.mpr ⟨hd,pairwise_map.mpr (hfeatures.imp ?_),?_⟩
      · intro f g hfg
        simp only [stop, shift] at hfg ⊢
        omega
      · intro f hf g hg
        obtain ⟨g',-,rfl⟩ := mem_map.mp hg
        have := hstop f hf
        simp only [shift, ← hkeptdef]
        omega
    · have hhead : r.request.allTokenIds.take (r.blockHashes.length*hashBlockSize) =
          kept.take (r.blockHashes.length*hashBlockSize) := by
        rw [hkeptdef, take_take, min_eq_left]
        rw [hkeptdef, length_take] at hkept
        omega
      rw [hhead, ← append_assoc, take_append_drop]
      rfl
    · intro f hf
      obtain ⟨g,-,rfl⟩ := mem_map.mp hf
      simp only [shift]
      omega

/-- The blocks below `n` see neither new tokens nor new features. -/
theorem hashChain_apply {n : ℕ} {rest : List Token} {more : List MmFeature}
    (htokens : (call.apply r).request.allTokenIds =
      r.request.allTokenIds.take (n*hashBlockSize) ++ rest)
    (hlen : n*hashBlockSize ≤ r.request.allTokenIds.length)
    (hfeatures : (call.apply r).mmFeatures = r.mmFeatures ++ more)
    (hmore : ∀ f ∈ more, n*hashBlockSize ≤ f.offset) :
    hashChain fn hashBlockSize r n none 0 = hashChain fn hashBlockSize (call.apply r) n none 0 := by
  refine hashChain_congr fn n none 0 fun i hi => ?_
  have hblock : 0+i*hashBlockSize+hashBlockSize ≤ n*hashBlockSize := by
    have := Nat.mul_le_mul_right hashBlockSize (Nat.succ_le_of_lt hi)
    rw [Nat.succ_mul] at this
    omega
  have htake (l : List Token) : (l.drop (0+i*hashBlockSize)).take hashBlockSize =
      ((l.take (n*hashBlockSize)).drop (0+i*hashBlockSize)).take hashBlockSize := by
    rw [drop_take, take_take, min_eq_left]
    omega
  have hself : (call.apply r).request.allTokenIds.take (n*hashBlockSize) =
      r.request.allTokenIds.take (n*hashBlockSize) := by
    rw [htokens, take_append_of_le_length (by simp [hlen]), take_take, min_self]
  constructor
  · rw [blockTokens, blockTokens, htake, htake (call.apply r).request.allTokenIds, hself]
  · have hnone : mmKeys more (0+i*hashBlockSize) (0+i*hashBlockSize+hashBlockSize) = [] :=
      mmKeys_eq_nil fun f hf => by
        have := hmore f hf
        simp only [overlaps, decide_eq_false_iff_not]
        omega
    have hmm : mmKeys (call.apply r).mmFeatures (0+i*hashBlockSize)
        (0+i*hashBlockSize+hashBlockSize) = mmKeys r.mmFeatures (0+i*hashBlockSize)
        (0+i*hashBlockSize+hashBlockSize) := by
      rw [hfeatures, mmKeys_append, hnone, append_nil]
    have hrest : (call.apply r).loraName = r.loraName ∧ (call.apply r).cacheSalt = r.cacheSalt ∧
        (call.apply r).promptEmbedsHash = r.promptEmbedsHash := by
      cases call <;> exact ⟨rfl,rfl,rfl⟩
    simp only [blockKeys, hmm, hrest.1, hrest.2.1, hrest.2.2]

structure Current (hashBlockSize : ℕ) (r : HashedRequest H) : Prop where
  features : Disjoint r.mmFeatures
  hashes : r.blockHashes = fullChain fn hashBlockSize r

theorem Current.step (hpos : 0 < hashBlockSize) {r' : HashedRequest H}
    (hc : Current fn hashBlockSize r) (hproper : call.Proper hashBlockSize r)
    (h : r.step fn hashBlockSize call = some r') : Current fn hashBlockSize r' := by
  rw [step_eq] at h
  cases h
  have hlen : r.blockHashes.length = r.request.allTokenIds.length/hashBlockSize := by
    rw [hc.hashes, fullChain, hashChain_length]
  have hle : r.blockHashes.length*hashBlockSize ≤ r.request.allTokenIds.length := by
    rw [hlen]
    exact Nat.div_mul_le_self _ _
  obtain ⟨hd,⟨rest,htokens⟩,more,hfeatures,hmore⟩ := hproper.1.apply hc.features hle
  have hsame : (call.apply r).blockHashes = r.blockHashes := by
    cases call <;> rfl
  have hchain : (call.apply r).blockHashes =
      hashChain fn hashBlockSize (call.apply r) r.blockHashes.length none 0 := by
    rw [hsame, ← hashChain_apply fn htokens hle hfeatures hmore]
    conv_lhs => rw [hc.hashes, fullChain, ← hlen]
  have hfit : r.blockHashes.length*hashBlockSize ≤ (call.apply r).request.allTokenIds.length := by
    rw [htokens, length_append, length_take]
    omega
  refine ⟨hd,?_⟩
  rw [updateBlockHashes_eq_fullChain fn hpos hd hfit hchain hproper.2]
  exact (fullChain_blockHashes fn (call.apply r) _).symm

theorem current_init (hpos : 0 < hashBlockSize) (hd : Disjoint r.mmFeatures) :
    Current fn hashBlockSize (r.init fn hashBlockSize) := by
  refine ⟨hd,?_⟩
  have hscratch : (r.init fn hashBlockSize).blockHashes = hashesFromScratch fn hashBlockSize r := rfl
  rw [hscratch, hashesFromScratch_eq fn hpos hd]
  exact (fullChain_blockHashes fn r _).symm

/-- In every run of proper calls the hashes are those the hasher produces from scratch. -/
theorem block_hashes_eq_from_scratch (hpos : 0 < hashBlockSize) (r₀ : HashedRequest H)
    (hd : Disjoint r₀.mmFeatures)
    (h : Reachable (HashedRequest.step fn hashBlockSize)
      (fun r call _ => call.Proper hashBlockSize r) (r₀.init fn hashBlockSize) r) :
    r.blockHashes = hashesFromScratch fn hashBlockSize r := by
  have hc : Current fn hashBlockSize r := by
    refine h.invariant (P := Current fn hashBlockSize) (current_init fn hpos hd) ?_
    intro s call s' hs hstep hproper
    exact hs.step fn hpos hproper hstep
  rw [hashesFromScratch_eq fn hpos hc.features]
  exact hc.hashes

instance [DecidableEq H] (r : HashedRequest H) : Decidable (OnlyLastReaches hashBlockSize r) :=
  inferInstanceAs (Decidable (_ ∨ _))

instance (r : HashedRequest H) (call : TokenCall) : Decidable (call.KeepsHashed hashBlockSize r) :=
  match call with
  | .append _ => inferInstanceAs (Decidable True)
  | .update _ _ _ => inferInstanceAs (Decidable (_ ∧ _))

instance [DecidableEq H] (r : HashedRequest H) (call : TokenCall) :
    Decidable (call.Proper hashBlockSize r) := inferInstanceAs (Decidable (_ ∧ _))

end Calls

def transparentHash : HashFunction (List (List Token × Option (List ExtraKey))) where
  hash parent tokens extraKeys := parent ++ [(tokens,extraKeys)]
  noneHash := []

def nextInput (tokens : List Token) : StreamingUpdate := ⟨tokens,false,0,{}⟩

/-- A session with an image in each of its two inputs; its last sampled token is dropped, but
was in no full block. -/
theorem block_hashes_eq_from_scratch_session :
    ∃ r : HashedRequest (List (List Token × Option (List ExtraKey))),
      r.request.allTokenIds = [1,2,3,4,7,8,9] ∧ r.blockHashes.length = 3 ∧
        r.blockHashes = hashesFromScratch transparentHash 2 r := by
  let r₀ : HashedRequest (List (List Token × Option (List ExtraKey))) :=
    { request := { requestId := 0, promptTokenIds := [1,2,3,4], maxTokens := 4 }
      mmFeatures := [⟨1,0,2⟩] }
  obtain ⟨r,hr,hp⟩ := Reachable.exists_of_runGuarded (HashedRequest.step transparentHash 2)
    (fun r call _ h => show TokenCall.Proper 2 r call from of_decide_eq_true h)
    (r₀.init transparentHash 2) [.append [5],.update 4 (nextInput [7,8,9]) [⟨2,0,1⟩]]
    (fun r => r.request.allTokenIds == [1,2,3,4,7,8,9] && r.blockHashes.length == 3)
    (by decide +kernel)
  obtain ⟨htokens,hlen⟩ := Bool.and_eq_true_iff.mp hp
  exact ⟨r,beq_iff_eq.mp htokens,beq_iff_eq.mp hlen,
    block_hashes_eq_from_scratch transparentHash (by decide) r₀ (by decide) hr⟩

/-- The scheduler reaches a session with four tokens of which three are computed. Its next input
replaces the fourth token, but the hash of the block that token has completed stays. A block that
two features reach into, and that sampled tokens complete, is hashed with the last feature only. -/
theorem stale_hash_after_session_update :
    (∃ s : System, Reachable (System.step sessionModel) (fun _ _ _ => True) {} s ∧
      ∃ q, s.sched.requests 0 = some q ∧ q.status = .waitingForStreamingReq ∧
        q.numComputedTokens = 3 ∧ q.allTokenIds = [1,2,3,7]) ∧
    (∃ r r' : HashedRequest (List (List Token × Option (List ExtraKey))),
      HashedRequest.step transparentHash 4 (HashedRequest.init transparentHash 4
        { request := { requestId := 0, promptTokenIds := [1,2,3], maxTokens := 8 } })
        (.append [7]) = some r ∧
      r.step transparentHash 4 (.update 3 (nextInput [8,9]) []) = some r' ∧
      r'.blockHashes = [[([1,2,3,7],none)]] ∧
      hashesFromScratch transparentHash 4 r' = [[([1,2,3,8],none)]]) ∧
    ∃ r : HashedRequest (List (List Token × Option (List ExtraKey))),
      HashedRequest.step transparentHash 4 (HashedRequest.init transparentHash 4
        { request := { requestId := 0, promptTokenIds := [1,2,3,4,0,0], maxTokens := 8 }
          mmFeatures := [⟨1,4,1⟩,⟨2,5,1⟩] }) (.append [7,8]) = some r ∧
      r.blockHashes ≠ hashesFromScratch transparentHash 4 r := by
  refine ⟨?_,⟨_,_,rfl,rfl,by decide +kernel,by decide +kernel⟩,⟨_,rfl,by decide +kernel⟩⟩
  have hcheck : ∀ (s : System) (e : Sched.Event) (s' : System), true = true → True :=
    fun _ _ _ _ => trivial
  obtain ⟨s,hs,hp⟩ := Reachable.exists_of_runGuarded (System.step sessionModel) hcheck {}
    [.addRequest { requestId := 0, promptTokenIds := [1,2,3], maxTokens := 8
                   samplingParams := { stopTokenIds := [7] }, resumable := true },.schedule {},
      .updateFromOutput { sampledTokenIds := fun _ => [7] }]
    (fun s => (s.sched.requests 0).any fun q : Request =>
      decide (q.status = .waitingForStreamingReq ∧ q.numComputedTokens = 3 ∧
        q.allTokenIds = [1,2,3,7])) (by decide +kernel)
  obtain ⟨q,hq,hq'⟩ := (Option.any_eq_true ..).mp hp
  exact ⟨s,hs,q,hq,of_decide_eq_true hq'⟩

end MetaZenith.KVCache
