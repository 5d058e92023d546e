import MetaZenith.InputBatchIntegrity

/-! Runs of the persistent batch: removals, then additions, then `condense`, then exchanges of
rows, then `refresh_metadata`, with changes through a request's own index in between. -/

namespace MetaZenith

open List Option Function

inductive BatchPhase
  | removing
  | filling
  | settled
  deriving DecidableEq, Repr

/-- The batch beside the rows its requests are entitled to: what they set when they were added,
with the changes made through their own index since. -/
structure BatchRun where
  batch : InputBatch
  rows : BatchReqId → Option BatchRow
  phase : BatchPhase

inductive BatchOp
  | removeRequest (reqId : BatchReqId)
  | addRequest (req : CachedRequestState)
  | updateReqSpecTokenIds (reqId : BatchReqId) (specTokenIds : List ℤ)
  /-- Any other change through the index of a request, with the batch it leads to. -/
  | write (reqId : BatchReqId) (batch : InputBatch)
  | condense
  | swapStates (i₁ i₂ : ℕ)
  | refreshMetadata

variable {op : BatchOp}

namespace BatchRun

open InputBatch

def entitled (cfg : BatchConfig) (b : InputBatch) (req : CachedRequestState) : BatchRow :=
  rowOf cfg b.blockTables req
    ((lengthFromPromptTokenIdsOrEmbeds req.promptTokenIds req.promptEmbeds).getD 0)

def step (cfg : BatchConfig) (s : BatchRun) : BatchOp → Option BatchRun
  | .removeRequest reqId =>
    if s.phase = .removing then
      (removeRequest cfg s.batch reqId).map fun b =>
        { s with batch := b, rows := update s.rows reqId none }
    else none
  | .addRequest req =>
    if s.phase = .settled then none
    else (addRequest cfg s.batch req).map fun b =>
      { batch := b
        rows := update s.rows req.reqId (some (entitled cfg s.batch req))
        phase := .filling }
  | .updateReqSpecTokenIds reqId ids =>
    (updateReqSpecTokenIds cfg s.batch reqId ids).map fun b =>
      { s with batch := b, rows := update s.rows reqId ((s.rows reqId).map (withSpec ids)) }
  | .write reqId b =>
    (s.batch.reqIdToIndex.lookup reqId).map fun i =>
      { s with batch := b, rows := update s.rows reqId (some (b.row cfg i)) }
  | .condense =>
    if s.phase = .settled then none
    else (condense cfg s.batch).map fun b => { s with batch := b, phase := .settled }
  | .swapStates i₁ i₂ =>
    if s.phase = .settled then (swapStates cfg s.batch i₁ i₂).map fun b => { s with batch := b }
    else none
  | .refreshMetadata =>
    if s.phase = .settled then some { s with batch := s.batch.refreshMetadata, phase := .removing }
    else none

def start (cfg : BatchConfig) (tables : List BlockTable) (junk : ℕ → ℚ) (junkK : ℕ → ℤ) :
    BatchRun where
  batch := InputBatch.init cfg tables junk junkK
  rows := fun _ => none
  phase := .removing

/-- How the runner calls the batch: a request is added once and has the parameters its model needs,
and a write goes through the request's own index. -/
def Contract (cfg : BatchConfig) (s : BatchRun) : BatchOp → Prop
  | .addRequest req => s.batch.reqIdToIndex.lookup req.reqId = none ∧
      (cfg.isPoolingModel = false → req.samplingParams.isSome)
  | .write reqId b => ∀ i, s.batch.reqIdToIndex.lookup reqId = some i → OnlyRow cfg i s.batch b
  | _ => True

/-- No mask goes astray: a request without allowed tokens gets a row whose mask is clear, and only
rows with equal masks are exchanged. -/
def MaskKept (cfg : BatchConfig) (s : BatchRun) : BatchOp → Prop
  | .addRequest req => cfg.isPoolingModel = false → ∀ p, req.samplingParams = some p →
      p.allowedTokenIds = [] → s.batch.maskAt cfg s.batch.registerAddRequest.1 = clearMask cfg
  | .swapStates i₁ i₂ => cfg.isPoolingModel = false →
      s.batch.maskAt cfg i₁ = s.batch.maskAt cfg i₂
  | _ => True

/-- After a step the occupied rows are `0..num_reqs-1`; at any time `req_id_to_index` is the
inverse of the row list and each request finds the row it is entitled to at its index. -/
structure Sound (cfg : BatchConfig) (s : BatchRun) : Prop where
  packed : s.phase = .settled → s.batch.reqIds.length = s.batch.numReqs ∧
    ∀ i < s.batch.numReqs, ∃ id, s.batch.reqIds[i]? = some (some id)
  inverse : InverseOf s.batch.reqIdToIndex s.batch.reqIds
  own : ∀ id, s.rows id = (s.batch.reqIdToIndex.lookup id).map (s.batch.row cfg)

structure Invariant (cfg : BatchConfig) (s : BatchRun) : Prop where
  placed : Placed cfg s.batch s.rows
  unsorted : s.phase = .removing → s.batch.isRemovedSorted = false
  opened : s.phase ≠ .settled → Open s.batch
  packed : s.phase = .settled → Packed s.batch

variable {cfg : BatchConfig} {s s' : BatchRun}

theorem Invariant.start (cfg : BatchConfig) (tables : List BlockTable) (junk : ℕ → ℚ)
    (junkK : ℕ → ℤ) : Invariant cfg (start cfg tables junk junkK) := by
  have hnone : ∀ (i : ℕ) (x : Option BatchReqId), (BatchRun.start cfg tables junk
      junkK).batch.reqIds[i]? ≠ some x := by
    intro i x hx
    cases hx
  refine ⟨⟨InverseOf.empty, rfl, Nat.zero_le _, ?_, fun _ _ _ => ⟨rfl, rfl⟩, ?_, fun _ _ => rfl⟩,
    fun _ => rfl, fun _ => ⟨⟨?_, nodup_nil⟩, ?_⟩, ?_⟩
  · intro i _
    simp [specAt, BatchRun.start, InputBatch.init, getElem?_replicate]
    split <;> rfl
  · intro id i hi
    exact absurd hi (hnone i _)
  · intro i
    exact iff_of_false (not_mem_nil) (hnone i _)
  · intro hflag
    cases hflag
  · intro hphase
    cases hphase

theorem Invariant.sound (h : Invariant cfg s) : Sound cfg s := by
  refine ⟨fun hphase => ?_, h.placed.index, fun id => ?_⟩
  · have hpacked := h.packed hphase
    have hlen : s.batch.reqIds.length = s.batch.numReqs := by
      unfold InputBatch.numReqs
      rw [h.placed.index.length_keys, eq_comm, countP_eq_length]
      intro x hx
      obtain ⟨i,hi⟩ := mem_iff_getElem?.mp hx
      obtain ⟨id,hid⟩ := hpacked i (List.getElem?_eq_some_iff.mp hi).1
      rw [← Option.some.inj (hid.symm.trans hi)]
      rfl
    exact ⟨hlen, fun i hi => hpacked i (hlen ▸ hi)⟩
  · cases hid : s.batch.reqIdToIndex.lookup id with
    | none => exact h.placed.absent id hid
    | some i => exact h.placed.own id i ((h.placed.index id i).mp hid)

theorem Invariant.update_own (h : Invariant cfg s) {reqId : BatchReqId} {i : ℕ} {b : InputBatch}
    (hi : s.batch.reqIds[i]? = some (some reqId)) (hu : OnlyRow cfg i s.batch b) : Invariant cfg
      { s with batch := b, rows := update s.rows reqId (some (b.row cfg i)) } := by
  have hids : b.reqIds = s.batch.reqIds := congrArg Books.reqIds hu.books
  have hremoved : b.removed = s.batch.removed := congrArg Books.removed hu.books
  have hflag : b.isRemovedSorted = s.batch.isRemovedSorted :=
    congrArg Books.isRemovedSorted hu.books
  refine ⟨h.placed.update hi hu, fun hp => hflag.trans (h.unsorted hp), fun hp => ?_, fun hp => ?_⟩
  · obtain ⟨hholes,hsorted⟩ := h.opened hp
    exact ⟨by rwa [hremoved, hids], by rwa [hremoved, hflag]⟩
  · have hpacked := h.packed hp
    unfold Packed at hpacked ⊢
    rwa [hids]

/-- Every operation called as the runner calls it keeps the invariant when no mask goes astray. -/
theorem Invariant.step (h : Invariant cfg s) (hs : step cfg s op = some s')
    (hc : Contract cfg s op) (hm : MaskKept cfg s op) : Invariant cfg s' := by
  cases op with
  | removeRequest reqId =>
    obtain ⟨hphase,hs⟩ := ite_none_right_eq_some.mp hs
    obtain ⟨b,hb,rfl⟩ := map_eq_some_iff.mp hs
    have hopen := h.opened (by simp [hphase])
    cases hi : s.batch.reqIdToIndex.lookup reqId with
    | none =>
      simp only [removeRequest, hi, Option.some.injEq] at hb
      subst hb
      have hrows : update s.rows reqId none = s.rows := by
        rw [← h.placed.absent reqId hi]
        exact update_eq_self reqId s.rows
      simp only [hrows]
      exact h
    | some i =>
      rw [removeRequest_eq hi (h.unsorted hphase), Option.some.injEq] at hb
      subst hb
      have hrow := (h.placed.index reqId i).mp hi
      refine ⟨h.placed.vacate hrow, fun _ => ?_, fun _ => hopen.vacate hrow (h.unsorted hphase),
        fun hset => ?_⟩
      · exact (congrArg Books.isRemovedSorted (vacate_books ..)).trans (h.unsorted hphase)
      · rw [hphase] at hset
        cases hset
  | addRequest req =>
    obtain ⟨hphase,hs⟩ := ite_none_left_eq_some.mp hs
    obtain ⟨b,hb,rfl⟩ := map_eq_some_iff.mp hs
    have hopen := h.opened hphase
    obtain ⟨i,n,b₀,ha⟩ := exists_added hb
    have hi : s.batch.registerAddRequest.1 = i := congrArg Prod.fst ha.chosen
    have hrow := (ha.row_iff hopen h.placed hc.2).mpr (hi ▸ hm)
    have hentitled : entitled cfg s.batch req = rowOf cfg s.batch.blockTables req n := by
      unfold entitled
      rw [ha.promptLength]
      rfl
    refine ⟨?_, (fun hp => by cases hp), fun _ => hopen.added h.placed.index ha,
      (fun hp => by cases hp)⟩
    rw [hentitled]
    exact h.placed.added hopen ha hc.1 hrow
  | updateReqSpecTokenIds reqId ids =>
    obtain ⟨b,hb,rfl⟩ := map_eq_some_iff.mp hs
    cases hi : s.batch.reqIdToIndex.lookup reqId with
    | none => simp [updateReqSpecTokenIds, hi] at hb
    | some i =>
      have hrow := (h.placed.index reqId i).mp hi
      have hlt : i < s.batch.specTokenIds.length :=
        lt_of_lt_of_le (List.getElem?_eq_some_iff.mp hrow).1 h.placed.spec_covers
      have hspec := (updateReqSpecTokenIds_row hb hi hlt).1
      have honly := updateReqSpecTokenIds_onlyRow hb hi hlt
      rw [h.placed.own reqId i hrow, map_some, ← hspec]
      exact h.update_own hrow honly
  | write reqId b =>
    obtain ⟨i,hi,rfl⟩ := map_eq_some_iff.mp hs
    exact h.update_own ((h.placed.index reqId i).mp hi) (hc i hi)
  | condense =>
    obtain ⟨hphase,hs⟩ := ite_none_left_eq_some.mp hs
    obtain ⟨b,hb,rfl⟩ := map_eq_some_iff.mp hs
    obtain ⟨b',hb',hplaced,hpacked⟩ := condense_spec (h.opened hphase) h.placed
    obtain rfl : b' = b := Option.some.inj (hb'.symm.trans hb)
    exact ⟨hplaced, (fun hp => by cases hp), fun hp => absurd rfl hp, fun _ => hpacked⟩
  | swapStates i₁ i₂ =>
    obtain ⟨hphase,hs⟩ := ite_none_right_eq_some.mp hs
    obtain ⟨b,hb,rfl⟩ := map_eq_some_iff.mp hs
    refine ⟨h.placed.swapStates hb hm, fun hp => ?_, fun hp => absurd hphase hp,
      fun _ => (h.packed hphase).swapStates hb⟩
    rw [show s.phase = .removing from hp] at hphase
    cases hphase
  | refreshMetadata =>
    obtain ⟨hphase,hs⟩ := ite_none_right_eq_some.mp hs
    cases hs
    have hp := h.placed
    refine ⟨⟨hp.index, hp.outputs, hp.spec_covers, hp.spec_clear, hp.dict_clear, hp.own, hp.absent⟩,
      fun _ => rfl, fun _ => ⟨⟨fun i => ?_, nodup_nil⟩, (fun hp => by cases hp)⟩,
      (fun hp => by cases hp)⟩
    refine iff_of_false not_mem_nil fun hempty => ?_
    obtain ⟨id,hid⟩ := h.packed hphase i (List.getElem?_eq_some_iff.mp hempty).1
    cases hid.symm.trans hempty

theorem maskAt_swapStates {b b' : InputBatch} {i j : ℕ} (hp : cfg.isPoolingModel = false)
    (h : swapStates cfg b i j = some b') (k : ℕ) :
    b'.maskAt cfg k = if k = i then b.maskAt cfg j else b.maskAt cfg k := by
  obtain ⟨id₁,id₂,-,-,rfl⟩ := swapStates_eq_some h
  simp only [hp, Bool.false_eq_true, if_false]
  exact maskAt_swapSampling cfg (swapCommon cfg b id₁ id₂ i j) i j k

/-- An operation that lets a mask go astray leaves a request with a row that is not its own. -/
theorem Invariant.maskKept_of_sound (h : Invariant cfg s) (hs : BatchRun.step cfg s op = some s')
    (hc : Contract cfg s op) (hsound : Sound cfg s') : MaskKept cfg s op := by
  cases op with
  | addRequest req =>
    obtain ⟨hphase,hs⟩ := ite_none_left_eq_some.mp hs
    obtain ⟨b,hb,rfl⟩ := map_eq_some_iff.mp hs
    have hopen := h.opened hphase
    obtain ⟨i,n,b₀,ha⟩ := exists_added hb
    have hi : s.batch.registerAddRequest.1 = i := congrArg Prod.fst ha.chosen
    have hindex := (ha.books_cases hopen h.placed.index).1
    have hown := hsound.own req.reqId
    simp only [update_self, hindex, AList.lookup_insert, map_some, Option.some.injEq] at hown
    have hrow : b.row cfg i = rowOf cfg s.batch.blockTables req n := by
      rw [← hown, entitled, ha.promptLength]
      rfl
    have hkept := (ha.row_iff hopen h.placed hc.2).mp hrow
    rw [← hi] at hkept
    exact hkept
  | swapStates i j =>
    obtain ⟨hphase,hs⟩ := ite_none_right_eq_some.mp hs
    obtain ⟨b,hb,rfl⟩ := map_eq_some_iff.mp hs
    intro hp
    obtain ⟨id₁,id₂,hi,hj,hbooks⟩ := swapStates_books hb
    have hilt := (List.getElem?_eq_some_iff.mp hi).1
    have hjlt := (List.getElem?_eq_some_iff.mp hj).1
    -- the request of row `i` now sits in row `j`
    have hmoved : b.reqIds[j]? = some (some id₁) := by
      rw [show b.reqIds = listSwap s.batch.reqIds i j none from congrArg Books.reqIds hbooks,
        getElem?_listSwap s.batch.reqIds none hilt hjlt, Equiv.swap_apply_right, hi]
    have hown := hsound.own id₁
    simp only [(hsound.inverse id₁ j).mpr hmoved, map_some, h.placed.own id₁ i hi,
      Option.some.injEq] at hown
    have hsampling := congrArg BatchRow.sampling hown
    simp only [InputBatch.row, hp, Bool.false_eq_true, if_false, Option.some.injEq] at hsampling
    have hmask : s.batch.maskAt cfg i = b.maskAt cfg j := congrArg SamplingRow.allowedMask hsampling
    rw [hmask, maskAt_swapStates hp hb, ite_self]
  | _ => trivial

/-- The operations of the batch itself do not raise: a removal before the first addition of a step,
`condense`, and the exchange of two listed rows. -/
structure NeverRaises (cfg : BatchConfig) (s : BatchRun) : Prop where
  removeRequest : s.phase = .removing → ∀ id, (removeRequest cfg s.batch id).isSome
  condense : s.phase ≠ .settled → (condense cfg s.batch).isSome
  swapStates : s.phase = .settled → ∀ i < s.batch.numReqs, ∀ j < s.batch.numReqs,
    (swapStates cfg s.batch i j).isSome

theorem Invariant.neverRaises (h : Invariant cfg s) : NeverRaises cfg s := by
  refine ⟨fun hphase id => ?_, fun hphase => ?_, fun hphase i hi j hj => ?_⟩
  · cases hid : s.batch.reqIdToIndex.lookup id with
    | none => simp [InputBatch.removeRequest, hid]
    | some i => rw [removeRequest_eq hid (h.unsorted hphase), isSome_some]
  · obtain ⟨b,hb,-⟩ := condense_spec (h.opened hphase) h.placed
    rw [hb, isSome_some]
  · obtain ⟨-,hrows⟩ := h.sound.packed hphase
    obtain ⟨id₁,h₁⟩ := hrows i hi
    obtain ⟨id₂,h₂⟩ := hrows j hj
    simp only [InputBatch.swapStates, h₁, h₂]
    split <;> rfl

/-- In every run in which no mask goes astray, the batch is sound, its operations do not raise, and
an operation leads to a batch that is not sound exactly when it lets a mask go astray. -/
theorem row_integrity (cfg : BatchConfig) (tables : List BlockTable) (junk : ℕ → ℚ) (junkK : ℕ → ℤ)
    (h : Reachable (BatchRun.step cfg) (fun s op _ => Contract cfg s op ∧ MaskKept cfg s op)
      (start cfg tables junk junkK) s) :
    Sound cfg s ∧ NeverRaises cfg s ∧ ∀ op s', BatchRun.step cfg s op = some s' →
      Contract cfg s op → (Sound cfg s' ↔ MaskKept cfg s op) := by
  have hinv : Invariant cfg s := by
    apply h.invariant (P := Invariant cfg) (Invariant.start cfg tables junk junkK)
    intro s op s' hs hstep hok
    exact hs.step hstep hok.1 hok.2
  refine ⟨hinv.sound, hinv.neverRaises, fun op s' hstep hc => ⟨?_, fun hm => ?_⟩⟩
  · exact hinv.maskKept_of_sound hstep hc
  · exact (hinv.step hstep hc hm).sound

def plainRequest (reqId : BatchReqId) (allowed : List ℕ) : CachedRequestState where
  reqId := reqId
  promptTokenIds := some [7]
  promptEmbeds := none
  promptIsTokenIds := none
  outputTokenIds := []
  numComputedTokens := 0
  blockIds := []
  samplingParams := some ⟨.greedy, 0, 1, 0, 0, 0, 1, allowed, []⟩
  poolingParams := none
  generator := none
  loraIntId := none

def smallConfig : BatchConfig := ⟨2, 4, 2, false, false⟩

def smallStart : BatchRun := start smallConfig [] (fun _ => 0) fun _ => 0

def contractCheck (s : BatchRun) : BatchOp → Bool
  | .addRequest req => (s.batch.reqIdToIndex.lookup req.reqId).isNone && req.samplingParams.isSome
  | .write .. => false
  | _ => true

def maskCheck (cfg : BatchConfig) (s : BatchRun) : BatchOp → Bool
  | .addRequest _ =>
    decide (s.batch.maskAt cfg s.batch.registerAddRequest.1 = clearMask cfg)
  | .swapStates i₁ i₂ => decide (s.batch.maskAt cfg i₁ = s.batch.maskAt cfg i₂)
  | _ => true

theorem contract_of_check (h : contractCheck s op = true) : Contract cfg s op := by
  cases op with
  | addRequest req =>
    simp only [contractCheck, Bool.and_eq_true, isNone_iff_eq_none] at h
    exact ⟨h.1, fun _ => h.2⟩
  | write reqId b => cases h
  | _ => trivial

theorem maskKept_of_check (h : maskCheck cfg s op = true) : MaskKept cfg s op := by
  cases op with
  | addRequest req =>
    intro _ p _ _
    simpa [maskCheck] using h
  | swapStates i₁ i₂ =>
    intro _
    simpa [maskCheck] using h
  | _ => trivial

theorem both_of_check (cfg : BatchConfig) (s : BatchRun) (op : BatchOp) (_ : BatchRun)
    (h : (contractCheck s op && maskCheck cfg s op) = true) :
    Contract cfg s op ∧ MaskKept cfg s op := by
  rw [Bool.and_eq_true] at h
  exact ⟨contract_of_check h.1, maskKept_of_check h.2⟩

/-- Two requests added, exchanged, the first removed and a third one added. -/
theorem row_integrity_three : ∃ s, Reachable (BatchRun.step smallConfig)
    (fun s op _ => Contract smallConfig s op ∧ MaskKept smallConfig s op) smallStart s ∧
    s.batch.reqIds = [some 2, some 3] ∧ Sound smallConfig s := by
  obtain ⟨s,hs,hids⟩ := Reachable.exists_of_runGuarded (BatchRun.step smallConfig)
    (both_of_check smallConfig) smallStart
    [.addRequest (plainRequest 1 []), .addRequest (plainRequest 2 []), .condense, .swapStates 0 1,
      .refreshMetadata, .removeRequest 1, .addRequest (plainRequest 3 []), .condense]
    (fun s => decide (s.batch.reqIds = [some 2, some 3])) (by decide +kernel)
  exact ⟨s, hs, of_decide_eq_true hids, (row_integrity smallConfig [] _ _ hs).1⟩

def maskSet (s : BatchRun) (reqId : BatchReqId) : Option (List Bool) :=
  ((s.rows reqId).bind BatchRow.sampling).map SamplingRow.allowedMask

def maskHeld (cfg : BatchConfig) (s : BatchRun) (reqId : BatchReqId) : Option (List Bool) :=
  (((s.batch.reqIdToIndex.lookup reqId).map (s.batch.row cfg)).bind BatchRow.sampling).map
    SamplingRow.allowedMask

theorem maskSet_eq_maskHeld (h : Sound cfg s) (reqId : BatchReqId) :
    s.maskSet reqId = maskHeld cfg s reqId := by
  unfold maskSet maskHeld
  rw [h.own reqId]

/-- `swap_states` gives both rows the mask of the second one: request 1, which may only sample token
0, loses its restriction. And `condense` leaves a mask behind in the row it vacates: request 3,
which may sample anything, is restricted to the token of request 2. -/
theorem row_integrity_masks :
    (∃ s, Reachable (BatchRun.step smallConfig) (fun s op _ => Contract smallConfig s op) smallStart
      s ∧ s.phase = .settled ∧ ¬ Sound smallConfig s ∧ s.maskSet 1 = some [false, true] ∧
      maskHeld smallConfig s 1 = some [false, false]) ∧
    ∃ s, Reachable (BatchRun.step smallConfig) (fun s op _ => Contract smallConfig s op) smallStart
      s ∧ s.phase = .settled ∧ ¬ Sound smallConfig s ∧ s.maskSet 3 = some [false, false] ∧
      maskHeld smallConfig s 3 = some [false, true] := by
  have hcheck : ∀ s op (_ : BatchRun), contractCheck s op = true → Contract smallConfig s op :=
    fun _ _ _ => contract_of_check
  constructor
  · obtain ⟨s,hs,hp⟩ := Reachable.exists_of_runGuarded (BatchRun.step smallConfig) hcheck smallStart
      [.addRequest (plainRequest 1 [0]), .addRequest (plainRequest 2 []), .condense,
        .swapStates 0 1]
      (fun s => decide (s.phase = .settled ∧ s.maskSet 1 = some [false, true] ∧
        maskHeld smallConfig s 1 = some [false, false])) (by decide +kernel)
    obtain ⟨hphase,hset,hheld⟩ := of_decide_eq_true hp
    refine ⟨s, hs, hphase, fun hsound => ?_, hset, hheld⟩
    have heq := maskSet_eq_maskHeld hsound 1
    rw [hset, hheld] at heq
    simp at heq
  · obtain ⟨s,hs,hp⟩ := Reachable.exists_of_runGuarded (BatchRun.step smallConfig) hcheck smallStart
      [.addRequest (plainRequest 1 []), .addRequest (plainRequest 2 [0]), .condense,
        .refreshMetadata, .removeRequest 1, .condense, .refreshMetadata,
        .addRequest (plainRequest 3 []), .condense]
      (fun s => decide (s.phase = .settled ∧ s.maskSet 3 = some [false, false] ∧
        maskHeld smallConfig s 3 = some [false, true])) (by decide +kernel)
    obtain ⟨hphase,hset,hheld⟩ := of_decide_eq_true hp
    refine ⟨s, hs, hphase, fun hsound => ?_, hset, hheld⟩
    have heq := maskSet_eq_maskHeld hsound 3
    rw [hset, hheld] at heq
    simp at heq

end BatchRun

end MetaZenith
