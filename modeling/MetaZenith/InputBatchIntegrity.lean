import MetaZenith.InputBatchRows
import MetaZenith.RowIndex
import MetaZenith.GuardedRuns

/-! Row integrity of the persistent batch over whole runs. Beside the batch a run keeps the row
that each request is entitled to; the batch is sound when every request finds that row at its
own index. -/

namespace MetaZenith

open List Option Function

namespace InputBatch

structure Placed (cfg : BatchConfig) (b : InputBatch) (rows : BatchReqId → Option BatchRow) :
    Prop where
  index : InverseOf b.reqIdToIndex b.reqIds
  outputs : b.reqOutputTokenIds = b.reqIds
  spec_covers : b.reqIds.length ≤ b.specTokenIds.length
  spec_clear : ∀ i, b.reqIds.length ≤ i → b.specAt i = []
  /-- A vacant row has no entry in the dictionaries. -/
  dict_clear : cfg.isPoolingModel = false → ∀ i, (∀ id, b.reqIds[i]? ≠ some (some id)) →
    b.generators i = none ∧ b.badWordsTokenIds i = none
  own : ∀ id i, b.reqIds[i]? = some (some id) → rows id = some (b.row cfg i)
  absent : ∀ id, b.reqIdToIndex.lookup id = none → rows id = none

structure Open (b : InputBatch) : Prop where
  holes : HolesOf b.removed b.reqIds
  sorted : b.isRemovedSorted = true → b.removed.Pairwise (· ≥ ·)

def Packed (b : InputBatch) : Prop := ∀ i < b.reqIds.length, ∃ id, b.reqIds[i]? = some (some id)

theorem dicts_of_row {cfg : BatchConfig} {b b' : InputBatch} {k k' : ℕ}
    (hp : cfg.isPoolingModel = false) (h : b'.row cfg k = b.row cfg k') :
    b'.generators k = b.generators k' ∧ b'.badWordsTokenIds k = b.badWordsTokenIds k' := by
  have hsampling := congrArg BatchRow.sampling h
  simp only [row, hp, Bool.false_eq_true, if_false, Option.some.injEq] at hsampling
  exact ⟨congrArg SamplingRow.generator hsampling,congrArg SamplingRow.badWordsTokenIds hsampling⟩

section Registration

variable {cfg : BatchConfig} {b : InputBatch} {rows : BatchReqId → Option BatchRow}

theorem Open.ensureRemovedSorted (h : Open b) :
    Open b.ensureRemovedSorted ∧ b.ensureRemovedSorted.removed.Pairwise (· ≥ ·) := by
  unfold InputBatch.ensureRemovedSorted
  cases hs : b.isRemovedSorted with
  | true => exact ⟨h, h.sorted hs⟩
  | false =>
    have hsorted := pairwise_insertionSort (· ≥ ·) b.removed
    exact ⟨⟨h.holes.perm (perm_insertionSort _ _), fun _ => hsorted⟩, hsorted⟩

theorem removed_ensureRemovedSorted_eq_nil : b.ensureRemovedSorted.removed = [] ↔ b.removed = [] := by
  unfold ensureRemovedSorted
  split
  · rfl
  · rw [← length_eq_zero_iff, length_insertionSort, length_eq_zero_iff]

/-- `pop_removed` takes the lowest empty row off the list. -/
theorem Open.peekRemoved (h : Open b) {i : ℕ} (hi : b.peekRemoved = some i) :
    HolesOf (b.popRemoved.removed ++ [i]) b.reqIds ∧ (b.popRemoved.removed ++ [i]).Pairwise (· ≥ ·) ∧
      b.popRemoved = { b with removed := b.popRemoved.removed, isRemovedSorted := true } := by
  unfold InputBatch.peekRemoved at hi
  obtain ⟨hne,hi⟩ := ite_none_left_eq_some.mp hi
  obtain ⟨hopen,hsorted⟩ := h.ensureRemovedSorted
  have hlast : b.ensureRemovedSorted.removed = b.popRemoved.removed ++ [i] := by
    simp only [popRemoved, if_neg hne]
    exact (dropLast_append_getLast? i hi).symm
  refine ⟨?_, hlast ▸ hsorted, ?_⟩
  · rw [← hlast]
    have hids : b.ensureRemovedSorted.reqIds = b.reqIds := by
      unfold InputBatch.ensureRemovedSorted
      split <;> rfl
    exact hids ▸ hopen.holes
  · simp only [popRemoved, if_neg hne]
    unfold InputBatch.ensureRemovedSorted
    split
    · rename_i hs
      rw [hs]
    · rfl

theorem peekRemoved_eq_none (h : b.peekRemoved = none) : b.removed = [] := by
  unfold peekRemoved at h
  by_contra hne
  rw [if_neg hne, getLast?_eq_none_iff, removed_ensureRemovedSorted_eq_nil] at h
  exact hne h

/-- The row chosen for a new request is the lowest empty one, or the one after the last. -/
theorem Open.registerAddRequest (h : Open b) (hindex : InverseOf b.reqIdToIndex b.reqIds) {i : ℕ}
    {b₀ : InputBatch} (hi : b.registerAddRequest = (i, b₀)) :
    b₀ = { b with removed := b₀.removed, isRemovedSorted := b₀.isRemovedSorted } ∧
      ((b.reqIds[i]? = some none ∧ HolesOf (b₀.removed ++ [i]) b.reqIds ∧ b₀.removed.Pairwise (· ≥ ·)) ∨
        (i = b.reqIds.length ∧ b₀ = b ∧ b.removed = [])) := by
  unfold InputBatch.registerAddRequest at hi
  split at hi
  · rename_i j hj
    obtain ⟨hholes,hsorted,hpop⟩ := h.peekRemoved hj
    obtain ⟨rfl,rfl⟩ := Prod.mk.inj hi
    refine ⟨hpop.trans (by rw [hpop]), .inl ⟨(hholes.mem_iff j).mp (by simp), hholes, ?_⟩⟩
    exact hsorted.sublist (sublist_append_left _ _)
  · rename_i hnone
    obtain ⟨rfl,rfl⟩ := Prod.mk.inj hi
    have hnil := peekRemoved_eq_none hnone
    refine ⟨rfl, .inr ⟨?_, rfl, hnil⟩⟩
    have hlen := h.holes.length_add
    rw [hnil, length_nil, Nat.zero_add, ← hindex.length_keys] at hlen
    exact hlen

end Registration

section Remove

variable {cfg : BatchConfig} {b : InputBatch} {rows : BatchReqId → Option BatchRow}
  {reqId : BatchReqId} {i : ℕ}

theorem vacate_books (cfg : BatchConfig) (b : InputBatch) (reqId : BatchReqId) (i : ℕ) :
    (vacate cfg b reqId i).books = (b.clearCommon reqId i).books := by
  unfold vacate
  split <;> rfl

theorem Placed.vacate (h : Placed cfg b rows) (hi : b.reqIds[i]? = some (some reqId)) :
    Placed cfg (vacate cfg b reqId i) (update rows reqId none) := by
  have hbooks := vacate_books cfg b reqId i
  have hids : (InputBatch.vacate cfg b reqId i).reqIds = b.reqIds.set i none :=
    congrArg Books.reqIds hbooks
  have hindex : (InputBatch.vacate cfg b reqId i).reqIdToIndex = b.reqIdToIndex.erase reqId :=
    congrArg Books.reqIdToIndex hbooks
  have hspec : (InputBatch.vacate cfg b reqId i).specTokenIds = b.specTokenIds.set i [] :=
    congrArg Books.specTokenIds hbooks
  have hlt : i < b.reqIds.length := (List.getElem?_eq_some_iff.mp hi).1
  constructor
  case index =>
    rw [hids, hindex]
    exact h.index.erase hi
  case outputs =>
    rw [hids, ← h.outputs]
    exact congrArg Books.reqOutputTokenIds hbooks
  case spec_covers =>
    rw [hids, hspec, length_set, length_set]
    exact h.spec_covers
  case spec_clear =>
    intro k hk
    rw [hids, length_set] at hk
    rw [specAt_set_of_ne hspec (by omega)]
    exact h.spec_clear k hk
  case dict_clear =>
    intro hp k hk
    by_cases hki : k = i
    · subst hki
      simp [InputBatch.vacate, hp, clearSampling]
    · have hold := h.dict_clear hp k fun id => by
        have hnot := hk id
        rwa [hids, getElem?_set_ne (Ne.symm hki)] at hnot
      simpa [InputBatch.vacate, hp, clearSampling, clearCommon, hki] using hold
  case own =>
    intro id k hk
    have hki : k ≠ i := by
      rintro rfl
      rw [hids, List.getElem?_set_self hlt] at hk
      cases hk
    rw [hids, getElem?_set_ne (Ne.symm hki)] at hk
    have hid : id ≠ reqId := by
      rintro rfl
      exact hki (h.index.eq_of_row hk hi)
    rw [update_of_ne hid, row_vacate hki]
    exact h.own id k hk
  case absent =>
    intro id hid
    by_cases hreq : id = reqId
    · rw [hreq, update_self]
    · rw [hindex, AList.lookup_erase_ne hreq] at hid
      rw [update_of_ne hreq]
      exact h.absent id hid

theorem Open.vacate (h : Open b) (hi : b.reqIds[i]? = some (some reqId))
    (hs : b.isRemovedSorted = false) : Open (vacate cfg b reqId i) := by
  have hbooks := vacate_books cfg b reqId i
  constructor
  case holes =>
    rw [show (InputBatch.vacate cfg b reqId i).removed = b.removed ++ [i] from
        congrArg Books.removed hbooks,
      show (InputBatch.vacate cfg b reqId i).reqIds = b.reqIds.set i none from
        congrArg Books.reqIds hbooks]
    exact h.holes.erase hi
  case sorted =>
    intro hs'
    rw [show (InputBatch.vacate cfg b reqId i).isRemovedSorted = b.isRemovedSorted from
      congrArg Books.isRemovedSorted hbooks, hs] at hs'
    cases hs'

end Remove

section Add

variable {cfg : BatchConfig} {b b' b₀ : InputBatch} {rows : BatchReqId → Option BatchRow}
  {req : CachedRequestState} {i n : ℕ}

section

variable (ha : Added cfg b req b' i n b₀)

include ha

theorem Added.books_cases (hopen : Open b) (hindex : InverseOf b.reqIdToIndex b.reqIds) :
    b'.reqIdToIndex = b.reqIdToIndex.insert req.reqId i ∧ b'.removed = b₀.removed ∧
      b'.isRemovedSorted = b₀.isRemovedSorted ∧
      ((b.reqIds[i]? = some none ∧ b'.reqIds = b.reqIds.set i (some req.reqId) ∧
          b'.reqOutputTokenIds = b.reqOutputTokenIds.set i (some req.reqId) ∧
          b'.specTokenIds = b.specTokenIds.set i [] ∧ HolesOf (b₀.removed ++ [i]) b.reqIds ∧
          b₀.removed.Pairwise (· ≥ ·)) ∨
        (i = b.reqIds.length ∧ b'.reqIds = b.reqIds ++ [some req.reqId] ∧
          b'.reqOutputTokenIds = b.reqOutputTokenIds ++ [some req.reqId] ∧
          b'.specTokenIds = b.specTokenIds ++ [[]] ∧ b₀ = b ∧ b.removed = [])) := by
  obtain ⟨hb₀,hrow⟩ := hopen.registerAddRequest hindex ha.chosen
  have hbooks := ha.books_eq
  rcases hrow with ⟨hhole,hholes,hsorted⟩ | ⟨hend,rfl,hnil⟩
  · have hne : i ≠ b₀.reqIds.length := by
      rw [hb₀]
      exact (List.getElem?_eq_some_iff.mp hhole).1.ne
    have hplace : b₀.placeRequest i req.reqId = { b₀ with
        reqIds := b₀.reqIds.set i (some req.reqId)
        reqOutputTokenIds := b₀.reqOutputTokenIds.set i (some req.reqId)
        specTokenIds := b₀.specTokenIds.set i []
        reqIdToIndex := b₀.reqIdToIndex.insert req.reqId i } := by
      unfold placeRequest
      rw [if_neg hne]
    rw [hplace, hb₀] at hbooks
    refine ⟨congrArg Books.reqIdToIndex hbooks, congrArg Books.removed hbooks,
      congrArg Books.isRemovedSorted hbooks, .inl ⟨hhole, congrArg Books.reqIds hbooks,
        congrArg Books.reqOutputTokenIds hbooks, congrArg Books.specTokenIds hbooks, hholes,
        hsorted⟩⟩
  · have hplace : b₀.placeRequest i req.reqId = { b₀ with
        reqIds := b₀.reqIds ++ [some req.reqId]
        reqOutputTokenIds := b₀.reqOutputTokenIds ++ [some req.reqId]
        specTokenIds := b₀.specTokenIds ++ [[]]
        reqIdToIndex := b₀.reqIdToIndex.insert req.reqId i } := by
      unfold placeRequest
      rw [if_pos hend]
    rw [hplace] at hbooks
    refine ⟨congrArg Books.reqIdToIndex hbooks, congrArg Books.removed hbooks,
      congrArg Books.isRemovedSorted hbooks, .inr ⟨hend, congrArg Books.reqIds hbooks,
        congrArg Books.reqOutputTokenIds hbooks, congrArg Books.specTokenIds hbooks, rfl, hnil⟩⟩

theorem Added.vacant (hopen : Open b) (hindex : InverseOf b.reqIdToIndex b.reqIds) (id : BatchReqId) :
    b.reqIds[i]? ≠ some (some id) := by
  obtain ⟨-,⟨hhole,-⟩ | ⟨hend,-⟩⟩ := hopen.registerAddRequest hindex ha.chosen
  · rw [hhole]
    simp
  · rw [hend, List.getElem?_eq_none le_rfl]
    simp

theorem Added.spec_empty (hopen : Open b) (h : Placed cfg b rows) : b'.specAt i = [] := by
  obtain ⟨-,-,-,hcase⟩ := ha.books_cases hopen h.index
  rcases hcase with ⟨hhole,-,-,hspec,-⟩ | ⟨hend,-,-,hspec,-⟩
  · have hlt := (List.getElem?_eq_some_iff.mp hhole).1
    exact specAt_set (lt_of_lt_of_le hlt h.spec_covers) hspec
  · have hold := h.spec_clear i hend.ge
    unfold specAt at hold ⊢
    rw [hspec, getD_eq_getElem?_getD, getElem?_append]
    split
    · rw [← getD_eq_getElem?_getD]
      exact hold
    · simp

/-- An added request finds its own row exactly when its mask row was clear or is written. -/
theorem Added.row_iff (hopen : Open b) (h : Placed cfg b rows)
    (hkind : cfg.isPoolingModel = false → req.samplingParams.isSome) :
    b'.row cfg i = rowOf cfg b.blockTables req n ↔
      (cfg.isPoolingModel = false → ∀ p, req.samplingParams = some p → p.allowedTokenIds = [] →
        b.maskAt cfg i = clearMask cfg) := by
  obtain ⟨hb₀,-⟩ := hopen.registerAddRequest h.index ha.chosen
  have hspec : (b₀.placeRequest i req.reqId).specAt i = [] := by
    have hbooks := congrArg Books.specTokenIds ha.books_eq
    exact (congrArg (List.getD · i []) hbooks.symm).trans (ha.spec_empty hopen h)
  have hdict : cfg.isPoolingModel = false → b₀.generators i = none ∧
      b₀.badWordsTokenIds i = none := by
    intro hp
    rw [hb₀]
    exact h.dict_clear hp i (ha.vacant hopen h.index)
  have hiff := ha.row_self_iff hspec hkind hdict
  rw [hb₀] at hiff
  exact hiff

end

theorem Placed.added (h : Placed cfg b rows) (hopen : Open b) (ha : Added cfg b req b' i n b₀)
    (hnew : b.reqIdToIndex.lookup req.reqId = none)
    (hown : b'.row cfg i = rowOf cfg b.blockTables req n) :
    Placed cfg b' (update rows req.reqId (some (rowOf cfg b.blockTables req n))) := by
  obtain ⟨hindex,-,-,hcase⟩ := ha.books_cases hopen h.index
  obtain ⟨hb₀,-⟩ := hopen.registerAddRequest h.index ha.chosen
  have hvacant := ha.vacant hopen h.index
  -- away from the new row, the row list and the rows are as before
  have hrow : ∀ k, k ≠ i → b'.row cfg k = b.row cfg k := by
    intro k hk
    rw [ha.row_of_ne hk, hb₀]
    rfl
  have hself : b'.reqIds[i]? = some (some req.reqId) := by
    rcases hcase with ⟨hhole,hids,-⟩ | ⟨hend,hids,-⟩
    · rw [hids, List.getElem?_set_self (List.getElem?_eq_some_iff.mp hhole).1]
    · rw [hids, hend]
      simp
  have hother : ∀ k, k ≠ i → b'.reqIds[k]? = b.reqIds[k]? := by
    intro k hk
    rcases hcase with ⟨-,hids,-⟩ | ⟨hend,hids,-⟩
    · rw [hids, getElem?_set_ne (Ne.symm hk)]
    · rw [hids, getElem?_append]
      split
      · rfl
      · rename_i hge
        rw [List.getElem?_eq_none (Nat.le_of_not_lt hge), getElem?_singleton, if_neg (by omega)]
  constructor
  case index =>
    rw [hindex]
    rcases hcase with ⟨hhole,hids,-⟩ | ⟨hend,hids,-⟩
    · rw [hids]
      exact h.index.insert hnew hhole
    · rw [hids, hend]
      exact h.index.append hnew
  case outputs =>
    rcases hcase with ⟨-,hids,hout,-⟩ | ⟨-,hids,hout,-⟩
    · rw [hids, hout, h.outputs]
    · rw [hids, hout, h.outputs]
  case spec_covers =>
    have hcover := h.spec_covers
    rcases hcase with ⟨-,hids,-,hspec,-⟩ | ⟨-,hids,-,hspec,-⟩
    · simpa [hids, hspec] using hcover
    · simpa [hids, hspec] using hcover
  case spec_clear =>
    intro k hk
    have hki : k ≠ i := by
      rintro rfl
      rw [List.getElem?_eq_none hk] at hself
      cases hself
    have hlen : b.reqIds.length ≤ k := by
      rw [← List.getElem?_eq_none_iff, ← hother k hki]
      exact List.getElem?_eq_none hk
    have hspec : b'.specAt k = b.specAt k := congrArg BatchRow.specTokenIds (hrow k hki)
    rw [hspec]
    exact h.spec_clear k hlen
  case dict_clear =>
    intro hp k hk
    have hki : k ≠ i := by
      rintro rfl
      exact hk _ hself
    rw [(dicts_of_row hp (hrow k hki)).1, (dicts_of_row hp (hrow k hki)).2]
    exact h.dict_clear hp k fun id => hother k hki ▸ hk id
  case own =>
    intro id k hk
    by_cases hki : k = i
    · subst hki
      rw [hself] at hk
      obtain rfl : req.reqId = id := Option.some.inj (Option.some.inj hk)
      rw [update_self, hown]
    · rw [hother k hki] at hk
      have hid : id ≠ req.reqId := by
        rintro rfl
        rw [(h.index _ _).mpr hk] at hnew
        cases hnew
      rw [update_of_ne hid, hrow k hki]
      exact h.own id k hk
  case absent =>
    intro id hid
    rw [hindex] at hid
    by_cases hreq : id = req.reqId
    · rw [hreq, AList.lookup_insert] at hid
      cases hid
    · rw [AList.lookup_insert_ne hreq] at hid
      rw [update_of_ne hreq]
      exact h.absent id hid

theorem Open.added (hopen : Open b) (hindex : InverseOf b.reqIdToIndex b.reqIds)
    (ha : Added cfg b req b' i n b₀) : Open b' := by
  obtain ⟨-,hremoved,-,hcase⟩ := ha.books_cases hopen hindex
  rcases hcase with ⟨-,hids,-,-,hholes,hsorted⟩ | ⟨-,hids,-,-,rfl,hnil⟩
  · refine ⟨?_, fun _ => ?_⟩
    · rw [hremoved, hids]
      exact hholes.fill req.reqId
    · rw [hremoved]
      exact hsorted
  · refine ⟨?_, fun _ => by simp [hremoved, hnil]⟩
    rw [hremoved, hids]
    exact hopen.holes.append req.reqId

end Add

section Update

variable {cfg : BatchConfig} {b b' : InputBatch} {rows : BatchReqId → Option BatchRow}
  {reqId : BatchReqId} {i : ℕ}

/-- A change of the batch through the index `i`: the lists keep their entries, and every other row
keeps its contents. -/
structure OnlyRow (cfg : BatchConfig) (i : ℕ) (b b' : InputBatch) : Prop where
  books : { b'.books with specTokenIds := b.specTokenIds } = b.books
  length_spec : b'.specTokenIds.length = b.specTokenIds.length
  row : ∀ k, k ≠ i → b'.row cfg k = b.row cfg k

theorem updateReqSpecTokenIds_onlyRow {ids : List ℤ}
    (h : updateReqSpecTokenIds cfg b reqId ids = some b')
    (hindex : b.reqIdToIndex.lookup reqId = some i) (hlt : i < b.specTokenIds.length) :
    OnlyRow cfg i b b' := by
  obtain ⟨-,hrow,hbooks,hlen⟩ := updateReqSpecTokenIds_row h hindex hlt
  exact ⟨hbooks, hlen, hrow⟩

theorem Placed.update (h : Placed cfg b rows) (hi : b.reqIds[i]? = some (some reqId))
    (hu : OnlyRow cfg i b b') : Placed cfg b' (update rows reqId (some (b'.row cfg i))) := by
  have hids : b'.reqIds = b.reqIds := congrArg Books.reqIds hu.books
  have hindex : b'.reqIdToIndex = b.reqIdToIndex := congrArg Books.reqIdToIndex hu.books
  constructor
  case index =>
    rw [hids, hindex]
    exact h.index
  case outputs =>
    rw [hids, ← h.outputs]
    exact congrArg Books.reqOutputTokenIds hu.books
  case spec_covers =>
    rw [hids, hu.length_spec]
    exact h.spec_covers
  case spec_clear =>
    intro k hk
    rw [hids] at hk
    have hki : k ≠ i := by
      have hlt := (List.getElem?_eq_some_iff.mp hi).1
      omega
    rw [show b'.specAt k = b.specAt k from congrArg BatchRow.specTokenIds (hu.row k hki)]
    exact h.spec_clear k hk
  case dict_clear =>
    intro hp k hk
    rw [hids] at hk
    have hki : k ≠ i := by
      rintro rfl
      exact hk _ hi
    rw [(dicts_of_row hp (hu.row k hki)).1, (dicts_of_row hp (hu.row k hki)).2]
    exact h.dict_clear hp k hk
  case own =>
    intro id k hk
    rw [hids] at hk
    by_cases hki : k = i
    · subst hki
      obtain rfl : reqId = id := Option.some.inj (Option.some.inj (hi.symm.trans hk))
      rw [update_self]
    · have hid : id ≠ reqId := by
        rintro rfl
        exact hki (h.index.eq_of_row hk hi)
      rw [update_of_ne hid, hu.row k hki]
      exact h.own id k hk
  case absent =>
    intro id hid
    rw [hindex] at hid
    have hreq : id ≠ reqId := by
      rintro rfl
      rw [(h.index _ _).mpr hi] at hid
      cases hid
    rw [update_of_ne hreq]
    exact h.absent id hid

end Update

section Swap

variable {cfg : BatchConfig} {b b' : InputBatch} {rows : BatchReqId → Option BatchRow} {i j : ℕ}

theorem swapStates_books (h : swapStates cfg b i j = some b') :
    ∃ id₁ id₂, b.reqIds[i]? = some (some id₁) ∧ b.reqIds[j]? = some (some id₂) ∧
      b'.books = (swapCommon cfg b id₁ id₂ i j).books := by
  obtain ⟨id₁,id₂,h₁,h₂,rfl⟩ := swapStates_eq_some h
  refine ⟨id₁, id₂, h₁, h₂, ?_⟩
  split <;> rfl

theorem getElem?_listSwap {α : Type*} (l : List α) (d : α) (hi : i < l.length) (hj : j < l.length)
    (k : ℕ) : (listSwap l i j d)[k]? = l[Equiv.swap i j k]? := by
  unfold listSwap
  by_cases hkj : k = j
  · subst hkj
    rw [List.getElem?_set_self (by simpa using hj), Equiv.swap_apply_right]
    simp [hi]
  · rw [getElem?_set_ne (Ne.symm hkj)]
    by_cases hki : k = i
    · subst hki
      rw [List.getElem?_set_self hi, Equiv.swap_apply_left]
      simp [hj]
    · rw [getElem?_set_ne (Ne.symm hki), Equiv.swap_apply_of_ne_of_ne hki hkj]

theorem length_listSwap {α : Type*} (l : List α) (i j : ℕ) (d : α) :
    (listSwap l i j d).length = l.length := by
  simp [listSwap]

theorem Placed.swapStates (h : Placed cfg b rows) (hs : swapStates cfg b i j = some b')
    (hmask : cfg.isPoolingModel = false → b.maskAt cfg i = b.maskAt cfg j) : Placed cfg b' rows := by
  obtain ⟨id₁,id₂,hi,hj,hbooks⟩ := swapStates_books hs
  have hilt := (List.getElem?_eq_some_iff.mp hi).1
  have hjlt := (List.getElem?_eq_some_iff.mp hj).1
  have hcover := h.spec_covers
  have hids : b'.reqIds = listSwap b.reqIds i j none := congrArg Books.reqIds hbooks
  have hget : ∀ k, b'.reqIds[k]? = b.reqIds[Equiv.swap i j k]? := by
    intro k
    rw [hids, getElem?_listSwap b.reqIds none hilt hjlt]
  have hrow := row_swapStates hs (by omega) (by omega) hmask
  -- both sides of the exchanged entries, as the dictionary had them
  have hindex : b'.reqIdToIndex = (b.reqIdToIndex.insert id₁ j).insert id₂ i := by
    have heq : b'.reqIdToIndex = (b.reqIdToIndex.insert id₁
        ((b.reqIdToIndex.lookup id₂).getD 0)).insert id₂ ((b.reqIdToIndex.lookup id₁).getD 0) :=
      congrArg Books.reqIdToIndex hbooks
    rw [heq, (h.index id₁ i).mpr hi, (h.index id₂ j).mpr hj]
    rfl
  have hlist : listSwap b.reqIds i j none = (b.reqIds.set i (some id₂)).set j (some id₁) := by
    unfold listSwap
    rw [getD_eq_getElem?_getD, getD_eq_getElem?_getD, hi, hj]
    rfl
  have hinverse : InverseOf b'.reqIdToIndex b'.reqIds := by
    rw [hindex, hids, hlist]
    exact h.index.swap hi hj
  constructor
  case index => exact hinverse
  case outputs =>
    rw [hids, ← h.outputs]
    exact congrArg Books.reqOutputTokenIds hbooks
  case spec_covers =>
    rw [hids, show b'.specTokenIds = listSwap b.specTokenIds i j [] from
      congrArg Books.specTokenIds hbooks, length_listSwap, length_listSwap]
    exact hcover
  case spec_clear =>
    intro k hk
    rw [hids, length_listSwap] at hk
    have hfix : Equiv.swap i j k = k := Equiv.swap_apply_of_ne_of_ne (by omega) (by omega)
    have hspec : b'.specAt k = b.specAt (Equiv.swap i j k) :=
      congrArg BatchRow.specTokenIds (hrow k)
    rw [hspec, hfix]
    exact h.spec_clear k hk
  case dict_clear =>
    intro hp k hk
    rw [(dicts_of_row hp (hrow k)).1, (dicts_of_row hp (hrow k)).2]
    exact h.dict_clear hp _ fun id => hget k ▸ hk id
  case own =>
    intro id k hk
    rw [hrow k]
    exact h.own id _ (hget k ▸ hk)
  case absent =>
    intro id hid
    apply h.absent
    -- an absent request has no row before or after
    rw [eq_none_iff_forall_ne_some] at hid ⊢
    intro k hk
    refine hid (Equiv.swap i j k) ((hinverse id _).mpr ?_)
    rw [hget, Equiv.swap_apply_self]
    exact (h.index id k).mp hk

theorem Packed.swapStates (h : Packed b) (hs : swapStates cfg b i j = some b') : Packed b' := by
  obtain ⟨id₁,id₂,hi,hj,hbooks⟩ := swapStates_books hs
  have hilt := (List.getElem?_eq_some_iff.mp hi).1
  have hjlt := (List.getElem?_eq_some_iff.mp hj).1
  have hids : b'.reqIds = listSwap b.reqIds i j none := congrArg Books.reqIds hbooks
  intro k hk
  rw [hids, length_listSwap] at hk
  rw [hids, getElem?_listSwap b.reqIds none hilt hjlt]
  apply h
  by_cases hki : k = i
  · rw [hki, Equiv.swap_apply_left]
    exact hjlt
  · by_cases hkj : k = j
    · rw [hkj, Equiv.swap_apply_right]
      exact hilt
    · rw [Equiv.swap_apply_of_ne_of_ne hki hkj]
      exact hk

end Swap

section Condense

variable {cfg : BatchConfig} {b : InputBatch} {rows : BatchReqId → Option BatchRow}
  {reqId : BatchReqId} {last empty : ℕ}

theorem moveDown_books (cfg : BatchConfig) (b : InputBatch) (reqId : BatchReqId) (last empty : ℕ) :
    (moveDown cfg b reqId last empty).books = (moveCommon cfg b reqId last empty).books := by
  unfold moveDown
  split <;> rfl

theorem Placed.moveDown (h : Placed cfg b rows) (hl : b.reqIds[last]? = some (some reqId))
    (he : b.reqIds[empty]? = some none) : Placed cfg (moveDown cfg b reqId last empty) rows := by
  have hbooks := moveDown_books cfg b reqId last empty
  have hllt := (List.getElem?_eq_some_iff.mp hl).1
  have helt := (List.getElem?_eq_some_iff.mp he).1
  have hcover := h.spec_covers
  have hne : empty ≠ last := by
    rintro rfl
    rw [hl] at he
    cases he
  have hids : (InputBatch.moveDown cfg b reqId last empty).reqIds =
      (b.reqIds.set empty (some reqId)).set last none := congrArg Books.reqIds hbooks
  have hindex : (InputBatch.moveDown cfg b reqId last empty).reqIdToIndex =
      b.reqIdToIndex.insert reqId empty := congrArg Books.reqIdToIndex hbooks
  have hdict : cfg.isPoolingModel = false →
      b.generators empty = none ∧ b.badWordsTokenIds empty = none := by
    intro hp
    refine h.dict_clear hp empty fun id => ?_
    rw [he]
    simp
  have hrow : ∀ k, k ≠ last → (InputBatch.moveDown cfg b reqId last empty).row cfg k =
      b.row cfg (if k = empty then last else k) := fun k hk =>
    row_moveDown reqId (lt_of_lt_of_le hllt hcover) (lt_of_lt_of_le helt hcover) hdict hk
  have hinverse : InverseOf (InputBatch.moveDown cfg b reqId last empty).reqIdToIndex
      (InputBatch.moveDown cfg b reqId last empty).reqIds := by
    rw [hindex, hids]
    exact h.index.move hl he
  constructor
  case index => exact hinverse
  case outputs =>
    rw [hids]
    have hout : (InputBatch.moveDown cfg b reqId last empty).reqOutputTokenIds =
        (b.reqOutputTokenIds.set empty (b.reqOutputTokenIds.getD last none)).set last none :=
      congrArg Books.reqOutputTokenIds hbooks
    rw [hout, h.outputs, getD_eq_getElem?_getD, hl]
    rfl
  case spec_covers =>
    rw [hids, show (InputBatch.moveDown cfg b reqId last empty).specTokenIds =
      (listSwap b.specTokenIds last empty []).set last [] from congrArg Books.specTokenIds hbooks]
    simpa [length_listSwap] using hcover
  case spec_clear =>
    intro k hk
    rw [hids, length_set, length_set] at hk
    have hspec := congrArg BatchRow.specTokenIds (hrow k (by omega))
    rw [if_neg (show k ≠ empty by omega)] at hspec
    exact (show _ = b.specAt k from hspec).trans (h.spec_clear k hk)
  case dict_clear =>
    intro hp k hk
    by_cases hkl : k = last
    · subst hkl
      simp [InputBatch.moveDown, hp, moveSampling, dictMove_src _ (Ne.symm hne)]
    · have hke : k ≠ empty := by
        rintro rfl
        apply hk reqId
        rw [hids, getElem?_set_ne (Ne.symm hne), List.getElem?_set_self helt]
      have hdicts := dicts_of_row hp (hrow k hkl)
      rw [if_neg hke] at hdicts
      rw [hdicts.1, hdicts.2]
      refine h.dict_clear hp k fun id => ?_
      have hnot := hk id
      rwa [hids, getElem?_set_ne (Ne.symm hkl), getElem?_set_ne (Ne.symm hke)] at hnot
  case own =>
    intro id k hk
    have hkl : k ≠ last := by
      rintro rfl
      rw [hids, List.getElem?_set_self (by simpa using hllt)] at hk
      cases hk
    rw [hids, getElem?_set_ne (Ne.symm hkl)] at hk
    rw [hrow k hkl]
    by_cases hke : k = empty
    · subst hke
      rw [List.getElem?_set_self helt] at hk
      obtain rfl : reqId = id := Option.some.inj (Option.some.inj hk)
      rw [if_pos rfl]
      exact h.own _ _ hl
    · rw [getElem?_set_ne (Ne.symm hke)] at hk
      rw [if_neg hke]
      exact h.own id k hk
  case absent =>
    intro id hid
    apply h.absent
    rw [hindex] at hid
    by_cases hreq : id = reqId
    · rw [hreq, AList.lookup_insert] at hid
      cases hid
    · rwa [AList.lookup_insert_ne hreq] at hid

theorem row_trim {n k : ℕ} (hk : k < n) : (b.trim n).row cfg k = b.row cfg k := by
  have hspec : (b.trim n).specAt k = b.specAt k := by
    simp [specAt, trim, hk]
  simp only [row, getActiveTokenCount, hspec]
  rfl

theorem Placed.trim (h : Placed cfg b rows) {n : ℕ}
    (hrest : ∀ k, n ≤ k → k < b.reqIds.length → b.reqIds[k]? = some none) :
    Placed cfg (b.trim n) rows := by
  have hids : (b.trim n).reqIds = b.reqIds.take n := rfl
  -- a row that is still listed lies below `n`
  have hlisted : ∀ k id, (b.trim n).reqIds[k]? = some (some id) →
      k < n ∧ b.reqIds[k]? = some (some id) := by
    intro k id hk
    rw [hids, getElem?_take] at hk
    exact ite_none_right_eq_some.mp hk
  constructor
  case index => exact h.index.take hrest
  case outputs => exact congrArg (List.take n) h.outputs
  case spec_covers =>
    rw [hids, length_take]
    refine le_trans (min_le_min_left n h.spec_covers) ?_
    exact (length_take ..).ge
  case spec_clear =>
    intro k hk
    rw [hids, length_take] at hk
    unfold specAt InputBatch.trim
    rw [getD_eq_getElem?_getD, getElem?_take]
    split
    · rw [← getD_eq_getElem?_getD]
      exact h.spec_clear k (by omega)
    · rfl
  case dict_clear =>
    intro hp k hk
    refine h.dict_clear hp k fun id hid => ?_
    by_cases hkn : k < n
    · apply hk id
      rw [hids, getElem?_take, if_pos hkn, hid]
    · have hlt := (List.getElem?_eq_some_iff.mp hid).1
      rw [hrest k (Nat.le_of_not_lt hkn) hlt] at hid
      cases hid
  case own =>
    intro id k hk
    obtain ⟨hkn,hold⟩ := hlisted k id hk
    rw [row_trim hkn]
    exact h.own id k hold
  case absent => exact h.absent

theorem skipRemoved_spec (removed : List ℕ) (last : ℕ) : skipRemoved removed last ≤ last ∧
      (∀ k, skipRemoved removed last < k → k ≤ last → k ∈ removed) ∧
      (skipRemoved removed last ∈ removed → skipRemoved removed last = 0) := by
  induction last with
  | zero => exact ⟨le_rfl, fun k hk hk' => by simp [skipRemoved] at hk; omega, fun _ => rfl⟩
  | succ last ih =>
    unfold skipRemoved
    by_cases hmem : last+1 ∈ removed
    · rw [if_pos hmem]
      refine ⟨ih.1.trans (Nat.le_succ _), fun k hk hk' => ?_, ih.2.2⟩
      rcases Nat.lt_or_eq_of_le hk' with hlt | heq
      · exact ih.2.1 k hk (Nat.le_of_lt_succ hlt)
      · exact heq ▸ hmem
    · rw [if_neg hmem]
      exact ⟨le_rfl, fun k hk hk' => absurd (lt_of_lt_of_le hk hk') (lt_irrefl _),
        fun h => absurd h hmem⟩

/-- The loop invariant of `condense`: up to `last` the builder knows the empty rows, above it all
rows are empty, and somewhere there is a request. -/
structure Sinking (b : InputBatch) (last : ℕ) : Prop where
  holes_iff : ∀ i ≤ last, i ∈ b.removed ↔ b.reqIds[i]? = some none
  above : ∀ i, last < i → i < b.reqIds.length → b.reqIds[i]? = some none
  sorted : b.removed.Pairwise (· > ·)
  flag : b.isRemovedSorted = true
  last_lt : last < b.reqIds.length
  someone : ∃ (i : ℕ) (id : BatchReqId), b.reqIds[i]? = some (some id)

def Split (b : InputBatch) (m : ℕ) : Prop :=
  m < b.reqIds.length ∧ (∀ i ≤ m, ∃ id, b.reqIds[i]? = some (some id)) ∧
    ∀ i, m < i → i < b.reqIds.length → b.reqIds[i]? = some none

theorem occupied_of_not_empty {i : ℕ} (hlt : i < b.reqIds.length)
    (hne : b.reqIds[i]? ≠ some none) : ∃ id, b.reqIds[i]? = some (some id) := by
  rw [getElem?_eq_getElem hlt] at hne ⊢
  cases h : b.reqIds[i] with
  | none => exact absurd (congrArg some h) hne
  | some id => exact ⟨id, rfl⟩

namespace Sinking

/-- After the inner loop the invariant holds of the row it stopped at, which is occupied. -/
theorem skip (h : Sinking b last) : Sinking b (skipRemoved b.removed last) ∧
      ∃ id, b.reqIds[skipRemoved b.removed last]? = some (some id) := by
  obtain ⟨hle,hbetween,hzero⟩ := skipRemoved_spec b.removed last
  set l := skipRemoved b.removed last
  have hlt := h.last_lt
  have habove : ∀ i, l < i → i < b.reqIds.length → b.reqIds[i]? = some none := by
    intro i hli hi
    by_cases hil : i ≤ last
    · exact (h.holes_iff i hil).mp (hbetween i hli hil)
    · exact h.above i (Nat.lt_of_not_le hil) hi
  refine ⟨⟨fun i hi => h.holes_iff i (hi.trans hle), habove, h.sorted, h.flag, by omega,h.someone⟩, ?_⟩
  -- if it stopped at an empty row, that is row 0 and no request is left
  apply occupied_of_not_empty (by omega)
  intro hempty
  have hl0 := hzero ((h.holes_iff l hle).mpr hempty)
  obtain ⟨i,id,hi⟩ := h.someone
  have hilt := (List.getElem?_eq_some_iff.mp hi).1
  rcases Nat.eq_zero_or_pos i with rfl | hpos
  · rw [hl0, hi] at hempty
    cases hempty
  · rw [habove i (by omega) hilt] at hi
    cases hi

theorem split (h : Sinking b last) {id : BatchReqId} (hl : b.reqIds[last]? = some (some id))
    (hnone : ∀ i ∈ b.removed, last ≤ i) : Split b last := by
  have hlt := h.last_lt
  refine ⟨hlt, fun i hi => ?_, h.above⟩
  apply occupied_of_not_empty (by omega)
  intro hempty
  obtain rfl : i = last := le_antisymm hi (hnone i ((h.holes_iff i hi).mpr hempty))
  rw [hl] at hempty
  cases hempty

end Sinking

/-- `peek_removed` and `pop_removed` on a list that has been sorted. -/
theorem Sinking.peek (h : Sinking b last) {empty : ℕ} (he : b.peekRemoved = some empty) :
    b.popRemoved = { b with removed := b.popRemoved.removed } ∧
      b.removed = b.popRemoved.removed ++ [empty] := by
  unfold peekRemoved ensureRemovedSorted at he
  unfold popRemoved ensureRemovedSorted
  obtain ⟨hne,he⟩ := ite_none_left_eq_some.mp he
  rw [if_pos h.flag] at he
  rw [if_neg hne, if_pos h.flag]
  exact ⟨rfl, (dropLast_append_getLast? empty he).symm⟩

theorem Sinking.moveDown (cfg : BatchConfig) (h : Sinking b last) {id : BatchReqId}
    (hl : b.reqIds[last]? = some (some id)) {empty : ℕ} (he : b.peekRemoved = some empty)
    (hlt : empty < last) : Sinking (moveDown cfg b.popRemoved id last empty) (last-1) := by
  obtain ⟨hpop,hremoved⟩ := h.peek he
  have hbooks := moveDown_books cfg b.popRemoved id last empty
  set b' := InputBatch.moveDown cfg b.popRemoved id last empty
  have hids : b'.reqIds = (b.reqIds.set empty (some id)).set last none := by
    have heq : b'.reqIds = (b.popRemoved.reqIds.set empty (some id)).set last none :=
      congrArg Books.reqIds hbooks
    rw [heq, hpop]
  have hrem : b'.removed = b.popRemoved.removed := congrArg Books.removed hbooks
  have hllt := h.last_lt
  have hsorted := h.sorted
  rw [hremoved, pairwise_append] at hsorted
  constructor
  case holes_iff =>
    intro i hi
    rw [hrem, hids, getElem?_set_ne (by omega)]
    have hold := h.holes_iff i (by omega)
    rw [hremoved, mem_append, mem_singleton] at hold
    by_cases hie : i = empty
    · subst hie
      rw [List.getElem?_set_self (by omega)]
      refine iff_of_false (fun hmem => ?_) (by simp)
      exact lt_irrefl i (hsorted.2.2 i hmem i (by simp))
    · rw [getElem?_set_ne (Ne.symm hie), ← hold]
      simp [hie]
  case above =>
    intro i hi hlen
    rw [hids, length_set, length_set] at hlen
    rw [hids]
    by_cases hil : i = last
    · subst hil
      rw [List.getElem?_set_self (by simpa using hllt)]
    · rw [getElem?_set_ne (Ne.symm hil), getElem?_set_ne (by omega)]
      exact h.above i (by omega) hlen
  case sorted =>
    rw [hrem]
    exact hsorted.1
  case flag =>
    have heq : b'.isRemovedSorted = b.popRemoved.isRemovedSorted :=
      congrArg Books.isRemovedSorted hbooks
    rw [heq, hpop]
    exact h.flag
  case last_lt =>
    rw [hids, length_set, length_set]
    omega
  case someone =>
    refine ⟨empty, id, ?_⟩
    rw [hids, getElem?_set_ne (by omega), List.getElem?_set_self (by omega)]

theorem length_keys_insert {α : Type*} [DecidableEq α] (index : AList fun _ : α => ℕ) {a : α}
    {j : ℕ} (ha : index.lookup a = some j) (i : ℕ) :
    (index.insert a i).keys.length = index.keys.length := by
  have hmem : a ∈ index.keys := by
    rw [← AList.mem_keys, ← AList.lookup_isSome, ha]
    rfl
  rw [AList.keys_insert, length_cons, length_erase_of_mem hmem]
  exact Nat.succ_pred_eq_of_pos (length_pos_of_mem hmem)

/-- The loop ends with the requests in the lowest rows; the induction is on the rounds, and each
round uses up one empty row. -/
theorem condenseLoop_spec (fuel : ℕ) (hs : Sinking b last) (h : Placed cfg b rows)
    (hfuel : b.removed.length ≤ fuel) :
    ∃ b' m, condenseLoop cfg fuel b last = some b' ∧ Placed cfg b' rows ∧ Split b' m ∧
      b'.numReqs = b.numReqs := by
  induction fuel generalizing b last with
  | zero =>
    have hnil : b.removed = [] := length_eq_zero_iff.mp (Nat.le_zero.mp hfuel)
    obtain ⟨hskip,id,hl⟩ := hs.skip
    exact ⟨b, _, rfl, h, hskip.split hl (by simp [hnil]), rfl⟩
  | succ fuel ih =>
    obtain ⟨hskip,id,hl⟩ := hs.skip
    unfold condenseLoop
    cases he : b.peekRemoved with
    | none =>
      have hnil := peekRemoved_eq_none he
      exact ⟨b, _, rfl, h, hskip.split hl (by simp [hnil]), rfl⟩
    | some empty =>
      obtain ⟨hpop,hremoved⟩ := hskip.peek he
      by_cases hle : skipRemoved b.removed last ≤ empty
      · refine ⟨b, _, if_pos hle, h, hskip.split hl ?_, rfl⟩
        -- the lowest empty row lies above, hence all of them do
        intro i hi
        have hsorted := hskip.sorted
        rw [hremoved] at hi hsorted
        rcases mem_append.mp hi with hmem | hmem
        · have hgt := (pairwise_append.mp hsorted).2.2 i hmem empty (by simp)
          omega
        · rw [mem_singleton.mp hmem]
          exact hle
      · rw [Nat.not_le] at hle
        have hempty : b.reqIds[empty]? = some none :=
          (hskip.holes_iff empty hle.le).mp (by rw [hremoved]; simp)
        have hplaced : Placed cfg b.popRemoved rows := by
          rw [hpop]
          exact ⟨h.index, h.outputs, h.spec_covers, h.spec_clear, h.dict_clear, h.own, h.absent⟩
        have hids : b.popRemoved.reqIds = b.reqIds := by rw [hpop]
        have hmoved := hplaced.moveDown (hids ▸ hl) (hids ▸ hempty)
        have hstep := Sinking.moveDown cfg hskip hl he hle
        have hrounds : (InputBatch.moveDown cfg b.popRemoved id (skipRemoved b.removed last)
            empty).removed.length ≤ fuel := by
          rw [show (InputBatch.moveDown cfg b.popRemoved id (skipRemoved b.removed last)
            empty).removed = b.popRemoved.removed from congrArg Books.removed (moveDown_books ..)]
          rw [hremoved, length_append, length_singleton] at hfuel
          omega
        obtain ⟨b',m,hloop,hplaced',hsplit,hnum⟩ := ih hstep hmoved hrounds
        refine ⟨b', m, ?_, hplaced', hsplit, hnum.trans ?_⟩
        · simp only [if_neg (Nat.not_le.mpr hle), hl]
          exact hloop
        · have hindex : (InputBatch.moveDown cfg b.popRemoved id (skipRemoved b.removed last)
              empty).reqIdToIndex = b.reqIdToIndex.insert id empty := by
            have heq : (InputBatch.moveDown cfg b.popRemoved id (skipRemoved b.removed last)
                empty).reqIdToIndex = b.popRemoved.reqIdToIndex.insert id empty :=
              congrArg Books.reqIdToIndex (moveDown_books ..)
            rw [heq, hpop]
          unfold numReqs
          rw [hindex]
          exact length_keys_insert b.reqIdToIndex ((h.index id _).mpr hl) empty

theorem Split.countP_eq {m : ℕ} (h : Split b m) : b.reqIds.countP Option.isSome = m+1 := by
  obtain ⟨hlt,hlow,hhigh⟩ := h
  have hsplit := take_append_drop (m+1) b.reqIds
  have htake : (b.reqIds.take (m+1)).countP Option.isSome = m+1 := by
    have hlen : (b.reqIds.take (m+1)).length = m+1 := by
      rw [length_take]
      omega
    refine (countP_eq_length.mpr ?_).trans hlen
    intro x hx
    obtain ⟨i,hi⟩ := mem_iff_getElem?.mp hx
    rw [getElem?_take] at hi
    obtain ⟨him,hi⟩ := ite_none_right_eq_some.mp hi
    obtain ⟨id,hid⟩ := hlow i (Nat.le_of_lt_succ him)
    rw [← Option.some.inj (hid.symm.trans hi)]
    rfl
  have hdrop : (b.reqIds.drop (m+1)).countP Option.isSome = 0 := by
    rw [countP_eq_zero]
    intro x hx
    obtain ⟨i,hi⟩ := mem_iff_getElem?.mp hx
    rw [getElem?_drop] at hi
    have hnone := hhigh (m+1+i) (by omega) (List.getElem?_eq_some_iff.mp hi).1
    rw [← Option.some.inj (hnone.symm.trans hi)]
    simp
  rw [← hsplit, countP_append, htake, hdrop]

/-- `condense` never fails its assertion and leaves the requests in the lowest rows. -/
theorem condense_spec (hopen : Open b) (h : Placed cfg b rows) :
    ∃ b', condense cfg b = some b' ∧ Placed cfg b' rows ∧ Packed b' := by
  obtain ⟨hopen',hsorted⟩ := hopen.ensureRemovedSorted
  have hplaced : Placed cfg b.ensureRemovedSorted rows := by
    unfold ensureRemovedSorted
    split
    · exact h
    · exact ⟨h.index, h.outputs, h.spec_covers, h.spec_clear, h.dict_clear, h.own, h.absent⟩
  have hnum : b.numReqs = b.ensureRemovedSorted.numReqs := by
    unfold ensureRemovedSorted
    split <;> rfl
  simp only [condense, hnum]
  set b₁ := b.ensureRemovedSorted with hb₁
  have hcount := hopen'.holes.length_add
  rw [← hplaced.index.length_keys] at hcount
  by_cases hnil : b₁.removed = []
  · refine ⟨b₁, if_pos hnil, hplaced, fun i hi => occupied_of_not_empty hi fun hempty => ?_⟩
    have hmem := (hopen'.holes.mem_iff i).mpr hempty
    rw [hnil] at hmem
    cases hmem
  · rw [if_neg hnil]
    by_cases hzero : b₁.numReqs = 0
    · refine ⟨b₁.trim 0, if_pos hzero, hplaced.trim fun k _ hk => ?_, ?_⟩
      · by_contra hne
        obtain ⟨id,hid⟩ := occupied_of_not_empty hk hne
        have hmem : id ∈ b₁.reqIdToIndex.keys := by
          rw [← AList.mem_keys, ← AList.lookup_isSome, (hplaced.index id k).mpr hid]
          rfl
        have hpos := length_pos_of_mem hmem
        unfold numReqs at hzero
        omega
      · intro i hi
        simp [trim] at hi
    · rw [if_neg hzero]
      have hflag : b₁.isRemovedSorted = true := by
        rw [hb₁]
        unfold ensureRemovedSorted
        split
        · assumption
        · rfl
      have hlast : b₁.numReqs+b₁.removed.length-1 = b₁.reqIds.length-1 := by
        unfold numReqs
        omega
      have hpos : 0 < b₁.reqIds.length := by
        unfold numReqs at hzero
        omega
      have hsink : Sinking b₁ (b₁.numReqs+b₁.removed.length-1) := by
        rw [hlast]
        refine ⟨fun i _ => hopen'.holes.mem_iff i, fun i hi hi' => by omega, ?_, hflag, by omega, ?_⟩
        · exact (hsorted.and hopen'.holes.nodup).imp fun h => lt_of_le_of_ne h.1 (Ne.symm h.2)
        · obtain ⟨id,hid⟩ := exists_mem_of_length_pos (Nat.pos_of_ne_zero hzero)
          rw [← AList.mem_keys, ← AList.lookup_isSome, isSome_iff_exists] at hid
          obtain ⟨i,hi⟩ := hid
          exact ⟨i, id, (hplaced.index id i).mp hi⟩
      obtain ⟨b',m,hloop,hplaced',hsplit,hkeep⟩ := condenseLoop_spec _ hsink hplaced le_rfl
      have hm : b₁.numReqs = m+1 := by
        rw [← hkeep, numReqs, hplaced'.index.length_keys, hsplit.countP_eq]
      rw [hloop, hm]
      refine ⟨b'.trim (m+1), rfl, hplaced'.trim fun k hk hk' => hsplit.2.2 k (by omega) hk', ?_⟩
      intro i hi
      rw [show (b'.trim (m+1)).reqIds = b'.reqIds.take (m+1) from rfl] at hi ⊢
      rw [length_take] at hi
      rw [getElem?_take, if_pos (by omega)]
      exact hsplit.2.1 i (by omega)

end Condense

end InputBatch

end MetaZenith
