import MetaZenith.BlockHolders

/-! The holders of blocks in all groups of a manager, and what one call of the manager does to
them. -/

namespace MetaZenith.KVCache

open SingleTypeKVCacheManager List Option

universe u v w

set_option linter.unusedSectionVars false

open SingleTypeKVCacheManager (Account Grows Took Frame)

section Groups

variable {H : Type u} [DecidableEq H]

def totalLoad (ms : List (SingleTypeKVCacheManager H)) (r : RequestId) (b : ℕ) : ℤ :=
  (ms.map fun m => m.load r b).sum

def blocksOf (ms : List (SingleTypeKVCacheManager H)) (r : RequestId) : List ℕ :=
  ms.flatMap fun m => m.reqToBlocks r

def allCopyEnds (ms : List (SingleTypeKVCacheManager H)) : List ℕ :=
  ms.flatMap fun m => m.copyEnds

variable {ms ms' : List (SingleTypeKVCacheManager H)} {r : RequestId} {b : ℕ}

@[simp] theorem totalLoad_nil : totalLoad ([] : List (SingleTypeKVCacheManager H)) r b = 0 := rfl

@[simp] theorem totalLoad_cons (m : SingleTypeKVCacheManager H) :
    totalLoad (m :: ms) r b = m.load r b+totalLoad ms r b := by
  simp [totalLoad]

theorem totalLoad_nonneg (ms : List (SingleTypeKVCacheManager H)) (r : RequestId) (b : ℕ) :
    0 ≤ totalLoad ms r b := by
  induction ms with
  | nil => exact le_rfl
  | cons m ms ih =>
    rw [totalLoad_cons]
    exact add_nonneg (m.load_nonneg r b) ih

theorem totalLoad_eq (ms : List (SingleTypeKVCacheManager H)) (r : RequestId) (b : ℕ) :
    totalLoad ms r b = (blocksOf ms r).count b+(allCopyEnds ms).count b := by
  induction ms with
  | nil => rfl
  | cons m ms ih =>
    rw [totalLoad_cons, ih, load, blocksOf, blocksOf, allCopyEnds,
      allCopyEnds, flatMap_cons, flatMap_cons, count_append, count_append]
    push_cast
    ring

theorem totalLoad_pos_iff : 0 < totalLoad ms r b ↔ b ∈ blocksOf ms r ∨ b ∈ allCopyEnds ms := by
  rw [totalLoad_eq, ← count_pos_iff, ← count_pos_iff (l := allCopyEnds ms)]
  omega

/-- The reference counts are those of the holders: `base` of others, and the request and the
copies in all groups. -/
structure Ledger (r : RequestId) (base : ℕ → ℤ) (p : BlockPool H)
    (ms : List (SingleTypeKVCacheManager H)) : Prop where
  sound : p.Sound
  nonneg : ∀ b, b ≠ BlockPool.nullBlock → 0 ≤ base b
  refs : ∀ b, b ≠ BlockPool.nullBlock → (p.blocks b).refCnt = base b+totalLoad ms r b

variable {base : ℕ → ℤ} {p p' : BlockPool H} {m m' : SingleTypeKVCacheManager H}

theorem Ledger.head (h : Ledger r base p (m :: ms)) :
    Account r (fun b => base b+totalLoad ms r b) p m [] := by
  refine ⟨h.sound,fun b hb => add_nonneg (h.nonneg b hb) (totalLoad_nonneg ms r b),fun b hb => ?_⟩
  rw [h.refs b hb, totalLoad_cons, count_nil]
  push_cast
  ring

theorem Ledger.of_head (hbase : ∀ b, b ≠ BlockPool.nullBlock → 0 ≤ base b)
    (h : Account r (fun b => base b+totalLoad ms r b) p m []) : Ledger r base p (m :: ms) := by
  refine ⟨h.sound,hbase,fun b hb => ?_⟩
  rw [h.refs b hb, totalLoad_cons, count_nil]
  push_cast
  ring

theorem Ledger.tail (h : Ledger r base p (m :: ms)) : Ledger r (fun b => base b+m.load r b) p ms := by
  refine ⟨h.sound,fun b hb => add_nonneg (h.nonneg b hb) (m.load_nonneg r b),fun b hb => ?_⟩
  rw [h.refs b hb, totalLoad_cons]
  ring

theorem Ledger.of_tail (hbase : ∀ b, b ≠ BlockPool.nullBlock → 0 ≤ base b)
    (h : Ledger r (fun b => base b+m.load r b) p ms) : Ledger r base p (m :: ms) := by
  refine ⟨h.sound,hbase,fun b hb => ?_⟩
  rw [h.refs b hb, totalLoad_cons]
  ring

def OthersKept (r : RequestId) (m m' : SingleTypeKVCacheManager H) : Prop :=
  ∀ r', r' ≠ r → m'.reqToBlocks r' = m.reqToBlocks r'

theorem OthersKept.of_frame (h : Frame r m m') : OthersKept r m m' := h.reqToBlocks

def CopiesKept (m m' : SingleTypeKVCacheManager H) : Prop :=
  m.pendingCowCopies <+: m'.pendingCowCopies

structure TookAll (r : RequestId) (base : ℕ → ℤ) (p p' : BlockPool H)
    (ms ms' : List (SingleTypeKVCacheManager H)) : Prop where
  ledger : Ledger r base p' ms'
  grows : Grows p p'
  groups : List.Forall₂ (fun m m' => OthersKept r m m' ∧ CopiesKept m m') ms ms'

theorem TookAll.refl (h : Ledger r base p ms) : TookAll r base p p ms ms :=
  ⟨h,.refl p,forall₂_same.mpr fun _ _ => ⟨fun _ _ => rfl,prefix_rfl⟩⟩

theorem TookAll.trans {ms'' : List (SingleTypeKVCacheManager H)} {p'' : BlockPool H}
    (h : TookAll r base p p' ms ms') (h' : TookAll r base p' p'' ms' ms'') :
    TookAll r base p p'' ms ms'' := by
  refine ⟨h'.ledger,h.grows.trans h'.grows,?_⟩
  have hgroups := h.groups
  have hgroups' := h'.groups
  clear h h'
  induction hgroups generalizing ms'' with
  | nil =>
    cases hgroups'
    exact .nil
  | cons hm _ ih =>
    cases hgroups' with
    | cons hm' htail =>
      exact .cons ⟨fun r' hr => (hm'.1 r' hr).trans (hm.1 r' hr),hm.2.trans hm'.2⟩ (ih htail)

theorem Ledger.threadPool {α : Type v} {β : Type w}
    {f : BlockPool H → α → Option (BlockPool H × β)} (before : α → SingleTypeKVCacheManager H)
    (after : β → SingleTypeKVCacheManager H) {as : List α} {bs : List β}
    (hstep : ∀ a ∈ as, ∀ (base : ℕ → ℤ) q q' b, Account r base q (before a) [] → f q a = some (q',b) →
        Took r base q q' (before a) (after b) ∧ OthersKept r (before a) (after b))
    (h : Ledger r base p (as.map before)) (hrun : threadPool f p as = some (p',bs)) :
    TookAll r base p p' (as.map before) (bs.map after) := by
  induction as generalizing p bs base with
  | nil =>
    cases hrun
    exact .refl h
  | cons a as ih =>
    obtain ⟨⟨q,c⟩,hf,hrest⟩ := bind_eq_some_iff.mp hrun
    obtain ⟨⟨q',cs⟩,hthread,heq⟩ := Option.map_eq_some_iff.mp hrest
    cases heq
    obtain ⟨htook,hothers⟩ := hstep a mem_cons_self _ p q c h.head hf
    have hq : Ledger r base q (after c :: as.map before) := .of_head h.nonneg htook.account
    have hall := ih (fun a' ha' => hstep a' (mem_cons_of_mem _ ha')) hq.tail hthread
    exact ⟨.of_tail h.nonneg hall.ledger,htook.grows.trans hall.grows,
      .cons ⟨hothers,htook.copies⟩ hall.groups⟩

variable {f : BlockPool H → SingleTypeKVCacheManager H → BlockPool H × SingleTypeKVCacheManager H}

theorem Ledger.mapPool
    (hstep : ∀ (base : ℕ → ℤ) q m, Account r base q m [] → Account r base (f q m).1 (f q m).2 [])
    (h : Ledger r base p ms) : Ledger r base (mapPool f p ms).1 (mapPool f p ms).2 := by
  induction ms generalizing p base with
  | nil => exact h
  | cons m ms ih =>
    have hq : Ledger r base (f p m).1 ((f p m).2 :: ms) := .of_head h.nonneg (hstep _ p m h.head)
    exact .of_tail h.nonneg (ih hq.tail)

theorem mapPool_forall₂ {R : SingleTypeKVCacheManager H → SingleTypeKVCacheManager H → Prop}
    (hR : ∀ q m, R m (f q m).2) (p : BlockPool H) (ms : List (SingleTypeKVCacheManager H)) :
    List.Forall₂ R ms (mapPool f p ms).2 := by
  induction ms generalizing p with
  | nil => exact .nil
  | cons m ms ih => exact .cons (hR p m) (ih _)

end Groups

namespace KVCacheManager

variable {H : Type u} [DecidableEq H] {k k' : KVCacheManager H} {r : RequestId} {base : ℕ → ℤ}
  {request : KVRequest H} {args : SlotArgs}

def skippedBlocks (k : KVCacheManager H) (r : RequestId) (processed : ℕ) : List ℕ :=
  (blocksOf k.singleTypeManagers r).diff
    (blocksOf (k.removeSkippedBlocks r processed).singleTypeManagers r)

theorem mem_blocksOf_removeSkippedBlocks {n b : ℕ} (hb : b ∈ blocksOf k.singleTypeManagers r)
    (hkept : b ∉ k.skippedBlocks r n) :
    b ∈ blocksOf (k.removeSkippedBlocks r n).singleTypeManagers r := by
  have hcount := count_pos_iff.mpr hb
  have hzero := count_eq_zero_of_not_mem hkept
  rw [skippedBlocks, count_diff] at hzero
  exact count_pos_iff.mp (by omega)

theorem ledger_removeSkippedBlocks (h : Ledger r base k.blockPool k.singleTypeManagers) (n : ℕ) :
    Ledger r base (k.removeSkippedBlocks r n).blockPool
      (k.removeSkippedBlocks r n).singleTypeManagers :=
  h.mapPool fun _ _ _ hm => hm.removeSkippedBlocks n

theorem groups_removeSkippedBlocks (k : KVCacheManager H) (r : RequestId) (n : ℕ) :
    List.Forall₂ (fun m m' => OthersKept r m m' ∧ m'.pendingCowCopies = m.pendingCowCopies)
      k.singleTypeManagers (k.removeSkippedBlocks r n).singleTypeManagers := by
  refine mapPool_forall₂ (fun q m => ⟨.of_frame (m.frame_removeSkippedBlocks q r n),?_⟩) _ _
  have hrange (b : ℕ) : (m.removeBlocksInRange q r 0 b).2.pendingCowCopies = m.pendingCowCopies :=
    rfl
  have hlast (m : SingleTypeKVCacheManager H) (q : BlockPool H) :
      (m.freeLastState q r n).2.pendingCowCopies = m.pendingCowCopies := by
    simp only [SingleTypeKVCacheManager.freeLastState]
    split
    · split <;> rfl
    · rfl
  simp only [SingleTypeKVCacheManager.removeSkippedBlocks]
  split
  · rw [hlast]
    split
    · rfl
    · exact hrange _
  · split
    · rfl
    · exact hrange _

theorem tookAll_allocateNewComputedBlocks {lists : List (List ℕ)} {numLocal numExternal : ℕ}
    (h : Ledger r base k.blockPool k.singleTypeManagers)
    (halloc : k.allocateNewComputedBlocks r lists numLocal numExternal = some k') :
    TookAll r base k.blockPool k'.blockPool k.singleTypeManagers k'.singleTypeManagers := by
  simp only [allocateNewComputedBlocks] at halloc
  split at halloc
  · split at halloc
    · cases halloc
      exact .refl h
    · cases halloc
  obtain ⟨hlen,halloc⟩ := ite_none_left_eq_some.mp halloc
  obtain ⟨⟨q,managers⟩,hlocal,halloc⟩ := bind_eq_some_iff.mp halloc
  have hzip : (k.singleTypeManagers.zip lists).map Prod.fst = k.singleTypeManagers :=
    map_fst_zip (not_lt.mp hlen)
  have hfirst : TookAll r base k.blockPool q k.singleTypeManagers managers := by
    have hrun := Ledger.threadPool Prod.fst id
      (fun a _ base q q' b hq hf => ⟨hq.addLocalComputedBlocks hf,?_⟩) (by rwa [hzip]) hlocal
    · rwa [hzip, List.map_id] at hrun
    · obtain ⟨-,-,rfl⟩ := addLocalComputedBlocks_cases hf
      exact .of_frame (frame_adoptHits ..)
  dsimp only at halloc
  split at halloc
  · cases halloc
    exact hfirst
  · obtain ⟨⟨q',managers'⟩,hext,heq⟩ := Option.map_eq_some_iff.mp halloc
    cases heq
    refine hfirst.trans ?_
    have hrun := Ledger.threadPool id id
      (fun a _ base q q' b hq hf => ⟨hq.allocateExternalComputedBlocks hf,
        .of_frame (frame_allocateExternalComputedBlocks hf)⟩)
      (by rw [List.map_id]; exact hfirst.ledger) hext
    rwa [List.map_id, List.map_id] at hrun

theorem tookAll_allocateNewBlocks {numTokens main : ℕ} {new : List (List ℕ)}
    (h : Ledger r base k.blockPool k.singleTypeManagers)
    (halloc : k.allocateNewBlocks r numTokens main = some (new,k')) :
    TookAll r base k.blockPool k'.blockPool k.singleTypeManagers k'.singleTypeManagers := by
  obtain ⟨⟨q,results⟩,hthread,heq⟩ := Option.map_eq_some_iff.mp halloc
  cases heq
  have hrun := Ledger.threadPool id Prod.snd
    (fun a _ base q q' b hq hf => ?_) (by rwa [List.map_id]) hthread
  · rwa [List.map_id] at hrun
  · obtain ⟨⟨ret,q'',m''⟩,hnew,heq⟩ := Option.map_eq_some_iff.mp hf
    cases heq
    exact ⟨hq.allocateNewBlocks hnew,.of_frame (frame_allocateNewBlocks hnew)⟩

theorem tookAll_cacheBlocks {n : ℕ} (h : Ledger request.requestId base k.blockPool k.singleTypeManagers)
    (hcache : k.cacheBlocks request n = some k') :
    TookAll request.requestId base k.blockPool k'.blockPool k.singleTypeManagers
      k'.singleTypeManagers := by
  rw [cacheBlocks] at hcache
  split at hcache
  · obtain ⟨⟨q,managers⟩,hthread,heq⟩ := Option.map_eq_some_iff.mp hcache
    cases heq
    have hrun := Ledger.threadPool id id
      (fun a _ base q q' b hq hf => ⟨hq.cacheBlocks hf,.of_frame (cacheFrame_cacheBlocks hf).toFrame⟩)
      (by rwa [List.map_id]) hthread
    rwa [List.map_id, List.map_id] at hrun
  · cases hcache
    exact .refl h

theorem tookAll_commitSlots {numLocal total slots : ℕ} {new : List (List ℕ)}
    (h : Ledger request.requestId base k.blockPool k.singleTypeManagers)
    (hcommit : k.commitSlots request args numLocal total slots = some (new,k')) :
    TookAll request.requestId base k.blockPool k'.blockPool k.singleTypeManagers
      k'.singleTypeManagers := by
  simp only [commitSlots] at hcommit
  obtain ⟨k₁,hhits,hcommit⟩ := bind_eq_some_iff.mp hcommit
  have h₁ : TookAll request.requestId base k.blockPool k₁.blockPool k.singleTypeManagers
      k₁.singleTypeManagers := by
    split at hhits
    · exact tookAll_allocateNewComputedBlocks h hhits
    · cases hhits
      exact .refl h
  obtain ⟨⟨blocks,k₂⟩,halloc,hcommit⟩ := bind_eq_some_iff.mp hcommit
  have h₂ := h₁.trans (tookAll_allocateNewBlocks h₁.ledger halloc)
  dsimp only at hcommit
  split at hcommit
  · cases hcommit
    exact h₂
  · obtain ⟨k₃,hcache,heq⟩ := Option.map_eq_some_iff.mp hcommit
    cases heq
    exact h₂.trans (tookAll_cacheBlocks h₂.ledger hcache)

theorem ledger_free (h : Ledger r base k.blockPool k.singleTypeManagers) :
    Ledger r base (k.free r).blockPool (k.free r).singleTypeManagers :=
  h.mapPool fun _ _ _ hm => hm.free

theorem groups_free (k : KVCacheManager H) (r : RequestId) :
    List.Forall₂ (fun m m' => OthersKept r m m' ∧ m'.pendingCowCopies = m.pendingCowCopies)
      k.singleTypeManagers (k.free r).singleTypeManagers :=
  mapPool_forall₂ (fun _ m => ⟨.of_frame (m.frame_popBlocksForFree r),rfl⟩) _ _

theorem totalLoad_popBlocksForFree (k : KVCacheManager H) (r : RequestId) (b : ℕ) :
    totalLoad (k.popBlocksForFree r).2.singleTypeManagers r b+(k.popBlocksForFree r).1.count b =
      totalLoad k.singleTypeManagers r b := by
  simp only [popBlocksForFree]
  induction k.singleTypeManagers with
  | nil => rfl
  | cons m ms ih =>
    rw [map_cons, totalLoad_cons, totalLoad_cons, flatMap_cons, count_append, ← ih,
      ← m.load_popBlocksForFree r b]
    push_cast
    ring

theorem groups_popBlocksForFree (k : KVCacheManager H) (r : RequestId) :
    List.Forall₂ (fun m m' => OthersKept r m m' ∧ m'.pendingCowCopies = m.pendingCowCopies)
      k.singleTypeManagers (k.popBlocksForFree r).2.singleTypeManagers := by
  refine forall₂_map_right_iff.mpr (forall₂_same.mpr fun m _ => ⟨?_,rfl⟩)
  exact .of_frame (m.frame_popBlocksForFree r)

end KVCacheManager

end MetaZenith.KVCache
