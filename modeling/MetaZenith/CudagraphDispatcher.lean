import MetaZenith.ContextBucket
import MetaZenith.TurboQuantSharedGraph

/-! `CudagraphDispatcher`: the keys are the product of capture sizes, LoRA counts, context buckets and
row sharing, built by three successive rewrites; a look-up computes its key again from the batch. -/

namespace MetaZenith.Cudagraph

open List

variable {sizes : List ℕ} {bs : ℕ} {cfg : Config} {keys : List BatchDescriptor}
  {key : BatchDescriptor} {α β ε : Type} {mode : CUDAGraphMode} {d : Dispatcher}

inductive CUDAGraphMode where
  | NONE
  | PIECEWISE
  | FULL
  | FULL_DECODE_ONLY
  | FULL_AND_PIECEWISE
  deriving DecidableEq

namespace CUDAGraphMode

def separateRoutine : CUDAGraphMode → Bool
  | FULL_DECODE_ONLY | FULL_AND_PIECEWISE => true
  | _ => false

def decodeMode : CUDAGraphMode → CUDAGraphMode
  | FULL_DECODE_ONLY | FULL_AND_PIECEWISE => FULL
  | mode => mode

def mixedMode : CUDAGraphMode → CUDAGraphMode
  | FULL_DECODE_ONLY => NONE
  | FULL_AND_PIECEWISE => PIECEWISE
  | mode => mode

def hasMode (mode m : CUDAGraphMode) : Bool :=
  if mode.separateRoutine then mode.decodeMode == m || mode.mixedMode == m else mode == m

end CUDAGraphMode

open CUDAGraphMode

structure BatchDescriptor where
  numTokens : ℕ
  numReqs : Option ℕ := none
  uniform : Bool := false
  maxSeqLen : Option ℕ := none
  tqSpecDecodeShared : Bool := false
  hasLora : Bool := false
  numActiveLoras : ℕ := 0
  deriving DecidableEq

structure LoraConfig where
  maxLoras : ℕ
  specializeActiveLora : Bool

structure Config where
  cudagraphCaptureSizes : List ℕ
  ascending : cudagraphCaptureSizes.Pairwise (· ≤ ·)
  compileSizes : List ℕ := []
  cudagraphSpecializeLora : Bool := true
  loraConfig : Option LoraConfig := none
  maxNumSeqs : ℕ
  numSpeculativeTokens : ℕ

namespace Config

def maxCudagraphCaptureSize (cfg : Config) : ℕ := (cfg.cudagraphCaptureSizes.getLast?).getD 0

def uniformDecodeQueryLen (cfg : Config) : ℕ := 1+cfg.numSpeculativeTokens

def specializeLoraCount (cfg : Config) : Bool :=
  match cfg.loraConfig with
  | none => false
  | some lora => lora.specializeActiveLora

end Config

inductive DispatchError where
  | compileSizePadded (size padded : ℕ)
  | indexError
  | notDivisible
  | noAllowedModes
  | noLoraConfig
  | noMatch
  | badSpecialization
  deriving DecidableEq

structure Dispatcher where
  cudagraphMode : CUDAGraphMode
  bsToPaddedGraphSize : List ℕ := []
  capturedLoraCounts : List ℕ := []
  piecewiseKeys : List BatchDescriptor := []
  fullKeys : List BatchDescriptor := []

def padRange (table : List ℕ) (start stop : ℕ) : List ℕ :=
  (List.range' start (stop-start)).foldl
    (fun table bs => table.set bs (if bs = start then start else stop)) table

def padRanges (table : List ℕ) (ranges : List (ℕ × ℕ)) : List ℕ :=
  ranges.foldl (fun table r => padRange table r.2 r.1) table

def computeBsToPaddedGraphSize (sizes : List ℕ) (maxSize : ℕ) : List ℕ :=
  padRanges (List.replicate (maxSize+1) 0) ((sizes ++ [maxSize+1]).zip (0 :: sizes))

def validateCompileSizes (cfg : Config) (table : List ℕ) : Except DispatchError Unit :=
  cfg.compileSizes.forM fun size =>
    if size ≤ cfg.maxCudagraphCaptureSize then
      match table[size]? with
      | none => .error .indexError
      | some padded => if padded = size then .ok () else .error (.compileSizePadded size padded)
    else .ok ()

def getCapturedLoraCounts (maxLoras : ℕ) (specialize : Bool) : List ℕ :=
  if specialize then (List.range' 1 (maxLoras+1)).filter fun n => n &&& (n-1) = 0 ∨ n = maxLoras+1
  else [maxLoras+1]

def getLoraCases (cfg : Config) : List ℕ :=
  match cfg.loraConfig with
  | none => [0]
  | some lora =>
    if cfg.cudagraphSpecializeLora then
      0 :: getCapturedLoraCounts lora.maxLoras cfg.specializeLoraCount
    else [lora.maxLoras+1]

def createPaddedBatchDescriptor (cfg : Config) (mode : CUDAGraphMode) (table : List ℕ)
    (numTokens : ℕ) (uniformDecode hasLora : Bool) (numActiveLoras : ℕ) :
    Except DispatchError BatchDescriptor :=
  match table[numTokens]? with
  | none => .error .indexError
  | some numTokensPadded =>
    if uniformDecode && mode.hasMode FULL then
      if numTokensPadded%cfg.uniformDecodeQueryLen = 0 then
        .ok { numTokens := numTokensPadded
              numReqs := some (min (numTokensPadded/cfg.uniformDecodeQueryLen) cfg.maxNumSeqs)
              uniform := true
              hasLora
              numActiveLoras }
      else .error .notDivisible
    else
      .ok { numTokens := numTokensPadded
            numReqs := some (min numTokensPadded cfg.maxNumSeqs)
            hasLora
            numActiveLoras }

def product (sizes loraCases : List ℕ) : List (ℕ × ℕ) :=
  sizes.flatMap fun bs => loraCases.map fun numActiveLoras => (bs,numActiveLoras)

def addCudagraphKeys (keys descs : List BatchDescriptor) : List BatchDescriptor :=
  descs.foldl (fun keys key => keys.insert key) keys

def mixedKeys (cfg : Config) (mode : CUDAGraphMode) (table : List ℕ) :
    Except DispatchError (List BatchDescriptor) :=
  if mode.mixedMode = NONE then .ok []
  else (product cfg.cudagraphCaptureSizes (getLoraCases cfg)).mapM fun c =>
    (createPaddedBatchDescriptor cfg mode table c.1 false (c.2 > 0) c.2).map fun desc =>
      if mode.mixedMode = PIECEWISE then { desc with numReqs := none, uniform := false } else desc

def captureSizesForDecode (cfg : Config) (uniformDecodeQueryLen : ℕ) : List ℕ :=
  cfg.cudagraphCaptureSizes.filter fun x =>
    x ≤ uniformDecodeQueryLen*cfg.maxNumSeqs ∧ uniformDecodeQueryLen ≤ x

def decodeKeys (cfg : Config) (mode : CUDAGraphMode) (table : List ℕ) (uniformDecodeQueryLen : ℕ) :
    Except DispatchError (List BatchDescriptor) :=
  if mode.decodeMode = FULL ∧ mode.separateRoutine then
    (product (captureSizesForDecode cfg uniformDecodeQueryLen) (getLoraCases cfg)).mapM fun c =>
      createPaddedBatchDescriptor cfg mode table c.1 true (c.2 > 0) c.2
  else .ok []

def initializeCudagraphKeys (cfg : Config) (mode : CUDAGraphMode) (uniformDecodeQueryLen : ℕ) :
    Except DispatchError Dispatcher :=
  if mode = NONE then .ok { cudagraphMode := mode }
  else do
    let table := computeBsToPaddedGraphSize cfg.cudagraphCaptureSizes cfg.maxCudagraphCaptureSize
    validateCompileSizes cfg table
    let mixed ← mixedKeys cfg mode table
    let decode ← decodeKeys cfg mode table uniformDecodeQueryLen
    let full := if mode.mixedMode = FULL then addCudagraphKeys [] mixed else []
    .ok { cudagraphMode := mode
          bsToPaddedGraphSize := table
          capturedLoraCounts := (getLoraCases cfg).filter (· ≠ 0)
          piecewiseKeys := if mode.mixedMode = PIECEWISE then addCudagraphKeys [] mixed else []
          fullKeys := addCudagraphKeys full decode }

def specializeFullCudagraphsByMaxSeqLen (maxSeqLens : List ℕ) (d : Dispatcher) :
    Except DispatchError Dispatcher :=
  if maxSeqLens ≠ [] ∧ (∀ value ∈ maxSeqLens, 0 < value) ∧ maxSeqLens.Nodup ∧
      ∀ key ∈ d.fullKeys, key.maxSeqLen = none then
    let keys := d.fullKeys.flatMap fun key =>
      maxSeqLens.map fun maxSeqLen => { key with maxSeqLen := some maxSeqLen }
    .ok { d with fullKeys := addCudagraphKeys [] keys }
  else .error .badSpecialization

def specializeFullCudagraphsForTqSpecDecode (eligibleNumTokens : List ℕ) (d : Dispatcher) :
    Except DispatchError Dispatcher :=
  if eligibleNumTokens ≠ [] ∧ ∀ key ∈ d.fullKeys, key.tqSpecDecodeShared = false then
    let eligible := d.fullKeys.filter fun key => key.uniform ∧ key.numTokens ∈ eligibleNumTokens
    let sharedKeys := eligible.map fun key => { key with tqSpecDecodeShared := true }
    .ok { d with fullKeys := addCudagraphKeys d.fullKeys sharedKeys }
  else .error .badSpecialization

/-- `_check_and_update_cudagraph_mode` with a TurboQuant backend, once the mode is resolved. -/
def setUp (cfg : Config) (mode : CUDAGraphMode) (maxSeqLens : List ℕ) :
    Except DispatchError Dispatcher := do
  let d ← initializeCudagraphKeys cfg mode cfg.uniformDecodeQueryLen
  let d ← specializeFullCudagraphsByMaxSeqLen maxSeqLens d
  if cfg.uniformDecodeQueryLen = 4 then specializeFullCudagraphsForTqSpecDecode [8,16] d else .ok d

structure Call where
  numTokens : ℕ
  uniformDecode : Bool := false
  hasLora : Bool := false
  numActiveLoras : ℕ := 0
  fullCudagraphMaxSeqLen : Option ℕ := none
  fullCudagraphTqSpecDecodeShared : Bool := false
  validModes : Finset CUDAGraphMode := ∅
  invalidModes : Finset CUDAGraphMode := ∅

def Call.allowedModes (c : Call) : Finset CUDAGraphMode :=
  (if c.validModes = ∅ then {NONE,PIECEWISE,FULL} else c.validModes) \ c.invalidModes

def effectiveNumActiveLoras (cfg : Config) (d : Dispatcher) (c : Call) : Except DispatchError ℕ :=
  if c.hasLora ∧ c.numActiveLoras > 0 then
    if cfg.specializeLoraCount then
      -- `bisect_left`
      .ok ((d.capturedLoraCounts.find? fun count => c.numActiveLoras ≤ count).getD c.numActiveLoras)
    else match cfg.loraConfig with
      | none => .error .noLoraConfig
      | some lora => .ok (lora.maxLoras+1)
  else .ok c.numActiveLoras

def Call.fullKey (c : Call) (desc : BatchDescriptor) : BatchDescriptor :=
  { desc with
    maxSeqLen := c.fullCudagraphMaxSeqLen
    tqSpecDecodeShared := c.fullCudagraphTqSpecDecodeShared }

def piecewiseKey (desc : BatchDescriptor) : BatchDescriptor :=
  { desc with numReqs := none, uniform := false, maxSeqLen := none, tqSpecDecodeShared := false }

def lookUp (d : Dispatcher) (c : Call) (desc : BatchDescriptor) :
    Except DispatchError (CUDAGraphMode × BatchDescriptor) :=
  if FULL ∈ c.allowedModes ∧ c.fullKey desc ∈ d.fullKeys then .ok (FULL,c.fullKey desc)
  else if PIECEWISE ∈ c.allowedModes ∧ piecewiseKey desc ∈ d.piecewiseKeys then
    .ok (PIECEWISE,piecewiseKey desc)
  else if NONE ∈ c.allowedModes then .ok (NONE,{ numTokens := c.numTokens })
  else .error .noMatch

def dispatch (cfg : Config) (d : Dispatcher) (c : Call) :
    Except DispatchError (CUDAGraphMode × BatchDescriptor) :=
  if c.allowedModes = ∅ then .error .noAllowedModes
  else if d.cudagraphMode = NONE ∨ cfg.maxCudagraphCaptureSize < c.numTokens ∨
      c.allowedModes ⊆ {NONE} then .ok (NONE,{ numTokens := c.numTokens })
  else do
    let loras ← effectiveNumActiveLoras cfg d c
    let desc ← createPaddedBatchDescriptor cfg d.cudagraphMode d.bsToPaddedGraphSize c.numTokens
      (c.uniformDecode && d.cudagraphMode.separateRoutine) c.hasLora loras
    lookUp d c desc

def captureKey (desc : BatchDescriptor) : ℕ ×ₗ ℕ ×ₗ ℕ ×ₗ Bool :=
  toLex (desc.numTokens,toLex (desc.numActiveLoras,
    toLex ((desc.maxSeqLen).getD 0,desc.tqSpecDecodeShared)))

def getCaptureDescs (d : Dispatcher) : List (CUDAGraphMode × List BatchDescriptor) :=
  if d.cudagraphMode = NONE then []
  else ([(PIECEWISE,d.piecewiseKeys),(FULL,d.fullKeys)].filter fun m => m.2 ≠ []).map fun m =>
    (m.1,m.2.insertionSort fun a b => captureKey b ≤ captureKey a)

def PaddedTo (sizes : List ℕ) (n p : ℕ) : Prop := IsLeast {x | x ∈ 0 :: sizes ∧ n ≤ x} p

theorem length_padRange (table : List ℕ) (start stop : ℕ) :
    (padRange table start stop).length = table.length := by
  rw [padRange]
  generalize List.range' start (stop-start) = range
  induction range generalizing table with
  | nil => rfl
  | cons bs range ih => rw [foldl_cons, ih, length_set]

theorem padRange_getElem? {table : List ℕ} {start stop pos : ℕ} (hpos : pos < table.length) :
    (padRange table start stop)[pos]? = if start ≤ pos ∧ pos < stop then
      some (if pos = start then start else stop) else table[pos]? := by
  have hall (f : ℕ → ℕ) (k a : ℕ) (table : List ℕ) (hpos : pos < table.length) :
      ((List.range' a k).foldl (fun table bs => table.set bs (f bs)) table)[pos]? =
        if a ≤ pos ∧ pos < a+k then some (f pos) else table[pos]? := by
    induction k generalizing a table with
    | zero => rw [if_neg (by omega)]; rfl
    | succ k ih =>
      rw [range'_succ, foldl_cons, ih _ _ (by rw [length_set]; exact hpos)]
      rcases eq_or_ne a pos with rfl | hne
      · rw [if_neg (by omega), if_pos (by omega), getElem?_set_self hpos]
      · rw [getElem?_set_ne hne]
        by_cases hin : a+1 ≤ pos ∧ pos < a+1+k
        · rw [if_pos hin, if_pos (by omega)]
        · rw [if_neg hin, if_neg (by omega)]
  rw [padRange, hall _ _ _ _ hpos]
  by_cases hin : start ≤ pos ∧ pos < stop
  · rw [if_pos hin, if_pos (by omega)]
  · rw [if_neg hin, if_neg (by omega)]

/-- The ranges from `start` on: positions before `start` are left alone, each one after it gets the
next boundary. -/
theorem padRanges_spec {start last pos : ℕ} {table : List ℕ}
    (hasc : (start :: sizes).Pairwise (· ≤ ·)) (hlast : (sizes.getLast?).getD start = last)
    (hlen : table.length = last+1) (hpos : pos ≤ last) :
    (pos < start → (padRanges table ((sizes ++ [last+1]).zip (start :: sizes)))[pos]? = table[pos]?) ∧
    (start ≤ pos → ∃ p, (padRanges table ((sizes ++ [last+1]).zip (start :: sizes)))[pos]? = some p ∧
      IsLeast {x | x ∈ start :: sizes ∧ pos ≤ x} p) := by
  induction sizes generalizing start table with
  | nil =>
    obtain rfl : start = last := hlast
    have hrun : padRanges table ((([] : List ℕ) ++ [start+1]).zip [start]) =
        padRange table start (start+1) := rfl
    rw [hrun, padRange_getElem? (by omega)]
    refine ⟨fun hlt => if_neg (by omega),fun hge => ⟨start,?_,⟨mem_cons_self,hpos⟩,?_⟩⟩
    · rw [if_pos (by omega), if_pos (by omega)]
    · intro x hx
      exact (mem_singleton.mp hx.1).ge
  | cons s sizes ih =>
    obtain ⟨hstart,hrest⟩ := pairwise_cons.mp hasc
    have hrun : padRanges table (((s :: sizes) ++ [last+1]).zip (start :: s :: sizes)) =
        padRanges (padRange table start s) ((sizes ++ [last+1]).zip (s :: sizes)) := rfl
    have hlast' : (sizes.getLast?).getD s = last := by
      rw [← hlast, getLast?_cons]
      rfl
    have hlen' : (padRange table start s).length = last+1 := by
      rw [length_padRange]
      exact hlen
    obtain ⟨hbefore,hafter⟩ := ih hrest hlast' hlen'
    have hs := hstart s mem_cons_self
    rw [hrun]
    refine ⟨fun hlt => ?_,fun hge => ?_⟩
    · rw [hbefore (by omega), padRange_getElem? (by omega), if_neg (by omega)]
    rcases Nat.lt_or_ge pos s with hlt | hge'
    · refine ⟨if pos = start then start else s,?_,?_⟩
      · rw [hbefore hlt, padRange_getElem? (by omega), if_pos ⟨hge,hlt⟩]
      · split
        · rename_i heq
          exact ⟨⟨mem_cons_self,heq.le⟩,fun x hx => heq ▸ hx.2⟩
        · refine ⟨⟨mem_cons_of_mem _ mem_cons_self,hlt.le⟩,fun x hx => ?_⟩
          rcases mem_cons.mp hx.1 with rfl | hmem
          · have := hx.2
            omega
          · rcases mem_cons.mp hmem with rfl | hmem
            · exact le_rfl
            · exact (pairwise_cons.mp hrest).1 x hmem
    · obtain ⟨p,hp,⟨hmem,hle⟩,hleast⟩ := hafter hge'
      refine ⟨p,hp,⟨mem_cons_of_mem _ hmem,hle⟩,fun x hx => ?_⟩
      rcases mem_cons.mp hx.1 with rfl | hmem'
      · exact hleast ⟨mem_cons.mpr (.inl (le_antisymm hs (hge'.trans hx.2))),hx.2⟩
      · exact hleast ⟨hmem',hx.2⟩

theorem computeBsToPaddedGraphSize_spec (cfg : Config) {n : ℕ} (hn : n ≤ cfg.maxCudagraphCaptureSize) :
    ∃ p, (computeBsToPaddedGraphSize cfg.cudagraphCaptureSizes cfg.maxCudagraphCaptureSize)[n]? =
      some p ∧ PaddedTo cfg.cudagraphCaptureSizes n p :=
  (padRanges_spec (pairwise_cons.mpr ⟨fun _ _ => Nat.zero_le _,cfg.ascending⟩) rfl
    length_replicate hn).2 (Nat.zero_le _)

theorem PaddedTo.self {p : ℕ} (hbs : bs ∈ sizes) (h : PaddedTo sizes bs p) : p = bs :=
  le_antisymm (h.2 ⟨mem_cons_of_mem _ hbs,le_rfl⟩) h.1.2

theorem PaddedTo.isLeast {n p : ℕ} (h : PaddedTo sizes n p) (hp : p ∈ sizes) :
    IsLeast {x | x ∈ sizes ∧ n ≤ x} p :=
  ⟨⟨hp,h.1.2⟩,fun _ hx => h.2 ⟨mem_cons_of_mem _ hx.1,hx.2⟩⟩

theorem le_maxCudagraphCaptureSize {x : ℕ} (hx : x ∈ cfg.cudagraphCaptureSizes) :
    x ≤ cfg.maxCudagraphCaptureSize := by
  have hasc := cfg.ascending
  rw [Config.maxCudagraphCaptureSize]
  rcases eq_nil_or_concat cfg.cudagraphCaptureSizes with hnil | ⟨front,last,heq⟩
  · rw [hnil] at hx
    cases hx
  · rw [concat_eq_append] at heq
    rw [heq] at hx hasc ⊢
    rw [getLast?_concat, Option.getD_some]
    rcases mem_append.mp hx with hmem | hmem
    · exact (pairwise_append.mp hasc).2.2 x hmem last (mem_singleton_self _)
    · exact (mem_singleton.mp hmem).le

theorem mem_addCudagraphKeys {descs : List BatchDescriptor} :
    key ∈ addCudagraphKeys keys descs ↔ key ∈ keys ∨ key ∈ descs := by
  rw [addCudagraphKeys]
  induction descs generalizing keys with
  | nil => simp
  | cons desc descs ih =>
    rw [foldl_cons, ih, mem_insert_iff, mem_cons, or_assoc, or_left_comm]

variable {f : α → Except ε β} {l : List α}

theorem bind_eq_ok {x : Except ε α} {b : β} (h : x >>= f = .ok b) : ∃ a, x = .ok a ∧ f a = .ok b := by
  cases x with
  | error e => cases h
  | ok a => exact ⟨a,rfl,h⟩

theorem mem_of_mapM_ok {r : List β} (h : l.mapM f = .ok r) {b : β} : b ∈ r ↔ ∃ a ∈ l, f a = .ok b := by
  induction l generalizing r with
  | nil =>
    cases h
    simp
  | cons a l ih =>
    rw [mapM_cons] at h
    obtain ⟨x,ha,h⟩ := bind_eq_ok h
    obtain ⟨xs,hl,h⟩ := bind_eq_ok h
    cases h
    rw [mem_cons, ih hl, exists_mem_cons_iff, ha, Except.ok.injEq, eq_comm]

theorem exists_of_mapM_ok {r : List β} (h : l.mapM f = .ok r) {a : α} (ha : a ∈ l) :
    ∃ b, f a = .ok b := by
  induction l generalizing r with
  | nil => cases ha
  | cons x l ih =>
    rw [mapM_cons] at h
    obtain ⟨b,hb,h⟩ := bind_eq_ok h
    obtain ⟨bs,hbs,-⟩ := bind_eq_ok h
    rcases mem_cons.mp ha with rfl | ha
    · exact ⟨b,hb⟩
    · exact ih hbs ha

def decodeKey (cfg : Config) (bs numActiveLoras : ℕ) : BatchDescriptor where
  numTokens := bs
  numReqs := some (min (bs/cfg.uniformDecodeQueryLen) cfg.maxNumSeqs)
  uniform := true
  hasLora := numActiveLoras > 0
  numActiveLoras := numActiveLoras

theorem mem_product {loraCases : List ℕ} {c : ℕ × ℕ} :
    c ∈ product sizes loraCases ↔ c.1 ∈ sizes ∧ c.2 ∈ loraCases := by
  obtain ⟨bs,l⟩ := c
  simp only [product, mem_flatMap, mem_map, Prod.mk.injEq]
  constructor
  · rintro ⟨_,hbs,_,hl,rfl,rfl⟩
    exact ⟨hbs,hl⟩
  · exact fun ⟨hbs,hl⟩ => ⟨bs,hbs,l,hl,rfl,rfl⟩

theorem padded_size (hbs : bs ∈ cfg.cudagraphCaptureSizes) :
    (computeBsToPaddedGraphSize cfg.cudagraphCaptureSizes cfg.maxCudagraphCaptureSize)[bs]? =
      some bs := by
  obtain ⟨p,hp,hpadded⟩ := computeBsToPaddedGraphSize_spec cfg (le_maxCudagraphCaptureSize hbs)
  rw [hp, hpadded.self hbs]

theorem hasMode_full (h : mode.separateRoutine = true) : mode.hasMode FULL = true := by
  cases mode <;> first | rfl | cases h

/-- At a capture size the decode descriptor is the key, unless the size is no multiple of the query
length. -/
theorem createPaddedBatchDescriptor_size {l : ℕ} (hmode : mode.separateRoutine = true)
    (hbs : bs ∈ cfg.cudagraphCaptureSizes) :
    createPaddedBatchDescriptor cfg mode (computeBsToPaddedGraphSize cfg.cudagraphCaptureSizes
        cfg.maxCudagraphCaptureSize) bs true (l > 0) l =
      if bs%cfg.uniformDecodeQueryLen = 0 then .ok (decodeKey cfg bs l)
      else .error .notDivisible := by
  rw [createPaddedBatchDescriptor, padded_size hbs]
  dsimp only
  rw [hasMode_full hmode]
  rfl

theorem mem_decodeKeys (hmode : mode.separateRoutine = true)
    (h : decodeKeys cfg mode (computeBsToPaddedGraphSize cfg.cudagraphCaptureSizes
      cfg.maxCudagraphCaptureSize) cfg.uniformDecodeQueryLen = .ok keys) :
    key ∈ keys ↔ ∃ bs ∈ captureSizesForDecode cfg cfg.uniformDecodeQueryLen,
      ∃ l ∈ getLoraCases cfg, key = decodeKey cfg bs l := by
  have hdecode : mode.decodeMode = FULL ∧ mode.separateRoutine = true := by
    cases mode <;> first | exact ⟨rfl,rfl⟩ | cases hmode
  rw [decodeKeys, if_pos hdecode] at h
  have hcreate {c : ℕ × ℕ} (hc : c.1 ∈ captureSizesForDecode cfg cfg.uniformDecodeQueryLen) :=
    createPaddedBatchDescriptor_size (l := c.2) hmode (mem_of_mem_filter hc)
  -- no creation failed, so each one gives its key
  have hall (c : ℕ × ℕ) (hc : c ∈ product (captureSizesForDecode cfg cfg.uniformDecodeQueryLen)
      (getLoraCases cfg)) : c.1%cfg.uniformDecodeQueryLen = 0 := by
    obtain ⟨k,hk⟩ := exists_of_mapM_ok h hc
    rw [hcreate (mem_product.mp hc).1] at hk
    by_contra hne
    rw [if_neg hne] at hk
    cases hk
  rw [mem_of_mapM_ok h]
  constructor
  · rintro ⟨c,hc,hkey⟩
    obtain ⟨hbs,hl⟩ := mem_product.mp hc
    rw [hcreate hbs, if_pos (hall c hc)] at hkey
    cases hkey
    exact ⟨c.1,hbs,c.2,hl,rfl⟩
  · rintro ⟨bs,hbs,l,hl,rfl⟩
    have hc : (bs,l) ∈ product (captureSizesForDecode cfg cfg.uniformDecodeQueryLen)
      (getLoraCases cfg) := mem_product.mpr ⟨hbs,hl⟩
    exact ⟨(bs,l),hc,by rw [hcreate hbs, if_pos (hall _ hc)]⟩

theorem mem_mixedKeys (h : mixedKeys cfg mode (computeBsToPaddedGraphSize cfg.cudagraphCaptureSizes
      cfg.maxCudagraphCaptureSize) = .ok keys) (hkey : key ∈ keys) :
    key.numTokens ∈ cfg.cudagraphCaptureSizes ∧ key.uniform = false := by
  rw [mixedKeys] at h
  split at h
  · cases h
    cases hkey
  · obtain ⟨c,hc,hcreate⟩ := (mem_of_mapM_ok h).mp hkey
    have hbs := (mem_product.mp hc).1
    rw [createPaddedBatchDescriptor, padded_size hbs] at hcreate
    cases hcreate
    split <;> exact ⟨hbs,rfl⟩

structure Keys (cfg : Config) (maxSeqLens : List ℕ) (d : Dispatcher) : Prop where
  separate : d.cudagraphMode.separateRoutine = true
  table : d.bsToPaddedGraphSize =
    computeBsToPaddedGraphSize cfg.cudagraphCaptureSizes cfg.maxCudagraphCaptureSize
  piecewise : ∀ key ∈ d.piecewiseKeys, key.numTokens ∈ cfg.cudagraphCaptureSizes ∧ key.uniform = false
  full : ∀ key, key ∈ d.fullKeys ↔
    ∃ bs ∈ captureSizesForDecode cfg cfg.uniformDecodeQueryLen, ∃ l ∈ getLoraCases cfg,
      ∃ maxSeqLen ∈ maxSeqLens, ∃ shared : Bool,
        (shared = true → cfg.uniformDecodeQueryLen = 4 ∧ bs ∈ [8,16]) ∧
        key = { decodeKey cfg bs l with maxSeqLen := some maxSeqLen, tqSpecDecodeShared := shared }

theorem initialized_spec (hmode : mode.separateRoutine = true)
    (h : initializeCudagraphKeys cfg mode cfg.uniformDecodeQueryLen = .ok d) :
    d.cudagraphMode = mode ∧ d.bsToPaddedGraphSize =
      computeBsToPaddedGraphSize cfg.cudagraphCaptureSizes cfg.maxCudagraphCaptureSize ∧
    (∀ key ∈ d.piecewiseKeys, key.numTokens ∈ cfg.cudagraphCaptureSizes ∧ key.uniform = false) ∧
    ∀ key, key ∈ d.fullKeys ↔ ∃ bs ∈ captureSizesForDecode cfg cfg.uniformDecodeQueryLen,
      ∃ l ∈ getLoraCases cfg, key = decodeKey cfg bs l := by
  have hne : mode ≠ NONE := by
    rintro rfl
    cases hmode
  have hmixed : mode.mixedMode ≠ FULL := by
    cases mode <;> first | decide | cases hmode
  rw [initializeCudagraphKeys, if_neg hne] at h
  obtain ⟨_,-,h⟩ := bind_eq_ok h
  obtain ⟨mixed,hm,h⟩ := bind_eq_ok h
  obtain ⟨decode,hd,h⟩ := bind_eq_ok h
  cases h
  refine ⟨rfl,rfl,fun key hkey => ?_,fun key => ?_⟩
  · dsimp only at hkey
    split at hkey
    · rcases mem_addCudagraphKeys.mp hkey with hkey | hkey
      · cases hkey
      · exact mem_mixedKeys hm hkey
    · cases hkey
  · rw [mem_addCudagraphKeys, if_neg hmixed, mem_decodeKeys hmode hd]
    exact or_iff_right (not_mem_nil)

theorem setUp_keys {maxSeqLens : List ℕ} (hmode : mode.separateRoutine = true)
    (h : setUp cfg mode maxSeqLens = .ok d) : Keys cfg maxSeqLens d := by
  rw [setUp] at h
  obtain ⟨d₀,hinit,h⟩ := bind_eq_ok h
  obtain ⟨d₁,hbucket,h⟩ := bind_eq_ok h
  obtain ⟨hmode₀,htable,hpiecewise,hfull⟩ := initialized_spec hmode hinit
  -- one key for each bucket
  have hd₁ : d₁ = { d₀ with fullKeys := d₁.fullKeys } ∧ ∀ key, key ∈ d₁.fullKeys ↔
      ∃ bs ∈ captureSizesForDecode cfg cfg.uniformDecodeQueryLen, ∃ l ∈ getLoraCases cfg,
        ∃ maxSeqLen ∈ maxSeqLens, key = { decodeKey cfg bs l with maxSeqLen := some maxSeqLen } := by
    rw [specializeFullCudagraphsByMaxSeqLen] at hbucket
    split at hbucket
    · cases hbucket
      refine ⟨rfl,fun key => ?_⟩
      rw [mem_addCudagraphKeys]
      simp only [not_mem_nil, false_or, mem_flatMap, mem_map, hfull]
      constructor
      · rintro ⟨_,⟨bs,hbs,l,hl,rfl⟩,maxSeqLen,hmem,rfl⟩
        exact ⟨bs,hbs,l,hl,maxSeqLen,hmem,rfl⟩
      · rintro ⟨bs,hbs,l,hl,maxSeqLen,hmem,rfl⟩
        exact ⟨_,⟨bs,hbs,l,hl,rfl⟩,maxSeqLen,hmem,rfl⟩
    · cases hbucket
  obtain ⟨heq,hfull₁⟩ := hd₁
  have hmode₁ : d₁.cudagraphMode = mode := by rw [heq]; exact hmode₀
  have htable₁ : d₁.bsToPaddedGraphSize =
      computeBsToPaddedGraphSize cfg.cudagraphCaptureSizes cfg.maxCudagraphCaptureSize := by
    rw [heq]
    exact htable
  have hpiecewise₁ : ∀ key ∈ d₁.piecewiseKeys,
      key.numTokens ∈ cfg.cudagraphCaptureSizes ∧ key.uniform = false := by
    rw [heq]
    exact hpiecewise
  split at h
  · rename_i hfour
    rw [specializeFullCudagraphsForTqSpecDecode] at h
    split at h
    · cases h
      refine ⟨by rw [hmode₁]; exact hmode,htable₁,hpiecewise₁,fun key => ?_⟩
      rw [mem_addCudagraphKeys]
      simp only [mem_map, mem_filter, decide_eq_true_eq, hfull₁]
      constructor
      · rintro (⟨bs,hbs,l,hl,maxSeqLen,hmem,rfl⟩ | ⟨_,⟨⟨bs,hbs,l,hl,maxSeqLen,hmem,rfl⟩,-,helig⟩,rfl⟩)
        · exact ⟨bs,hbs,l,hl,maxSeqLen,hmem,false,nofun,rfl⟩
        · exact ⟨bs,hbs,l,hl,maxSeqLen,hmem,true,fun _ => ⟨hfour,helig⟩,rfl⟩
      · rintro ⟨bs,hbs,l,hl,maxSeqLen,hmem,shared,hshared,rfl⟩
        cases shared with
        | false => exact .inl ⟨bs,hbs,l,hl,maxSeqLen,hmem,rfl⟩
        | true =>
          exact .inr ⟨_,⟨⟨bs,hbs,l,hl,maxSeqLen,hmem,rfl⟩,rfl,(hshared rfl).2⟩,rfl⟩
    · cases h
  · rename_i hfour
    cases h
    refine ⟨by rw [hmode₁]; exact hmode,htable₁,hpiecewise₁,fun key => ?_⟩
    rw [hfull₁]
    constructor
    · rintro ⟨bs,hbs,l,hl,maxSeqLen,hmem,rfl⟩
      exact ⟨bs,hbs,l,hl,maxSeqLen,hmem,false,nofun,rfl⟩
    · rintro ⟨bs,hbs,l,hl,maxSeqLen,hmem,shared,hshared,rfl⟩
      cases shared with
      | false => exact ⟨bs,hbs,l,hl,maxSeqLen,hmem,rfl⟩
      | true => exact absurd (hshared rfl).1 hfour

theorem mem_getCaptureDescs (hmode : d.cudagraphMode ≠ NONE)
    (hkeys : (mode,keys) ∈ [(PIECEWISE,d.piecewiseKeys),(FULL,d.fullKeys)]) (hkey : key ∈ keys) :
    ∃ descs, (mode,descs) ∈ getCaptureDescs d ∧ key ∈ descs := by
  rw [getCaptureDescs, if_neg hmode]
  refine ⟨_,mem_map_of_mem (mem_filter.mpr ⟨hkeys,?_⟩),?_⟩
  · exact decide_eq_true (ne_nil_of_mem hkey)
  · exact (perm_insertionSort _ _).mem_iff.mpr hkey

section Lookup

variable {cfg : Config} {maxSeqLens : List ℕ} {d : Dispatcher} {c : Call}

/-- A call as the model runner makes it: within the sizes, NONE allowed, LoRA only with its
configuration, and a uniform batch padded to a multiple of the query length. -/
structure Call.Valid (cfg : Config) (c : Call) : Prop where
  le_max : c.numTokens ≤ cfg.maxCudagraphCaptureSize
  none_allowed : NONE ∈ c.allowedModes
  lora : c.hasLora = true → cfg.loraConfig.isSome = true
  uniform : c.uniformDecode = true → ∀ p, PaddedTo cfg.cudagraphCaptureSizes c.numTokens p →
    cfg.uniformDecodeQueryLen ∣ p

theorem Call.Valid.exists_loras (h : c.Valid cfg) : ∃ l, effectiveNumActiveLoras cfg d c = .ok l := by
  rw [effectiveNumActiveLoras]
  split
  · rename_i hlora
    split
    · exact ⟨_,rfl⟩
    · obtain ⟨lora,hsome⟩ := Option.isSome_iff_exists.mp (h.lora hlora.1)
      rw [hsome]
      exact ⟨_,rfl⟩
  · exact ⟨_,rfl⟩

theorem Keys.mode_ne_none (hd : Keys cfg maxSeqLens d) : d.cudagraphMode ≠ NONE := fun heq => by
  have := hd.separate
  rw [heq] at this
  cases this

theorem Call.Valid.dispatch_of_created (h : c.Valid cfg) (hd : Keys cfg maxSeqLens d) {l : ℕ}
    {desc : BatchDescriptor} (hl : effectiveNumActiveLoras cfg d c = .ok l)
    (hdesc : createPaddedBatchDescriptor cfg d.cudagraphMode d.bsToPaddedGraphSize c.numTokens
      (c.uniformDecode && d.cudagraphMode.separateRoutine) c.hasLora l = .ok desc) :
    dispatch cfg d c = if c.allowedModes ⊆ {NONE} then .ok (NONE,{ numTokens := c.numTokens })
      else lookUp d c desc := by
  rw [dispatch, if_neg (Finset.ne_empty_of_mem h.none_allowed), hl]
  by_cases hsub : c.allowedModes ⊆ {NONE}
  · rw [if_pos hsub, if_pos (.inr (.inr hsub))]
  · have hpass : ¬ (d.cudagraphMode = NONE ∨ cfg.maxCudagraphCaptureSize < c.numTokens ∨
        c.allowedModes ⊆ {NONE}) := by
      rintro (heq | hlt | hsub')
      · exact hd.mode_ne_none heq
      · exact absurd h.le_max (by omega)
      · exact hsub hsub'
    rw [if_neg hsub, if_neg hpass]
    change (createPaddedBatchDescriptor cfg d.cudagraphMode d.bsToPaddedGraphSize
      c.numTokens (c.uniformDecode && d.cudagraphMode.separateRoutine) c.hasLora l >>= _) = _
    rw [hdesc]
    rfl

theorem Call.Valid.dispatch_eq (h : c.Valid cfg) (hd : Keys cfg maxSeqLens d) :
    ∃ desc p, PaddedTo cfg.cudagraphCaptureSizes c.numTokens p ∧ desc.numTokens = p ∧
      desc.uniform = c.uniformDecode ∧ (c.uniformDecode = true →
        desc.numReqs = some (min (p/cfg.uniformDecodeQueryLen) cfg.maxNumSeqs)) ∧
      ∀ shared, dispatch cfg d { c with fullCudagraphTqSpecDecodeShared := shared } =
        if c.allowedModes ⊆ {NONE} then .ok (NONE,{ numTokens := c.numTokens })
        else lookUp d { c with fullCudagraphTqSpecDecodeShared := shared } desc := by
  obtain ⟨l,hl⟩ := h.exists_loras (d := d)
  obtain ⟨p,hp,hpadded⟩ := computeBsToPaddedGraphSize_spec cfg h.le_max
  have hcreate : ∃ desc, createPaddedBatchDescriptor cfg d.cudagraphMode d.bsToPaddedGraphSize
      c.numTokens (c.uniformDecode && d.cudagraphMode.separateRoutine) c.hasLora l = .ok desc ∧
      desc.numTokens = p ∧ desc.uniform = c.uniformDecode ∧ (c.uniformDecode = true →
        desc.numReqs = some (min (p/cfg.uniformDecodeQueryLen) cfg.maxNumSeqs)) := by
    rw [createPaddedBatchDescriptor, hd.table, hp, hd.separate]
    dsimp only
    rw [hasMode_full hd.separate]
    cases huniform : c.uniformDecode with
    | false => exact ⟨_,rfl,rfl,rfl,nofun⟩
    | true =>
      rw [if_pos (Nat.mod_eq_zero_of_dvd (h.uniform huniform p hpadded))]
      exact ⟨_,rfl,rfl,rfl,fun _ => rfl⟩
  obtain ⟨desc,hdesc,htokens,huniform,hreqs⟩ := hcreate
  refine ⟨desc,p,hpadded,htokens,huniform,hreqs,fun shared => ?_⟩
  have hshared : Call.Valid cfg { c with fullCudagraphTqSpecDecodeShared := shared } :=
    ⟨h.le_max,h.none_allowed,h.lora,h.uniform⟩
  exact hshared.dispatch_of_created hd hl hdesc

/-- The result is NONE with the size as it came, or a captured graph of the smallest size that holds
the tokens, and in a uniform graph the requests. -/
def Exact (cfg : Config) (d : Dispatcher) (c : Call) : Prop :=
  ∃ mode desc, dispatch cfg d c = .ok (mode,desc) ∧
    (mode = NONE ∧ desc = { numTokens := c.numTokens } ∨
      (∃ descs, (mode,descs) ∈ getCaptureDescs d ∧ desc ∈ descs) ∧
      IsLeast {x | x ∈ cfg.cudagraphCaptureSizes ∧ c.numTokens ≤ x} desc.numTokens ∧
      (desc.uniform = true →
        ∃ r, desc.numReqs = some r ∧ c.numTokens ≤ r*cfg.uniformDecodeQueryLen))

theorem Call.Valid.exact (h : c.Valid cfg) (hd : Keys cfg maxSeqLens d) : Exact cfg d c := by
  obtain ⟨desc,p,hpadded,htokens,huniform,hreqs,hdispatch⟩ := h.dispatch_eq hd
  have hmode := hd.mode_ne_none
  have heq := hdispatch c.fullCudagraphTqSpecDecodeShared
  change dispatch cfg d c = if _ then _ else lookUp d c desc at heq
  rw [Exact, heq]
  split
  · exact ⟨_,_,rfl,.inl ⟨rfl,rfl⟩⟩
  rw [lookUp]
  split
  · rename_i hfull
    obtain ⟨bs,hbs,l,-,maxSeqLen,-,shared,-,hkey⟩ := (hd.full _).mp hfull.2
    have hp : p = bs := htokens.symm.trans (congrArg BatchDescriptor.numTokens hkey)
    have hflag : desc.uniform = true := congrArg BatchDescriptor.uniform hkey
    obtain ⟨hsize,hbound⟩ := mem_filter.mp hbs
    obtain ⟨hle,-⟩ := of_decide_eq_true hbound
    refine ⟨_,_,rfl,.inr ⟨mem_getCaptureDescs hmode (by simp) hfull.2,?_,fun _ => ⟨_,hreqs ?_,?_⟩⟩⟩
    · change IsLeast _ desc.numTokens
      rw [htokens]
      exact hpadded.isLeast (hp ▸ hsize)
    · rw [← huniform, hflag]
    · -- the padded size is within the decode sizes, so the requests are not capped
      have hdvd := h.uniform (by rw [← huniform, hflag]) p hpadded
      have hcap : p/cfg.uniformDecodeQueryLen ≤ cfg.maxNumSeqs :=
        Nat.div_le_of_le_mul (hp ▸ hle)
      rw [min_eq_left hcap, Nat.div_mul_cancel hdvd]
      exact hpadded.1.2
  split
  · rename_i hpiecewise
    have hsize := (hd.piecewise _ hpiecewise.2).1
    refine ⟨_,_,rfl,.inr ⟨mem_getCaptureDescs hmode (by simp) hpiecewise.2,?_,nofun⟩⟩
    change desc.numTokens ∈ _ at hsize
    change IsLeast _ desc.numTokens
    rw [htokens] at hsize ⊢
    exact hpadded.isLeast hsize
  · rw [if_pos h.none_allowed]
    exact ⟨_,_,rfl,.inl ⟨rfl,rfl⟩⟩

def IsFull (cfg : Config) (d : Dispatcher) (c : Call) (shared : Bool) : Prop :=
  ∃ desc, dispatch cfg d { c with fullCudagraphTqSpecDecodeShared := shared } = .ok (FULL,desc)

/-- With sharing a graph is found exactly if the padded size is one of the two that were given shared
variants. -/
theorem Call.Valid.isFull_shared_iff (h : c.Valid cfg) (hd : Keys cfg maxSeqLens d)
    (hfour : cfg.uniformDecodeQueryLen = 4) (hfull : IsFull cfg d c false) :
    IsFull cfg d c true ↔ ∃ p ∈ [8,16], PaddedTo cfg.cudagraphCaptureSizes c.numTokens p := by
  obtain ⟨desc,p,hpadded,htokens,-,-,hdispatch⟩ := h.dispatch_eq hd
  have hisFull (shared : Bool) : IsFull cfg d c shared ↔ FULL ∈ c.allowedModes ∧
      Call.fullKey { c with fullCudagraphTqSpecDecodeShared := shared } desc ∈ d.fullKeys := by
    rw [IsFull, hdispatch shared]
    constructor
    · rintro ⟨found,hfound⟩
      split at hfound
      · cases hfound
      rw [lookUp] at hfound
      split at hfound
      · assumption
      split at hfound
      · cases hfound
      split at hfound <;> cases hfound
    · intro hkey
      have hsub : ¬ c.allowedModes ⊆ {NONE} := fun hsub => by
        have := Finset.mem_singleton.mp (hsub hkey.1)
        cases this
      rw [if_neg hsub]
      exact ⟨_,if_pos hkey⟩
  obtain ⟨hallowed,hkey⟩ := (hisFull false).mp hfull
  obtain ⟨bs,hbs,l,hl,maxSeqLen,hmem,_,-,heq⟩ := (hd.full _).mp hkey
  have hp : p = bs := htokens.symm.trans (congrArg BatchDescriptor.numTokens heq)
  have hshared : Call.fullKey { c with fullCudagraphTqSpecDecodeShared := true } desc =
      { decodeKey cfg bs l with maxSeqLen := some maxSeqLen, tqSpecDecodeShared := true } :=
    congrArg (fun key : BatchDescriptor => { key with tqSpecDecodeShared := true }) heq
  rw [hisFull true, hshared, hd.full]
  constructor
  · rintro ⟨-,bs',-,l',-,maxSeqLen',-,shared,helig,heq'⟩
    obtain rfl : bs = bs' := congrArg BatchDescriptor.numTokens heq'
    obtain rfl : true = shared := congrArg BatchDescriptor.tqSpecDecodeShared heq'
    exact ⟨p,hp ▸ (helig rfl).2,hpadded⟩
  · rintro ⟨p',helig,hpadded'⟩
    obtain rfl : p = p' := hpadded.unique hpadded'
    exact ⟨hallowed,bs,hbs,l,hl,maxSeqLen,hmem,true,fun _ => ⟨hfour,hp ▸ helig⟩,rfl⟩

theorem queryLen_of_canUse {runner : TurboQuant.SharedGraphRunner} {numReqs numTokens : ℕ}
    {numScheduledTokens : List ℕ} {numDraftTokens : Option (List ℕ)} {lens : ℕ → ℤ}
    (h : TurboQuant.canUseTqSpecDecodeSharedGraph runner numReqs numTokens numScheduledTokens
      numDraftTokens lens = true) : runner.uniformDecodeQueryLen = 4 := by
  by_contra hne
  rw [TurboQuant.canUseTqSpecDecodeSharedGraph] at h
  simp [hne] at h

/-- Every dispatch is exact, and the batches that can use a shared graph keep their FULL graph exactly
if the size they are padded to has shared variants. -/
theorem dispatch_exact_iff {mode : CUDAGraphMode} (hmode : mode.separateRoutine = true)
    (hsetUp : setUp cfg mode maxSeqLens = .ok d) (hc : c.Valid cfg) :
    Exact cfg d c ∧
    ∀ numReqs numScheduledTokens numDraftTokens optimisticSeqLensCpu,
      TurboQuant.canUseTqSpecDecodeSharedGraph
        ⟨some maxSeqLens,cfg.uniformDecodeQueryLen,cfg.numSpeculativeTokens⟩ numReqs c.numTokens
        numScheduledTokens numDraftTokens optimisticSeqLensCpu = true →
      ((IsFull cfg d c false → IsFull cfg d c true) ↔ (IsFull cfg d c false →
        ∃ p ∈ [8,16], PaddedTo cfg.cudagraphCaptureSizes c.numTokens p)) := by
  have hkeys := setUp_keys hmode hsetUp
  refine ⟨hc.exact hkeys,fun numReqs scheduled drafts lens hcan => ?_⟩
  exact forall_congr' fun hfull => hc.isFull_shared_iff hkeys (queryLen_of_canUse hcan) hfull

end Lookup

def fourSizes : Config where
  cudagraphCaptureSizes := [4,8,12,16]
  ascending := by decide
  maxNumSeqs := 4
  numSpeculativeTokens := 3

def threeVerifications : Call where
  numTokens := 12
  uniformDecode := true
  fullCudagraphMaxSeqLen := some 8191

theorem paddedTo_twelve : PaddedTo [4,8,12,16] 12 12 := by
  refine ⟨⟨by decide,le_rfl⟩,fun x hx => hx.2⟩

theorem threeVerifications_valid : threeVerifications.Valid fourSizes where
  le_max := by decide
  none_allowed := by decide
  lora := nofun
  uniform := fun _ p hp => by
    rw [hp.unique paddedTo_twelve]
    decide

/-- With a captured size of twelve, three verifications that may share rows fall off the graph. -/
theorem three_verifications_fall_off :
    ∃ d, setUp fourSizes FULL_AND_PIECEWISE [8191,8192,32768] = .ok d ∧
      TurboQuant.canUseTqSpecDecodeSharedGraph ⟨some [8191,8192,32768],4,3⟩ 3 12 [4,4,4]
        (some [3,3,3]) (fun _ => 64) = true ∧
      IsFull fourSizes d threeVerifications false ∧ ¬ IsFull fourSizes d threeVerifications true := by
  obtain ⟨d,hd⟩ : ∃ d, setUp fourSizes FULL_AND_PIECEWISE [8191,8192,32768] = .ok d := ⟨_,rfl⟩
  have hrun : (setUp fourSizes FULL_AND_PIECEWISE [8191,8192,32768] >>= fun d =>
      dispatch fourSizes d threeVerifications) = .ok (FULL,
        { numTokens := 12, numReqs := some 3, uniform := true, maxSeqLen := some 8191 }) := by
    decide +kernel
  rw [hd] at hrun
  have hfull : IsFull fourSizes d threeVerifications false := ⟨_,hrun⟩
  refine ⟨d,hd,by decide,hfull,fun hshared => ?_⟩
  obtain ⟨p,hmem,hp⟩ := (threeVerifications_valid.isFull_shared_iff
    (setUp_keys rfl hd) rfl hfull).mp hshared
  rw [hp.unique paddedTo_twelve] at hmem
  revert hmem
  decide

theorem dispatch_exact_three :
    ∃ d, setUp fourSizes FULL_AND_PIECEWISE [8191,8192,32768] = .ok d ∧
      Exact fourSizes d threeVerifications ∧
      ((IsFull fourSizes d threeVerifications false → IsFull fourSizes d threeVerifications true) ↔
        (IsFull fourSizes d threeVerifications false →
          ∃ p ∈ [8,16], PaddedTo fourSizes.cudagraphCaptureSizes threeVerifications.numTokens p)) := by
  obtain ⟨d,hd⟩ : ∃ d, setUp fourSizes FULL_AND_PIECEWISE [8191,8192,32768] = .ok d := ⟨_,rfl⟩
  obtain ⟨hexact,hshared⟩ := dispatch_exact_iff rfl hd threeVerifications_valid
  exact ⟨d,hd,hexact,hshared 3 [4,4,4] (some [3,3,3]) (fun _ => 64) (by decide)⟩

end MetaZenith.Cudagraph
