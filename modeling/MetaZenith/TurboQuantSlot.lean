import MetaZenith.ByteMemory

/-! The packed K/V slot: `TurboQuantConfig`, the store kernels that fill one
(slot, head) of the cache, and every reader the launchers can select. -/

namespace MetaZenith.TurboQuant
open BitPacking ByteMemory

structure TurboQuantConfig where
  headDim : ℕ
  keyQuantBits : ℕ
  valueQuantBits : ℕ
  normCorrection : Bool

inductive Preset
  | k8v4 | fourBitNc | k3v4Nc | threeBitNc
deriving DecidableEq, Repr

def Preset.config (headDim : ℕ) : Preset → TurboQuantConfig
  | .k8v4 => ⟨headDim,8,4,false⟩
  | .fourBitNc => ⟨headDim,4,4,true⟩
  | .k3v4Nc => ⟨headDim,3,4,true⟩
  | .threeBitNc => ⟨headDim,3,3,true⟩

def packedBytes (n bits : ℕ) : ℕ := (n*bits+7)/8

namespace TurboQuantConfig

variable (c : TurboQuantConfig)

def keyFp8 : Bool := c.keyQuantBits == 8

def keyMseBits : ℕ := if c.keyFp8 then 0 else c.keyQuantBits

def keyPackedSize : ℕ := if c.keyFp8 then c.headDim else packedBytes c.headDim c.keyMseBits+2

def valuePackedSize : ℕ := packedBytes c.headDim c.valueQuantBits+4

def slotSize : ℕ := c.keyPackedSize+c.valuePackedSize

def slotSizeAligned : ℕ :=
  if c.headDim = 256 ∧ !c.keyFp8 ∧ c.keyMseBits = 4 ∧ c.valueQuantBits = 4 ∧ c.normCorrection then
    (c.slotSize+3)/4*4+4
  else c.slotSize+c.slotSize%2

end TurboQuantConfig

/-- The cache tensor `(num_blocks, num_kv_heads, block_size, slot)` that the kernels
see transposed to `(num_blocks, block_size, num_kv_heads, slot)`. -/
structure KVCache where
  numKvHeads : ℕ
  blockSize : ℕ
  slotWidth : ℕ
  dataPtr : ℕ
  heads_pos : 0 < numKvHeads
  blockSize_pos : 0 < blockSize

namespace KVCache

variable (kv : KVCache)

def strideBlock : ℕ := kv.numKvHeads*kv.blockSize*kv.slotWidth
def stridePos : ℕ := kv.slotWidth
def strideHead : ℕ := kv.blockSize*kv.slotWidth

def slotBase (slot head : ℕ) : ℕ :=
  slot/kv.blockSize*kv.strideBlock+slot%kv.blockSize*kv.stridePos+head*kv.strideHead

end KVCache

/-- What the quantisers hand to the packing code for one head: `keyCode` is an MSE
index, or the FP8 byte. -/
structure SlotPayload (c : TurboQuantConfig) where
  keyCode : ℕ → ℕ
  valueCode : ℕ → ℕ
  norm : ℕ
  scale : ℕ
  zero : ℕ
  key_lt : ∀ d, keyCode d < if c.keyFp8 then 256 else 2^c.keyMseBits
  value_lt : ∀ d, valueCode d < 2^c.valueQuantBits
  norm_lt : norm < 2^16
  scale_lt : scale < 2^16
  zero_lt : zero < 2^16

def nextPowerOf2 (n : ℕ) : ℕ := 2^Nat.clog 2 n

def storeNibbles (addr blockD dataBytes : ℕ) (code : ℕ → ℕ) : Mem → Mem :=
  scatter addr 1 (min (blockD/2) dataBytes) fun k => pack 4 (fun j => code (2*k+j) &&& 0xF) 2

def storeTriples (addr blockGrp groups : ℕ) (code : ℕ → ℕ) (m : Mem) : Mem :=
  let packed24 (g : ℕ) := pack 3 (fun j => code (8*g+j)) 8
  let n := min blockGrp groups
  scatter (addr+2) 3 n (fun g => byteOf (packed24 g) 2)
    (scatter (addr+1) 3 n (fun g => byteOf (packed24 g) 1)
      (scatter addr 3 n (fun g => byteOf (packed24 g) 0) m))

inductive Field
  | key | norm | value | scale | zero | invNorm
deriving DecidableEq, Repr

structure LayoutParams where
  D : ℕ
  mseBits : ℕ
  mseBytes : ℕ
  kps : ℕ
  vqb : ℕ
  valDataBytes : ℕ
  keyFp8 : Bool
  alignedSpecLayout : Bool

def cacheInvNorm (c : TurboQuantConfig) (kv : KVCache) : Bool :=
  !c.keyFp8 && c.headDim == 256 && kv.numKvHeads == 4 && c.keyMseBits == 4 &&
    c.valueQuantBits == 4 && kv.slotWidth == 268

def storeParams (c : TurboQuantConfig) (kv : KVCache) : LayoutParams where
  D := c.headDim
  mseBits := c.keyMseBits
  mseBytes := packedBytes c.headDim c.keyMseBits
  kps := c.keyPackedSize
  vqb := c.valueQuantBits
  valDataBytes := packedBytes c.headDim c.valueQuantBits
  keyFp8 := c.keyFp8
  alignedSpecLayout := cacheInvNorm c kv

namespace LayoutParams

variable (p : LayoutParams)

def valCacheOffset : ℕ := if p.alignedSpecLayout then p.kps-2 else p.kps
def normOffset : ℕ := if p.alignedSpecLayout then p.kps+p.valDataBytes-2 else p.mseBytes
def scOffset : ℕ := p.kps+p.valDataBytes

def fieldOffset : Field → ℕ
  | .key => 0
  | .norm => p.normOffset
  | .value => p.valCacheOffset
  | .scale => p.scOffset
  | .zero => p.scOffset+2
  | .invNorm => 264

def fieldBytes : Field → ℕ
  | .key => if p.keyFp8 then p.D else p.mseBytes
  | .norm => 2
  | .value => p.valDataBytes
  | .scale => 2
  | .zero => 2
  | .invNorm => 4

end LayoutParams

section Store

def storeKey (p : LayoutParams) (base : ℕ) (code : ℕ → ℕ) : Mem → Mem :=
  if p.keyFp8 then scatter base 1 p.D code
  else if p.mseBits = 4 then storeNibbles base (nextPowerOf2 p.D) p.mseBytes code
  else if p.mseBits = 3 then
    storeTriples base (nextPowerOf2 (p.D/8)) (p.D/8) fun d => code d &&& 0x7
  else id

def storeValue (p : LayoutParams) (base : ℕ) (code : ℕ → ℕ) : Mem → Mem :=
  if p.vqb = 3 then storeTriples (base+p.valCacheOffset) (nextPowerOf2 (p.D/8)) (p.D/8) code
  else storeNibbles (base+p.valCacheOffset) (nextPowerOf2 p.D) p.valDataBytes code

/- The inverse norm is a floating-point function of the 256 key indices. -/
variable (invNormBits : List ℕ → ℕ)

def storeInvNorm (base : ℕ) (m : Mem) : Mem :=
  -- decode consumes the packed indices, so the norm is derived from the stored bytes
  let keyIdx (dim : ℕ) := (m (base+dim/2) >>> ((dim &&& 1)*4)) &&& 15
  storeWord 4 (base+264) (invNormBits ((List.range 256).map keyIdx)%2^32) m

variable {c : TurboQuantConfig} (p : LayoutParams) (payload : SlotPayload c) (base : ℕ)

def storeField : Field → Mem → Mem
  | .key => storeKey p base payload.keyCode
  | .norm => storeWord 2 (base+p.normOffset) payload.norm
  | .value => storeValue p base payload.valueCode
  | .scale => storeWord 2 (base+p.scOffset) payload.scale
  | .zero => storeWord 2 (base+(p.scOffset+2)) payload.zero
  | .invNorm => storeInvNorm invNormBits base

/-- The fields in the order `_tq_fused_store_fp8` or `_tq_fused_store_mse` writes them. -/
def storedFields (keyFp8 cacheInvNorm : Bool) : List Field :=
  if keyFp8 then [.key,.value,.scale,.zero]
  else if cacheInvNorm then [.key,.norm,.value,.scale,.zero,.invNorm]
  else [.key,.norm,.value,.scale,.zero]

end Store

def tritonTurboquantStore (invNormBits : List ℕ → ℕ) {c : TurboQuantConfig} (kv : KVCache)
    (payload : SlotPayload c) (slot head : ℕ) : Mem → Mem :=
  writeAll (storeField invNormBits (storeParams c kv) payload (kv.slotBase slot head))
    (storedFields c.keyFp8 (cacheInvNorm c kv))

structure SlotFields where
  keyCode : ℕ → ℕ
  valueCode : ℕ → ℕ
  norm : Option ℕ
  scale : ℕ
  zero : ℕ
  invNorm : Option ℕ

def readKey (p : LayoutParams) (m : Mem) (base d : ℕ) : ℕ :=
  if p.keyFp8 then m (base+d) else gather16 m base p.mseBits d

def decodeStage1Read (p : LayoutParams) (m : Mem) (base : ℕ) : SlotFields where
  keyCode := readKey p m base
  valueCode d := if p.vqb = 3 then gather16 m (base+p.valCacheOffset) 3 d
    else nibble m (base+p.valCacheOffset) d
  norm := if p.keyFp8 then none else some (load16 m (base+p.normOffset))
  scale := load16 m (base+p.scOffset)
  zero := load16 m (base+(p.scOffset+2))
  invNorm := none

/-- `_tq_full_dequant_kv`, whose value branch has a third case. -/
def fullDequantRead (p : LayoutParams) (m : Mem) (base : ℕ) : SlotFields where
  keyCode := readKey p m base
  valueCode d := if p.vqb = 4 then nibble m (base+p.valCacheOffset) d
    else if p.vqb = 3 then gather16 m (base+p.valCacheOffset) 3 d
    else 0
  norm := if p.keyFp8 then none else some (load16 m (base+p.normOffset))
  scale := load16 m (base+p.scOffset)
  zero := load16 m (base+(p.scOffset+2))
  invNorm := none

def sixScalarRead (m : Mem) (base : ℕ) : SlotFields where
  keyCode := nibble m base
  valueCode := nibble m (base+128)
  norm := some (load16 m (base+256))
  scale := load16 m (base+128+130)
  zero := load16 m (base+128+132)
  invNorm := none

def cudaScalarRead (m : Mem) (slot : ℕ) : SlotFields where
  keyCode d := (m (slot+(d >>> 1)) >>> ((d &&& 1)*4)) &&& 15
  valueCode d := (m (slot+(128+(d >>> 1))) >>> ((d &&& 1)*4)) &&& 15
  norm := some (load16 m (slot+256))
  scale := load16 m (slot+258)
  zero := load16 m (slot+260)
  invNorm := some (load32 m (slot+264))

def wordByte (m : Mem) (addr d : ℕ) : ℕ :=
  (load32 m (addr+d/8*4) >>> ((d%8) >>> 1*8))%256

def cudaVectorRead (m : Mem) (slot : ℕ) : SlotFields where
  keyCode d := (wordByte m slot d >>> ((d &&& 1)*4)) &&& 15
  valueCode d := (wordByte m (slot+128) d >>> ((d &&& 1)*4)) &&& 15
  norm := some (load16 m (slot+256))
  scale := load16 m (slot+258)
  zero := load16 m (slot+260)
  invNorm := some (load32 m (slot+264))

inductive Reader
  | decodeStage1 | sixScalar | fullDequant
  | headParallel | sharedRows | sharedRowsTile20 | shared4 (vectorPackedLoads : Bool)
deriving DecidableEq, Repr

structure DecodeArgs where
  B : ℕ
  numQueryHeads : ℕ
  blockKv : ℕ
  numKvSplits : ℕ
  scaleIsSixteenth : Bool
  useHeadParallelStage1 : Bool
  tqSpecDecodeShared : Bool
  tqSpecDecodeSameRequestB4 : Bool
  isCuda : Bool

def decodeAligned (c : TurboQuantConfig) (kv : KVCache) : Bool :=
  kv.numKvHeads == 4 && c.headDim == 256 && c.keyMseBits == 4 &&
    packedBytes c.headDim c.keyMseBits == 128 && c.keyPackedSize == 130 &&
    c.valueQuantBits == 4 && packedBytes c.headDim c.valueQuantBits == 128 && !c.keyFp8 &&
    c.normCorrection && kv.slotWidth == 268

def dequantAligned (c : TurboQuantConfig) (kv : KVCache) : Bool :=
  c.headDim == 256 && kv.numKvHeads == 4 && c.keyMseBits == 4 && c.keyPackedSize == 130 &&
    c.valueQuantBits == 4 && !c.keyFp8 && c.normCorrection && kv.slotWidth == 268

def decodeParams (c : TurboQuantConfig) (kv : KVCache) : LayoutParams :=
  { storeParams c kv with alignedSpecLayout := decodeAligned c kv }

/-- `_mse_bytes` of the attention object is `head_size` for FP8 keys. -/
def dequantParams (c : TurboQuantConfig) (kv : KVCache) : LayoutParams :=
  { storeParams c kv with
    mseBytes := if c.keyFp8 then c.headDim else packedBytes c.headDim c.keyMseBits
    alignedSpecLayout := dequantAligned c kv }

def vectorLoadCompatible (kv : KVCache) : Bool :=
  kv.dataPtr%4 == 0 && kv.strideBlock%4 == 0 && kv.stridePos%4 == 0 && kv.strideHead%4 == 0

def sharedRowsReader (kv : KVCache) (B activeSplits : ℕ) : Reader :=
  if B = 4 then .shared4 (activeSplits == 28 && vectorLoadCompatible kv)
  else if B = 8 then .sharedRows
  else .sharedRowsTile20

def stage1Readers (c : TurboQuantConfig) (kv : KVCache) (args : DecodeArgs) : List Reader :=
  let kvGroupSize := args.numQueryHeads/kv.numKvHeads
  let useSixScalar := decodeAligned c kv && args.blockKv == 2 && args.numQueryHeads == 24 &&
    kvGroupSize == 6
  let useNativeHeadParallel := useSixScalar && args.useHeadParallelStage1 &&
    (args.numKvSplits == 32 || args.B == 4 && args.numKvSplits == 28) && kv.blockSize == 16 &&
    kv.slotWidth == 268 && args.scaleIsSixteenth
  let useTqSpecDecodeShared := useSixScalar && args.tqSpecDecodeShared && args.isCuda &&
    (args.B == 8 || args.B == 16) && kv.blockSize == 16 && kv.slotWidth == 268 &&
    args.numKvSplits == 32 && args.scaleIsSixteenth
  let useSameRequestB4 := useNativeHeadParallel && args.B == 4 && args.tqSpecDecodeSameRequestB4
  if useSameRequestB4 then [sharedRowsReader kv args.B args.numKvSplits,.headParallel]
  else if useTqSpecDecodeShared then [sharedRowsReader kv args.B args.numKvSplits]
  else if useNativeHeadParallel then [.headParallel]
  else if useSixScalar then [.sixScalar]
  else [.decodeStage1]

def selectableReaders (c : TurboQuantConfig) (kv : KVCache) (args : DecodeArgs) : List Reader :=
  .fullDequant :: stage1Readers c kv args

def Reader.read (c : TurboQuantConfig) (kv : KVCache) : Reader → Mem → ℕ → SlotFields
  | .decodeStage1 => decodeStage1Read (decodeParams c kv)
  | .sixScalar => sixScalarRead
  | .fullDequant => fullDequantRead (dequantParams c kv)
  | .headParallel | .sharedRows | .sharedRowsTile20 | .shared4 false => cudaScalarRead
  | .shared4 true => cudaVectorRead

end MetaZenith.TurboQuant
