import MetaZenith.SchedUpdate

/-! Block hashes of a request: the incremental hasher with its extra keys, and the calls that
append tokens to a request. -/

namespace MetaZenith.KVCache

open MetaZenith.Sched (Request Token StreamingUpdate updateRequestAsSession)

universe u

structure MmFeature where
  identifier : ℕ
  offset : ℕ
  length : ℕ
  deriving DecidableEq

namespace MmFeature

def stop (f : MmFeature) : ℕ := f.offset+f.length

def shift (base : ℕ) (f : MmFeature) : MmFeature := { f with offset := f.offset+base }

end MmFeature

def Disjoint (features : List MmFeature) : Prop := features.Pairwise fun f g => f.stop ≤ g.offset

instance (features : List MmFeature) : Decidable (Disjoint features) :=
  inferInstanceAs (Decidable (features.Pairwise _))

inductive ExtraKey
  | lora (name : ℕ)
  | mm (identifier : ℕ) (offset : ℤ)
  | salt (value : ℕ)
  | embeds (hash : ℕ)
  deriving DecidableEq

/-- A request with what its block hashes depend on. `promptEmbedsHash` is the hash of a slice of
the prompt embeddings. -/
structure HashedRequest (H : Type u) where
  request : Request
  mmFeatures : List MmFeature := []
  loraName : Option ℕ := none
  cacheSalt : Option ℕ := none
  promptEmbedsHash : Option (ℕ → ℕ → ℕ) := none
  blockHashes : List H := []

/-- The `while` loop of `_gen_mm_extra_hash_keys` over the features from the current one on: the
keys and how many features it has passed. -/
def genMmLoop (startTokenIdx endTokenIdx : ℕ) : List MmFeature → List ExtraKey × ℕ
  | [] => ([],0)
  | f :: features =>
    if f.offset < endTokenIdx then
      let rest := genMmLoop startTokenIdx endTokenIdx features
      if f.stop ≤ startTokenIdx then (rest.1,rest.2+1)
      else
        let key := ExtraKey.mm f.identifier ((f.offset:ℤ)-startTokenIdx)
        -- a feature that goes on behind the block is also the first one of the next block
        if f.stop ≤ endTokenIdx then (key :: rest.1,rest.2+1) else ([key],0)
    else ([],0)

def genMmExtraHashKeys (features : List MmFeature) (startTokenIdx endTokenIdx : ℕ)
    (startMmIdx : ℤ) : List ExtraKey × ℤ :=
  match features.getLast? with
  | none => ([],startMmIdx)
  | some last =>
    if last.stop ≤ startTokenIdx then ([],startMmIdx)
    else
      let currMmIdx := if startMmIdx < 0 then features.length+startMmIdx else startMmIdx
      let keys := genMmLoop startTokenIdx endTokenIdx (features.drop currMmIdx.toNat)
      (keys.1,currMmIdx+keys.2)

section Hasher

variable {H : Type u}

def generateBlockHashExtraKeys (r : HashedRequest H) (startTokenIdx endTokenIdx : ℕ)
    (startMmIdx : ℤ) : Option (List ExtraKey) × ℤ :=
  let mm := genMmExtraHashKeys r.mmFeatures startTokenIdx endTokenIdx startMmIdx
  let saltKeys := if startTokenIdx = 0 then r.cacheSalt.toList.map ExtraKey.salt else []
  let embedsKeys := r.promptEmbedsHash.toList.map fun hash =>
    ExtraKey.embeds (hash startTokenIdx endTokenIdx)
  let extraKeys := r.loraName.toList.map ExtraKey.lora ++ mm.1 ++ saltKeys ++ embedsKeys
  (if extraKeys.isEmpty then none else some extraKeys,mm.2)

structure HashFunction (H : Type u) where
  hash : H → List Token → Option (List ExtraKey) → H
  noneHash : H

variable (fn : HashFunction H) (hashBlockSize : ℕ)

def hashBlockTokens (parent : Option H) (tokens : List Token)
    (extraKeys : Option (List ExtraKey)) : H :=
  fn.hash (parent.getD fn.noneHash) tokens extraKeys

variable (r : HashedRequest H)

def blockTokens (startTokenIdx : ℕ) : List Token :=
  (r.request.allTokenIds.drop startTokenIdx).take hashBlockSize

def hasherLoop (r : HashedRequest H) : ℕ → Option H → ℤ → ℕ → List H
  | 0, _, _, _ => []
  | n+1, prevBlockHash, currMmIdx, startTokenIdx =>
    let extra := generateBlockHashExtraKeys r startTokenIdx (startTokenIdx+hashBlockSize) currMmIdx
    let blockHash := hashBlockTokens fn prevBlockHash (blockTokens hashBlockSize r startTokenIdx)
      extra.1
    blockHash :: hasherLoop r n (some blockHash) extra.2 (startTokenIdx+hashBlockSize)

def requestBlockHasher : List H :=
  let startTokenIdx := r.blockHashes.length*hashBlockSize
  hasherLoop fn hashBlockSize r ((r.request.allTokenIds.length-startTokenIdx)/hashBlockSize)
    r.blockHashes.getLast? (if 0 < startTokenIdx then -1 else 0) startTokenIdx

def updateBlockHashes : HashedRequest H :=
  { r with blockHashes := r.blockHashes ++ requestBlockHasher fn hashBlockSize r }

def appendOutputTokenIds (tokens : List Token) : HashedRequest H :=
  updateBlockHashes fn hashBlockSize
    { r with request := tokens.foldl Request.appendOutputTokenId r.request }

/-- `_update_request_as_session` with the features of the update, whose offsets count from the
tokens that were kept. -/
def updateAsSession (update : StreamingUpdate) (features : List MmFeature) : HashedRequest H :=
  let base := (r.request.allTokenIds.take r.request.numComputedTokens.toNat).length
  updateBlockHashes fn hashBlockSize
    { r with
      request := updateRequestAsSession r.request update
      mmFeatures := r.mmFeatures ++ features.map (MmFeature.shift base) }

def hashesFromScratch : List H :=
  requestBlockHasher fn hashBlockSize { r with blockHashes := [] }

/-- A call that changes the tokens of a request. Between two calls the scheduler sets the number
of computed tokens. -/
inductive TokenCall
  | append (tokens : List Token)
  | update (numComputedTokens : ℕ) (update : StreamingUpdate) (features : List MmFeature)

def HashedRequest.step : TokenCall → Option (HashedRequest H)
  | .append tokens => some (appendOutputTokenIds fn hashBlockSize r tokens)
  | .update numComputedTokens update features => some (updateAsSession fn hashBlockSize
      { r with request := { r.request with numComputedTokens := numComputedTokens } } update features)

def HashedRequest.init : HashedRequest H :=
  updateBlockHashes fn hashBlockSize { r with blockHashes := [] }

end Hasher

end MetaZenith.KVCache
