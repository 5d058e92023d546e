import MetaZenith.TurboQuantSlot

namespace MetaZenith.TurboQuant

open TurboQuantConfig LayoutParams BitPacking ByteMemory

theorem storeNibbles_groups {addr blockD dataBytes n : ℕ} {code : ℕ → ℕ} (m : Mem)
    (hcode : ∀ d, code d < 2^4) (hn : n = min (blockD/2) dataBytes) :
    GroupsAt (storeNibbles addr blockD dataBytes code m) addr 4 2 n code := by
  intro g hg i hi
  obtain rfl : i = 0 := by omega
  have hmask (d : ℕ) : code d &&& 0xF = code d := by
    rw [show 0xF = 2^4-1 by rfl, Nat.and_two_pow_sub_one_of_lt_two_pow (hcode d)]
  have hbyte : pack 4 (fun j => code (2*g+j)) 2 < 256 := pack_lt fun j _ => hcode _
  simp only [Nat.reduceMul, Nat.reduceDiv, one_mul, Nat.add_zero]
  rw [storeNibbles, scatter_one _ m (by omega), byteOf_eq]
  simp only [hmask, pow_zero, Nat.div_one]
  exact (Nat.mod_eq_of_lt hbyte).symm

theorem storeTriples_groups {addr blockGrp groups n : ℕ} {code : ℕ → ℕ} (m : Mem)
    (hn : n = min blockGrp groups) :
    GroupsAt (storeTriples addr blockGrp groups code m) addr 3 8 n code := by
  intro g hg i hi
  simp only [Nat.reduceMul, Nat.reduceDiv] at hi ⊢
  unfold storeTriples
  -- the three byte planes never meet: their addresses differ modulo 3
  have hplane (j : ℕ) (hj : j < 3) (hne : i ≠ j) (f : ℕ → ℕ) (m' : Mem) :
      scatter (addr+j) 3 (min blockGrp groups) f m' (addr+3*g+i) = m' (addr+3*g+i) := by
    apply scatter_miss
    rintro ⟨hle,hmod,_⟩
    omega
  have hit (f : ℕ → ℕ) (m' : Mem) :
      scatter (addr+i) 3 (min blockGrp groups) f m' (addr+3*g+i) = f g := by
    rw [Nat.add_right_comm]
    exact scatter_hit f m' (by decide) (by omega)
  have hcases : i = 0 ∨ i = 1 ∨ i = 2 := by omega
  rcases hcases with rfl | rfl | rfl
  · rw [hplane 2 (by decide) (by decide), hplane 1 (by decide) (by decide)]
    exact hit _ m
  · rw [hplane 2 (by decide) (by decide)]
    exact hit _ _
  · exact hit _ _

theorem storeNibbles_writesWithin (addr blockD dataBytes : ℕ) (code : ℕ → ℕ) :
    WritesWithin addr dataBytes (storeNibbles addr blockD dataBytes code) :=
  (scatter_writesWithin addr _ Nat.one_pos _).mono le_rfl (by omega)

theorem storeTriples_writesWithin (addr blockGrp groups : ℕ) (code : ℕ → ℕ) :
    WritesWithin addr (3*groups) (storeTriples addr blockGrp groups code) := by
  intro m a ha
  have hplane (j : ℕ) (hj : j < 3) (f : ℕ → ℕ) (m' : Mem) :
      scatter (addr+j) 3 (min blockGrp groups) f m' a = m' a := by
    apply scatter_miss
    rintro ⟨hle,hmod,hlt⟩
    omega
  rw [storeTriples, hplane 2 (by decide), hplane 1 (by decide)]
  exact hplane 0 (by decide) _ m

theorem packedBytes_eight (n b : ℕ) : packedBytes (8*n) b = n*b := by
  rw [packedBytes, Nat.mul_assoc]
  omega

theorem nextPowerOf2_pow (k : ℕ) : nextPowerOf2 (2^k) = 2^k := by
  rw [nextPowerOf2, Nat.clog_pow 2 k (by decide)]

theorem headDim_div_eight {k : ℕ} (hk : 3 ≤ k) : 2^k = 8*2^(k-3) ∧ 2^k/8 = 2^(k-3) := by
  have h : 2^k = 8*2^(k-3) := by
    rw [show (8:ℕ) = 2^3 by rfl, ← pow_add]
    congr 1
    omega
  exact ⟨h, by omega⟩

/-- The layout facts that hold for every preset on a head dimension `8*n`. -/
structure SlotLayout (p : LayoutParams) (inv : Bool) (width n : ℕ) : Prop where
  dim : p.D = 8*n
  codec : p.keyFp8 = true ∨ p.mseBits = 4 ∨ p.mseBits = 3
  values : p.vqb = 4 ∨ p.vqb = 3
  key_bytes : p.mseBytes = n*p.mseBits
  value_bytes : p.valDataBytes = n*p.vqb
  kps : p.kps = if p.keyFp8 then p.D else p.mseBytes+2
  aligned : p.alignedSpecLayout = inv
  inv_shape : inv = true → p.keyFp8 = false ∧ n = 32 ∧ p.mseBits = 4 ∧ p.vqb = 4 ∧ width = 268
  fits : p.kps+p.valDataBytes+4 ≤ width

variable (pre : Preset)

theorem storeParams_layout (kv : KVCache) (n : ℕ)
    (hw : kv.slotWidth = (pre.config (8*n)).slotSizeAligned) :
    SlotLayout (storeParams (pre.config (8*n)) kv) (cacheInvNorm (pre.config (8*n)) kv)
      kv.slotWidth n where
  dim := by cases pre <;> rfl
  codec := by cases pre <;> simp [storeParams, Preset.config, TurboQuantConfig.keyFp8,
    keyMseBits]
  values := by cases pre <;> simp [storeParams, Preset.config]
  key_bytes := by cases pre <;> exact packedBytes_eight n _
  value_bytes := by cases pre <;> exact packedBytes_eight n _
  kps := by cases pre <;> rfl
  aligned := rfl
  inv_shape := by
    intro h
    simp only [cacheInvNorm, Bool.and_eq_true, beq_iff_eq, Bool.not_eq_true'] at h
    obtain ⟨⟨⟨⟨⟨hfp,hdim⟩,_⟩,hmse⟩,hv⟩,hwidth⟩ := h
    refine ⟨hfp,?_,hmse,hv,hwidth⟩
    cases pre <;> simp only [Preset.config] at hdim <;> omega
  fits := by
    have hs : (storeParams (pre.config (8*n)) kv).kps+
        (storeParams (pre.config (8*n)) kv).valDataBytes+4 = (pre.config (8*n)).slotSize := rfl
    rw [hs, hw, slotSizeAligned]
    split_ifs <;> omega

section Layout

variable {p : LayoutParams} {inv : Bool} {width n : ℕ} (L : SlotLayout p inv width n)
include L

theorem SlotLayout.fields_disjoint : (storedFields p.keyFp8 inv).Pairwise fun f g =>
      p.fieldOffset f+p.fieldBytes f ≤ p.fieldOffset g ∨
        p.fieldOffset g+p.fieldBytes g ≤ p.fieldOffset f := by
  obtain ⟨hdim,_,_,hkey,hval,hkps,hal,hinv,_⟩ := L
  cases hfp : p.keyFp8 <;> cases hi : inv <;>
    simp_all [storedFields, fieldOffset, fieldBytes,
      normOffset, valCacheOffset, scOffset] <;> omega

theorem SlotLayout.field_inside (f : Field) (hf : f ∈ storedFields p.keyFp8 inv) :
    p.fieldOffset f+p.fieldBytes f ≤ width := by
  obtain ⟨hdim,_,_,hkey,hval,hkps,hal,hinv,hfits⟩ := L
  cases hfp : p.keyFp8 <;> cases hi : inv <;> cases f <;>
    simp_all [storedFields, fieldOffset, fieldBytes,
      normOffset, valCacheOffset, scOffset] <;> omega

variable (invNormBits : List ℕ → ℕ) {c : TurboQuantConfig} (payload : SlotPayload c) (base : ℕ)

theorem SlotLayout.storeKey_writesWithin (code : ℕ → ℕ) :
    WritesWithin base (p.fieldBytes .key) (storeKey p base code) := by
  unfold storeKey fieldBytes
  split_ifs with hfp h4 h3
  · simpa using scatter_writesWithin base p.D Nat.one_pos code
  · exact storeNibbles_writesWithin base _ _ code
  · refine (storeTriples_writesWithin base _ _ _).mono le_rfl ?_
    change base+3*(p.D/8) ≤ base+p.mseBytes
    rw [L.key_bytes, L.dim, h3]
    omega
  · intro m a _
    rfl

theorem SlotLayout.storeValue_writesWithin (code : ℕ → ℕ) :
    WritesWithin (base+p.valCacheOffset) p.valDataBytes (storeValue p base code) := by
  unfold storeValue
  split_ifs with h3
  · refine (storeTriples_writesWithin _ _ _ _).mono le_rfl ?_
    rw [L.value_bytes, L.dim, h3]
    omega
  · exact storeNibbles_writesWithin _ _ _ code

theorem SlotLayout.storeField_writesWithin (f : Field) :
    WritesWithin (base+p.fieldOffset f) (p.fieldBytes f)
      (storeField invNormBits p payload base f) := by
  cases f with
  | key => exact L.storeKey_writesWithin base payload.keyCode
  | norm => exact storeWord_writesWithin 2 _ _
  | value => exact L.storeValue_writesWithin base payload.valueCode
  | scale => exact storeWord_writesWithin 2 _ _
  | zero => exact storeWord_writesWithin 2 _ _
  | invNorm => exact fun m a ha => storeWord_writesWithin 4 _ _ m a ha

theorem SlotLayout.field_survives (m : Mem) (f : Field) (hf : f ∈ storedFields p.keyFp8 inv) :
    ∃ m', ∀ a, base+p.fieldOffset f ≤ a → a < base+p.fieldOffset f+p.fieldBytes f →
      writeAll (storeField invNormBits p payload base) (storedFields p.keyFp8 inv) m a =
        storeField invNormBits p payload base f m' a := by
  obtain ⟨pre,post,hsplit⟩ := List.append_of_mem hf
  have hdisj := L.fields_disjoint
  rw [hsplit] at hdisj
  refine ⟨writeAll (storeField invNormBits p payload base) pre m,fun a hlo hhi => ?_⟩
  rw [hsplit]
  apply writeAll_field _ (fun g => base+p.fieldOffset g) p.fieldBytes
    (L.storeField_writesWithin invNormBits payload base) pre post f m a ⟨hlo,hhi⟩
  intro g hg
  have h := (List.pairwise_cons.mp (List.pairwise_append.mp hdisj).2.1).1 g hg
  omega

omit L in
theorem mem_storedFields (f : Field) (hf : f ≠ .norm) (hi : f ≠ .invNorm) :
    f ∈ storedFields p.keyFp8 inv := by
  unfold storedFields
  cases f <;> split_ifs <;> simp_all

omit L in
theorem norm_mem_storedFields (hfp : p.keyFp8 = false) : Field.norm ∈ storedFields p.keyFp8 inv := by
  unfold storedFields
  rw [hfp]
  split_ifs <;> simp_all

end Layout

structure HoldsPayload (p : LayoutParams) (inv : Bool) (n : ℕ) (invNormBits : List ℕ → ℕ)
    {c : TurboQuantConfig} (payload : SlotPayload c) (base : ℕ) (m : Mem) : Prop where
  key_byte : p.keyFp8 = true → ∀ d < p.D, m (base+d) = payload.keyCode d
  key_four : p.keyFp8 = false → p.mseBits = 4 → GroupsAt m base 4 2 (4*n) payload.keyCode
  key_three : p.keyFp8 = false → p.mseBits = 3 → GroupsAt m base 3 8 n payload.keyCode
  value_four : p.vqb = 4 → GroupsAt m (base+p.valCacheOffset) 4 2 (4*n) payload.valueCode
  value_three : p.vqb = 3 → GroupsAt m (base+p.valCacheOffset) 3 8 n payload.valueCode
  norm : p.keyFp8 = false → load16 m (base+p.normOffset) = payload.norm
  scale : load16 m (base+p.scOffset) = payload.scale
  zero : load16 m (base+(p.scOffset+2)) = payload.zero
  inv_norm : inv = true → load32 m (base+264) =
    invNormBits ((List.range 256).map payload.keyCode)%2^32

section Stored

variable {p : LayoutParams} {inv : Bool} {width n : ℕ} (L : SlotLayout p inv width n)
  (invNormBits : List ℕ → ℕ) {c : TurboQuantConfig} (payload : SlotPayload c) (base : ℕ)
  (hp : nextPowerOf2 (8*n) = 8*n) (hg : nextPowerOf2 n = n)
  (hkey : ∀ d, payload.keyCode d < if p.keyFp8 then 256 else 2^p.mseBits)
  (hvalue : ∀ d, payload.valueCode d < 2^p.vqb)
include L hp

theorem SlotLayout.storeKey_four (hfp : p.keyFp8 = false) (h4 : p.mseBits = 4)
    (hcode : ∀ d, payload.keyCode d < 2^4) (m : Mem) :
    GroupsAt (storeKey p base payload.keyCode m) base 4 2 (4*n) payload.keyCode := by
  rw [storeKey, hfp, if_neg (by simp), if_pos h4, L.dim, hp, L.key_bytes, h4]
  exact storeNibbles_groups m hcode (by omega)

theorem SlotLayout.storeValue_four (h4 : p.vqb = 4) (m : Mem)
    (hcode : ∀ d, payload.valueCode d < 2^4) :
    GroupsAt (storeValue p base payload.valueCode m) (base+p.valCacheOffset) 4 2 (4*n)
      payload.valueCode := by
  rw [storeValue, if_neg (by omega), L.dim, hp, L.value_bytes, h4]
  exact storeNibbles_groups m hcode (by omega)

omit hp
include hg

theorem SlotLayout.storeKey_three (hfp : p.keyFp8 = false) (h3 : p.mseBits = 3)
    (hcode : ∀ d, payload.keyCode d < 2^3) (m : Mem) :
    GroupsAt (storeKey p base payload.keyCode m) base 3 8 n payload.keyCode := by
  have hmask (d : ℕ) : payload.keyCode d &&& 0x7 = payload.keyCode d := by
    rw [show 0x7 = 2^3-1 by rfl, Nat.and_two_pow_sub_one_of_lt_two_pow (hcode d)]
  rw [storeKey, hfp, if_neg (by simp), if_neg (by omega), if_pos h3, L.dim,
    show 8*n/8 = n by omega, hg]
  simp only [hmask]
  exact storeTriples_groups m (by omega)

theorem SlotLayout.storeValue_three (h3 : p.vqb = 3) (m : Mem) :
    GroupsAt (storeValue p base payload.valueCode m) (base+p.valCacheOffset) 3 8 n
      payload.valueCode := by
  rw [storeValue, if_pos h3, L.dim, show 8*n/8 = n by omega, hg]
  exact storeTriples_groups m (by omega)

omit hg

theorem SlotLayout.load16_field (f : Field) (w : ℕ) (hw : w < 2^16) (hb : p.fieldBytes f = 2)
    (hf : f ∈ storedFields p.keyFp8 inv)
    (hs : storeField invNormBits p payload base f = storeWord 2 (base+p.fieldOffset f) w) (m : Mem) :
    load16 (writeAll (storeField invNormBits p payload base) (storedFields p.keyFp8 inv) m)
      (base+p.fieldOffset f) = w := by
  obtain ⟨m',hm⟩ := L.field_survives invNormBits payload base m f hf
  apply load16_of_bytes hw
  intro i hi
  rw [hm _ (by omega) (by omega), hs, storeWord_bytes m' hi]

include hp

theorem SlotLayout.load32_invNorm (hinv : inv = true)
    (hkey : ∀ d, payload.keyCode d < 2^4) (m : Mem) :
    load32 (writeAll (storeField invNormBits p payload base) (storedFields p.keyFp8 inv) m)
      (base+264) = invNormBits ((List.range 256).map payload.keyCode)%2^32 := by
  obtain ⟨hfp,hn,h4,_,_⟩ := L.inv_shape hinv
  have hw := L.storeField_writesWithin invNormBits payload base
  have hdisj := L.fields_disjoint
  rw [hfp, hinv, storedFields] at hdisj ⊢
  simp only [Bool.false_eq_true, if_false, if_true] at hdisj ⊢
  have hfirst := (List.pairwise_cons.mp hdisj).1
  -- the memory `storeInvNorm` reads its indices from
  let before := writeAll (storeField invNormBits p payload base)
    [.key,.norm,.value,.scale,.zero] m
  have hgroups : GroupsAt before base 4 2 (4*n) payload.keyCode := by
    refine (L.storeKey_four payload base hp hfp h4 hkey m).congr fun a hlo hhi => ?_
    refine writeAll_field _ (fun g => base+p.fieldOffset g) p.fieldBytes hw []
      [.norm,.value,.scale,.zero] .key m a ?_ ?_
    · simp only [fieldOffset, fieldBytes, hfp, L.key_bytes, h4]
      simp only [Nat.reduceMul, Nat.reduceDiv, one_mul] at hhi
      simp
      omega
    · intro g hg
      have := hfirst g (by simp at hg ⊢; tauto)
      omega
  have hidx : (List.range 256).map (fun dim => (before (base+dim/2) >>> ((dim &&& 1)*4)) &&& 15) =
      (List.range 256).map payload.keyCode := by
    apply List.map_congr_left
    intro d hd
    have hd256 := List.mem_range.mp hd
    rw [Nat.and_one_is_mod]
    exact nibble_of_groups hgroups hkey (by omega)
  apply load32_of_bytes (Nat.mod_lt _ (by positivity))
  intro i hi
  have hlast := writeAll_field _ (fun g => base+p.fieldOffset g) p.fieldBytes hw
    [.key,.norm,.value,.scale,.zero] [] .invNorm m (base+264+i)
    (by simp only [fieldOffset, fieldBytes]; omega) (by simp)
  refine hlast.trans ?_
  rw [storeField, storeInvNorm, storeWord_bytes _ hi]
  exact congrArg (fun l => invNormBits l%2^32/256^i%256) hidx

include hg hkey hvalue

theorem SlotLayout.store_holds (m : Mem) : HoldsPayload p inv n invNormBits payload base
    (writeAll (storeField invNormBits p payload base) (storedFields p.keyFp8 inv) m) := by
  have hkeyRange := L.field_survives invNormBits payload base m .key
    (mem_storedFields .key (by decide) (by decide))
  have hvalueRange := L.field_survives invNormBits payload base m .value
    (mem_storedFields .value (by decide) (by decide))
  obtain ⟨mk,hmk⟩ := hkeyRange
  obtain ⟨mv,hmv⟩ := hvalueRange
  simp only [fieldOffset, fieldBytes, Nat.add_zero, storeField] at hmk hmv
  refine ⟨?_,?_,?_,?_,?_,?_,?_,?_,?_⟩
  · intro hfp d hd
    rw [hmk _ (by omega) (by rw [hfp]; simpa using hd), storeKey, hfp, if_pos rfl, scatter_one _ _ hd]
  · intro hfp h4
    rw [hfp, h4] at hkey
    refine (L.storeKey_four payload base hp hfp h4 hkey mk).congr fun a hlo hhi => ?_
    refine hmk a hlo ?_
    rw [hfp, L.key_bytes, h4]
    simp only [Bool.false_eq_true, if_false]
    omega
  · intro hfp h3
    rw [hfp, h3] at hkey
    refine (L.storeKey_three payload base hg hfp h3 hkey mk).congr fun a hlo hhi => ?_
    refine hmk a hlo ?_
    rw [hfp, L.key_bytes, h3]
    simp only [Bool.false_eq_true, if_false]
    omega
  · intro h4
    rw [h4] at hvalue
    refine (L.storeValue_four payload base hp h4 mv hvalue).congr fun a hlo hhi => ?_
    refine hmv a hlo ?_
    rw [L.value_bytes, h4]
    omega
  · intro h3
    refine (L.storeValue_three payload base hg h3 mv).congr fun a hlo hhi => ?_
    refine hmv a hlo ?_
    rw [L.value_bytes, h3]
    omega
  · intro hfp
    exact L.load16_field invNormBits payload base .norm _ payload.norm_lt rfl
      (norm_mem_storedFields hfp) rfl m
  · exact L.load16_field invNormBits payload base .scale _ payload.scale_lt rfl
      (mem_storedFields .scale (by decide) (by decide)) rfl m
  · exact L.load16_field invNormBits payload base .zero _ payload.zero_lt rfl
      (mem_storedFields .zero (by decide) (by decide)) rfl m
  · intro hinv
    obtain ⟨hfp,_,h4,_,_⟩ := L.inv_shape hinv
    rw [hfp, h4] at hkey
    exact L.load32_invNorm invNormBits payload base hp hinv hkey m

end Stored

/-- A reader extracted the payload: the code of every dimension, the words it reads
and, where it reads one, the inverse norm of those key codes. -/
structure SlotFields.Matches (f : SlotFields) (invNormBits : List ℕ → ℕ) {c : TurboQuantConfig}
    (payload : SlotPayload c) : Prop where
  key : ∀ d < c.headDim, f.keyCode d = payload.keyCode d
  value : ∀ d < c.headDim, f.valueCode d = payload.valueCode d
  norm : f.norm = if c.keyFp8 then none else some payload.norm
  scale : f.scale = payload.scale
  zero : f.zero = payload.zero
  inv_norm : ∀ w, f.invNorm = some w →
    w = invNormBits ((List.range 256).map payload.keyCode)%2^32

section Readers

variable {p : LayoutParams} {inv : Bool} {width n base : ℕ} (L : SlotLayout p inv width n)
  {invNormBits : List ℕ → ℕ} {c : TurboQuantConfig} {payload : SlotPayload c} {m : Mem}
  (h : HoldsPayload p inv n invNormBits payload base m)
  (hkey : ∀ d, payload.keyCode d < if p.keyFp8 then 256 else 2^p.mseBits)
  (hvalue : ∀ d, payload.valueCode d < 2^p.vqb)
include L h

theorem HoldsPayload.readKey_eq (hkey : ∀ d, payload.keyCode d < if p.keyFp8 then 256 else 2^p.mseBits)
    (d : ℕ) (hd : d < p.D) : readKey p m base d = payload.keyCode d := by
  unfold readKey
  split_ifs with hfp
  · exact h.key_byte hfp d hd
  · have hfp' : p.keyFp8 = false := by simpa using hfp
    rw [hfp'] at hkey
    have hdim := L.dim
    rcases L.codec with hc | hc | hc
    · exact absurd hc hfp
    · rw [hc] at hkey ⊢
      exact gather16_of_groups (h.key_four hfp' hc) hkey (by decide) (by decide) (by decide)
        (by omega)
    · rw [hc] at hkey ⊢
      exact gather16_of_groups (h.key_three hfp' hc) hkey (by decide) (by decide) (by decide)
        (by omega)

include hvalue in
theorem HoldsPayload.nibble_value (h4 : p.vqb = 4) (d : ℕ) (hd : d < p.D) :
    nibble m (base+p.valCacheOffset) d = payload.valueCode d := by
  have hdim := L.dim
  rw [h4] at hvalue
  exact nibble_of_groups (h.value_four h4) hvalue (by omega)

include hvalue in
theorem HoldsPayload.gather_value (h3 : p.vqb = 3) (d : ℕ) (hd : d < p.D) :
    gather16 m (base+p.valCacheOffset) 3 d = payload.valueCode d := by
  have hdim := L.dim
  rw [h3] at hvalue
  exact gather16_of_groups (h.value_three h3) hvalue (by decide) (by decide) (by decide) (by omega)

variable (hD : p.D = c.headDim) (hfp : p.keyFp8 = c.keyFp8)
include hkey hvalue hD hfp

theorem HoldsPayload.decodeStage1_matches :
    (decodeStage1Read p m base).Matches invNormBits payload where
  key d hd := h.readKey_eq L hkey d (by omega)
  value d hd := by
    simp only [decodeStage1Read]
    split_ifs with h3
    · exact h.gather_value L hvalue h3 d (by omega)
    · exact h.nibble_value L hvalue (L.values.resolve_right h3) d (by omega)
  norm := by
    simp only [decodeStage1Read, ← hfp]
    split_ifs with hf
    · rfl
    · rw [h.norm (by simpa using hf)]
  scale := h.scale
  zero := h.zero
  inv_norm w hw := by simp [decodeStage1Read] at hw

omit h hkey hvalue hD hfp in
/-- In the reordered layout the offsets are the constants of the specialised kernels. -/
theorem SlotLayout.aligned_offsets (hinv : inv = true) :
    p.valCacheOffset = 128 ∧ p.normOffset = 256 ∧ p.scOffset = 258 := by
  obtain ⟨hf,hn,h4,hv,_⟩ := L.inv_shape hinv
  have hk := L.kps
  rw [hf, if_neg (by simp), L.key_bytes, h4] at hk
  simp only [valCacheOffset, normOffset, scOffset,
    L.aligned, hinv, if_true, L.value_bytes, hv]
  omega

theorem HoldsPayload.sixScalar_matches (hinv : inv = true) :
    (sixScalarRead m base).Matches invNormBits payload := by
  obtain ⟨hf,hn,h4,hv,_⟩ := L.inv_shape hinv
  obtain ⟨hvo,hno,hso⟩ := L.aligned_offsets hinv
  have hdim := L.dim
  have hk : ∀ d, payload.keyCode d < 2^4 := by simpa [hf, h4] using hkey
  have hz := h.zero
  have hnorm := h.norm hf
  have hs := h.scale
  rw [hso] at hs hz
  refine ⟨fun d hd => ?_,fun d hd => ?_,?_,hs,hz,fun w hw => by simp [sixScalarRead] at hw⟩
  · exact nibble_of_groups (h.key_four hf h4) hk (by omega)
  · have hval := h.nibble_value L hvalue hv d (by omega)
    rw [hvo] at hval
    exact hval
  · rw [hno] at hnorm
    rw [← hfp, hf]
    simp [sixScalarRead, hnorm]

theorem HoldsPayload.cudaScalar_matches (hinv : inv = true) :
    (cudaScalarRead m base).Matches invNormBits payload := by
  have hsix := h.sixScalar_matches L hkey hvalue hD hfp hinv
  refine ⟨fun d hd => ?_,fun d hd => ?_,hsix.norm,hsix.scale,hsix.zero,fun w hw => ?_⟩
  · rw [← hsix.key d hd]
    simp [cudaScalarRead, sixScalarRead, nibble, Nat.shiftRight_one]
  · rw [← hsix.value d hd]
    simp [cudaScalarRead, sixScalarRead, nibble, Nat.shiftRight_one, Nat.add_assoc]
  · rw [← h.inv_norm hinv]
    exact (Option.some.inj hw).symm

omit L h hkey hvalue hD hfp in
theorem wordByte_eq {addr k : ℕ} {code : ℕ → ℕ} (hg : GroupsAt m addr 4 2 k code) (d : ℕ)
    (hd : d/8*4+3 < k) : wordByte m addr d = m (addr+(d >>> 1)) := by
  have hlt (j : ℕ) (hj : j < 4) : m (addr+d/8*4+j) < 256 := by
    have := hg (d/8*4+j) (by omega) 0 (by decide)
    simp only [Nat.reduceMul, Nat.reduceDiv, one_mul, Nat.add_zero, byteOf_eq] at this
    rw [Nat.add_assoc]
    omega
  rw [wordByte, load32_byte hlt (by rw [Nat.shiftRight_one]; omega), Nat.shiftRight_one,
    Nat.shiftRight_one, Nat.add_assoc]
  congr 2
  omega

theorem HoldsPayload.cudaVector_matches (hinv : inv = true) :
    (cudaVectorRead m base).Matches invNormBits payload := by
  obtain ⟨hf,hn,h4,hv,_⟩ := L.inv_shape hinv
  have hvo := (L.aligned_offsets hinv).1
  have hdim := L.dim
  have hs := h.cudaScalar_matches L hkey hvalue hD hfp hinv
  have hvg := h.value_four hv
  rw [hvo] at hvg
  refine ⟨fun d hd => ?_,fun d hd => ?_,hs.norm,hs.scale,hs.zero,hs.inv_norm⟩
  · rw [← hs.key d hd]
    simp [cudaVectorRead, cudaScalarRead, wordByte_eq (h.key_four hf h4) d (by omega)]
  · rw [← hs.value d hd]
    simp [cudaVectorRead, cudaScalarRead, wordByte_eq hvg d (by omega), Nat.add_assoc]

end Readers

@[simp] theorem Preset.config_headDim (D : ℕ) : (pre.config D).headDim = D := by
  cases pre <;> rfl

theorem decodeAligned_eq (D : ℕ) (kv : KVCache) :
    decodeAligned (pre.config D) kv = cacheInvNorm (pre.config D) kv := by
  by_cases hD : D = 256
  · subst hD
    cases pre <;> simp [decodeAligned, cacheInvNorm, Preset.config, TurboQuantConfig.keyFp8,
      keyMseBits, keyPackedSize, packedBytes]
  · have hdim : (D == 256) = false := by simpa using hD
    simp [decodeAligned, cacheInvNorm, hdim]

theorem dequantAligned_eq (D : ℕ) (kv : KVCache) :
    dequantAligned (pre.config D) kv = cacheInvNorm (pre.config D) kv := by
  by_cases hD : D = 256
  · subst hD
    cases pre <;> simp [dequantAligned, cacheInvNorm, Preset.config, TurboQuantConfig.keyFp8,
      keyMseBits, keyPackedSize, packedBytes]
  · have hdim : (D == 256) = false := by simpa using hD
    simp [dequantAligned, cacheInvNorm, hdim]

theorem decodeParams_eq (D : ℕ) (kv : KVCache) :
    decodeParams (pre.config D) kv = storeParams (pre.config D) kv := by
  rw [decodeParams, decodeAligned_eq]
  rfl

theorem fullDequantRead_eq (D : ℕ) (kv : KVCache) (m : Mem) (base : ℕ) :
    fullDequantRead (dequantParams (pre.config D) kv) m base =
      decodeStage1Read (storeParams (pre.config D) kv) m base := by
  have ha : (dequantParams (pre.config D) kv).alignedSpecLayout =
      (storeParams (pre.config D) kv).alignedSpecLayout := dequantAligned_eq pre D kv
  have hvo : (dequantParams (pre.config D) kv).valCacheOffset =
      (storeParams (pre.config D) kv).valCacheOffset := by
    simp only [valCacheOffset, ha]
    rfl
  have hv : (storeParams (pre.config D) kv).vqb = 4 ∨ (storeParams (pre.config D) kv).vqb = 3 := by
    cases pre <;> simp [storeParams, Preset.config]
  simp only [fullDequantRead, decodeStage1Read, hvo]
  congr 1
  · -- the two kernels test the value width in opposite orders
    funext d
    have hq : (dequantParams (pre.config D) kv).vqb = (storeParams (pre.config D) kv).vqb := rfl
    rw [hq]
    rcases hv with h | h <;> simp [h]
  · -- `mse_bytes` differs for FP8 keys, which have no norm
    change (if (storeParams (pre.config D) kv).keyFp8 then _ else _) = _
    split_ifs with hfp
    · rfl
    · have hfp' : (pre.config D).keyFp8 = false := by simpa [storeParams] using hfp
      have hno : (dequantParams (pre.config D) kv).normOffset =
          (storeParams (pre.config D) kv).normOffset := by
        simp only [normOffset, ha]
        simp [dequantParams, storeParams, hfp']
      rw [hno]

theorem selectableReaders_cases {c : TurboQuantConfig} {kv : KVCache} {args : DecodeArgs}
    {r : Reader} (hr : r ∈ selectableReaders c kv args) :
    r = .fullDequant ∨ r = .decodeStage1 ∨ decodeAligned c kv = true := by
  by_cases ha : decodeAligned c kv = true
  · exact Or.inr (Or.inr ha)
  · have ha' : decodeAligned c kv = false := by simpa using ha
    simp only [selectableReaders, stage1Readers, ha', Bool.false_and, Bool.false_eq_true,
      if_false, List.mem_cons, List.not_mem_nil, or_false] at hr
    tauto

theorem KVCache.slotBase_eq (kv : KVCache) (slot head : ℕ) : kv.slotBase slot head =
      ((slot/kv.blockSize*kv.numKvHeads+head)*kv.blockSize+slot%kv.blockSize)*kv.slotWidth := by
  simp only [slotBase, strideBlock, stridePos, strideHead]
  ring

theorem KVCache.slotBase_apart (kv : KVCache) {slot head slot' head' : ℕ}
    (hh : head < kv.numKvHeads) (hh' : head' < kv.numKvHeads) (hne : (slot,head) ≠ (slot',head')) :
    kv.slotBase slot head+kv.slotWidth ≤ kv.slotBase slot' head' ∨
      kv.slotBase slot' head'+kv.slotWidth ≤ kv.slotBase slot head := by
  have hindex {b q r q' r' : ℕ} (hr : r < b) (hr' : r' < b) (h : q*b+r = q'*b+r') :
      q = q' ∧ r = r' := by
    have hb : 0 < b := by omega
    have hq (x y : ℕ) (hy : y < b) : (x*b+y)/b = x ∧ (x*b+y)%b = y := by
      rw [Nat.mul_comm, Nat.mul_add_div hb, Nat.mul_add_mod, Nat.div_eq_of_lt hy,
        Nat.mod_eq_of_lt hy]
      simp
    have h1 := hq q r hr
    have h2 := hq q' r' hr'
    rw [h] at h1
    exact ⟨h1.1.symm.trans h2.1,h1.2.symm.trans h2.2⟩
  have hlt (s : ℕ) : s%kv.blockSize < kv.blockSize := Nat.mod_lt _ kv.blockSize_pos
  rw [kv.slotBase_eq, kv.slotBase_eq]
  rcases Nat.lt_trichotomy ((slot/kv.blockSize*kv.numKvHeads+head)*kv.blockSize+slot%kv.blockSize)
    ((slot'/kv.blockSize*kv.numKvHeads+head')*kv.blockSize+slot'%kv.blockSize) with h | h | h
  · left
    rw [← Nat.succ_mul]
    exact Nat.mul_le_mul_right _ h
  · -- equal indices have equal components, hence equal slots and heads
    obtain ⟨hd,hm⟩ := hindex (hlt slot) (hlt slot') h
    obtain ⟨hb,hhead⟩ := hindex hh hh' hd
    have hslot : slot = slot' := by
      rw [← Nat.div_add_mod slot kv.blockSize, ← Nat.div_add_mod slot' kv.blockSize, hb, hm]
    exact absurd (by rw [hslot, hhead]) hne
  · right
    rw [← Nat.succ_mul]
    exact Nat.mul_le_mul_right _ h

theorem store_readers (k : ℕ) (hk : 3 ≤ k) (kv : KVCache)
    (hw : kv.slotWidth = (pre.config (2^k)).slotSizeAligned) (invNormBits : List ℕ → ℕ)
    (payload : SlotPayload (pre.config (2^k))) (slot head : ℕ) (m : Mem) (args : DecodeArgs)
    (r : Reader) (hr : r ∈ selectableReaders (pre.config (2^k)) kv args) :
    (r.read (pre.config (2^k)) kv (tritonTurboquantStore invNormBits kv payload slot head m)
      (kv.slotBase slot head)).Matches invNormBits payload := by
  obtain ⟨hdim,hdiv⟩ := headDim_div_eight hk
  have hp := nextPowerOf2_pow k
  have hg := nextPowerOf2_pow (k-3)
  have L : SlotLayout (storeParams (pre.config (2^k)) kv) (cacheInvNorm (pre.config (2^k)) kv)
      kv.slotWidth (2^(k-3)) := by
    rw [hdim] at hw ⊢
    exact storeParams_layout pre kv _ hw
  have h := L.store_holds invNormBits payload (kv.slotBase slot head) (by rw [← hdim, hp]) hg
    payload.key_lt payload.value_lt m
  have hD : (storeParams (pre.config (2^k)) kv).D = (pre.config (2^k)).headDim := rfl
  have hstage1 := h.decodeStage1_matches L payload.key_lt payload.value_lt hD rfl
  have hcuda (hinv : cacheInvNorm (pre.config (2^k)) kv = true) :=
    h.cudaScalar_matches L payload.key_lt payload.value_lt hD rfl hinv
  rcases selectableReaders_cases hr with rfl | rfl | ha
  · rw [Reader.read, fullDequantRead_eq]
    exact hstage1
  · rw [Reader.read, decodeParams_eq]
    exact hstage1
  · rw [decodeAligned_eq] at ha
    match r with
    | .decodeStage1 => rw [Reader.read, decodeParams_eq]; exact hstage1
    | .fullDequant => rw [Reader.read, fullDequantRead_eq]; exact hstage1
    | .sixScalar => exact h.sixScalar_matches L payload.key_lt payload.value_lt hD rfl ha
    | .headParallel => exact hcuda ha
    | .sharedRows => exact hcuda ha
    | .sharedRowsTile20 => exact hcuda ha
    | .shared4 false => exact hcuda ha
    | .shared4 true => exact h.cudaVector_matches L payload.key_lt payload.value_lt hD rfl ha

/-- Slot round trip and layout agreement: the fields of a stored slot do not overlap and
stay inside it, no other (slot, head) changes, and all readers agree on the contents. -/
theorem store_round_trip (pre : Preset) (D : ℕ) (hD : ∃ k, D = 2^k) (h8 : 8 ≤ D) (kv : KVCache)
    (hw : kv.slotWidth = (pre.config D).slotSizeAligned) (invNormBits : List ℕ → ℕ)
    (payload : SlotPayload (pre.config D)) (slot head : ℕ) (hh : head < kv.numKvHeads) (m : Mem) :
    let p := storeParams (pre.config D) kv
    let fields := storedFields (pre.config D).keyFp8 (cacheInvNorm (pre.config D) kv)
    let m' := tritonTurboquantStore invNormBits kv payload slot head m
    ((∀ f, WritesWithin (kv.slotBase slot head+p.fieldOffset f) (p.fieldBytes f)
        (storeField invNormBits p payload (kv.slotBase slot head) f)) ∧
      fields.Pairwise (fun f g => p.fieldOffset f+p.fieldBytes f ≤ p.fieldOffset g ∨
        p.fieldOffset g+p.fieldBytes g ≤ p.fieldOffset f) ∧
      ∀ f ∈ fields, p.fieldOffset f+p.fieldBytes f ≤ kv.slotWidth) ∧
    (∀ slot' head', head' < kv.numKvHeads → (slot',head') ≠ (slot,head) → ∀ o < kv.slotWidth,
      m' (kv.slotBase slot' head'+o) = m (kv.slotBase slot' head'+o)) ∧
    ∀ args, ∀ r ∈ selectableReaders (pre.config D) kv args,
      (r.read (pre.config D) kv m' (kv.slotBase slot head)).Matches invNormBits payload := by
  obtain ⟨k,rfl⟩ := hD
  have hk : 3 ≤ k := (Nat.pow_le_pow_iff_right (by decide : 1 < 2)).mp h8
  have L : SlotLayout (storeParams (pre.config (2^k)) kv) (cacheInvNorm (pre.config (2^k)) kv)
      kv.slotWidth (2^(k-3)) := by
    rw [(headDim_div_eight hk).1] at hw ⊢
    exact storeParams_layout pre kv _ hw
  have hwrites := L.storeField_writesWithin invNormBits payload (kv.slotBase slot head)
  refine ⟨⟨hwrites,L.fields_disjoint,L.field_inside⟩,?_,?_⟩
  · intro slot' head' hh' hne o ho
    apply writeAll_other _ _ _ hwrites
    intro f hf
    have hin := L.field_inside f hf
    have hapart := kv.slotBase_apart hh' hh hne
    omega
  · exact store_readers pre k hk kv hw invNormBits payload slot head m

def alignedCache : KVCache := ⟨4,16,268,0,by decide,Nat.succ_pos 15⟩

def samplePayload : SlotPayload (Preset.fourBitNc.config 256) where
  keyCode d := (7*d)%16
  valueCode d := (5*d+3)%16
  norm := 0x3C01
  scale := 0x2E66
  zero := 0xB800
  key_lt d := Nat.mod_lt _ (by decide)
  value_lt d := Nat.mod_lt _ (by decide)
  norm_lt := by decide
  scale_lt := by decide
  zero_lt := by decide

def sameRequestArgs : DecodeArgs := ⟨4,24,2,28,true,true,false,true,true⟩

theorem store_round_trip_vector_load :
    Reader.shared4 true ∈ selectableReaders (Preset.fourBitNc.config 256) alignedCache
      sameRequestArgs ∧
    ((Reader.shared4 true).read (Preset.fourBitNc.config 256) alignedCache
      (tritonTurboquantStore List.sum alignedCache samplePayload 37 2 fun _ => 0)
      (alignedCache.slotBase 37 2)).Matches List.sum samplePayload :=
  ⟨by decide, (store_round_trip .fourBitNc 256 ⟨8,rfl⟩ (by decide) alignedCache rfl List.sum
    samplePayload 37 2 (by decide) fun _ => 0).2.2 sameRequestArgs _ (by decide)⟩

end MetaZenith.TurboQuant
