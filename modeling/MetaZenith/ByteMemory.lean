import MetaZenith.BitPacking

/-! A byte-addressed memory, strided vector stores into it, and what a sequence
of stores to disjoint ranges leaves there. -/

namespace MetaZenith.ByteMemory

variable {a addr base count n stride w : ℕ} {m : Mem} {code : ℕ → ℕ}
open BitPacking

abbrev Mem := ℕ → ℕ

def scatter (base stride count : ℕ) (f : ℕ → ℕ) (m : Mem) : Mem := fun a =>
  if base ≤ a ∧ (a-base)%stride = 0 ∧ (a-base)/stride < count then f ((a-base)/stride) else m a

def storeWord (n a w : ℕ) (m : Mem) : Mem := scatter a 1 n (byteOf w) m

def load16 (m : Mem) (a : ℕ) : ℕ := m a ||| m (a+1) <<< 8

def load32 (m : Mem) (a : ℕ) : ℕ :=
  m a ||| m (a+1) <<< 8 ||| m (a+2) <<< 16 ||| m (a+3) <<< 24

theorem scatter_hit {g : ℕ} (f : ℕ → ℕ) (m : Mem) (hs : 0 < stride) (hg : g < count) :
    scatter base stride count f m (base+stride*g) = f g := by
  rw [scatter, Nat.add_sub_cancel_left, Nat.mul_mod_right, Nat.mul_div_cancel_left g hs,
    if_pos ⟨by omega,rfl,hg⟩]

theorem scatter_miss (f : ℕ → ℕ) (m : Mem)
    (h : ¬(base ≤ a ∧ (a-base)%stride = 0 ∧ (a-base)/stride < count)) :
    scatter base stride count f m a = m a := if_neg h

theorem scatter_one {g : ℕ} (f : ℕ → ℕ) (m : Mem) (hg : g < count) :
    scatter base 1 count f m (base+g) = f g := by
  have h : scatter base 1 count f m (base+1*g) = f g := scatter_hit f m Nat.one_pos hg
  rwa [Nat.one_mul] at h

def WritesWithin (lo n : ℕ) (op : Mem → Mem) : Prop :=
  ∀ m a, ¬(lo ≤ a ∧ a < lo+n) → op m a = m a

theorem WritesWithin.mono {lo lo' n' : ℕ} {op : Mem → Mem} (h : WritesWithin lo n op)
    (hlo : lo' ≤ lo) (hhi : lo+n ≤ lo'+n') : WritesWithin lo' n' op := by
  intro m a ha
  exact h m a (by omega)

theorem scatter_writesWithin (base count : ℕ) (hs : 0 < stride) (f : ℕ → ℕ) :
    WritesWithin base (stride*count) (scatter base stride count f) := by
  intro m a ha
  apply scatter_miss
  rintro ⟨hb,_,hc⟩
  have h : a-base < stride*count := by
    rw [Nat.div_lt_iff_lt_mul hs, Nat.mul_comm] at hc
    exact hc
  omega

theorem storeWord_writesWithin (n a w : ℕ) : WritesWithin a n (storeWord n a w) := by
  have h := scatter_writesWithin a n Nat.one_pos (byteOf w)
  rw [one_mul] at h
  exact h

theorem storeWord_bytes {i : ℕ} (m : Mem) (hi : i < n) : storeWord n a w m (a+i) = w/256^i%256 := by
  rw [storeWord, scatter_one (byteOf w) m hi, byteOf_eq]

theorem load16_of_bytes (hw : w < 2^16) (h : ∀ i < 2, m (a+i) = w/256^i%256) : load16 m a = w := by
  have h0 : m a = w%256 := by simpa using h 0 (by decide)
  have h1 : m (a+1) = w/256%256 := by simpa using h 1 (by decide)
  rw [load16, or_shiftLeft _ (by omega), h0, h1]
  omega

theorem load32_of_bytes (hw : w < 2^32) (h : ∀ i < 4, m (a+i) = w/256^i%256) : load32 m a = w := by
  have h0 : m a = w%256 := by simpa using h 0 (by decide)
  have h1 : m (a+1) = w/256%256 := by simpa using h 1 (by decide)
  have h2 : m (a+2) = w/65536%256 := by simpa using h 2 (by decide)
  have h3 : m (a+3) = w/16777216%256 := by simpa using h 3 (by decide)
  rw [load32, or_shiftLeft (m (a+1)) (by omega), or_shiftLeft (m (a+2)) (by omega),
    or_shiftLeft (m (a+3)) (by omega), h0, h1, h2, h3]
  omega

theorem load32_byte {i : ℕ} (h : ∀ j < 4, m (a+j) < 256) (hi : i < 4) :
    (load32 m a >>> (i*8))%256 = m (a+i) := by
  have h0 : m a < 256 := h 0 (by decide)
  have h1 := h 1 (by decide)
  have h2 := h 2 (by decide)
  have h3 := h 3 (by decide)
  rw [load32, or_shiftLeft (m (a+1)) (by omega), or_shiftLeft (m (a+2)) (by omega),
    or_shiftLeft (m (a+3)) (by omega), Nat.shiftRight_eq_div_pow]
  have hcases : i = 0 ∨ i = 1 ∨ i = 2 ∨ i = 3 := by omega
  rcases hcases with rfl | rfl | rfl | rfl <;> norm_num <;> omega

def nibble (m : Mem) (addr d : ℕ) : ℕ := (m (addr+d/2) >>> (d%2*4)) &&& 0xF

/-- Code `d` of an array of `bits`-bit codes, through the two bytes it may span. -/
def gather16 (m : Mem) (addr bits d : ℕ) : ℕ :=
  window (m (addr+d*bits/8)) (m (addr+d*bits/8+1)) (d*bits%8) bits

def GroupsAt (m : Mem) (addr b k n : ℕ) (code : ℕ → ℕ) : Prop :=
  ∀ g < n, ∀ i < b*k/8,
    m (addr+b*k/8*g+i) = byteOf (pack b (fun j => code (k*g+j)) k) i

theorem GroupsAt.congr {m' : Mem} {b k : ℕ} (h : GroupsAt m addr b k n code)
    (hm : ∀ a, addr ≤ a → a < addr+b*k/8*n → m' a = m a) : GroupsAt m' addr b k n code := by
  intro g hg i hi
  have hend : b*k/8*g+b*k/8 ≤ b*k/8*n := by
    rw [← Nat.mul_succ]
    exact Nat.mul_le_mul_left _ hg
  rw [hm _ (by omega) (by omega)]
  exact h g hg i hi

theorem gather16_of_groups {b k d : ℕ} (h : GroupsAt m addr b k n code)
    (hcode : ∀ d, code d < 2^b) (hb : b ≤ 8) (hb0 : 0 < b) (hk : 8 ∣ b*k) (hd : d < k*n) :
    gather16 m addr b d = code d := by
  have hk0 : 0 < k := Nat.pos_of_mul_pos_right (by omega : 0 < k*n)
  have hdg : k*(d/k)+d%k = d := Nat.div_add_mod d k
  have hg : d/k < n := by
    rw [Nat.div_lt_iff_lt_mul hk0, Nat.mul_comm]
    exact hd
  have hj : d%k < k := Nat.mod_lt _ hk0
  obtain ⟨w,hw⟩ := hk
  have hw8 : b*k/8 = w := by omega
  -- bit `b*d` is bit `b*(d%k)` of group `d/k`
  have hbit : d*b = 8*(w*(d/k))+b*(d%k) := by
    calc
      d*b = b*(k*(d/k)+d%k) := by rw [hdg, Nat.mul_comm]
      _ = b*k*(d/k)+b*(d%k) := by ring
      _ = 8*(w*(d/k))+b*(d%k) := by rw [hw]; ring
  have hdiv : d*b/8 = w*(d/k)+b*(d%k)/8 := by omega
  have hmod : d*b%8 = b*(d%k)%8 := by omega
  have hlast : b*(d%k)+b ≤ 8*w := by
    rw [← hw, ← Nat.mul_succ]
    exact Nat.mul_le_mul_left b hj
  have hwin : window (m (addr+d*b/8)) (m (addr+d*b/8+1)) (b*(d%k)%8) b = code (k*(d/k)+d%k) :=
    window_pack (fun i _ => hcode (k*(d/k)+i)) hj hb
    (by
      rw [hdiv, ← Nat.add_assoc]
      have := h (d/k) hg (b*(d%k)/8) (by omega)
      rwa [hw8] at this)
    (by
      intro hin
      rw [hdiv, ← Nat.add_assoc]
      have := h (d/k) hg (b*(d%k)/8+1) (by omega)
      rwa [hw8] at this)
    ⟨w,hw⟩
  rw [gather16, hmod, hwin, hdg]

theorem nibble_of_groups {d : ℕ} (h : GroupsAt m addr 4 2 n code) (hcode : ∀ d, code d < 2^4)
    (hd : d < 2*n) : nibble m addr d = code d := by
  have hgather := gather16_of_groups h hcode (by decide) (by decide) (by decide) hd
  have hbyte : m (addr+d/2) < 256 := by
    have := h (d/2) (by omega) 0 (by decide)
    rw [byteOf_eq] at this
    simp only [Nat.add_zero, Nat.reduceMul, Nat.reduceDiv, one_mul] at this
    omega
  have hdiv : d*4/8 = d/2 := by omega
  have hmod : d*4%8 = d%2*4 := by omega
  rw [gather16, hdiv, hmod, window_low _ _ _ hbyte (by omega)] at hgather
  rw [nibble, show 0xF = 2^4-1 by rfl, Nat.and_two_pow_sub_one_eq_mod,
    Nat.shiftRight_eq_div_pow, hgather]

section Fields

variable {F : Type} (write : F → Mem → Mem) (lo len : F → ℕ)

def writeAll (fs : List F) (m : Mem) : Mem := fs.foldl (fun m f => write f m) m

variable (hw : ∀ f, WritesWithin (lo f) (len f) (write f))
include hw

theorem writeAll_other (fs : List F) (m : Mem) (a : ℕ)
    (h : ∀ f ∈ fs, ¬(lo f ≤ a ∧ a < lo f+len f)) : writeAll write fs m a = m a := by
  induction fs generalizing m with
  | nil => rfl
  | cons f fs ih =>
    have hrest := ih (write f m) fun g hg => h g (by simp [hg])
    exact hrest.trans (hw f m a (h f (by simp)))

/-- What a field's store left in its range survives the stores of the fields after it. -/
theorem writeAll_field (pre post : List F) (f : F) (m : Mem) (a : ℕ)
    (ha : lo f ≤ a ∧ a < lo f+len f) (hd : ∀ g ∈ post, lo f+len f ≤ lo g ∨ lo g+len g ≤ lo f) :
    writeAll write (pre ++ f :: post) m a = write f (writeAll write pre m) a := by
  have hsplit : writeAll write (pre ++ f :: post) m =
      writeAll write post (write f (writeAll write pre m)) := by
    simp [writeAll, List.foldl_append]
  rw [hsplit]
  apply writeAll_other write lo len hw
  intro g hg
  rcases hd g hg with h | h <;> omega

end Fields

end MetaZenith.ByteMemory
