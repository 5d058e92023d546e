import Mathlib

/-! Fixed-width codes packed into one integer, and their recovery through a
two-byte window at an arbitrary bit offset. -/

namespace MetaZenith.BitPacking

variable {b k lo : ℕ} {code : ℕ → ℕ}

def pack (b : ℕ) (code : ℕ → ℕ) (k : ℕ) : ℕ :=
  ((List.range k).map fun j => code j <<< (b*j)).sum

def byteOf (n i : ℕ) : ℕ := (n >>> (8*i)) &&& 0xFF

theorem byteOf_eq (n i : ℕ) : byteOf n i = n/256^i%256 := by
  rw [byteOf, show 0xFF = 2^8-1 by rfl, Nat.and_two_pow_sub_one_eq_mod, Nat.shiftRight_eq_div_pow,
    pow_mul, show (2:ℕ)^8 = 256 by rfl]

theorem pack_succ (b : ℕ) (code : ℕ → ℕ) (k : ℕ) :
    pack b code (k+1) = pack b code k+code k*2^(b*k) := by
  simp [pack, List.range_succ, Nat.shiftLeft_eq]

theorem pack_lt (h : ∀ j < k, code j < 2^b) : pack b code k < 2^(b*k) := by
  induction k with
  | zero => simp [pack]
  | succ k ih =>
    have hk := ih fun j hj => h j (by omega)
    have hc : code k+1 ≤ 2^b := h k (by omega)
    calc
      pack b code (k+1) = pack b code k+code k*2^(b*k) := pack_succ b code k
      _ < (code k+1)*2^(b*k) := by rw [add_mul]; omega
      _ ≤ 2^b*2^(b*k) := Nat.mul_le_mul_right _ hc
      _ = 2^(b*(k+1)) := by rw [← pow_add]; ring_nf

theorem pack_field {j : ℕ} (h : ∀ i < k, code i < 2^b) (hj : j < k) :
    pack b code k/2^(b*j)%2^b = code j := by
  induction k with
  | zero => omega
  | succ k ih =>
    have hlow : ∀ i < k, code i < 2^b := fun i hi => h i (by omega)
    rw [pack_succ]
    rcases Nat.lt_succ_iff_lt_or_eq.mp hj with hjk | rfl
    · -- the new code sits at least one field above the one read
      obtain ⟨t,rfl⟩ : ∃ t, k = j+1+t := ⟨k-(j+1),by omega⟩
      have hsplit : code (j+1+t)*2^(b*(j+1+t)) = 2^(b*j)*(2^b*(code (j+1+t)*2^(b*t))) := by
        rw [show b*(j+1+t) = b*j+(b+b*t) by ring, pow_add, pow_add]
        ring
      rw [hsplit, Nat.add_mul_div_left _ _ (by positivity), Nat.add_mul_mod_self_left,
        ih hlow hjk]
    · rw [Nat.add_mul_div_right _ _ (by positivity), Nat.div_eq_of_lt (pack_lt hlow), Nat.zero_add,
        Nat.mod_eq_of_lt (h j (by omega))]

theorem or_shiftLeft (hi : ℕ) (h : lo < 2^k) : lo ||| hi <<< k = lo+2^k*hi := by
  rw [Nat.lor_comm, ← Nat.shiftLeft_add_eq_or_of_lt h, Nat.shiftLeft_eq]
  ring

def window (lo hi s b : ℕ) : ℕ := ((lo ||| hi <<< 8) >>> s) &&& (1 <<< b-1)

theorem window_eq (hi s b : ℕ) (hlo : lo < 256) : window lo hi s b = (lo+256*hi)/2^s%2^b := by
  rw [window, or_shiftLeft hi hlo, show (2:ℕ)^8 = 256 by rfl, Nat.one_shiftLeft, Nat.and_two_pow_sub_one_eq_mod, Nat.shiftRight_eq_div_pow]

theorem window_low (hi s b : ℕ) (hlo : lo < 256) (hs : s+b ≤ 8) : window lo hi s b = lo/2^s%2^b := by
  obtain ⟨t,ht⟩ : ∃ t, 8 = s+b+t := ⟨8-(s+b),by omega⟩
  have h256 : 256*hi = 2^s*(2^b*(2^t*hi)) := by
    rw [show 256 = 2^8 by rfl, ht, pow_add, pow_add]
    ring
  rw [window_eq hi s b hlo, h256, Nat.add_mul_div_left _ _ (by positivity),
    Nat.add_mul_mod_self_left]

theorem window_byteOf (n q s b : ℕ) (hs : s+b ≤ 16) :
    window (byteOf n q) (byteOf n (q+1)) s b = n/2^(8*q+s)%2^b := by
  have hlt (m i : ℕ) : byteOf m i < 256 := by
    rw [byteOf_eq]
    exact Nat.mod_lt _ (by decide)
  rw [window_eq _ s b (hlt n q), byteOf_eq, byteOf_eq]
  have hq : n/256^(q+1) = n/256^q/256 := by rw [pow_succ, Nat.div_div_eq_div_mul]
  have hsum : n/256^q%256+256*(n/256^(q+1)%256) = n/256^q%2^16 := by
    rw [hq]
    omega
  obtain ⟨t,ht⟩ : ∃ t, 16 = s+(b+t) := ⟨16-(s+b),by omega⟩
  have hpow : n/2^(8*q+s) = n/256^q/2^s := by
    rw [pow_add, pow_mul, show (2:ℕ)^8 = 256 by rfl, Nat.div_div_eq_div_mul]
  rw [hsum, hpow, ht, pow_add 2 s (b+t), Nat.mod_mul_right_div_self, pow_add,
    Nat.mod_mul_right_mod]

theorem window_pack {j : ℕ} {hi : ℕ} (h : ∀ i < k, code i < 2^b) (hj : j < k) (hb : b ≤ 8)
    (hlo : lo = byteOf (pack b code k) (b*j/8))
    (hhi : 8*(b*j/8+1) < b*k → hi = byteOf (pack b code k) (b*j/8+1)) (hk : 8 ∣ b*k) :
    window lo hi (b*j%8) b = code j := by
  have hbit : 8*(b*j/8)+b*j%8 = b*j := Nat.div_add_mod _ _
  have hend : b*j+b ≤ b*k := by
    rw [← Nat.mul_succ]
    exact Nat.mul_le_mul_left b hj
  rw [← pack_field h hj]
  by_cases hin : 8*(b*j/8+1) < b*k
  · rw [hlo, hhi hin, window_byteOf _ _ _ _ (by omega), hbit]
  · have hlt : lo < 256 := by
      rw [hlo, byteOf_eq]
      exact Nat.mod_lt _ (by decide)
    have hs : b*j%8+b ≤ 8 := by omega
    rw [window_low hi _ _ hlt hs, ← window_low (byteOf (pack b code k) (b*j/8+1)) _ _ hlt hs, hlo,
      window_byteOf _ _ _ _ (by omega), hbit]

end MetaZenith.BitPacking
