import Mathlib

/-! Byte strings and the positional numbers they spell, in both byte orders.
Widths are explicit, so that decoding an encoded number of any size gives its
residue; no machine word is fixed here. -/
namespace Osc2FtdiDmx.BytesEndian

abbrev Byte := BitVec 8

/-- The number spelled by a byte string, most significant byte first. -/
def valueBE (bs : List Byte) : ℕ := bs.foldl (fun n b => 256 * n + b.toNat) 0

/-- The `k` low-order bytes of `n`, most significant first. -/
def bytesBE : ℕ → ℕ → List Byte
  | 0, _ => []
  | k + 1, n => bytesBE k (n / 256) ++ [BitVec.ofNat 8 n]

/-- The number spelled by a byte string, least significant byte first. -/
def valueLE : List Byte → ℕ
  | [] => 0
  | b :: bs => b.toNat + 256 * valueLE bs

def bytesLE : ℕ → ℕ → List Byte
  | 0, _ => []
  | k + 1, n => BitVec.ofNat 8 n :: bytesLE k (n / 256)

@[simp] theorem bytesBE_length (k n : ℕ) : (bytesBE k n).length = k := by
  induction k generalizing n with
  | zero => rfl
  | succ k ih => simp [bytesBE, ih]

@[simp] theorem bytesLE_length (k n : ℕ) : (bytesLE k n).length = k := by
  induction k generalizing n with
  | zero => rfl
  | succ k ih => simp [bytesLE, ih]

theorem valueBE_append_singleton (bs : List Byte) (b : Byte) :
    valueBE (bs ++ [b]) = 256 * valueBE bs + b.toNat := by
  simp [valueBE, List.foldl_append]

private theorem mod_step (n m : ℕ) : 256 * (n / 256 % m) + n % 256 = n % (256 * m) := by
  rw [Nat.mod_mul]
  omega

theorem valueBE_bytesBE (k n : ℕ) : valueBE (bytesBE k n) = n % 256 ^ k := by
  induction k generalizing n with
  | zero => simp [bytesBE, valueBE, Nat.mod_one]
  | succ k ih =>
    rw [bytesBE, valueBE_append_singleton, ih, BitVec.toNat_ofNat, pow_succ' 256 k]
    exact mod_step n (256 ^ k)

theorem valueLE_bytesLE (k n : ℕ) : valueLE (bytesLE k n) = n % 256 ^ k := by
  induction k generalizing n with
  | zero => simp [bytesLE, valueLE, Nat.mod_one]
  | succ k ih =>
    rw [bytesLE, valueLE, ih, BitVec.toNat_ofNat, pow_succ' 256 k, Nat.add_comm]
    exact mod_step n (256 ^ k)

/-- A big-endian word of `8 * k` bits survives its encoding in `k` bytes. -/
theorem ofNat_valueBE_bytesBE (k : ℕ) (w : BitVec (8 * k)) :
    BitVec.ofNat (8 * k) (valueBE (bytesBE k w.toNat)) = w := by
  have hw : w.toNat < 256 ^ k := by
    have h := w.isLt
    rwa [pow_mul] at h
  rw [valueBE_bytesBE, Nat.mod_eq_of_lt hw, BitVec.ofNat_toNat, BitVec.setWidth_eq]

/-- A mask that clears the low `k` of `w` bits rounds down to a multiple of `2 ^ k`. -/
theorem and_high_mask {x k w : ℕ} (hkw : k ≤ w) (h : x < 2 ^ w) :
    x &&& ((2 ^ (w - k) - 1) <<< k) = x / 2 ^ k * 2 ^ k := by
  rw [← Nat.shiftRight_eq_div_pow, ← Nat.shiftLeft_eq]
  apply Nat.eq_of_testBit_eq
  intro i
  rw [Nat.testBit_and, Nat.testBit_shiftLeft, Nat.testBit_two_pow_sub_one, Nat.testBit_shiftLeft,
    Nat.testBit_shiftRight]
  by_cases hi : k ≤ i
  · by_cases hi' : i < w
    · simp [hi, show i - k < w - k by omega]
    · have hx : x.testBit i = false :=
        Nat.testBit_lt_two_pow (h.trans_le (Nat.pow_le_pow_right (by omega) (by omega)))
      simp [hi, hx]
  · simp [hi]

end Osc2FtdiDmx.BytesEndian
