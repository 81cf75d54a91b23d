import Osc2FtdiDmx.BytesEndian
import Osc2FtdiDmx.CircularBuffer

/-! The index arithmetic of varchunk.h on the receive ring of 8192 bytes, in 64-bit
sizes that wrap around, and what it computes for indices inside the ring. -/
namespace Osc2FtdiDmx.VarchunkRing
open BytesEndian CircularBuffer

abbrev Size := BitVec 64

/-- The members `size` and `mask`, as `varchunk_new(8192, true)` sets them. -/
def ringSize : Size := 8192
def ringMask : Size := ringSize - 1

/-- `sizeof(varchunk_elmnt_t)`. -/
def sizeofElmnt : Size := 8

/-- `VARCHUNK_PAD`: the mask `~7U` is a 32-bit number. -/
def varchunkPad (size : Size) : Size := (size + 7) &&& (~~~7#32).setWidth 64

/-- What a successful request leaves in `rsvd` and `gapd`; the pointer it returns is
`sizeof(varchunk_elmnt_t)` after the offset `start`. -/
structure Grant where
  start : Size
  rsvd : Size
  gapd : Size
  deriving DecidableEq, Repr

def writeSpace (head tail : Size) : Size :=
  if tail < head then ((tail - head + ringSize) &&& ringMask) - 1
  else if head < tail then (tail - head) - 1
  else ringSize - 1

/-- `varchunk_write_request_max`; `stop` is its variable `end`. -/
def writeRequestMax (head tail minimum : Size) : Option Grant :=
  let padded := 2 * sizeofElmnt + varchunkPad minimum
  let space := writeSpace head tail
  let stop := head + space
  if ringSize < stop then
    let len1 := ringSize - head
    if len1 < padded then
      let len2 := stop &&& ringMask
      if len2 < padded then none else some ⟨0, len2, len1⟩
    else some ⟨head, len1, 0⟩
  else if space < padded then none
  else some ⟨head, space, 0⟩

/-- The stores of one `varchunk_elmnt_t` at an offset. -/
def elmntStores (off : ℕ) (size gap : BitVec 32) : List (ℕ × Byte) :=
  putRun off (bytesLE 4 size.toNat ++ bytesLE 4 gap.toNat)

/-- The stores of `varchunk_write_advance` before it moves `head`. -/
def advanceStores (head gapd written : Size) : List (ℕ × Byte) :=
  if 0 < gapd then
    elmntStores head.toNat ((gapd - sizeofElmnt).setWidth 32) 1 ++
      elmntStores 0 (written.setWidth 32) 0
  else elmntStores head.toNat (written.setWidth 32) 0

/-- The head that `varchunk_write_advance` stores. -/
def advanceHead (head gapd written : Size) : Size :=
  (head + (gapd + sizeofElmnt + varchunkPad written)) &&& ringMask

def readSpace (head tail : Size) : Size :=
  if tail < head then head - tail else (head - tail + ringSize) &&& ringMask

/-- A member of type `uint32_t` at an offset. -/
def readWord (buf : ℕ → Byte) (off : ℕ) : BitVec 32 := BitVec.ofNat 32 (valueLE (readRun buf off 4))

/-- The tail after `_varchunk_read_advance_raw(varchunk, tail, read)`. -/
def readAdvanceRaw (tail read : Size) : Size := (tail + read) &&& ringMask

/-- The tail that `varchunk_read_advance` stores, for the size it reads at the old one. -/
def readAdvanceTail (tail : Size) (size : BitVec 32) : Size :=
  readAdvanceRaw tail (sizeofElmnt + varchunkPad (size.setWidth 64))

/-- Rounding up to whole elements of 8 bytes. -/
def pad8 (n : ℕ) : ℕ := (n + 7) / 8 * 8

lemma dvd_pad8 (n : ℕ) : 8 ∣ pad8 n := Dvd.intro_left _ rfl

lemma le_pad8 (n : ℕ) : n ≤ pad8 n := by
  rw [pad8]
  omega

lemma pad8_lt (n : ℕ) : pad8 n < n + 8 := by
  rw [pad8]
  omega

lemma pad8_mono {n k : ℕ} (h : n ≤ k) : pad8 n ≤ pad8 k := by
  rw [pad8, pad8]
  omega

@[simp] lemma ringSize_toNat : ringSize.toNat = 8192 := rfl
@[simp] lemma sizeofElmnt_toNat : sizeofElmnt.toNat = 8 := rfl

lemma ringMask_toNat (x : Size) : (x &&& ringMask).toNat = x.toNat % 8192 := by
  rw [BitVec.toNat_and]
  exact Nat.and_two_pow_sub_one_eq_mod x.toNat 13

lemma varchunkPad_lt (size : Size) : (varchunkPad size).toNat < 2 ^ 32 := by
  rw [varchunkPad, BitVec.toNat_and]
  exact Nat.and_le_right.trans_lt (by decide)

lemma varchunkPad_toNat {size : Size} (h : size.toNat + 7 < 2 ^ 32) :
    (varchunkPad size).toNat = pad8 size.toNat := by
  have hseven : (7 : Size).toNat = 7 := rfl
  have hmask : ((~~~7#32).setWidth 64 : Size).toNat = (2 ^ (32 - 3) - 1) <<< 3 := rfl
  rw [varchunkPad, BitVec.toNat_and, hmask, BitVec.toNat_add, hseven,
    Nat.mod_eq_of_lt (by omega), and_high_mask (by omega) h]
  rfl

section Indices
variable {head tail : Size} (hhead : head.toNat < 8192) (htail : tail.toNat < 8192)
include hhead htail

/-- The cyclic distance from the tail to the head is what the reader takes as space. -/
lemma readSpace_toNat :
    (readSpace head tail).toNat = (head.toNat + 8192 - tail.toNat) % 8192 := by
  rw [readSpace]
  split_ifs with h
  · rw [BitVec.lt_def] at h
    rw [BitVec.toNat_sub]
    omega
  · rw [ringMask_toNat, BitVec.toNat_add, BitVec.toNat_sub, ringSize_toNat]
    omega

lemma writeSpace_toNat :
    (writeSpace head tail).toNat = 8191 - (head.toNat + 8192 - tail.toNat) % 8192 := by
  have hone : (1 : Size).toNat = 1 := rfl
  rw [writeSpace]
  split_ifs with h h'
  · rw [BitVec.lt_def] at h
    rw [BitVec.toNat_sub, ringMask_toNat, BitVec.toNat_add, BitVec.toNat_sub, ringSize_toNat, hone]
    omega
  · rw [BitVec.lt_def] at h'
    rw [BitVec.toNat_sub, BitVec.toNat_sub, hone]
    omega
  · rw [BitVec.lt_def] at h h'
    rw [BitVec.toNat_sub, ringSize_toNat, hone]
    omega

end Indices

/-- The room that a request needs before it is granted. -/
def padded (minimum : Size) : ℕ := 16 + (varchunkPad minimum).toNat

/-- The four layouts of a grant: the first part of a free region that wraps around, the
rest of the buffer, the region up to the tail, or the second part behind a gap. -/
inductive GrantShape (h t : ℕ) (p : ℕ) (g : Grant) : Prop
  | first : g.start.toNat = h → g.gapd.toNat = 0 → t ≠ 0 → t ≤ h → p ≤ 8192 - h →
      g.rsvd.toNat = 8192 - h → GrantShape h t p g
  | rest : g.start.toNat = h → g.gapd.toNat = 0 → t = 0 → p ≤ g.rsvd.toNat →
      g.rsvd.toNat = 8191 - h → GrantShape h t p g
  | upTo : g.start.toNat = h → g.gapd.toNat = 0 → h < t → p ≤ g.rsvd.toNat →
      g.rsvd.toNat = t - h - 1 → GrantShape h t p g
  | second : g.start.toNat = 0 → g.gapd.toNat = 8192 - h → t ≠ 0 → t ≤ h → 8192 - h < p →
      p ≤ g.rsvd.toNat → g.rsvd.toNat = t - 1 → GrantShape h t p g

lemma writeRequestMax_shape {head tail minimum : Size} {g : Grant} (hhead : head.toNat < 8192)
    (htail : tail.toNat < 8192) (hdvd : 8 ∣ tail.toNat)
    (h : writeRequestMax head tail minimum = some g) :
    GrantShape head.toNat tail.toNat (padded minimum) g := by
  have hspace := writeSpace_toNat hhead htail
  have hlt := varchunkPad_lt minimum
  have hpadded : (2 * sizeofElmnt + varchunkPad minimum).toNat = padded minimum := by
    have htwo : (2 * sizeofElmnt : Size).toNat = 16 := rfl
    rw [BitVec.toNat_add, htwo, padded, Nat.mod_eq_of_lt (by omega)]
  have hstop : (head + writeSpace head tail).toNat = head.toNat + (writeSpace head tail).toNat := by
    rw [BitVec.toNat_add, Nat.mod_eq_of_lt (by omega)]
  have hlen1 : (ringSize - head).toNat = 8192 - head.toNat := by
    rw [BitVec.toNat_sub, ringSize_toNat]
    omega
  simp only [writeRequestMax, BitVec.lt_def, hpadded, hstop, hlen1, ringSize_toNat,
    ringMask_toNat] at h
  split_ifs at h with hwrap hfirst hsecond hroom
  · cases h
    refine GrantShape.second rfl hlen1 ?_ ?_ hfirst ?_ ?_
    · omega
    · omega
    · rw [ringMask_toNat, hstop]
      omega
    · rw [ringMask_toNat, hstop]
      omega
  · cases h
    refine GrantShape.first rfl rfl ?_ ?_ ?_ hlen1
    · omega
    · omega
    · omega
  · cases h
    have hle : padded minimum ≤ (writeSpace head tail).toNat := by omega
    by_cases ht : tail.toNat = 0
    · have hrsvd : (writeSpace head tail).toNat = 8191 - head.toNat := by omega
      exact GrantShape.rest rfl rfl ht hle hrsvd
    · have hrsvd : (writeSpace head tail).toNat = tail.toNat - head.toNat - 1 := by omega
      exact GrantShape.upTo rfl rfl (by omega) hle hrsvd

end Osc2FtdiDmx.VarchunkRing
