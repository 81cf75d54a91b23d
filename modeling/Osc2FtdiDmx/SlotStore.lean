import Osc2FtdiDmx.BytesEndian

/-! The per-channel priority slots of osc2ftdidmx.c and the DMX frame that
`_beat` fills from them. A slot is a 32-bit occupancy mask and one byte for
each priority; the shift `1 << prio` is taken in 32 bits. -/
namespace Osc2FtdiDmx.SlotStore
open BytesEndian

structure Slot where
  mask : BitVec 32
  data : Fin 32 → Byte
  deriving DecidableEq

/-- What `memset(&slot, 0x0, sizeof(slot))` leaves. -/
def Slot.zero : Slot := ⟨0, fun _ => 0⟩

abbrev Slots := Fin 512 → Slot

def Slots.zero : Slots := fun _ => Slot.zero

def slotSetVal (slot : Slot) (prio : Fin 32) (val : Byte) : Slot :=
  ⟨slot.mask ||| (1#32 <<< prio.val), Function.update slot.data prio val⟩

def slotClrVal (slot : Slot) (prio : Fin 32) : Slot :=
  ⟨slot.mask &&& ~~~(1#32 <<< prio.val), Function.update slot.data prio 0⟩

def slotHasVal (slot : Slot) : Bool := slot.mask != 0

/-- The loop of `slot_get_val` from iteration `j`, with `n` iterations left. -/
def slotScan (slot : Slot) : (n j : ℕ) → (mask : BitVec 32) → Byte
  | 0, _, _ => 0
  | n + 1, j, mask =>
      if slot.mask &&& mask ≠ 0 then slot.data (Fin.ofNat 32 (32 - 1 - j))
      else slotScan slot n (j + 1) (mask >>> 1)

def slotGetVal (slot : Slot) : Byte :=
  if slotHasVal slot then slotScan slot 32 0 0x80000000#32 else 0

/-- The loop of `_beat` that fills `app->dmx.data`. -/
def fillDmx (slots : Slots) : Fin 512 → Byte := fun i => slotGetVal (slots i)

theorem Slot.ext_cells {s t : Slot} (hm : ∀ p : Fin 32, s.mask.getLsbD p = t.mask.getLsbD p)
    (hd : ∀ p, s.data p = t.data p) : s = t := by
  obtain ⟨sm, sd⟩ := s
  obtain ⟨tm, td⟩ := t
  have hmask : sm = tm := BitVec.eq_of_getLsbD_eq fun i hi => hm ⟨i, hi⟩
  have hdata : sd = td := funext hd
  rw [hmask, hdata]

/-- What the slots say about one (channel, priority) pair. -/
def cell (slots : Slots) (k : Fin 512 × Fin 32) : Bool × Byte :=
  ((slots k.1).mask.getLsbD k.2, (slots k.1).data k.2)

/-- Equal cells are all there is to equal slots. -/
theorem Slots.ext_cell {s t : Slots} (h : ∀ k, cell s k = cell t k) : s = t :=
  funext fun c => Slot.ext_cells (fun p => congrArg Prod.fst (h (c, p)))
    fun p => congrArg Prod.snd (h (c, p))

theorem one_shiftLeft_getLsbD (p q : Fin 32) :
    (1#32 <<< p.val).getLsbD q.val = decide (q = p) := by
  have hq := q.isLt
  rw [BitVec.getLsbD_shiftLeft, BitVec.getLsbD_one, Bool.eq_iff_iff]
  simp only [Bool.and_eq_true, Bool.not_eq_true', decide_eq_true_eq, decide_eq_false_iff_not,
    Fin.ext_iff]
  omega

@[simp] theorem slotSetVal_mask (slot : Slot) (p q : Fin 32) (v : Byte) :
    (slotSetVal slot p v).mask.getLsbD q = (slot.mask.getLsbD q || decide (q = p)) := by
  rw [slotSetVal, BitVec.getLsbD_or, one_shiftLeft_getLsbD]

@[simp] theorem slotClrVal_mask (slot : Slot) (p q : Fin 32) :
    (slotClrVal slot p).mask.getLsbD q = (slot.mask.getLsbD q && decide (q ≠ p)) := by
  rw [slotClrVal, BitVec.getLsbD_and, BitVec.getLsbD_not, one_shiftLeft_getLsbD]
  simp [q.isLt]

@[simp] theorem slotSetVal_data (slot : Slot) (p : Fin 32) (v : Byte) :
    (slotSetVal slot p v).data = Function.update slot.data p v := rfl

@[simp] theorem slotClrVal_data (slot : Slot) (p : Fin 32) :
    (slotClrVal slot p).data = Function.update slot.data p 0 := rfl

theorem cell_update (slots : Slots) (c : Fin 512) (slot : Slot) (k : Fin 512 × Fin 32) :
    cell (Function.update slots c slot) k =
      if k.1 = c then (slot.mask.getLsbD k.2, slot.data k.2) else cell slots k := by
  by_cases h : k.1 = c <;> simp [cell, Function.update, h]

/-- Setting a pair touches the cell of this pair only. -/
theorem cell_set (slots : Slots) (c : Fin 512) (p : Fin 32) (v : Byte) (k : Fin 512 × Fin 32) :
    cell (Function.update slots c (slotSetVal (slots c) p v)) k =
      if k = (c, p) then (true, v) else cell slots k := by
  obtain ⟨kc, kp⟩ := k
  rw [cell_update, slotSetVal_mask, slotSetVal_data]
  by_cases hc : kc = c
  · subst kc
    by_cases hp : kp = p <;> simp [cell, hp]
  · simp [hc]

/-- Clearing a pair touches the cell of this pair only. -/
theorem cell_clr (slots : Slots) (c : Fin 512) (p : Fin 32) (k : Fin 512 × Fin 32) :
    cell (Function.update slots c (slotClrVal (slots c) p)) k =
      if k = (c, p) then (false, 0) else cell slots k := by
  obtain ⟨kc, kp⟩ := k
  rw [cell_update, slotClrVal_mask, slotClrVal_data]
  by_cases hc : kc = c
  · subst kc
    by_cases hp : kp = p <;> simp [cell, hp]
  · simp [hc]

theorem slotHasVal_iff (slot : Slot) :
    slotHasVal slot = true ↔ ∃ p : Fin 32, slot.mask.getLsbD p = true := by
  rw [slotHasVal, bne_iff_ne]
  constructor
  · intro h
    by_contra hnone
    apply h
    apply BitVec.eq_of_getLsbD_eq
    intro i hi
    have hbit : slot.mask.getLsbD i = false := by
      rw [← Bool.not_eq_true]
      exact fun hset => hnone ⟨⟨i, hi⟩, hset⟩
    rw [hbit]
    simp
  · rintro ⟨p, hp⟩ h
    simp [h] at hp

/-- The scanning mask of iteration `j` selects bit `31 - j`. -/
theorem scanMask_test (m : BitVec 32) (j : ℕ) (hj : j < 32) :
    (m &&& (0x80000000#32 >>> j) ≠ 0) ↔ m.getLsbD (31 - j) = true := by
  have hbit : 0x80000000#32 >>> j = 1#32 <<< (31 - j) := by
    interval_cases j <;> rfl
  have hone (i : ℕ) (hi : i < 32) : (1#32 <<< (31 - j)).getLsbD i = decide (i = 31 - j) := by
    have h := one_shiftLeft_getLsbD ⟨31 - j, by omega⟩ ⟨i, hi⟩
    simpa [Fin.ext_iff] using h
  rw [hbit]
  constructor
  · intro h
    by_contra hm
    apply h
    apply BitVec.eq_of_getLsbD_eq
    intro i hi
    rw [BitVec.getLsbD_and, hone i hi]
    by_cases he : i = 31 - j
    · rw [he, Bool.not_eq_true _ |>.mp hm]
      simp
    · simp [he]
  · intro h h0
    have h1 : (m &&& 1#32 <<< (31 - j)).getLsbD (31 - j) = true := by
      rw [BitVec.getLsbD_and, hone _ (by omega), h]
      simp
    rw [h0] at h1
    simp at h1

/-- The scan returns the byte of the highest set priority among those left. -/
theorem slotScan_highest (slot : Slot) (p : Fin 32) (hp : slot.mask.getLsbD p = true)
    (hq : ∀ q : Fin 32, p < q → slot.mask.getLsbD q = false) :
    ∀ n j, n + j = 32 → p.val + j < 32 →
      slotScan slot n j (0x80000000#32 >>> j) = slot.data p := by
  intro n
  induction n with
  | zero => intro j hj hlt; omega
  | succ n ih =>
    intro j hj hlt
    rw [slotScan]
    by_cases he : p.val = 31 - j
    · have htest : slot.mask &&& (0x80000000#32 >>> j) ≠ 0 :=
        (scanMask_test _ j (by omega)).mpr (he ▸ hp)
      rw [if_pos htest]
      congr 1
      ext
      simp [Fin.ofNat, he]
      omega
    · have hclear : slot.mask.getLsbD (31 - j) = false :=
        hq ⟨31 - j, by omega⟩ (Fin.lt_def.mpr (show p.val < 31 - j by omega))
      have htest : ¬ slot.mask &&& (0x80000000#32 >>> j) ≠ 0 := by
        rw [scanMask_test _ j (by omega), hclear]
        simp
      rw [if_neg htest, ← BitVec.shiftRight_add]
      exact ih (j + 1) (by omega) (by omega)

theorem slotGetVal_highest (slot : Slot) (p : Fin 32) (hp : slot.mask.getLsbD p = true)
    (hq : ∀ q : Fin 32, p < q → slot.mask.getLsbD q = false) : slotGetVal slot = slot.data p := by
  have hhas : slotHasVal slot = true := (slotHasVal_iff slot).mpr ⟨p, hp⟩
  have hscan := slotScan_highest slot p hp hq 32 0 rfl (by omega)
  rw [slotGetVal, if_pos hhas]
  simpa using hscan

theorem slotGetVal_empty (slot : Slot) (h : ∀ p : Fin 32, slot.mask.getLsbD p = false) :
    slotGetVal slot = 0 := by
  have hhas : ¬ slotHasVal slot = true := by
    rw [slotHasVal_iff]
    rintro ⟨p, hp⟩
    rw [h p] at hp
    exact Bool.false_ne_true hp
  rw [slotGetVal, if_neg hhas]

end Osc2FtdiDmx.SlotStore
