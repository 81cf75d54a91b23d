import Osc2FtdiDmx.PriorityLevels
import Osc2FtdiDmx.SlotStore

/-! The slots refine a partial map from (channel, priority) to bytes: every history
of sets and clears leaves the slots that its map determines. -/
namespace Osc2FtdiDmx.SlotRefinement
open BytesEndian PriorityLevels SlotStore

abbrev Pair := Fin 512 × Fin 32

/-- One call of `slot_set_val` or `slot_clr_val` on the slot of a channel. -/
def slotOp (slots : Slots) : Update Pair Byte → Slots
  | .set k v => Function.update slots k.1 (slotSetVal (slots k.1) k.2 v)
  | .clear k => Function.update slots k.1 (slotClrVal (slots k.1) k.2)

/-- The slots after a history of calls on zeroed slots. -/
def runSlots (ops : List (Update Pair Byte)) : Slots := ops.foldl slotOp Slots.zero

/-- A mask bit for each assigned pair, and 0 as the byte of every other pair. -/
structure Represents (slots : Slots) (M : Pair → Option Byte) : Prop where
  mask (c : Fin 512) (p : Fin 32) : (slots c).mask.getLsbD p = (M (c, p)).isSome
  data (c : Fin 512) (p : Fin 32) : (slots c).data p = (M (c, p)).getD 0

theorem represents_iff {slots : Slots} {M : Pair → Option Byte} :
    Represents slots M ↔ ∀ k, cell slots k = ((M k).isSome, (M k).getD 0) := by
  constructor
  · intro h k
    exact Prod.ext (h.mask k.1 k.2) (h.data k.1 k.2)
  · intro h
    exact ⟨fun c p => congrArg Prod.fst (h (c, p)), fun c p => congrArg Prod.snd (h (c, p))⟩

theorem cell_slotOp_of_ne (slots : Slots) (op : Update Pair Byte) {k : Pair} (h : k ≠ op.key) :
    cell (slotOp slots op) k = cell slots k := by
  cases op with
  | set j v => exact (cell_set slots j.1 j.2 v k).trans (if_neg h)
  | clear j => exact (cell_clr slots j.1 j.2 k).trans (if_neg h)

theorem represents_zero : Represents Slots.zero fun _ => none :=
  ⟨fun _ _ => by simp [Slots.zero, Slot.zero], fun _ _ => rfl⟩

theorem represents_slotOp {slots : Slots} {M : Pair → Option Byte} (h : Represents slots M)
    (op : Update Pair Byte) : Represents (slotOp slots op) (op.apply M) := by
  rw [represents_iff] at h ⊢
  intro k
  by_cases hk : k = op.key
  · subst hk
    cases op with
    | set j v =>
      have hcell := cell_set slots j.1 j.2 v j
      rw [if_pos rfl] at hcell
      simpa [slotOp, Update.apply, Update.key] using hcell
    | clear j =>
      have hcell := cell_clr slots j.1 j.2 j
      rw [if_pos rfl] at hcell
      simpa [slotOp, Update.apply, Update.key] using hcell
  · rw [cell_slotOp_of_ne slots op hk, op.apply_of_ne M hk]
    exact h k

theorem represents_runSlots (ops : List (Update Pair Byte)) :
    Represents (runSlots ops) (history ops) := by
  induction ops using List.reverseRecOn with
  | nil => exact represents_zero
  | append_singleton ops op ih =>
    rw [history_append_singleton, runSlots, List.foldl_append]
    exact represents_slotOp ih op

/-- A map has one representation, whatever the history that led to it. -/
theorem Represents.unique {s t : Slots} {M : Pair → Option Byte} (hs : Represents s M)
    (ht : Represents t M) : s = t :=
  Slots.ext_cell fun k => (represents_iff.mp hs k).trans (represents_iff.mp ht k).symm

theorem Represents.hasVal {slots : Slots} {M : Pair → Option Byte} (h : Represents slots M)
    (c : Fin 512) : slotHasVal (slots c) = true ↔ ∃ p, (M (c, p)).isSome := by
  rw [slotHasVal_iff]
  exact exists_congr fun p => by rw [h.mask c p]

theorem Represents.getVal {slots : Slots} {M : Pair → Option Byte} (h : Represents slots M)
    (c : Fin 512) : slotGetVal (slots c) = topValue (fun p => M (c, p)) 0 := by
  rcases exists_highest fun p => M (c, p) with hnone | ⟨p, v, hp, hq⟩
  · rw [topValue_none 0 hnone]
    refine slotGetVal_empty _ fun p => ?_
    rw [h.mask c p, hnone p, Option.isSome_none]
  · have htop : topValue (fun p => M (c, p)) 0 = v :=
      topValue_highest (M := fun p => M (c, p)) 0 hp hq
    rw [htop, slotGetVal_highest (slots c) p, h.data c p, hp, Option.getD_some]
    · rw [h.mask c p, hp, Option.isSome_some]
    · intro q hpq
      rw [h.mask c q, hq q hpq, Option.isSome_none]

/-- Any history of `slot_set_val` and `slot_clr_val` calls on zeroed slots leaves the
representation of the map with the same history. Equal maps have equal slots, the
value of a channel and its byte of the DMX frame are those of the highest assigned
priority, and a further call is seen at its own pair only. -/
theorem slots_refine_map (ops : List (Update Pair Byte)) :
    Represents (runSlots ops) (history ops) ∧
    (∀ ops', history ops' = history ops → runSlots ops' = runSlots ops) ∧
    (∀ c, slotHasVal (runSlots ops c) = true ↔ ∃ p, (history ops (c, p)).isSome) ∧
    (∀ c, slotGetVal (runSlots ops c) = topValue (fun p => history ops (c, p)) 0) ∧
    (∀ c, fillDmx (runSlots ops) c = topValue (fun p => history ops (c, p)) 0) ∧
    (∀ op k, k ≠ Update.key op → cell (runSlots (ops ++ [op])) k = cell (runSlots ops) k) := by
  have h := represents_runSlots ops
  refine ⟨h, ?_, h.hasVal, h.getVal, h.getVal, ?_⟩
  · intro ops' heq
    have h' := represents_runSlots ops'
    rw [heq] at h'
    exact h'.unique h
  · intro op k hk
    rw [runSlots, List.foldl_append]
    exact cell_slotOp_of_ne _ op hk

end Osc2FtdiDmx.SlotRefinement
