import Osc2FtdiDmx.MessageLaw

/-! Which messages clear a pair. A pair is cleared when none of the arguments up to its
own place among the visited pairs is an int32, however many arguments there are. -/
namespace Osc2FtdiDmx.MessageClearing
open BytesEndian OscMemory OscReader MessageEncoding SlotStore OscTree TreeWalk MessageLaw

def IsSet (state : State) (pair : Fin 512 × Fin 32) : Prop := (cell state.slots pair).1 = true

/-- No pair that was set is cleared. -/
def ClearsNothing (state state' : State) : Prop := ∀ pair, IsSet state pair → IsSet state' pair

/-- One of the first `k + 1` arguments is an int32. -/
def IntUpTo (args : List Argument) (k : ℕ) : Prop := ∃ v, Argument.int32 v ∈ args.take (k + 1)

lemma level_eq_some {a : Argument} {b : Byte} (h : level a = some b) : ∃ v, a = .int32 v := by
  cases a with
  | int32 v => exact ⟨v, rfl⟩
  | _ => cases h

lemma lastLevel_eq_none {args : List Argument} :
    lastLevel args = none ↔ ∀ v, Argument.int32 v ∉ args := by
  rw [lastLevel, List.getLast?_eq_none_iff, List.filterMap_eq_nil_iff]
  constructor
  · intro h v hv
    cases h _ hv
  · intro h a ha
    cases hlevel : level a with
    | none => rfl
    | some b =>
      obtain ⟨v, rfl⟩ := level_eq_some hlevel
      exact absurd ha (h v)

/-- A visited pair ends up set if the argument in force is an int32. -/
lemma cellOf_set {args : List Argument} {k : ℕ} :
    (cellOf (lastLevel (args.take (k + 1)))).1 = true ↔ IntUpTo args k := by
  cases h : lastLevel (args.take (k + 1)) with
  | none => simpa [cellOf, IntUpTo] using lastLevel_eq_none.mp h
  | some b =>
    have hsome : ¬ ∀ v, Argument.int32 v ∉ args.take (k + 1) := by
      rw [← lastLevel_eq_none, h]
      simp
    simpa [cellOf, IntUpTo] using hsome

/-- A well-formed message clears no pair exactly when for each visited pair that is set,
an int32 is among the arguments up to the place of the pair. -/
theorem clearsNothing_iff (pm : List Byte → List Byte → Bool) (msg : Message) (m : Memory) (p : Addr)
    (state : State) (h : Placed m p msg.encode) :
    ∃ state',
      handleOscMessage pm m (readerInitialize p (BitVec.ofNat 64 msg.encode.length))
          (BitVec.ofNat 64 msg.encode.length) state = .ok state' ∧
      (ClearsNothing state state' ↔ ∀ k pair, (visited pm msg.path.chars)[k]? = some pair →
        IsSet state pair → IntUpTo msg.args k) := by
  obtain ⟨state', hrun, hwritten, hothers⟩ := message_written pm msg m p state h
  refine ⟨state', hrun, fun hclear k pair hk hset => ?_, fun hints pair hset => ?_⟩
  · have hset' := hclear pair hset
    rw [IsSet, hwritten k pair hk] at hset'
    exact cellOf_set.mp hset'
  · by_cases hvisit : pair ∈ visited pm msg.path.chars
    · obtain ⟨k, hk⟩ := List.mem_iff_getElem?.mp hvisit
      rw [IsSet, hwritten k pair hk]
      exact cellOf_set.mpr (hints k pair hk hset)
    · rw [IsSet, hothers pair hvisit]
      exact hset

/-- Priority 7 of channel 1 is set. -/
def litState : State :=
  { usedState with
    slots := Function.update Slots.zero 1 (slotSetVal (Slots.zero 1) ⟨7, by decide⟩ 9) }

lemma litState_isSet : IsSet litState (1, 7) := by
  rw [IsSet, litState, cell_set]
  exact congrArg Prod.fst (if_pos rfl)

theorem clearsNothing_threeChannels :
    ∃ state',
      handleOscMessage rangeMatch (image 0x1000 threeChannels.encode) ⟨0x1000, 0x1000, 0x1024⟩ 36
          litState = .ok state' ∧ ClearsNothing litState state' := by
  obtain ⟨state', hrun, hiff⟩ := clearsNothing_iff rangeMatch threeChannels
    (image 0x1000 threeChannels.encode) 0x1000 litState (placed_image (by decide))
  refine ⟨state', hrun, hiff.mpr fun k pair _ _ => ⟨5, ?_⟩⟩
  rw [threeChannels, List.take_succ_cons]
  exact List.mem_cons_self

/-- `/dmx/[1-3]/7` with the float 1.0. -/
def oneFloat : Message := { threeChannels with args := [.float 0x3f800000] }

/-- A message with one float clears what was set. -/
theorem oneFloat_clears :
    ¬ ∀ (pm : List Byte → List Byte → Bool) (msg : Message) (m : Memory) (p : Addr)
        (state state' : State), Placed m p msg.encode → msg.args ≠ [] →
      handleOscMessage pm m (readerInitialize p (BitVec.ofNat 64 msg.encode.length))
          (BitVec.ofNat 64 msg.encode.length) state = .ok state' → ClearsNothing state state' := by
  intro h
  have hplaced : Placed (image 0x1000 oneFloat.encode) 0x1000 oneFloat.encode :=
    placed_image (by decide)
  obtain ⟨state', hrun, hwritten, -⟩ := message_written rangeMatch oneFloat
    (image 0x1000 oneFloat.encode) 0x1000 litState hplaced
  have hclear := h rangeMatch oneFloat _ 0x1000 litState state' hplaced (by simp [oneFloat]) hrun
  have hset := hclear (1, 7) litState_isSet
  rw [IsSet, hwritten 0 (1, 7) (congrArg (·[0]?) threeChannels_visited), cellOf_set] at hset
  obtain ⟨v, hv⟩ := hset
  simp [oneFloat] at hv

end Osc2FtdiDmx.MessageClearing
