import Osc2FtdiDmx.MessageLaw
import Osc2FtdiDmx.OscPattern

/-! What an address with patterns does: the pairs that it means, and the argument that each
of them gets. -/
namespace Osc2FtdiDmx.AddressPattern
open BytesEndian OscMemory OscReader GlobLanguage GlobSyntax OscPattern SlotStore OscTree
open MessageEncoding TreeWalk MessageLaw

instance (p : Component) (name : List Byte) : Decidable (name ∈ p.names) :=
  decidable_of_iff (p.pattern.glob.accepts name = true) (mem_names p name).symm

section Rank
variable {α β : Type*}

/-- The rows of a product lie one behind the other. -/
lemma product_rank {xs : List α} {ys : List β} {i j : ℕ} {a : α} {b : β} (ha : xs[i]? = some a)
    (hb : ys[j]? = some b) : (xs ×ˢ ys)[i * ys.length + j]? = some (a, b) := by
  have hj := (List.getElem?_eq_some_iff.mp hb).1
  induction xs generalizing i with
  | nil => simp at ha
  | cons x xs ih =>
    rw [List.product_cons]
    cases i with
    | zero =>
      obtain rfl : x = a := by simpa using ha
      rw [Nat.zero_mul, Nat.zero_add, List.getElem?_append_left (by simpa using hj)]
      simp [hb]
    | succ i =>
      have hnext := ih (i := i) (by simpa using ha)
      rw [List.getElem?_append_right (by simp; rw [Nat.succ_mul]; omega), ← hnext]
      congr 1
      rw [List.length_map, Nat.succ_mul]
      omega

variable [LinearOrder α]

/-- In an ascending list, an element comes behind those that are less. -/
lemma filter_rank {l : List α} (hl : l.Pairwise (· < ·)) {P : α → Bool} {a : α} (ha : a ∈ l)
    (hP : P a = true) : (l.filter P)[(l.filter fun x => x < a ∧ P x).length]? = some a := by
  obtain ⟨front, back, rfl⟩ := List.append_of_mem ha
  rw [List.pairwise_append] at hl
  obtain ⟨-, hback, hfront⟩ := hl
  have hleft : front.filter (fun x => x < a ∧ P x) = front.filter P := by
    refine List.filter_congr fun x hx => ?_
    have hlt := hfront x hx a List.mem_cons_self
    simp [hlt]
  have hright : (a :: back).filter (fun x => x < a ∧ P x) = [] := by
    rw [List.filter_eq_nil_iff]
    intro x hx
    rcases List.mem_cons.mp hx with rfl | hx
    · simp
    · have hlt := (List.pairwise_cons.mp hback).1 x hx
      simp [hlt.le]
  rw [List.filter_append, List.filter_append, hleft, hright, List.append_nil,
    List.filter_cons_of_pos hP, List.getElem?_append_right le_rfl, Nat.sub_self]
  rfl

end Rank

/-- An address of three components. -/
structure Address where
  root : Component
  channel : Component
  priority : Component

lemma renderSet_inside {negated : Bool} {items : List SetItem} {c : Byte}
    (hc : c ∈ renderSet negated items) : c ≠ 0 ∧ c ≠ slash := by
  obtain hmark | ⟨b, rfl⟩ := mem_renderSet hc
  · clear hc
    revert c
    decide
  · have hplain := b.plain
    simp only [List.mem_cons, not_or] at hplain
    exact ⟨hplain.1, hplain.2.1⟩

mutual

/-- A component neither ends the string nor the component. -/
lemma render_inside : ∀ p : Pattern, ∀ c ∈ p.render, c ≠ 0 ∧ c ≠ slash
  | .done, c, hc => by
      rw [Pattern.render] at hc
      cases hc
  | .char b rest, c, hc => by
      rw [Pattern.render, List.mem_cons] at hc
      obtain rfl | hc := hc
      · have hplain := b.plain
        simp only [List.mem_cons, not_or] at hplain
        exact ⟨hplain.1, hplain.2.1⟩
      · exact render_inside rest c hc
  | .any rest, c, hc => by
      rw [Pattern.render, List.mem_cons] at hc
      obtain rfl | hc := hc
      · decide
      · exact render_inside rest c hc
  | .star rest, c, hc => by
      rw [Pattern.render, List.mem_cons] at hc
      obtain rfl | hc := hc
      · decide
      · exact render_inside rest c hc
  | .set negated first items rest, c, hc => by
      rw [Pattern.render, List.mem_cons, List.mem_append] at hc
      obtain rfl | hc | hc := hc
      · decide
      · exact renderSet_inside hc
      · exact render_inside rest c hc
  | .choice alts rest, c, hc => by
      rw [Pattern.render, List.mem_cons, List.mem_append] at hc
      obtain rfl | hc | hc := hc
      · decide
      · exact choice_inside alts c hc
      · exact render_inside rest c hc

lemma choice_inside : ∀ alts : Choice, ∀ c ∈ alts.render, c ≠ 0 ∧ c ≠ slash
  | .last p, c, hc => by
      rw [Choice.render, List.mem_append, List.mem_singleton] at hc
      obtain hc | rfl := hc
      · exact render_inside p c hc
      · decide
  | .more p alts, c, hc => by
      rw [Choice.render, List.mem_append, List.mem_cons] at hc
      obtain hc | rfl | hc := hc
      · exact render_inside p c hc
      · decide
      · exact choice_inside alts c hc

end

/-- The address behind its leading slash. -/
def Address.path (a : Address) : CString where
  chars := a.root.render ++ slash :: (a.channel.render ++ slash :: a.priority.render)
  noNul := by
    simp only [List.mem_append, List.mem_cons, not_or]
    exact ⟨fun h => (render_inside _ _ h).1 rfl, by decide, fun h => (render_inside _ _ h).1 rfl,
      by decide, fun h => (render_inside _ _ h).1 rfl⟩

def Address.channels (a : Address) : List (Fin 512) :=
  (List.finRange 512).filter fun c => decimal c ∈ a.channel.names

def Address.priorities (a : Address) : List (Fin 32) :=
  (List.finRange 32).filter fun p => decimal p ∈ a.priority.names

/-- The pairs that the address means. -/
def Address.Means (a : Address) (pair : Fin 512 × Fin 32) : Prop :=
  dmxName ∈ a.root.names ∧ decimal pair.1 ∈ a.channel.names ∧ decimal pair.2 ∈ a.priority.names

instance (a : Address) (pair : Fin 512 × Fin 32) : Decidable (a.Means pair) :=
  inferInstanceAs (Decidable (_ ∧ _ ∧ _))

/-- How many of them come before a pair: channel by channel, the lower priorities first. -/
def Address.rank (a : Address) (pair : Fin 512 × Fin 32) : ℕ :=
  (a.channels.filter fun c => c < pair.1).length * a.priorities.length +
    (a.priorities.filter fun p => p < pair.2).length

variable {other : List Byte → List Byte → Bool} {a : Address}

/-- The walk over the tree visits what the address means. -/
lemma visited_address : visited (lv2OscPatternMatch other) a.path.chars =
    if dmxName ∈ a.root.names then a.channels ×ˢ a.priorities else [] := by
  have hslash (p : Component) : slash ∉ p.render := fun h => (render_inside p.pattern _ h).2 rfl
  have hpm (p : Component) (name : List Byte) :
      lv2OscPatternMatch other p.render name = decide (name ∈ p.names) := by
    rw [match_glob, Bool.eq_iff_iff, decide_eq_true_eq, mem_names]
  rw [visited, Address.path, List.splitOn_append_cons_self_of_not_mem (hslash a.root),
    List.splitOn_append_cons_self_of_not_mem (hslash a.channel),
    List.splitOn_eq_singleton (hslash a.priority)]
  simp only [hpm, decide_eq_true_eq, channels, priorities, Address.channels, Address.priorities]

lemma mem_visited (pair : Fin 512 × Fin 32) :
    pair ∈ visited (lv2OscPatternMatch other) a.path.chars ↔ a.Means pair := by
  obtain ⟨c, p⟩ := pair
  rw [visited_address, Address.Means]
  split_ifs with h
  · have hproduct : (c, p) ∈ a.channels ×ˢ a.priorities ↔ c ∈ a.channels ∧ p ∈ a.priorities :=
      List.pair_mem_product
    rw [hproduct]
    simp [h, Address.channels, Address.priorities]
  · simp [h]

lemma visited_rank {pair : Fin 512 × Fin 32} (h : a.Means pair) :
    (visited (lv2OscPatternMatch other) a.path.chars)[a.rank pair]? = some pair := by
  obtain ⟨hroot, hchannel, hpriority⟩ := h
  rw [visited_address, if_pos hroot]
  have hc := filter_rank (List.pairwise_lt_finRange 512) (List.mem_finRange pair.1)
    (P := fun c => decide (decimal c ∈ a.channel.names)) (by simpa using hchannel)
  have hp := filter_rank (List.pairwise_lt_finRange 32) (List.mem_finRange pair.2)
    (P := fun p => decide (decimal p ∈ a.priority.names)) (by simpa using hpriority)
  have hrank := product_rank hc hp
  rw [Address.rank]
  simpa [Address.channels, Address.priorities, List.filter_filter] using hrank

/-- A message whose address has patterns changes the pairs that the address means and no
other. Each of them gets the byte of the argument whose number is its rank among them, or
of the last one before it that carries a byte, and is cleared if there is none. -/
theorem address_law (other : List Byte → List Byte → Bool) (a : Address) (args : List Argument)
    (m : Memory) (p : Addr) (state : State) (h : Placed m p (Message.encode ⟨a.path, args⟩)) :
    ∃ state',
      handleOscMessage (lv2OscPatternMatch other) m
          (readerInitialize p (BitVec.ofNat 64 (Message.encode ⟨a.path, args⟩).length))
          (BitVec.ofNat 64 (Message.encode ⟨a.path, args⟩).length) state = .ok state' ∧
      ∀ pair, cell state'.slots pair =
        if a.Means pair then cellOf (lastLevel (args.take (a.rank pair + 1)))
        else cell state.slots pair := by
  obtain ⟨state', hrun, hwritten, hothers⟩ :=
    message_written (lv2OscPatternMatch other) ⟨a.path, args⟩ m p state h
  refine ⟨state', hrun, fun pair => ?_⟩
  split_ifs with hmeans
  · exact hwritten _ _ (visited_rank hmeans)
  · exact hothers pair (mt (mem_visited pair).mp hmeans)

def zeroOrOne : Pattern := .set false (.range ⟨0x30, by decide⟩ ⟨0x31, by decide⟩) [] .done

def literalDmx : Pattern :=
  .char ⟨0x64, by decide⟩ (.char ⟨0x6d, by decide⟩ (.char ⟨0x78, by decide⟩ .done))

/-- `/dmx/[0-1]/[0-1]` -/
def twoByTwo : Address := ⟨⟨literalDmx, rfl⟩, ⟨zeroOrOne, rfl⟩, ⟨zeroOrOne, rfl⟩⟩

/-- The last of three arguments is for the pairs that are left. -/
theorem address_law_twoByTwo :
    ∃ state',
      handleOscMessage (lv2OscPatternMatch fun _ _ => false)
          (image 0x1000 (Message.encode ⟨twoByTwo.path, [.int32 1, .int32 2, .int32 3]⟩))
          (readerInitialize 0x1000 40) 40 usedState = .ok state' ∧
      [(0, 0), (0, 1), (1, 0), (1, 1), (2, 0)].map (cell state'.slots) =
        [(true, 1), (true, 2), (true, 3), (true, 3), (false, 0)] := by
  obtain ⟨state', hrun, hcell⟩ := address_law (fun _ _ => false) twoByTwo
    [.int32 1, .int32 2, .int32 3] _ 0x1000 usedState (placed_image (by decide))
  refine ⟨state', hrun, ?_⟩
  simp only [List.map_cons, List.map_nil, hcell]
  decide +kernel

end Osc2FtdiDmx.AddressPattern
