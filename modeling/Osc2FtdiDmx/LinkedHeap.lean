import Mathlib

/-! Singly linked lists in a heap of nodes. A segment of the heap is a path from one
pointer to another through the nodes of a list of values; a value knows its address. -/
namespace Osc2FtdiDmx.LinkedHeap

variable {ι α : Type*}

structure Node (ι α : Type*) where
  next : Option ι
  val : α

abbrev Heap (ι α : Type*) := ι → Option (Node ι α)

variable (addr : α → ι)

/-- The nodes of the values lead from the first pointer to the second. -/
inductive Seg (heap : Heap ι α) : Option ι → List α → Option ι → Prop
  | nil {a : Option ι} : Seg heap a [] a
  | cons {a z : Option ι} {v : α} {vs : List α} : heap (addr v) = some ⟨a, v⟩ →
      Seg heap a vs z → Seg heap (some (addr v)) (v :: vs) z

variable {addr} {heap : Heap ι α} {a b z : Option ι} {v : α} {vs ws : List α}

lemma seg_nil : Seg addr heap a [] z ↔ a = z := by
  constructor
  · rintro ⟨⟩
    rfl
  · rintro rfl
    exact .nil

lemma seg_cons : Seg addr heap a (v :: vs) z ↔
    a = some (addr v) ∧ ∃ b, heap (addr v) = some ⟨b, v⟩ ∧ Seg addr heap b vs z := by
  constructor
  · rintro (_ | ⟨hv, hvs⟩)
    exact ⟨rfl, _, hv, hvs⟩
  · rintro ⟨rfl, b, hv, hvs⟩
    exact .cons hv hvs

/-- A segment of two parts meets a pointer in between. -/
theorem seg_append : Seg addr heap a (vs ++ ws) z ↔
    ∃ b, Seg addr heap a vs b ∧ Seg addr heap b ws z := by
  induction vs generalizing a with
  | nil => simp [seg_nil]
  | cons v vs ih =>
    simp only [List.cons_append, seg_cons, ih]
    constructor
    · rintro ⟨rfl, c, hv, b, hvs, hws⟩
      exact ⟨b, ⟨rfl, c, hv, hvs⟩, hws⟩
    · rintro ⟨b, ⟨rfl, c, hv, hvs⟩, hws⟩
      exact ⟨rfl, c, hv, b, hvs, hws⟩

/-- Only the nodes of the segment matter. -/
theorem Seg.congr {heap' : Heap ι α} (h : Seg addr heap a vs z)
    (hsame : ∀ v ∈ vs, heap' (addr v) = heap (addr v)) : Seg addr heap' a vs z := by
  induction h with
  | nil => exact .nil
  | cons hv _ ih =>
    exact .cons ((hsame _ List.mem_cons_self).trans hv)
      (ih fun w hw => hsame w (List.mem_cons_of_mem _ hw))

/-- Writing a node elsewhere leaves the segment alone. -/
theorem Seg.update [DecidableEq ι] {p : ι} (node : Option (Node ι α)) (h : Seg addr heap a vs z)
    (hp : p ∉ vs.map addr) : Seg addr (Function.update heap p node) a vs z := by
  refine h.congr fun v hv => Function.update_of_ne ?_ _ _
  rintro rfl
  exact hp (List.mem_map_of_mem hv)

/-- The list that hangs from a pointer is determined by the heap. -/
theorem Seg.unique (h : Seg addr heap a vs none) (h' : Seg addr heap a ws none) : vs = ws := by
  induction vs generalizing a ws with
  | nil =>
    cases ws with
    | nil => rfl
    | cons w ws =>
      rw [seg_nil.mp h] at h'
      cases h'
  | cons v vs ih =>
    obtain ⟨rfl, b, hv, hvs⟩ := seg_cons.mp h
    cases ws with
    | nil => cases seg_nil.mp h'
    | cons w ws =>
      obtain ⟨hhead, c, hw, hws⟩ := seg_cons.mp h'
      rw [← Option.some.inj hhead, hv] at hw
      cases hw
      rw [ih hvs hws]

end Osc2FtdiDmx.LinkedHeap
