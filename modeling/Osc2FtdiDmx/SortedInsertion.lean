import Mathlib

/-! Insertion into a list that is ordered by a key. The search for the place may use
a test of its own; it puts the new element in order exactly where the first later
element passes the test. -/
namespace Osc2FtdiDmx.SortedInsertion

variable {α κ : Type*} [LinearOrder κ] (key : α → κ)

def InOrder (l : List α) : Prop := l.Pairwise fun a b => key a ≤ key b

instance (l : List α) : Decidable (InOrder key l) := inferInstanceAs (Decidable (List.Pairwise _ l))

/-- `l'` is `l` with `a` behind the elements that are not later and before the rest. -/
def StableInsert (a : α) (l l' : List α) : Prop :=
  ∃ xs ys, l = xs ++ ys ∧ l' = xs ++ a :: ys ∧ (∀ x ∈ xs, key x ≤ key a) ∧ ∀ y ∈ ys, key a < key y

def firstLater (a : α) (l : List α) : Option α := l.find? fun b => key a < key b

variable {key} {a b : α} {l : List α}

lemma InOrder.tail (h : InOrder key l) : InOrder key l.tail := h.sublist (List.tail_sublist l)

lemma StableInsert.cons {l' : List α} (h : StableInsert key a l l') (hb : key b ≤ key a) :
    StableInsert key a (b :: l) (b :: l') := by
  obtain ⟨xs, ys, rfl, rfl, hxs, hys⟩ := h
  exact ⟨b :: xs, ys, rfl, rfl, List.forall_mem_cons.mpr ⟨hb, hxs⟩, hys⟩

lemma firstLater_cons_later (h : key a < key b) : firstLater key a (b :: l) = some b := by
  simp [firstLater, h]

lemma firstLater_cons_earlier (h : key b ≤ key a) :
    firstLater key a (b :: l) = firstLater key a l := by
  simp [firstLater, h]

section Search
variable {stop : α → α → Prop} [DecidableRel stop]

/-- An ordered result was not searched past a later element. -/
theorem stop_of_inOrder (hstop : ∀ b, stop a b → key a < key b)
    (h : InOrder key (l.orderedInsert stop a)) : ∀ b, firstLater key a l = some b → stop a b := by
  induction l with
  | nil => simp [firstLater]
  | cons c l ih =>
    intro b hb
    by_cases hc : stop a c
    · rw [firstLater_cons_later (hstop c hc)] at hb
      cases hb
      exact hc
    · rw [List.orderedInsert_of_not_le stop l hc] at h
      obtain ⟨hhead, htail⟩ := List.pairwise_cons.mp h
      have hle : key c ≤ key a := hhead a (by simp)
      rw [firstLater_cons_earlier hle] at hb
      exact ih htail b hb

/-- By induction on the list: a head that does not stop the search is not later. -/
theorem stableInsert_of_stop (hl : InOrder key l)
    (h : ∀ b, firstLater key a l = some b → stop a b) (hstop : ∀ b, stop a b → key a < key b) :
    InOrder key (l.orderedInsert stop a) ∧ StableInsert key a l (l.orderedInsert stop a) := by
  induction l with
  | nil =>
    rw [List.orderedInsert_nil]
    exact ⟨List.pairwise_singleton _ _, [], [], rfl, rfl, by simp, by simp⟩
  | cons c l ih =>
    obtain ⟨hc, hl'⟩ := List.pairwise_cons.mp hl
    by_cases hac : stop a c
    · have hlater : ∀ b ∈ c :: l, key a < key b := by
        intro b hb
        rcases List.mem_cons.mp hb with rfl | hb
        · exact hstop b hac
        · exact (hstop c hac).trans_le (hc b hb)
      rw [List.orderedInsert_cons_of_le _ _ hac]
      exact ⟨List.pairwise_cons.mpr ⟨fun b hb => (hlater b hb).le, hl⟩,
        [], c :: l, rfl, rfl, by simp, hlater⟩
    · have hle : key c ≤ key a := by
        by_contra hlt
        exact hac (h c (firstLater_cons_later (not_le.mp hlt)))
      rw [firstLater_cons_earlier hle] at h
      obtain ⟨horder, hstable⟩ := ih hl' h
      rw [List.orderedInsert_of_not_le stop l hac]
      refine ⟨List.pairwise_cons.mpr ⟨fun b hb => ?_, horder⟩, hstable.cons hle⟩
      rcases (List.mem_orderedInsert _).mp hb with rfl | hb
      · exact hle
      · exact hc b hb

/-- An insertion is right exactly when the first later element stops the search. -/
theorem stableInsert_iff_stop (hl : InOrder key l) (hstop : ∀ b, stop a b → key a < key b) :
    InOrder key (l.orderedInsert stop a) ∧ StableInsert key a l (l.orderedInsert stop a) ↔
      ∀ b, firstLater key a l = some b → stop a b :=
  ⟨fun h => stop_of_inOrder hstop h.1, fun h => stableInsert_of_stop hl h hstop⟩

end Search

end Osc2FtdiDmx.SortedInsertion
