import Mathlib

/-! Partial assignments of values to finitely many ordered levels, where the
highest assigned level decides. The levels, the keys and the values are
arbitrary types. -/
namespace Osc2FtdiDmx.PriorityLevels

variable {κ ι α : Type*}

/-- One update of a partial map: assign a value to a key, or withdraw it. -/
inductive Update (κ α : Type*)
  | set (key : κ) (val : α)
  | clear (key : κ)
  deriving DecidableEq

def Update.key : Update κ α → κ
  | .set k _ => k
  | .clear k => k

def Update.apply [DecidableEq κ] (M : κ → Option α) : Update κ α → κ → Option α
  | .set k v => Function.update M k (some v)
  | .clear k => Function.update M k none

/-- The map left by a finite history of updates of the empty map. -/
def history [DecidableEq κ] (us : List (Update κ α)) : κ → Option α :=
  us.foldl Update.apply (fun _ => none)

theorem history_append_singleton [DecidableEq κ] (us : List (Update κ α)) (u : Update κ α) :
    history (us ++ [u]) = u.apply (history us) := by
  simp [history, List.foldl_append]

/-- An update is local to its key. -/
theorem Update.apply_of_ne [DecidableEq κ] (M : κ → Option α) (u : Update κ α) {k : κ}
    (h : k ≠ u.key) : u.apply M k = M k := by
  cases u <;> exact Function.update_of_ne h _ _

/-- What an update leaves at its own key. -/
def Update.value : Update κ α → Option α
  | .set _ v => some v
  | .clear _ => none

theorem Update.apply_key [DecidableEq κ] (M : κ → Option α) (u : Update κ α) :
    u.apply M u.key = u.value := by
  cases u <;> exact Function.update_self _ _ _

section Levels
variable [Fintype ι]

/-- The assigned levels. -/
def support (M : ι → Option α) : Finset ι := Finset.univ.filter fun p => (M p).isSome

theorem mem_support {M : ι → Option α} {p : ι} : p ∈ support M ↔ (M p).isSome := by
  simp [support]

variable [LinearOrder ι]

/-- The value at the highest assigned level, or `d` where no level is assigned. -/
def topValue (M : ι → Option α) (d : α) : α :=
  match (support M).max with
  | ⊥ => d
  | (p : ι) => (M p).getD d

theorem topValue_none {M : ι → Option α} (d : α) (h : ∀ p, M p = none) : topValue M d = d := by
  have he : support M = ∅ := by
    ext p
    simp [mem_support, h p]
  simp [topValue, he]

theorem topValue_highest {M : ι → Option α} (d : α) {p : ι} {v : α}
    (hp : M p = some v) (hq : ∀ q, p < q → M q = none) : topValue M d = v := by
  have hmax : (support M).max = (p : WithBot ι) := by
    apply le_antisymm
    · refine Finset.max_le fun q hm => ?_
      rw [WithBot.coe_le_coe]
      by_contra hlt
      rw [mem_support, hq q (not_le.mp hlt)] at hm
      exact absurd hm (by simp)
    · exact Finset.le_max (mem_support.mpr (by simp [hp]))
  simp [topValue, hmax, hp]

/-- Either no level is assigned or some level is the highest assigned one. -/
theorem exists_highest (M : ι → Option α) :
    (∀ p, M p = none) ∨ ∃ p v, M p = some v ∧ ∀ q, p < q → M q = none := by
  by_cases hs : (support M).Nonempty
  · right
    let p := (support M).max' hs
    obtain ⟨v, hv⟩ := Option.isSome_iff_exists.mp (mem_support.mp ((support M).max'_mem hs))
    refine ⟨p, v, hv, fun q hpq => ?_⟩
    by_contra hne
    have hq : q ∈ support M := mem_support.mpr (Option.isSome_iff_ne_none.mpr hne)
    exact absurd ((support M).le_max' q hq) (not_le.mpr hpq)
  · left
    intro p
    by_contra hne
    exact hs ⟨p, mem_support.mpr (Option.isSome_iff_ne_none.mpr hne)⟩

end Levels

end Osc2FtdiDmx.PriorityLevels
