import Mathlib

/-! Runs of a labelled transition relation. A run may be restricted to steps whose
label meets a condition in the state the step starts from. -/
namespace Osc2FtdiDmx.TransitionRuns

variable {S L : Type}

/-- Steps that meet `ok` lead from `s` to the indexed state. -/
inductive RunsTo (step : S → L → S → Prop) (ok : S → L → Prop) (s : S) : S → Prop
  | refl : RunsTo step ok s s
  | snoc {t u : S} {l : L} : RunsTo step ok s t → ok t l → step t l u → RunsTo step ok s u

/-- The condition that every step meets. -/
def Free (_ : S) (_ : L) : Prop := True

variable {step : S → L → S → Prop} {ok ok' : S → L → Prop} {s t : S}

/-- What holds at the start and is preserved by every step holds at the end of a run. -/
theorem RunsTo.invariant {P : S → Prop} (h : RunsTo step ok s t) (hs : P s)
    (hstep : ∀ t l u, P t → ok t l → step t l u → P u) : P t := by
  induction h with
  | refl => exact hs
  | snoc _ hok hnext ih => exact hstep _ _ _ ih hok hnext

/-- The relation of a partial step function. -/
def Steps (act : S → L → Option S) (s : S) (l : L) (t : S) : Prop := act s l = some t

section Follow
variable (act : S → L → Option S) (ok : S → L → Prop) [∀ s l, Decidable (ok s l)]

/-- Take the listed steps one after the other, as long as each meets `ok`. -/
def follow (s : S) : List L → Option S
  | [] => some s
  | l :: ls => if ok s l then (act s l).bind fun t => follow t ls else none

theorem runsTo_follow {s₀ s t : S} (h : RunsTo (Steps act) ok s₀ s) {ls : List L}
    (hfollow : follow act ok s ls = some t) : RunsTo (Steps act) ok s₀ t := by
  induction ls generalizing s with
  | nil =>
    cases hfollow
    exact h
  | cons l ls ih =>
    rw [follow] at hfollow
    split_ifs at hfollow with hok
    obtain ⟨u, hu, hfollow⟩ := Option.bind_eq_some_iff.mp hfollow
    exact ih (h.snoc hok hu) hfollow

end Follow

instance (s : S) (l : L) : Decidable (Free s l) := inferInstanceAs (Decidable True)

end Osc2FtdiDmx.TransitionRuns
