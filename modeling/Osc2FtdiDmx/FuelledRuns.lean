import Mathlib

/-! Recursions run with a budget. A run stops by starvation (`.error none`), by a
failure of its own, or with a value; a family of runs indexed by its budget is a
chain when a larger budget never changes a run that was not starved. -/
namespace Osc2FtdiDmx.FuelledRuns

variable {ε α β : Type}

abbrev Fuelled (ε α : Type) := Except (Option ε) α

def starve : Fuelled ε α := .error none

def lift : Except ε α → Fuelled ε α
  | .ok a => .ok a
  | .error e => .error (some e)

instance : MonadLift (Except ε) (Fuelled ε) := ⟨lift⟩

@[simp] theorem liftM_eq_lift (x : Except ε α) : (liftM x : Fuelled ε α) = lift x := rfl
@[simp] theorem lift_ok (a : α) : lift (.ok a : Except ε α) = .ok a := rfl
@[simp] theorem lift_error (e : ε) : lift (.error e : Except ε α) = .error (some e) := rfl

theorem lift_bind (x : Except ε α) (f : α → Except ε β) :
    lift (x >>= f) = lift x >>= fun a => lift (f a) := by
  cases x <;> rfl

theorem lift_ne_starve (x : Except ε α) : lift x ≠ starve := by
  cases x <;> simp [lift, starve]

theorem lift_eq_ok {x : Except ε α} {a : α} : lift x = .ok a ↔ x = .ok a := by
  cases x <;> simp [lift]

theorem ok_ne_starve (a : α) : (.ok a : Fuelled ε α) ≠ starve := by simp [starve]

theorem fault_ne_starve (e : ε) : (.error (some e) : Fuelled ε α) ≠ starve := by simp [starve]

theorem bind_ne_starve {x : Fuelled ε α} {g : α → Fuelled ε β} (hx : x ≠ starve)
    (hg : ∀ a, g a ≠ starve) : x >>= g ≠ starve := by
  rcases x with (_ | e) | a
  · exact absurd rfl hx
  · exact fault_ne_starve e
  · exact hg a

/-- `x` is starved, or it is already the run `y`. -/
def Approx (x y : Fuelled ε α) : Prop := x = starve ∨ x = y

theorem Approx.refl (x : Fuelled ε α) : Approx x x := Or.inr rfl

theorem Approx.trans {x y z : Fuelled ε α} (h : Approx x y) (g : Approx y z) : Approx x z := by
  rcases h with h | rfl
  · exact Or.inl h
  · exact g

theorem Approx.bind {x y : Fuelled ε α} {f g : α → Fuelled ε β} (h : Approx x y)
    (hfg : ∀ a, Approx (f a) (g a)) : Approx (x >>= f) (y >>= g) := by
  rcases h with rfl | rfl
  · exact Or.inl rfl
  · cases x with
    | error e => exact Or.inr rfl
    | ok a => exact hfg a

theorem Approx.eq_of_ne {x y : Fuelled ε α} (h : Approx x y) (hx : x ≠ starve) : y = x :=
  (h.resolve_left hx).symm

def Chain (run : ℕ → Fuelled ε α) : Prop := ∀ n, Approx (run n) (run (n + 1))

theorem Chain.le {run : ℕ → Fuelled ε α} (h : Chain run) {n k : ℕ} (hnk : n ≤ k) :
    Approx (run n) (run k) := by
  induction hnk with
  | refl => exact Approx.refl _
  | step _ ih => exact ih.trans (h _)

/-- Some budget finishes the run, with result `x`. -/
def Converges (run : ℕ → Fuelled ε α) (x : Fuelled ε α) : Prop := ∃ n, run n = x ∧ x ≠ starve

theorem Converges.ne_starve {run : ℕ → Fuelled ε α} {x : Fuelled ε α} (h : Converges run x) :
    x ≠ starve := h.choose_spec.2

theorem Converges.unique {run : ℕ → Fuelled ε α} (h : Chain run) {x y : Fuelled ε α}
    (hx : Converges run x) (hy : Converges run y) : x = y := by
  obtain ⟨n, rfl, hn⟩ := hx
  obtain ⟨k, rfl, hk⟩ := hy
  rcases Nat.le_total n k with hle | hle
  · exact ((h.le hle).eq_of_ne hn).symm
  · exact (h.le hle).eq_of_ne hk

/-- What one budget shows of the result holds of the result. -/
theorem Converges.of_map {run : ℕ → Fuelled ε α} (h : Chain run) {a : α} {f : α → β} {b : β} {n : ℕ}
    (ha : Converges run (.ok a)) (hn : (run n).map f = .ok b) : f a = b := by
  cases hrun : run n with
  | error e =>
    rw [hrun] at hn
    cases hn
  | ok a' =>
    rw [hrun] at hn
    cases hn
    cases ha.unique h ⟨n, hrun, ok_ne_starve a'⟩
    rfl

/-- A run that is starved under every budget converges to nothing. -/
theorem not_converges_of_starved {run : ℕ → Fuelled ε α} (h : ∀ n, run n = starve)
    (x : Fuelled ε α) : ¬ Converges run x := by
  rintro ⟨n, rfl, hn⟩
  exact hn (h n)

/-- Every sufficient budget gives the run this result. -/
def Settles (run : ℕ → Fuelled ε α) (x : Fuelled ε α) : Prop := ∃ N, ∀ n ≥ N, run n = x

theorem Settles.const (x : Fuelled ε α) : Settles (fun _ => x) x := ⟨0, fun _ _ => rfl⟩

/-- A sequence settles when its parts do, under the same budget. -/
theorem Settles.bind {run : ℕ → Fuelled ε α} {a : α} {g : ℕ → α → Fuelled ε β} {x : Fuelled ε β}
    (h : Settles run (.ok a)) (hg : Settles (fun n => g n a) x) :
    Settles (fun n => run n >>= g n) x := by
  obtain ⟨N, hN⟩ := h
  obtain ⟨K, hK⟩ := hg
  refine ⟨max N K, fun n hn => ?_⟩
  change run n >>= g n = x
  rw [hN n (by omega), ← hK n (by omega)]
  rfl

theorem Settles.converges {run : ℕ → Fuelled ε α} {x : Fuelled ε α} (h : Settles run x)
    (hx : x ≠ starve) : Converges run x := by
  obtain ⟨N, hN⟩ := h
  exact ⟨N, hN N le_rfl, hx⟩

section Simulation
variable {δ γ ζ : Type} {f : δ → ε} {R : α → γ → Prop} {Q : β → ζ → Prop}

/-- The run `x` ends as `y` does: both starved, both with a failure that `f` translates,
or both with a value, and these are related. -/
inductive Sim (f : δ → ε) (R : α → γ → Prop) : Fuelled ε α → Fuelled δ γ → Prop
  | ok {a : α} {c : γ} : R a c → Sim f R (.ok a) (.ok c)
  | error (e : Option δ) : Sim f R (.error (e.map f)) (.error e)

theorem Sim.starve : Sim f R starve starve := .error none

/-- The same computation on both sides. -/
theorem Sim.lift_self (x : Except δ γ) :
    Sim f (fun a c => a = c) (lift (x.mapError f)) (lift x) := by
  cases x with
  | ok c => exact .ok rfl
  | error e => exact .error (some e)

theorem Sim.bind {x : Fuelled ε α} {y : Fuelled δ γ} {g : α → Fuelled ε β} {g' : γ → Fuelled δ ζ}
    (h : Sim f R x y) (hg : ∀ a c, R a c → Sim f Q (g a) (g' c)) : Sim f Q (x >>= g) (y >>= g') := by
  cases h with
  | ok hR => exact hg _ _ hR
  | error e => exact .error e

theorem Sim.ne_starve {x : Fuelled ε α} {y : Fuelled δ γ} (h : Sim f R x y)
    (hy : y ≠ FuelledRuns.starve) : x ≠ FuelledRuns.starve := by
  cases h with
  | ok => exact ok_ne_starve _
  | error e =>
    cases e with
    | none => exact absurd rfl hy
    | some e => exact fault_ne_starve _

end Simulation

end Osc2FtdiDmx.FuelledRuns
