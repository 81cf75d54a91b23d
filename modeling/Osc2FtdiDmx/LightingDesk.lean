import Osc2FtdiDmx.PriorityLevels

/-! A desk of channels with priority levels, over arbitrary types. Cues are sequences of
updates; one that comes with a time waits in line until the desk gets to this time. -/
namespace Osc2FtdiDmx.LightingDesk
open PriorityLevels

variable {κ γ ι α τ : Type*}

abbrev Cue (κ α : Type*) := List (Update κ α)

section Cues
variable [DecidableEq κ] (M : κ → Option α) {cue cue' : Cue κ α} {k : κ}

/-- The levels after a cue was played. -/
def play (M : κ → Option α) (cue : Cue κ α) : κ → Option α := cue.foldl Update.apply M

theorem play_append (cue cue' : Cue κ α) : play M (cue ++ cue') = play (play M cue) cue' :=
  List.foldl_append

/-- The last update of a key in a cue. -/
def lastAt (cue : Cue κ α) (k : κ) : Option (Update κ α) := (cue.filter (·.key = k)).getLast?

theorem lastAt_append_singleton (cue : Cue κ α) (u : Update κ α) (k : κ) :
    lastAt (cue ++ [u]) k = if u.key = k then some u else lastAt cue k := by
  by_cases h : u.key = k <;> simp [lastAt, List.filter_append, h]

theorem lastAt_key {u : Update κ α} (h : lastAt cue k = some u) : u ∈ cue ∧ u.key = k := by
  have hmem := List.mem_of_getLast? h
  simpa using hmem

theorem lastAt_none (h : ∀ u ∈ cue, u.key ≠ k) : lastAt cue k = none := by
  rw [lastAt, List.getLast?_eq_none_iff, List.filter_eq_nil_iff]
  simpa using h

/-- The only update of its key is the last one. -/
theorem lastAt_unique {u : Update κ α} (hu : u ∈ cue) (h : ∀ u' ∈ cue, u'.key = u.key → u' = u) :
    lastAt cue u.key = some u := by
  cases hlast : lastAt cue u.key with
  | none =>
    rw [lastAt, List.getLast?_eq_none_iff, List.filter_eq_nil_iff] at hlast
    exact absurd (hlast u hu) (by simp)
  | some u' =>
    obtain ⟨hmem, hkey⟩ := lastAt_key hlast
    rw [h u' hmem hkey]

/-- The last update of a key decides its level. -/
theorem play_apply (cue : Cue κ α) (k : κ) :
    play M cue k = (lastAt cue k).elim (M k) Update.value := by
  induction cue using List.reverseRecOn with
  | nil => rfl
  | append_singleton cue u ih =>
    rw [play_append, lastAt_append_singleton]
    change u.apply (play M cue) k = _
    by_cases h : u.key = k
    · subst h
      rw [if_pos rfl, u.apply_key]
      rfl
    · rw [if_neg h, u.apply_of_ne _ (Ne.symm h), ih]

/-- A cue that is played again changes nothing. -/
theorem play_play (cue : Cue κ α) : play (play M cue) cue = play M cue := by
  funext k
  rw [play_apply (play M cue), play_apply M]
  cases lastAt cue k <;> rfl

/-- Cues without a key in common can be played in either order. -/
theorem play_comm (h : ∀ u ∈ cue, ∀ u' ∈ cue', u.key ≠ u'.key) :
    play (play M cue) cue' = play (play M cue') cue := by
  funext k
  simp only [play_apply]
  cases hc : lastAt cue k with
  | none => rfl
  | some u =>
    cases hc' : lastAt cue' k with
    | none => rfl
    | some u' =>
      obtain ⟨hu, hkey⟩ := lastAt_key hc
      obtain ⟨hu', hkey'⟩ := lastAt_key hc'
      exact absurd (hkey.trans hkey'.symm) (h u hu u' hu')

/-- The levels of some keys depend on the updates of these keys only. -/
theorem play_congr {M M' : κ → Option α} {P : κ → Prop} [DecidablePred P]
    (hM : ∀ k, P k → M k = M' k)
    (hcue : cue.filter (fun u => P u.key) = cue'.filter fun u => P u.key) (hk : P k) :
    play M cue k = play M' cue' k := by
  have hlast (cue : Cue κ α) : lastAt (cue.filter fun u => P u.key) k = lastAt cue k := by
    rw [lastAt, lastAt, List.filter_filter]
    congr 1
    refine List.filter_congr fun u _ => ?_
    by_cases hu : u.key = k <;> simp [hu, hk]
  rw [play_apply, play_apply, hM k hk, ← hlast cue, hcue, hlast]

end Cues

/-- The levels of the keys, and the timed cues in the order they came in. -/
structure Desk (κ α τ : Type*) where
  levels : κ → Option α
  waiting : List (τ × Cue κ α)

namespace Desk
variable [DecidableEq κ]

/-- A cue comes in, to be played now or at a time. -/
def take (desk : Desk κ α τ) : Option τ × Cue κ α → Desk κ α τ
  | (none, cue) => { desk with levels := play desk.levels cue }
  | (some due, cue) => { desk with waiting := desk.waiting ++ [(due, cue)] }

def takeAll (desk : Desk κ α τ) (cues : List (Option τ × Cue κ α)) : Desk κ α τ :=
  cues.foldl take desk

variable [LinearOrder τ]

/-- The clock gets to `now`: the line moves up to the first cue that is not due. -/
def advance (desk : Desk κ α τ) (now : τ) : Desk κ α τ :=
  ⟨play desk.levels ((desk.waiting.takeWhile (·.1 ≤ now)).flatMap (·.2)),
    desk.waiting.dropWhile (·.1 ≤ now)⟩

theorem advance_nil {desk : Desk κ α τ} (h : desk.waiting = []) (now : τ) :
    desk.advance now = desk := by
  obtain ⟨levels, waiting⟩ := desk
  subst h
  rfl

theorem advance_early {desk : Desk κ α τ} {now due : τ} {cue : Cue κ α} {rest : List (τ × Cue κ α)}
    (h : desk.waiting = (due, cue) :: rest) (hdue : now < due) : desk.advance now = desk := by
  obtain ⟨levels, waiting⟩ := desk
  subst h
  simp [advance, play, hdue.not_ge]

theorem advance_due {desk : Desk κ α τ} {now due : τ} {cue : Cue κ α} {rest : List (τ × Cue κ α)}
    (h : desk.waiting = (due, cue) :: rest) (hdue : due ≤ now) :
    desk.advance now = (⟨play desk.levels cue, rest⟩ : Desk κ α τ).advance now := by
  obtain ⟨levels, waiting⟩ := desk
  subst h
  simp [advance, hdue, play_append]

/-- The desk after some turns: in each some cues come in, then the clock is looked at. -/
def after (desk : Desk κ α τ) (turns : List (List (Option τ × Cue κ α) × τ)) : Desk κ α τ :=
  turns.foldl (fun desk turn => (desk.takeAll turn.1).advance turn.2) desk

end Desk

section Frames
variable [DecidableEq (γ × ι)] [Fintype ι] [LinearOrder ι] [LinearOrder τ]

/-- Every channel shows its highest level, or `off` without one. -/
def Desk.frame (desk : Desk (γ × ι) α τ) (off : α) (c : γ) : α :=
  topValue (fun p => desk.levels (c, p)) off

/-- One frame at the end of each turn. -/
def Desk.frames (off : α) : Desk (γ × ι) α τ → List (List (Option τ × Cue (γ × ι) α) × τ) →
    List (γ → α)
  | _, [] => []
  | desk, (cues, now) :: turns =>
      let desk := (desk.takeAll cues).advance now
      desk.frame off :: desk.frames off turns

theorem Desk.frames_append_singleton (off : α) (desk : Desk (γ × ι) α τ)
    (turns : List (List (Option τ × Cue (γ × ι) α) × τ)) (turn : List (Option τ × Cue (γ × ι) α) × τ) :
    desk.frames off (turns ++ [turn]) =
      desk.frames off turns ++ [(desk.after (turns ++ [turn])).frame off] := by
  induction turns generalizing desk with
  | nil => rfl
  | cons first turns ih =>
    rw [List.cons_append, Desk.frames, Desk.frames, ih, List.cons_append]
    rfl

end Frames

end Osc2FtdiDmx.LightingDesk
