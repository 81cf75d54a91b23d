import Osc2FtdiDmx.LightingDesk

/-! Laws of a desk: two desks that agree on some keys, and whose cues agree there, stay so;
which cues may change places; the line of a desk whose clock does not run back. -/
namespace Osc2FtdiDmx.DeskLaws
open PriorityLevels LightingDesk

variable {κ γ ι α τ : Type*}

section Agreement
variable (P : κ → Prop) [DecidablePred P]

/-- The updates of the keys in question. -/
def seen (cue : Cue κ α) : Cue κ α := cue.filter fun u => P u.key

@[simp] lemma seen_seen (cue : Cue κ α) : seen P (seen P cue) = seen P cue := by
  simp [seen, List.filter_filter]

/-- A cue as these keys see it. -/
def view (cue : τ × Cue κ α) : τ × Cue κ α := (cue.1, seen P cue.2)

/-- The cues that matter to these keys. One that has to wait always does, as it holds up the
line behind it. -/
def visible (cues : List (Option τ × Cue κ α)) : List (Option τ × Cue κ α) :=
  (cues.map (view P)).filter fun cue => cue.1.isSome ∨ cue.2 ≠ []

/-- Equal levels of these keys, and lines that look the same to them. -/
structure Agree (desk desk' : Desk κ α τ) : Prop where
  levels : ∀ k, P k → desk.levels k = desk'.levels k
  waiting : desk.waiting.map (view P) = desk'.waiting.map (view P)

lemma filter_updates (ws : List (τ × Cue κ α)) :
    (ws.flatMap (·.2)).filter (fun u => P u.key) = (ws.map (view P)).flatMap (·.2) := by
  induction ws with
  | nil => rfl
  | cons w ws ih => simp [ih, view, seen]

lemma takeWhile_view [LinearOrder τ] (ws : List (τ × Cue κ α)) (now : τ) :
    (ws.takeWhile (·.1 ≤ now)).map (view P) = (ws.map (view P)).takeWhile (·.1 ≤ now) := by
  rw [List.takeWhile_map]
  rfl

lemma dropWhile_view [LinearOrder τ] (ws : List (τ × Cue κ α)) (now : τ) :
    (ws.dropWhile (·.1 ≤ now)).map (view P) = (ws.map (view P)).dropWhile (·.1 ≤ now) := by
  rw [List.dropWhile_map]
  rfl

variable {P} {desk desk' desk'' : Desk κ α τ}

theorem Agree.refl (desk : Desk κ α τ) : Agree P desk desk := ⟨fun _ _ => rfl, rfl⟩

theorem Agree.symm (h : Agree P desk desk') : Agree P desk' desk :=
  ⟨fun k hk => (h.levels k hk).symm, h.waiting.symm⟩

theorem Agree.trans (h : Agree P desk desk') (h' : Agree P desk' desk'') : Agree P desk desk'' :=
  ⟨fun k hk => (h.levels k hk).trans (h'.levels k hk), h.waiting.trans h'.waiting⟩

variable [DecidableEq κ]

theorem Agree.take (h : Agree P desk desk') {cue cue' : Option τ × Cue κ α}
    (hcue : view P cue = view P cue') : Agree P (desk.take cue) (desk'.take cue') := by
  obtain ⟨due, us⟩ := cue
  obtain ⟨due', us'⟩ := cue'
  simp only [view, Prod.mk.injEq] at hcue
  obtain ⟨rfl, hus⟩ := hcue
  cases due with
  | none => exact ⟨fun k hk => play_congr h.levels hus hk, h.waiting⟩
  | some due => exact ⟨h.levels, by simp [Desk.take, h.waiting, view, hus]⟩

/-- A cue that none of these keys sees, and that does not wait, changes nothing for them. -/
theorem agree_unseen {us : Cue κ α} (h : seen P us = []) : Agree P (desk.take (none, us)) desk :=
  ⟨fun _ hk => play_congr (fun _ _ => rfl) (h.trans rfl : seen P us = seen P []) hk, rfl⟩

theorem agree_visible (desk : Desk κ α τ) (cues : List (Option τ × Cue κ α)) :
    ∀ desk', Agree P desk desk' → Agree P (desk.takeAll cues) (desk'.takeAll (visible P cues)) := by
  induction cues generalizing desk with
  | nil => exact fun _ h => h
  | cons cue cues ih =>
    intro desk' h
    by_cases hcue : (view P cue).1.isSome ∨ (view P cue).2 ≠ []
    · have hvisible : visible P (cue :: cues) = view P cue :: visible P cues := by
        simp [visible, hcue]
      rw [hvisible]
      exact ih _ _ (h.take (by simp [view]))
    · have hvisible : visible P (cue :: cues) = visible P cues := by
        simp [visible, hcue]
      rw [hvisible]
      obtain ⟨due, us⟩ := cue
      simp only [view, not_or, not_not, Option.not_isSome_iff_eq_none] at hcue
      obtain ⟨rfl, hus⟩ := hcue
      exact ih _ _ ((agree_unseen hus).trans h)

theorem Agree.takeAll (h : Agree P desk desk') {cues cues' : List (Option τ × Cue κ α)}
    (hcues : visible P cues = visible P cues') :
    Agree P (desk.takeAll cues) (desk'.takeAll cues') := by
  have hleft := agree_visible desk cues desk' h
  rw [hcues] at hleft
  exact hleft.trans (agree_visible desk' cues' desk' (Agree.refl desk')).symm

variable [LinearOrder τ]

/-- The same cues are due, and the updates they hold look the same. -/
theorem Agree.advance (h : Agree P desk desk') (now : τ) :
    Agree P (desk.advance now) (desk'.advance now) := by
  refine ⟨fun k hk => play_congr h.levels ?_ hk, ?_⟩
  · rw [filter_updates, filter_updates, takeWhile_view, takeWhile_view, h.waiting]
  · simp only [Desk.advance]
    rw [dropWhile_view, dropWhile_view, h.waiting]

theorem Agree.after (h : Agree P desk desk') {turns turns' : List (List (Option τ × Cue κ α) × τ)}
    (hturns : List.Forall₂ (fun t t' => visible P t.1 = visible P t'.1 ∧ t.2 = t'.2) turns turns') :
    Agree P (desk.after turns) (desk'.after turns') := by
  induction hturns generalizing desk desk' with
  | nil => exact h
  | cons hturn _ ih =>
    have hnext := (h.takeAll hturn.1).advance
    rw [Desk.after, Desk.after, List.foldl_cons, List.foldl_cons, hturn.2]
    exact ih (hnext _)

end Agreement

section Values
variable [Fintype ι] [LinearOrder ι]

/-- Levels that agree from some level on show the same value, if one of these is set or
there are no others. -/
theorem topValue_congr {L L' : ι → Option α} {Q : ι → Prop} (hL : ∀ p, Q p → L p = L' p)
    (hup : ∀ p q, p ≤ q → Q p → Q q) (h : (∀ p, Q p) ∨ ∃ p, Q p ∧ (L p).isSome) (d : α) :
    topValue L d = topValue L' d := by
  obtain hall | ⟨p, hp, hset⟩ := h
  · rw [funext fun p => hL p (hall p)]
  · obtain hnone | ⟨q, v, hq, habove⟩ := exists_highest L
    · simp [hnone p] at hset
    · have hle : p ≤ q := by
        by_contra hlt
        simp [habove p (not_le.mp hlt)] at hset
      have hQ := hup p q hle hp
      rw [topValue_highest d hq habove, topValue_highest d ((hL q hQ).symm.trans hq)
        fun r hr => (hL r (hup q r hr.le hQ)).symm.trans (habove r hr)]

end Values

section Line
/-- The cues with a time, in the order they came in. -/
def delayed (cues : List (Option τ × Cue κ α)) : List (τ × Cue κ α) :=
  cues.filterMap fun cue => cue.1.map fun due => (due, cue.2)

/-- What was dropped before is dropped anyway. -/
lemma dropWhile_append {β : Type*} {p q : β → Bool} (hpq : ∀ x, p x → q x) (xs ys : List β) :
    (xs.dropWhile p ++ ys).dropWhile q = (xs ++ ys).dropWhile q := by
  induction xs with
  | nil => rfl
  | cons x xs ih =>
    by_cases hp : p x
    · simp [hp, hpq x hp, ih]
    · simp [hp]

variable [DecidableEq κ]

/-- The updates that are played at once. -/
def atOnce (cues : List (Option τ × Cue κ α)) : Cue κ α :=
  cues.flatMap fun cue => if cue.1.isNone then cue.2 else []

lemma takeAll_eq (desk : Desk κ α τ) (cues : List (Option τ × Cue κ α)) :
    desk.takeAll cues = ⟨play desk.levels (atOnce cues), desk.waiting ++ delayed cues⟩ := by
  induction cues generalizing desk with
  | nil => simp [Desk.takeAll, delayed, atOnce, play]
  | cons cue cues ih =>
    obtain ⟨_ | due, us⟩ := cue
    · have hrest := ih (desk.take (none, us))
      simpa [Desk.takeAll, delayed, atOnce, Desk.take, play_append] using hrest
    · have hrest := ih (desk.take (some due, us))
      simpa [Desk.takeAll, delayed, atOnce, Desk.take] using hrest

/-- Cues come in in either order if they have no key in common that is updated at once, and
if not both have a part that waits. -/
theorem takeAll_swap (desk : Desk κ α τ) {cues cues' : List (Option τ × Cue κ α)}
    (h : ∀ u ∈ atOnce cues, ∀ u' ∈ atOnce cues', u.key ≠ u'.key)
    (hdelayed : delayed cues = [] ∨ delayed cues' = []) :
    (desk.takeAll cues).takeAll cues' = (desk.takeAll cues').takeAll cues := by
  simp only [takeAll_eq, play_comm desk.levels h]
  obtain hnil | hnil := hdelayed <;> simp [hnil]

theorem takeAll_again (desk : Desk κ α τ) {cues : List (Option τ × Cue κ α)}
    (hdelayed : delayed cues = []) : (desk.takeAll cues).takeAll cues = desk.takeAll cues := by
  simp only [takeAll_eq, play_play, hdelayed, List.append_nil]

variable [LinearOrder τ]

/-- Where the clock does not run back, the line is what is left of all timed cues behind
the first that is not due. -/
theorem after_waiting (M : κ → Option α) (turns : List (List (Option τ × Cue κ α) × τ))
    (turn : List (Option τ × Cue κ α) × τ) (hclock : (turns ++ [turn]).Pairwise (·.2 ≤ ·.2)) :
    ((⟨M, []⟩ : Desk κ α τ).after (turns ++ [turn])).waiting =
      ((turns ++ [turn]).flatMap fun t => delayed t.1).dropWhile (·.1 ≤ turn.2) := by
  induction turns using List.reverseRecOn generalizing turn with
  | nil => simp [Desk.after, Desk.advance, takeAll_eq]
  | append_singleton turns last ih =>
    rw [List.pairwise_append] at hclock
    obtain ⟨hbefore, -, hlast⟩ := hclock
    have hle : last.2 ≤ turn.2 := hlast last (by simp) turn (by simp)
    have hstep : (⟨M, []⟩ : Desk κ α τ).after (turns ++ [last] ++ [turn]) =
        (((⟨M, []⟩ : Desk κ α τ).after (turns ++ [last])).takeAll turn.1).advance turn.2 := by
      simp [Desk.after]
    rw [hstep, Desk.advance, takeAll_eq, ih last hbefore]
    have hall : (turns ++ [last] ++ [turn]).flatMap (fun t => delayed t.1) =
        (turns ++ [last]).flatMap (fun t => delayed t.1) ++ delayed turn.1 := by simp
    rw [hall]
    refine dropWhile_append (fun w hw => ?_) _ _
    simp only [decide_eq_true_eq] at hw ⊢
    exact hw.trans hle

end Line

end Osc2FtdiDmx.DeskLaws
