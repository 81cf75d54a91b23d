import Mathlib

/-! Extended globs over an arbitrary alphabet: wildcards, sets of ranges, and groups of
alternatives that may be optional, repeated or excluded. Their language, and a matcher
that lists the ways to match a front part of a word. -/
namespace Osc2FtdiDmx.GlobLanguage

universe u
variable {α : Type u}

/-- How often one of the alternatives of a group has to match. -/
inductive GroupOp
  | once
  | optional
  | repeated
  | atLeastOnce
  | excluded
  deriving DecidableEq

mutual

inductive Glob (α : Type u)
  | empty
  | char (c : α) (rest : Glob α)
  | any (rest : Glob α)
  | star (rest : Glob α)
  | set (negated : Bool) (ranges : List (α × α)) (rest : Glob α)
  | group (op : GroupOp) (alts : Alts α) (rest : Glob α)

inductive Alts (α : Type u)
  | last (g : Glob α)
  | more (g : Glob α) (alts : Alts α)

end

def inSet [LE α] [DecidableLE α] (negated : Bool) (ranges : List (α × α)) (a : α) : Bool :=
  (ranges.any fun r => r.1 ≤ a ∧ a ≤ r.2) != negated

/-- The words of one letter. -/
def letters (p : α → Prop) : Language α := {w | ∃ a, p a ∧ w = [a]}

def GroupOp.lang (L : Language α) : GroupOp → Language α
  | .once => L
  | .optional => 1 + L
  | .repeated => KStar.kstar L
  | .atLeastOnce => L * KStar.kstar L
  | .excluded => Lᶜ

section Language
variable [LE α] [DecidableLE α]

mutual

def Glob.lang : Glob α → Language α
  | .empty => 1
  | .char c rest => letters (· = c) * rest.lang
  | .any rest => letters (fun _ => True) * rest.lang
  | .star rest => ⊤ * rest.lang
  | .set negated ranges rest => letters (fun a => inSet negated ranges a = true) * rest.lang
  | .group op alts rest => op.lang alts.lang * rest.lang

def Alts.lang : Alts α → Language α
  | .last g => g.lang
  | .more g alts => g.lang + alts.lang

end

end Language

/-- A word with its first letter taken off, if this meets the condition. -/
def afterLetter (p : α → Bool) : List α → List (List α)
  | [] => []
  | a :: w => if p a then [w] else []

/-- Take off parts again and again; `n` bounds how often. -/
def afterRepeated (R : List α → List (List α)) : ℕ → List α → List (List α)
  | 0, w => [w]
  | n + 1, w => w :: ((R w).filter fun v => v.length < w.length).flatMap (afterRepeated R n)

def GroupOp.rests [DecidableEq α] (R : List α → List (List α)) (w : List α) :
    GroupOp → List (List α)
  | .once => R w
  | .optional => w :: R w
  | .repeated => afterRepeated R w.length w
  | .atLeastOnce => (R w).flatMap fun v => afterRepeated R v.length v
  | .excluded => w.tails.filter fun v => v ∉ R w

section Matcher
variable [DecidableEq α] [LE α] [DecidableLE α]

mutual

/-- What may be left of a word behind a part that the glob matches. -/
def Glob.rests : Glob α → List α → List (List α)
  | .empty, w => [w]
  | .char c rest, w => (afterLetter (fun a => a = c) w).flatMap fun v => rest.rests v
  | .any rest, w => (afterLetter (fun _ => true) w).flatMap fun v => rest.rests v
  | .star rest, w => w.tails.flatMap fun v => rest.rests v
  | .set negated ranges rest, w =>
      (afterLetter (inSet negated ranges) w).flatMap fun v => rest.rests v
  | .group op alts rest, w => (op.rests (fun v => alts.rests v) w).flatMap fun v => rest.rests v

def Alts.rests : Alts α → List α → List (List α)
  | .last g, w => g.rests w
  | .more g alts, w => g.rests w ++ alts.rests w

end

def Glob.accepts (g : Glob α) (w : List α) : Bool := (g.rests w).contains []

end Matcher

/-- The list has what is left of a word behind the words of a language. -/
def Splits (R : List α → List (List α)) (L : Language α) : Prop :=
  ∀ w v, v ∈ R w ↔ ∃ u ∈ L, u ++ v = w

section Splits
variable {R R' : List α → List (List α)} {L L' : Language α}

lemma splits_one : Splits (fun w => [w]) (1 : Language α) := by
  intro w v
  simp [Language.mem_one]

lemma splits_letter (p : α → Bool) : Splits (afterLetter p) (letters fun a => p a = true) := by
  intro w v
  cases w with
  | nil =>
    simp only [afterLetter, List.not_mem_nil, false_iff, not_exists, not_and]
    rintro _ ⟨b, -, rfl⟩ hw
    cases hw
  | cons a w =>
    by_cases ha : p a = true
    · constructor
      · intro hv
        simp only [afterLetter, if_pos ha, List.mem_singleton] at hv
        exact ⟨[a], ⟨a, ha, rfl⟩, by simp [hv]⟩
      · rintro ⟨_, ⟨b, -, rfl⟩, hw⟩
        simp only [List.cons_append, List.nil_append, List.cons.injEq] at hw
        simp [afterLetter, ha, hw.2]
    · simp only [afterLetter, if_neg ha, List.not_mem_nil, false_iff, not_exists, not_and]
      rintro _ ⟨b, hb, rfl⟩ hw
      simp only [List.cons_append, List.nil_append, List.cons.injEq] at hw
      exact ha (hw.1 ▸ hb)

lemma splits_top : Splits List.tails (⊤ : Language α) := by
  intro w v
  rw [List.mem_tails]
  exact ⟨fun ⟨u, hu⟩ => ⟨u, trivial, hu⟩, fun ⟨u, _, hu⟩ => ⟨u, hu⟩⟩

lemma Splits.mul (h : Splits R L) (h' : Splits R' L') :
    Splits (fun w => (R w).flatMap fun v => R' v) (L * L') := by
  intro w v
  simp only [List.mem_flatMap, h w, h' _, Language.mem_mul]
  constructor
  · rintro ⟨mid, ⟨u, hu, rfl⟩, u', hu', rfl⟩
    exact ⟨u ++ u', ⟨u, hu, u', hu', rfl⟩, by simp⟩
  · rintro ⟨_, ⟨u, hu, u', hu', rfl⟩, rfl⟩
    exact ⟨u' ++ v, ⟨u, hu, by simp⟩, u', hu', rfl⟩

lemma Splits.add (h : Splits R L) (h' : Splits R' L') :
    Splits (fun w => R w ++ R' w) (L + L') := by
  intro w v
  simp only [List.mem_append, h w, h' w, Language.mem_add]
  constructor
  · rintro (⟨u, hu, hw⟩ | ⟨u, hu, hw⟩)
    · exact ⟨u, .inl hu, hw⟩
    · exact ⟨u, .inr hu, hw⟩
  · rintro ⟨u, hu | hu, hw⟩
    · exact .inl ⟨u, hu, hw⟩
    · exact .inr ⟨u, hu, hw⟩

/-- By induction on the bound; only parts that are not empty are taken off. -/
lemma Splits.repeated (h : Splits R L) {n : ℕ} {w : List α} (hn : w.length ≤ n) (v : List α) :
    v ∈ afterRepeated R n w ↔ ∃ u ∈ KStar.kstar L, u ++ v = w := by
  induction n generalizing w with
  | zero =>
    obtain rfl : w = [] := List.length_eq_zero_iff.mp (by omega)
    simp only [afterRepeated, List.mem_singleton, List.append_eq_nil_iff]
    exact ⟨fun hv => ⟨[], Language.nil_mem_kstar L, rfl, hv⟩, fun ⟨_, _, _, hv⟩ => hv⟩
  | succ n ih =>
    simp only [afterRepeated, List.mem_cons, List.mem_flatMap, List.mem_filter, h w,
      decide_eq_true_eq]
    constructor
    · rintro (rfl | ⟨mid, ⟨⟨u, hu, rfl⟩, hlt⟩, hv⟩)
      · exact ⟨[], Language.nil_mem_kstar L, rfl⟩
      · rw [List.length_append] at hn hlt
        obtain ⟨u', hu', rfl⟩ := (ih (by omega)).mp hv
        have hmul : u ++ u' ∈ L * KStar.kstar L := Language.append_mem_mul hu hu'
        refine ⟨u ++ u', ?_, by simp⟩
        rw [← Language.one_add_self_mul_kstar_eq_kstar L]
        exact .inr hmul
    · rintro ⟨u, hu, rfl⟩
      obtain ⟨parts, rfl, hparts⟩ := Language.mem_kstar_iff_exists_nonempty.mp hu
      cases parts with
      | nil => exact .inl rfl
      | cons part parts =>
        obtain ⟨⟨hpart, hne⟩, hrest⟩ := List.forall_mem_cons.mp hparts
        have hpos := List.length_pos_iff.mpr hne
        simp only [List.flatten_cons, List.length_append] at hn
        refine .inr ⟨parts.flatten ++ v, ⟨⟨part, hpart, by simp⟩, ?_⟩, ?_⟩
        · simp only [List.flatten_cons, List.length_append]
          omega
        · refine (ih ?_).mpr ⟨parts.flatten, ?_, rfl⟩
          · rw [List.length_append]
            omega
          · exact Language.join_mem_kstar fun y hy => (hrest y hy).1

lemma Splits.compl [DecidableEq α] (h : Splits R L) :
    Splits (fun w => w.tails.filter fun v => v ∉ R w) Lᶜ := by
  intro w v
  simp only [List.mem_filter, List.mem_tails, decide_eq_true_eq, h w, not_exists, not_and]
  constructor
  · rintro ⟨⟨u, rfl⟩, hnot⟩
    exact ⟨u, fun hu => hnot u hu rfl, rfl⟩
  · rintro ⟨u, hu, rfl⟩
    refine ⟨⟨u, rfl⟩, fun u' hu' heq => hu ?_⟩
    rwa [← List.append_cancel_right heq]

lemma Splits.group [DecidableEq α] (h : Splits R L) (op : GroupOp) :
    Splits (fun w => op.rests R w) (op.lang L) := by
  cases op with
  | once => exact h
  | optional => exact splits_one.add h
  | repeated => exact fun w v => h.repeated le_rfl v
  | atLeastOnce => exact h.mul fun w v => h.repeated le_rfl v
  | excluded => exact h.compl

end Splits

section Correct
variable [DecidableEq α] [LE α] [DecidableLE α]

mutual

theorem Glob.splits : ∀ g : Glob α, Splits g.rests g.lang
  | .empty => by
      rw [Glob.lang]
      exact splits_one
  | .char c rest => by
      have hletter := splits_letter fun a => decide (a = c)
      simp only [decide_eq_true_eq] at hletter
      rw [Glob.lang]
      exact hletter.mul rest.splits
  | .any rest => by
      have hletter := splits_letter fun _ : α => true
      simp only at hletter
      rw [Glob.lang]
      exact hletter.mul rest.splits
  | .star rest => by
      rw [Glob.lang]
      exact splits_top.mul rest.splits
  | .set negated ranges rest => by
      rw [Glob.lang]
      exact (splits_letter (inSet negated ranges)).mul rest.splits
  | .group op alts rest => by
      rw [Glob.lang]
      exact (alts.splits.group op).mul rest.splits

theorem Alts.splits : ∀ alts : Alts α, Splits alts.rests alts.lang
  | .last g => by
      rw [Alts.lang]
      exact g.splits
  | .more g alts => by
      rw [Alts.lang]
      exact g.splits.add alts.splits

end

/-- The matcher decides the language. -/
theorem Glob.accepts_iff (g : Glob α) (w : List α) : g.accepts w = true ↔ w ∈ g.lang := by
  rw [Glob.accepts, List.contains_iff_mem, g.splits w []]
  simp

end Correct

end Osc2FtdiDmx.GlobLanguage
