import Mathlib

/-! Framing by byte stuffing over any alphabet. A mark ends a frame; within the frame an
escape symbol stands before the replacements of the mark and of itself. -/
namespace Osc2FtdiDmx.ByteStuffing

structure Marks (α : Type) where
  stop : α
  esc : α
  stopReplace : α
  escReplace : α
  stop_ne_esc : stop ≠ esc
  replace_ne : stopReplace ≠ escReplace

variable {α : Type} [DecidableEq α]

namespace Marks
variable (m : Marks α)

def stuffOne (b : α) : List α :=
  if b = m.stop then [m.esc, m.stopReplace]
  else if b = m.esc then [m.esc, m.escReplace]
  else [b]

def stuff (data : List α) : List α := data.flatMap m.stuffOne

/-- The symbols that an escape with `c` behind it stands for. -/
def escaped (c : α) : List α :=
  if c = m.stopReplace then [m.stop] else if c = m.escReplace then [m.esc] else []

/-- The data up to the first mark and what follows that mark, if there is one. -/
def unstuff : List α → List α × Option (List α)
  | [] => ([], none)
  | [b] =>
      if b = m.esc then ([], none) else if b = m.stop then ([], some []) else ([b], none)
  | b :: c :: rest =>
      if b = m.esc then (m.escaped c ++ (unstuff rest).1, (unstuff rest).2)
      else if b = m.stop then ([], some (c :: rest))
      else (b :: (unstuff (c :: rest)).1, (unstuff (c :: rest)).2)

variable {m} {b c : α} {data rest part : List α}

@[simp] lemma stuff_nil : m.stuff [] = [] := rfl

@[simp] lemma stuff_cons : m.stuff (b :: data) = m.stuffOne b ++ m.stuff data :=
  List.flatMap_cons

@[simp] lemma stuff_append (d e : List α) : m.stuff (d ++ e) = m.stuff d ++ m.stuff e :=
  List.flatMap_append

@[simp] lemma stuffOne_stop : m.stuffOne m.stop = [m.esc, m.stopReplace] := if_pos rfl

@[simp] lemma stuffOne_esc : m.stuffOne m.esc = [m.esc, m.escReplace] := by
  simp [stuffOne, m.stop_ne_esc.symm]

lemma stuffOne_plain (hstop : b ≠ m.stop) (hesc : b ≠ m.esc) : m.stuffOne b = [b] := by
  simp [stuffOne, hstop, hesc]

@[simp] lemma escaped_stopReplace : m.escaped m.stopReplace = [m.stop] := if_pos rfl

@[simp] lemma escaped_escReplace : m.escaped m.escReplace = [m.esc] := by
  simp [escaped, m.replace_ne.symm]

@[simp] lemma unstuff_nil : m.unstuff [] = ([], none) := rfl

@[simp] lemma unstuff_esc_end : m.unstuff [m.esc] = ([], none) := if_pos rfl

@[simp] lemma unstuff_esc : m.unstuff (m.esc :: c :: rest) =
    (m.escaped c ++ (m.unstuff rest).1, (m.unstuff rest).2) := if_pos rfl

@[simp] lemma unstuff_stop : m.unstuff (m.stop :: rest) = ([], some rest) := by
  cases rest <;> simp [unstuff, m.stop_ne_esc]

lemma unstuff_plain (hstop : b ≠ m.stop) (hesc : b ≠ m.esc) : m.unstuff (b :: rest) =
    (b :: (m.unstuff rest).1, (m.unstuff rest).2) := by
  cases rest <;> simp [unstuff, hstop, hesc]

/-- Induction along `unstuff`. -/
@[elab_as_elim]
theorem unstuff_induction {motive : List α → Prop} (nil : motive [])
    (lone : motive [m.esc]) (pair : ∀ c rest, motive rest → motive (m.esc :: c :: rest))
    (stop : ∀ rest, motive (m.stop :: rest))
    (plain : ∀ b rest, b ≠ m.stop → b ≠ m.esc → motive rest → motive (b :: rest))
    (rest : List α) : motive rest := by
  induction rest using Marks.unstuff.induct m with
  | case1 => exact nil
  | case2 => exact lone
  | case3 => exact stop []
  | case4 b hesc hstop => exact plain b [] hstop hesc nil
  | case5 c rest ih => exact pair c rest ih
  | case6 c rest => exact stop (c :: rest)
  | case7 b c rest hesc hstop ih => exact plain b (c :: rest) hstop hesc ih

lemma unstuff_stuffOne :
    m.unstuff (m.stuffOne b ++ rest) = (b :: (m.unstuff rest).1, (m.unstuff rest).2) := by
  by_cases hstop : b = m.stop
  · simp [hstop]
  · by_cases hesc : b = m.esc
    · simp [hesc]
    · rw [stuffOne_plain hstop hesc]
      exact unstuff_plain hstop hesc

/-- What was stuffed comes out again in front of what the rest stands for. -/
theorem unstuff_stuff_append :
    m.unstuff (m.stuff data ++ rest) = (data ++ (m.unstuff rest).1, (m.unstuff rest).2) := by
  induction data with
  | nil => simp
  | cons b data ih => simp [unstuff_stuffOne, ih]

@[simp] lemma unstuff_stuff : m.unstuff (m.stuff data) = (data, none) := by
  simpa using @unstuff_stuff_append α _ m data []

theorem unstuff_stuff_stop : m.unstuff (m.stuff data ++ m.stop :: rest) = (data, some rest) := by
  simp [unstuff_stuff_append]

lemma prefix_stuffOne (h : part <+: m.stuffOne b) :
    part = [] ∨ part = [m.esc] ∨ part = m.stuffOne b := by
  rw [stuffOne] at h ⊢
  split_ifs at h ⊢ <;> simp only [List.prefix_cons_iff, List.prefix_nil] at h <;> aesop

lemma length_le_stuff : data.length ≤ (m.stuff data).length := by
  induction data with
  | nil => simp
  | cons b data ih =>
    have hone : 1 ≤ (m.stuffOne b).length := by
      rw [stuffOne]
      split_ifs <;> simp
    simp only [stuff_cons, List.length_append, List.length_cons]
    omega

lemma length_stuffOne : (m.stuffOne b).length = if b = m.stop ∨ b = m.esc then 2 else 1 := by
  by_cases hstop : b = m.stop
  · simp [hstop]
  · by_cases hesc : b = m.esc
    · simp [hesc]
    · simp [stuffOne_plain hstop hesc, hstop, hesc]

lemma head_stuff (hne : data ≠ []) : (m.stuff data ++ rest).head? ≠ some m.stop := by
  obtain ⟨b, data, rfl⟩ := List.exists_cons_of_ne_nil hne
  rw [stuff_cons]
  by_cases hstop : b = m.stop
  · simp [hstop, m.stop_ne_esc.symm]
  · by_cases hesc : b = m.esc
    · simp [hesc, m.stop_ne_esc.symm]
    · simp [stuffOne_plain hstop hesc, hstop]

/-- Where nothing is escaped, the data are as they were. -/
lemma stuff_eq_self (h : (m.stuff data).length = data.length) : m.stuff data = data := by
  induction data with
  | nil => rfl
  | cons b data ih =>
    have hle : data.length ≤ (m.stuff data).length := length_le_stuff
    rw [stuff_cons, List.length_append, length_stuffOne, List.length_cons] at h
    split_ifs at h with hmark
    · omega
    · rw [not_or] at hmark
      rw [stuff_cons, stuffOne_plain hmark.1 hmark.2, ih (by omega), List.singleton_append]

/-- A part of stuffed data is stuffed data, at most with a lone escape behind it. -/
theorem prefix_stuff (h : part <+: m.stuff data) :
    ∃ d tail, d <+: data ∧ part = m.stuff d ++ tail ∧ (tail = [] ∨ tail = [m.esc]) := by
  induction data generalizing part with
  | nil => exact ⟨[], [], List.prefix_rfl, List.prefix_nil.mp h, .inl rfl⟩
  | cons b data ih =>
    rw [stuff_cons] at h
    obtain hpart | hone := List.prefix_or_prefix_of_prefix h (List.prefix_append _ _)
    · obtain rfl | rfl | rfl := prefix_stuffOne hpart
      · exact ⟨[], [], List.nil_prefix, rfl, .inl rfl⟩
      · exact ⟨[], [m.esc], List.nil_prefix, rfl, .inr rfl⟩
      · exact ⟨[b], [], by simp, by simp, .inl rfl⟩
    · obtain ⟨rest, rfl⟩ := hone
      obtain ⟨d, tail, hd, rfl, htail⟩ := ih ((List.prefix_append_right_inj _).mp h)
      exact ⟨b :: d, tail, (List.prefix_cons_inj b).mpr hd, by simp, htail⟩

lemma stuffOne_not_prefix : ¬ m.stuffOne b ++ rest <+: [m.esc] := by
  rw [stuffOne]
  split_ifs <;> simp_all

/-- From a part of stuffed data come the data that it covers. -/
theorem unstuff_prefix (h : part <+: m.stuff data) :
    ∃ d, m.unstuff part = (d, none) ∧ d <+: data ∧ m.stuff d <+: part ∧
      ∀ e, e <+: data → m.stuff e <+: part → e <+: d := by
  obtain ⟨d, tail, hd, rfl, htail⟩ := prefix_stuff h
  refine ⟨d, ?_, hd, List.prefix_append _ _, fun e he hstuff => ?_⟩
  · obtain rfl | rfl := htail
    · simp
    · simp [unstuff_stuff_append]
  · obtain hle | ⟨_ | ⟨b, more⟩, rfl⟩ := List.prefix_or_prefix_of_prefix he hd
    · exact hle
    · simp
    · -- one more symbol of the data needs more than a lone escape
      rw [stuff_append, stuff_cons, List.prefix_append_right_inj] at hstuff
      obtain rfl | rfl := htail
      · exact absurd (hstuff.trans List.nil_prefix) stuffOne_not_prefix
      · exact absurd hstuff stuffOne_not_prefix

end Marks

end Osc2FtdiDmx.ByteStuffing
