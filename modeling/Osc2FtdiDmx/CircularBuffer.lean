import Mathlib

/-! Circular buffers seen through positions that count on without bound: the cell of a
position is its residue, and positions less than one buffer length apart have
different cells. -/
namespace Osc2FtdiDmx.CircularBuffer

variable {α : Type} {N : ℕ} {buf buf' : ℕ → α}

def cellAt (N : ℕ) (buf : ℕ → α) (v : ℕ) : α := buf (v % N)

theorem mod_ne_mod {v w : ℕ} (h : v < w) (hw : w < v + N) : v % N ≠ w % N := by
  intro heq
  have hdvd : N ∣ w - v := (Nat.modEq_iff_dvd' h.le).mp heq
  have hle : N ≤ w - v := Nat.le_of_dvd (Nat.sub_pos_of_lt h) hdvd
  omega

theorem mod_add_of_lt {v i : ℕ} (h : v % N + i < N) : (v + i) % N = v % N + i := by
  rw [← Nat.mod_add_mod, Nat.mod_eq_of_lt h]

/-- The `n` cells from `v` on. -/
def readRun (buf : ℕ → α) (v n : ℕ) : List α := (List.range n).map fun i => buf (v + i)

@[simp] theorem readRun_length (buf : ℕ → α) (v n : ℕ) : (readRun buf v n).length = n := by
  simp [readRun]

theorem readRun_congr {v n : ℕ} (h : ∀ i < n, buf (v + i) = buf' (v + i)) :
    readRun buf v n = readRun buf' v n := by
  simp only [readRun]
  exact List.map_congr_left fun i hi => h i (List.mem_range.mp hi)

theorem readRun_add (buf : ℕ → α) (v n k : ℕ) :
    readRun buf v (n + k) = readRun buf v n ++ readRun buf (v + n) k := by
  simp only [readRun, List.range_add, List.map_append, List.map_map, Function.comp_def, Nat.add_assoc]

def applyStores (buf : ℕ → α) : List (ℕ × α) → ℕ → α
  | [] => buf
  | s :: stores => applyStores (Function.update buf s.1 s.2) stores

theorem applyStores_append (buf : ℕ → α) (xs ys : List (ℕ × α)) :
    applyStores buf (xs ++ ys) = applyStores (applyStores buf xs) ys := by
  induction xs generalizing buf with
  | nil => rfl
  | cons s xs ih => exact ih _

theorem applyStores_of_ne {stores : List (ℕ × α)} {x : ℕ} (h : ∀ s ∈ stores, s.1 ≠ x) :
    applyStores buf stores x = buf x := by
  induction stores generalizing buf with
  | nil => rfl
  | cons s stores ih =>
    rw [applyStores, ih fun s' hs' => h s' (by simp [hs'])]
    exact Function.update_of_ne (h s (by simp)).symm _ _

/-- The stores that put `bs` at `off`, first byte first. -/
def putRun (off : ℕ) : List α → List (ℕ × α)
  | [] => []
  | b :: bs => (off, b) :: putRun (off + 1) bs

theorem mem_putRun {off : ℕ} {bs : List α} {s : ℕ × α} (h : s ∈ putRun off bs) :
    off ≤ s.1 ∧ s.1 < off + bs.length := by
  induction bs generalizing off with
  | nil => simp [putRun] at h
  | cons b bs ih =>
    rw [putRun, List.mem_cons] at h
    rw [List.length_cons]
    rcases h with rfl | h
    · exact ⟨le_rfl, by simp⟩
    · obtain ⟨hle, hlt⟩ := ih h
      omega

theorem applyStores_putRun (buf : ℕ → α) (off : ℕ) (bs : List α) :
    readRun (applyStores buf (putRun off bs)) off bs.length = bs := by
  induction bs generalizing buf off with
  | nil => rfl
  | cons b bs ih =>
    have hhead : applyStores (Function.update buf off b) (putRun (off + 1) bs) off = b := by
      rw [applyStores_of_ne fun s hs => by have := (mem_putRun hs).1; omega]
      exact Function.update_self _ _ _
    rw [List.length_cons, Nat.add_comm, readRun_add, putRun, applyStores, ih]
    simp [readRun, hhead]

/-- A store at a position of the other part of the buffer leaves the cell as it was. -/
theorem cellAt_update {v w : ℕ} (h : v < w) (hw : w < v + N) (b : α) :
    cellAt N (Function.update buf (w % N) b) v = cellAt N buf v :=
  Function.update_of_ne (mod_ne_mod h hw) _ _

end Osc2FtdiDmx.CircularBuffer
