import Osc2FtdiDmx.BytesEndian

/-! Byte-addressed memory as the C code sees it: 64-bit addresses and sizes that
wrap around, loads that fault where nothing is mapped, and the string functions
of the C library that the OSC reader calls on raw pointers. -/
namespace Osc2FtdiDmx.OscMemory
open BytesEndian

/-- Pointers and `size_t` values. -/
abbrev Addr := BitVec 64

/-- Why an access of the C code has no defined value. -/
inductive Fault
  | unmapped (p : Addr)
  | nullArg
  | outOfBounds
  deriving DecidableEq, Repr

abbrev Memory := Addr → Option Byte

def load (m : Memory) (p : Addr) : Except Fault Byte :=
  match m p with
  | some b => .ok b
  | none => .error (.unmapped p)

def loads (m : Memory) (p : Addr) : ℕ → Except Fault (List Byte)
  | 0 => .ok []
  | n + 1 => do
      let b ← load m p
      let bs ← loads m (p + 1) n
      pure (b :: bs)

/-- `strlen` with `n` addresses left below the top of the address space. A string
that runs over the top meets the page at address 0, where nothing is mapped. -/
def strlenFrom (m : Memory) : ℕ → Addr → Except Fault ℕ
  | 0, p => .error (.unmapped p)
  | n + 1, p => do
      let b ← load m p
      if b = 0 then pure 0 else
        let k ← strlenFrom m n (p + 1)
        pure (k + 1)

def strlen (m : Memory) (p : Addr) : Except Fault ℕ := strlenFrom m (2 ^ 64 - p.toNat) p

def strchrFrom (m : Memory) (c : Byte) : ℕ → Addr → Except Fault (Option Addr)
  | 0, p => .error (.unmapped p)
  | n + 1, p => do
      let b ← load m p
      if b = c then pure (some p) else
        if b = 0 then pure none else strchrFrom m c n (p + 1)

def strchr (m : Memory) (p : Addr) (c : Byte) : Except Fault (Option Addr) :=
  strchrFrom m c (2 ^ 64 - p.toNat) p

/-- `strncmp(p, s, n) == 0`, where `s` lists the at most `n` bytes to compare. -/
def strncmpEq (m : Memory) (p : Addr) : List Byte → Except Fault Bool
  | [] => .ok true
  | c :: cs => do
      let b ← load m p
      if b ≠ c then pure false else
        if c = 0 then pure true else strncmpEq m (p + 1) cs

section Except
variable {ε α β : Type}

@[simp] theorem pure_eq_ok (a : α) : (pure a : Except ε α) = .ok a := rfl
@[simp] theorem ok_bind (a : α) (f : α → Except ε β) : ((.ok a : Except ε α) >>= f) = f a := rfl

@[simp] theorem error_bind (e : ε) (f : α → Except ε β) :
    ((.error e : Except ε α) >>= f) = .error e := rfl

theorem bind_eq_ok {x : Except ε α} {f : α → Except ε β} {b : β} :
    (x >>= f) = .ok b ↔ ∃ a, x = .ok a ∧ f a = .ok b := by
  cases x <;> simp

end Except

/-- The bytes `bs` are mapped from `p` on. -/
def Holds (m : Memory) : Addr → List Byte → Prop
  | _, [] => True
  | p, b :: bs => m p = some b ∧ Holds m (p + 1) bs

/-- A memory in which only `bs` is mapped, from `base` on. -/
def image (base : Addr) (bs : List Byte) : Memory := fun p => bs[(p - base).toNat]?

/-- A buffer as the caller hands it over: its bytes are mapped, and it does not
reach into the last 16 bytes of the address space. -/
structure Placed (m : Memory) (p : Addr) (bs : List Byte) : Prop where
  holds : Holds m p bs
  below : p.toNat + bs.length + 16 ≤ 2 ^ 64

theorem add_ofNat_succ (p : Addr) (n : ℕ) :
    p + 1 + BitVec.ofNat 64 n = p + BitVec.ofNat 64 (n + 1) := by
  rw [BitVec.add_assoc, BitVec.add_comm 1, BitVec.ofNat_add]
  rfl

lemma succ_toNat {p : Addr} (h : p.toNat + 1 < 2 ^ 64) : (p + 1).toNat = p.toNat + 1 := by
  rw [BitVec.toNat_add]
  exact Nat.mod_eq_of_lt h

theorem holds_append {m : Memory} {p : Addr} {xs ys : List Byte} :
    Holds m p (xs ++ ys) ↔ Holds m p xs ∧ Holds m (p + BitVec.ofNat 64 xs.length) ys := by
  induction xs generalizing p with
  | nil => simp [Holds]
  | cons x xs ih =>
    simp only [List.cons_append, Holds, ih, add_ofNat_succ, List.length_cons, and_assoc]

private theorem holds_of_get {m : Memory} {bs : List Byte} {p : Addr}
    (h : ∀ i (_ : i < bs.length), m (p + BitVec.ofNat 64 i) = bs[i]?) : Holds m p bs := by
  induction bs generalizing p with
  | nil => trivial
  | cons b bs ih =>
    constructor
    · simpa using h 0 (by simp)
    · apply ih
      intro i hi
      rw [add_ofNat_succ, h (i + 1) (by simpa using hi), List.getElem?_cons_succ]

theorem placed_image {base : Addr} {bs : List Byte} (h : base.toNat + bs.length + 16 ≤ 2 ^ 64) :
    Placed (image base bs) base bs := by
  refine ⟨holds_of_get fun i hi => ?_, h⟩
  rw [image, BitVec.add_comm, BitVec.add_sub_cancel, BitVec.toNat_ofNat, Nat.mod_eq_of_lt (by omega)]

theorem load_holds {m : Memory} {p : Addr} {b : Byte} {bs : List Byte}
    (h : Holds m p (b :: bs)) : load m p = .ok b := by
  simp [load, h.1]

theorem loads_holds {m : Memory} {p : Addr} {xs ys : List Byte} (h : Holds m p (xs ++ ys)) :
    loads m p xs.length = .ok xs := by
  induction xs generalizing p with
  | nil => rfl
  | cons x xs ih =>
    rw [List.cons_append] at h
    simp only [List.length_cons, loads, load_holds h, ih h.2, ok_bind]
    rfl

theorem loads_all {m : Memory} {p : Addr} {bs : List Byte} (h : Holds m p bs) :
    loads m p bs.length = .ok bs := by
  have hnil : Holds m p (bs ++ []) := by rwa [List.append_nil]
  exact loads_holds hnil

private theorem strlenFrom_holds {m : Memory} {s rest : List Byte} (hs : (0 : Byte) ∉ s) {n : ℕ}
    {p : Addr} (h : Holds m p (s ++ 0 :: rest)) (hn : s.length < n) :
    strlenFrom m n p = .ok s.length := by
  induction s generalizing n p with
  | nil =>
    obtain ⟨n, rfl⟩ := Nat.exists_eq_succ_of_ne_zero hn.ne'
    simp only [strlenFrom, load_holds h, ok_bind, if_pos, List.length_nil]
    rfl
  | cons b s ih =>
    obtain ⟨n, rfl⟩ := Nat.exists_eq_succ_of_ne_zero (Nat.ne_zero_of_lt hn)
    obtain ⟨hb, hs'⟩ : (0 : Byte) ≠ b ∧ (0 : Byte) ∉ s := by simpa using hs
    rw [List.cons_append] at h
    have hrec := ih hs' h.2 (Nat.lt_of_succ_lt_succ hn)
    simp only [strlenFrom, load_holds h, ok_bind, if_neg hb.symm, hrec]
    rfl

theorem strlen_holds {m : Memory} {p : Addr} {s rest : List Byte} (hs : (0 : Byte) ∉ s)
    (h : Holds m p (s ++ 0 :: rest)) (hp : p.toNat + s.length < 2 ^ 64) :
    strlen m p = .ok s.length :=
  strlenFrom_holds hs h (by omega)

private theorem strchrFrom_hit {m : Memory} {c : Byte} {s rest : List Byte} (hc : c ∉ s)
    (hs : (0 : Byte) ∉ s) {n : ℕ} {p : Addr} (h : Holds m p (s ++ c :: rest)) (hn : s.length < n) :
    strchrFrom m c n p = .ok (some (p + BitVec.ofNat 64 s.length)) := by
  induction s generalizing n p with
  | nil =>
    obtain ⟨n, rfl⟩ := Nat.exists_eq_succ_of_ne_zero hn.ne'
    simp only [strchrFrom, load_holds h, ok_bind, if_pos, List.length_nil]
    simp [pure, Except.pure]
  | cons b s ih =>
    obtain ⟨n, rfl⟩ := Nat.exists_eq_succ_of_ne_zero (Nat.ne_zero_of_lt hn)
    obtain ⟨hb, hs'⟩ : (0 : Byte) ≠ b ∧ (0 : Byte) ∉ s := by simpa using hs
    obtain ⟨hcb, hc'⟩ : c ≠ b ∧ c ∉ s := by simpa using hc
    rw [List.cons_append] at h
    simp only [strchrFrom, load_holds h, ok_bind, if_neg hcb.symm, if_neg hb.symm]
    rw [ih hc' hs' h.2 (Nat.lt_of_succ_lt_succ hn), add_ofNat_succ, List.length_cons]

theorem strchr_hit {m : Memory} {p : Addr} {c : Byte} {s rest : List Byte} (hc : c ∉ s)
    (hs : (0 : Byte) ∉ s) (h : Holds m p (s ++ c :: rest)) (hp : p.toNat + s.length < 2 ^ 64) :
    strchr m p c = .ok (some (p + BitVec.ofNat 64 s.length)) :=
  strchrFrom_hit hc hs h (by omega)

private theorem strchrFrom_miss {m : Memory} {c : Byte} (h0 : c ≠ 0) {s rest : List Byte}
    (hc : c ∉ s) {n : ℕ} {p : Addr} (h : Holds m p (s ++ 0 :: rest)) (hn : s.length < n) :
    strchrFrom m c n p = .ok none := by
  induction s generalizing n p with
  | nil =>
    obtain ⟨n, rfl⟩ := Nat.exists_eq_succ_of_ne_zero hn.ne'
    simp only [strchrFrom, load_holds h, ok_bind, if_neg h0.symm, if_pos]
    rfl
  | cons b s ih =>
    obtain ⟨n, rfl⟩ := Nat.exists_eq_succ_of_ne_zero (Nat.ne_zero_of_lt hn)
    obtain ⟨hcb, hc'⟩ : c ≠ b ∧ c ∉ s := by simpa using hc
    rw [List.cons_append] at h
    simp only [strchrFrom, load_holds h, ok_bind, if_neg hcb.symm]
    by_cases hb : b = 0
    · simp only [if_pos hb]
      rfl
    · simp only [if_neg hb]
      exact ih hc' h.2 (Nat.lt_of_succ_lt_succ hn)

theorem strchr_miss {m : Memory} {p : Addr} {c : Byte} (h0 : c ≠ 0) {s rest : List Byte}
    (hc : c ∉ s) (h : Holds m p (s ++ 0 :: rest)) (hp : p.toNat + s.length < 2 ^ 64) :
    strchr m p c = .ok none :=
  strchrFrom_miss h0 hc h (by omega)

theorem strncmpEq_holds {m : Memory} {p : Addr} {cs rest : List Byte} (h : Holds m p (cs ++ rest)) :
    strncmpEq m p cs = .ok true := by
  induction cs generalizing p with
  | nil => rfl
  | cons c cs ih =>
    rw [List.cons_append] at h
    simp only [strncmpEq, load_holds h, ok_bind, ne_eq, not_true_eq_false, if_false]
    by_cases hc : c = 0
    · simp only [if_pos hc]
      rfl
    · simp only [if_neg hc]
      exact ih h.2

end Osc2FtdiDmx.OscMemory
