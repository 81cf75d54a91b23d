import Osc2FtdiDmx.OscTree

/-! The frame rate from the command line. `main` takes the argument of the last option `-F`
through `strtol` into a `uint32_t` and does not look at it. -/
namespace Osc2FtdiDmx.FrameRate
open BytesEndian OscTree

/-- `isspace` in the C locale: the space, and tab to carriage return. -/
def isSpace (c : Byte) : Bool := c = 0x20 || (9 ≤ c.toNat && c.toNat ≤ 13)

def isDigit (c : Byte) : Bool := 0x30 ≤ c.toNat && c.toNat ≤ 0x39

def minus : Byte := 0x2d
def plus : Byte := 0x2b

def foldDigits (n : ℕ) (c : Byte) : ℕ := 10 * n + (c.toNat - 0x30)

/-- The number that the digits in front spell; no digit spells zero. -/
def leadingNumber (s : List Byte) : ℕ := (s.takeWhile isDigit).foldl foldDigits 0

/-- `LONG_MAX`. -/
def longMax : ℤ := 2 ^ 63 - 1

/-- `strtol(s, NULL, 10)`: blanks, a sign, digits; a number out of range becomes the nearest
`long`. -/
def strtol (s : List Byte) : ℤ :=
  let s := s.dropWhile isSpace
  if s.head? = some minus then max (-leadingNumber s.tail) (-longMax - 1)
  else if s.head? = some plus then min (leadingNumber s.tail) longMax
  else min (leadingNumber s) longMax

example : strtol [0x20, minus, 0x31, 0x32, 0x78] = -12 := by decide

example : strtol [0x61, 0x62, 0x63] = 0 := by decide

/-- What `getopt` returns, with `optarg` where the option has one. -/
inductive Opt
  | v | h | d | A
  | V (optarg : List Byte) | P (optarg : List Byte) | D (optarg : List Byte)
  | S (optarg : List Byte) | F (optarg : List Byte) | U (optarg : List Byte)
  | I (optarg : List Byte) | O (optarg : List Byte)
  | unknown
  deriving DecidableEq, Repr

/-- `app.fps = strtol(optarg, NULL, 10)`. -/
def setFps (optarg : List Byte) : BitVec 32 := BitVec.ofInt 32 (strtol optarg)

/-- The loop body of `main` on `app.fps`; `none` is a return from `main`. -/
def handleOpt (fps : BitVec 32) : Opt → Option (BitVec 32)
  | .v | .h | .unknown => none
  | .F optarg => some (setFps optarg)
  | .d | .A | .V _ | .P _ | .D _ | .S _ | .U _ | .I _ | .O _ => some fps

/-- `app.fps` when `main` goes on to `_loop`. -/
def mainFps (opts : List Opt) : Option (BitVec 32) := opts.foldlM handleOpt 30

section Last
variable {fps fps' : BitVec 32} {opts pre post : List Opt} {optarg : List Byte}

lemma handleOpt_keep {opt : Opt} (hopt : ∀ s, opt ≠ .F s) (h : handleOpt fps opt = some fps') :
    fps' = fps := by
  cases opt with
  | v | h | unknown => cases h
  | F s => exact absurd rfl (hopt s)
  | d | A | V | P | D | S | U | I | O =>
    cases h
    rfl

lemma options_keep (hopts : ∀ s, Opt.F s ∉ opts)
    (h : opts.foldlM handleOpt fps = some fps') : fps' = fps := by
  induction opts generalizing fps with
  | nil =>
    cases h
    rfl
  | cons opt opts ih =>
    rw [List.foldlM_cons] at h
    obtain ⟨fps₁, hopt, hrest⟩ := Option.bind_eq_some_iff.mp h
    have hfirst : fps₁ = fps := by
      apply handleOpt_keep _ hopt
      rintro s rfl
      exact hopts s (List.mem_cons_self ..)
    rw [hfirst] at hrest
    exact ih (fun s hs => hopts s (List.mem_cons_of_mem opt hs)) hrest

/-- The last rate that is given is the one that counts, whatever it is. -/
theorem mainFps_last (hlast : ∀ s, Opt.F s ∉ post)
    (h : mainFps (pre ++ .F optarg :: post) = some fps) : fps = setFps optarg := by
  rw [mainFps, List.foldlM_append] at h
  obtain ⟨fps₁, -, hrest⟩ := Option.bind_eq_some_iff.mp h
  rw [List.foldlM_cons] at hrest
  obtain ⟨fps₂, hset, hrest⟩ := Option.bind_eq_some_iff.mp hrest
  cases hset
  exact options_keep hlast hrest

theorem mainFps_default (hnone : ∀ s, Opt.F s ∉ opts) (h : mainFps opts = some fps) : fps = 30 :=
  options_keep hnone h

end Last

section Decimal

lemma leadingNumber_digits {ds : List Byte} (h : ∀ c ∈ ds, isDigit c = true) :
    leadingNumber ds = ds.foldl foldDigits 0 := by
  rw [leadingNumber, List.takeWhile_eq_self_iff.mpr h]

lemma decimal_lt {n : ℕ} (h : n < 10) : decimal n = [BitVec.ofNat 8 (0x30 + n)] := by
  rw [decimal, Nat.toDigits_of_lt_base h]
  interval_cases n <;> rfl

lemma decimal_append {n d : ℕ} (hn : 0 < n) (hd : d < 10) :
    decimal (10 * n + d) = decimal n ++ [BitVec.ofNat 8 (0x30 + d)] := by
  rw [← decimal_lt hd, decimal, decimal, decimal, ← Nat.toDigits_append_toDigits (by decide) hn hd,
    List.map_append]

lemma isDigit_digit {d : ℕ} (hd : d < 10) : isDigit (BitVec.ofNat 8 (0x30 + d)) = true := by
  interval_cases d <;> rfl

lemma foldDigits_digit (n : ℕ) {d : ℕ} (hd : d < 10) :
    foldDigits n (BitVec.ofNat 8 (0x30 + d)) = 10 * n + d := by
  rw [foldDigits, BitVec.toNat_ofNat]
  omega

lemma decimal_digits (n : ℕ) :
    (∀ c ∈ decimal n, isDigit c = true) ∧ (decimal n).foldl foldDigits 0 = n := by
  induction n using Nat.strong_induction_on with
  | h n ih =>
    by_cases hn : n < 10
    · rw [decimal_lt hn]
      simp [isDigit_digit hn, foldDigits_digit 0 hn]
    · have hd : n % 10 < 10 := by omega
      obtain ⟨hdigits, hfold⟩ := ih (n / 10) (by omega)
      have hdecimal : decimal n = decimal (n / 10) ++ [BitVec.ofNat 8 (0x30 + n % 10)] := by
        rw [← decimal_append (by omega) hd, Nat.div_add_mod]
      rw [hdecimal]
      constructor
      · intro c hc
        rcases List.mem_append.mp hc with hc | hc
        · exact hdigits c hc
        · rw [List.mem_singleton.mp hc]
          exact isDigit_digit hd
      · rw [List.foldl_append, hfold, List.foldl_cons, List.foldl_nil, foldDigits_digit _ hd,
          Nat.div_add_mod]

lemma digit_plain {c : Byte} (h : isDigit c = true) : isSpace c = false ∧ c ≠ minus ∧ c ≠ plus := by
  revert c
  decide +kernel

/-- `strtol` reads back what is written in decimal digits. -/
theorem strtol_decimal (n : ℕ) : strtol (decimal n) = min (n : ℤ) longMax := by
  obtain ⟨hdigits, hfold⟩ := decimal_digits n
  have hnumber : leadingNumber (decimal n) = n := (leadingNumber_digits hdigits).trans hfold
  have hplain (c : Byte) (hc : c ∈ decimal n) : isSpace c = false ∧ c ≠ minus ∧ c ≠ plus :=
    digit_plain (hdigits c hc)
  have hspace : (decimal n).dropWhile isSpace = decimal n := by
    rw [List.dropWhile_eq_self_iff]
    intro hlen
    simp [(hplain _ (List.getElem_mem hlen)).1]
  have hminus : (decimal n).head? ≠ some minus :=
    fun h => (hplain _ (List.mem_of_mem_head? h)).2.1 rfl
  have hplus : (decimal n).head? ≠ some plus :=
    fun h => (hplain _ (List.mem_of_mem_head? h)).2.2 rfl
  simp only [strtol, hspace, if_neg hminus, if_neg hplus, hnumber]

/-- Every number that `uint32_t` can hold is the rate of some argument. -/
theorem setFps_decimal {n : ℕ} (h : n < 2 ^ 32) : setFps (decimal n) = BitVec.ofNat 32 n := by
  have hmin : strtol (decimal n) = n := by
    rw [strtol_decimal, longMax]
    omega
  rw [setFps, hmin, BitVec.ofInt_natCast]

end Decimal

end Osc2FtdiDmx.FrameRate
