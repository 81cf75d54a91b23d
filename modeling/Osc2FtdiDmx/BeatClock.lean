import Osc2FtdiDmx.BeatLoop
import Osc2FtdiDmx.FrameRate

/-! The clock of `_beat`: the step between two beats from the frame rate, and the carry of the
nanoseconds into the seconds. The variable `to` is `now`; its fields are `long`s, kept as
integers. -/
namespace Osc2FtdiDmx.BeatClock
open BytesEndian OscMemory PacketHandler BeatLoop OscTree FrameRate

inductive ClockFault
  | divisionByZero
  | signedOverflow
  deriving DecidableEq, Repr

/-- `NSECS`. -/
def nsecs : ℤ := 1000000000

/-- `const uint64_t step_ns = NSECS / app->fps`, a division of `unsigned int`s. -/
def stepNs (fps : BitVec 32) : Except ClockFault (BitVec 64) :=
  if fps = 0 then .error .divisionByZero else .ok ((1000000000#32 / fps).setWidth 64)

/-- The carry loop at the end of a beat. -/
def carry (now : Timespec) : Except ClockFault Timespec :=
  if nsecs ≤ now.tvNsec then
    if now.tvSec + 1 < 2 ^ 63 then carry ⟨now.tvSec + 1, now.tvNsec - nsecs⟩
    else .error .signedOverflow
  else .ok now
termination_by now.tvNsec.toNat
decreasing_by
  simp only [nsecs] at *
  omega

/-- The next beat timestamp. The sum is one of `uint64_t`, converted back to `long`. -/
def nextBeat (step : BitVec 64) (now : Timespec) : Except ClockFault Timespec :=
  carry { now with tvNsec := (BitVec.ofInt 64 now.tvNsec + step).toInt }

/-- `to` after a number of beats that began at `start`. -/
def beats (step : BitVec 64) (start : Timespec) : ℕ → Except ClockFault Timespec
  | 0 => .ok start
  | k + 1 => do
      let now ← beats step start k
      nextBeat step now

/-- A time as `clock_gettime` gives it. -/
structure Normalised (now : Timespec) : Prop where
  nonneg : 0 ≤ now.tvNsec
  small : now.tvNsec < nsecs
  long : -2 ^ 63 ≤ now.tvSec ∧ now.tvSec < 2 ^ 63

section Carry
variable {now : Timespec} {step : BitVec 64}

/-- The loop adds the whole seconds and leaves the rest, as long as `time_t` holds them. -/
lemma carry_ok (hnonneg : 0 ≤ now.tvNsec) (hfit : now.tvSec + now.tvNsec / nsecs < 2 ^ 63) :
    carry now = .ok ⟨now.tvSec + now.tvNsec / nsecs, now.tvNsec % nsecs⟩ := by
  induction now using carry.induct with
  | case1 now hmore hsec ih =>
    rw [carry, if_pos hmore, if_pos hsec]
    simp only [nsecs] at *
    rw [ih (by omega) (by omega)]
    simp only [Except.ok.injEq, Timespec.mk.injEq]
    omega
  | case2 now hmore hsec =>
    simp only [nsecs] at *
    omega
  | case3 now hdone =>
    rw [carry, if_neg hdone]
    simp only [nsecs] at *
    have hdiv : now.tvNsec / 1000000000 = 0 := by omega
    have hmod : now.tvNsec % 1000000000 = now.tvNsec := by omega
    rw [hdiv, hmod, add_zero]

lemma Normalised.nanos_lt (h : Normalised now) : now.nanos < 2 ^ 63 * nsecs := by
  obtain ⟨-, hsmall, -, hlong⟩ := h
  simp only [Timespec.nanos, nsecs] at *
  omega

/-- One beat later by exactly the step. -/
lemma nextBeat_ok (h : Normalised now) (hstep : step.toNat ≤ 1000000000)
    (hfit : now.nanos + step.toNat < 2 ^ 63 * nsecs) :
    ∃ next, nextBeat step now = .ok next ∧ Normalised next ∧
      next.nanos = now.nanos + step.toNat := by
  obtain ⟨hnonneg, hsmall, hlow, hhigh⟩ := h
  have hsum : (BitVec.ofInt 64 now.tvNsec + step).toInt = now.tvNsec + step.toNat := by
    rw [BitVec.toInt_eq_toNat_cond, BitVec.toNat_add, BitVec.toNat_ofInt]
    simp only [nsecs] at hsmall
    split_ifs <;> omega
  simp only [Timespec.nanos, nsecs] at hfit
  rw [nextBeat, hsum, carry_ok (by simp only; omega) (by simp only [nsecs]; omega)]
  refine ⟨_, rfl, ⟨?_, ?_, ?_⟩, ?_⟩
  all_goals
    simp only [Timespec.nanos, nsecs]
    omega

lemma beats_ok {k : ℕ} {start : Timespec} (h : Normalised start)
    (hstep : step.toNat ≤ 1000000000) (hfit : start.nanos + k * step.toNat < 2 ^ 63 * nsecs) :
    ∃ now, beats step start k = .ok now ∧ Normalised now ∧
      now.nanos = start.nanos + k * step.toNat := by
  induction k with
  | zero => exact ⟨start, rfl, h, by simp⟩
  | succ k ih =>
    push_cast at hfit ⊢
    rw [add_mul, one_mul] at hfit ⊢
    obtain ⟨now, hnow, hnormal, hnanos⟩ := ih (by omega)
    obtain ⟨next, hnext, hnormal', hnanos'⟩ := nextBeat_ok hnormal hstep (by omega)
    exact ⟨next, by rw [beats, hnow, ok_bind, hnext], hnormal', by omega⟩

end Carry

/-- The clock is well defined up to the beat `k`, and advances. -/
structure Advances (fps : BitVec 32) (start : Timespec) (k : ℕ) (step : BitVec 64) : Prop where
  defined : stepNs fps = .ok step
  positive : 1 ≤ step.toNat
  after : ∀ i ≤ k, ∃ now, beats step start i = .ok now ∧ Normalised now ∧
    now.nanos = start.nanos + i * step.toNat
  increasing : ∀ i j, i < j → j ≤ k → ∀ now later, beats step start i = .ok now →
    beats step start j = .ok later → now.nanos < later.nanos
  due : ∀ (elmnt : Sched) (timetag : BitVec 64), elmnt.due = schedDue timetag →
    ∃ n now, beats step start n = .ok now ∧ ¬ drainDiff now elmnt < 0

section Rates
variable {fps : BitVec 32} {start : Timespec} {k : ℕ} {step : BitVec 64}

lemma stepNs_some (h : stepNs fps = .ok step) :
    1 ≤ fps.toNat ∧ step.toNat = 1000000000 / fps.toNat := by
  rw [stepNs] at h
  split_ifs at h with hzero
  cases h
  have hpos : fps.toNat ≠ 0 := fun hnat => hzero (BitVec.eq_of_toNat_eq hnat)
  refine ⟨by omega, ?_⟩
  rw [BitVec.toNat_setWidth, BitVec.toNat_udiv]
  exact Nat.mod_eq_of_lt ((Nat.div_le_self _ _).trans_lt (by decide))

lemma stepNs_defined (h : 1 ≤ fps.toNat) : ∃ step, stepNs fps = .ok step := by
  rw [stepNs, if_neg]
  · exact ⟨_, rfl⟩
  · rintro rfl
    exact absurd h (by decide)

/-- A time tag is due long before the seconds run out. -/
lemma schedDue_nanos (timetag : BitVec 64) : (schedDue timetag).nanos < 2 ^ 33 * nsecs := by
  have hsec : (schedDue timetag).tvSec < 2 ^ 33 := by
    have hlt := timetag.isLt
    have hjan : jan1970.toNat = 2208988800 := rfl
    rw [schedDue, BitVec.toInt_eq_toNat_cond, BitVec.toNat_sub, BitVec.toNat_ushiftRight,
      Nat.shiftRight_eq_div_pow, hjan]
    dsimp only
    split_ifs <;> omega
  rw [Timespec.nanos, schedDue_nsec, nsecs]
  omega

/-- With a step of at least a nanosecond every such time comes. -/
lemma beats_due (h : Normalised start) (hpos : 1 ≤ step.toNat) (hstep : step.toNat ≤ 1000000000)
    {due : ℤ} (hdue : due < 2 ^ 33 * nsecs) :
    ∃ n now, beats step start n = .ok now ∧ due ≤ now.nanos := by
  by_cases hpast : due ≤ start.nanos
  · exact ⟨0, start, rfl, hpast⟩
  · have hdiv := Nat.div_add_mod' (due - start.nanos).toNat step.toNat
    have hmod := Nat.mod_lt (due - start.nanos).toNat hpos
    have hnext := Nat.succ_mul ((due - start.nanos).toNat / step.toNat) step.toNat
    obtain ⟨now, hnow, -, hnanos⟩ := beats_ok
      (k := (due - start.nanos).toNat / step.toNat + 1) h hstep (by
        rw [nsecs] at *
        rw [← Nat.cast_mul, hnext]
        omega)
    refine ⟨_, now, hnow, ?_⟩
    rw [hnanos, ← Nat.cast_mul, hnext]
    omega

theorem advances_iff (h : Normalised start) :
    (∃ step, Advances fps start k step) ↔ 1 ≤ fps.toNat ∧ fps.toNat ≤ 1000000000 ∧
      start.nanos + k * (1000000000 / fps.toNat : ℕ) < 2 ^ 63 * nsecs := by
  constructor
  · rintro ⟨step, hadv⟩
    obtain ⟨hpos, hstep⟩ := stepNs_some hadv.defined
    have hone := hadv.positive
    obtain ⟨now, -, hnormal, hnanos⟩ := hadv.after k le_rfl
    have hlt := hnormal.nanos_lt
    rw [hnanos, hstep] at hlt
    rw [hstep] at hone
    exact ⟨hpos, (Nat.div_pos_iff.mp hone).2, hlt⟩
  · rintro ⟨hpos, hle, hfit⟩
    obtain ⟨step, hdefined⟩ := stepNs_defined hpos
    obtain ⟨-, hstep⟩ := stepNs_some hdefined
    rw [← hstep] at hfit
    have hone : 1 ≤ step.toNat := by
      rw [hstep]
      exact Nat.div_pos hle hpos
    have hmost : step.toNat ≤ 1000000000 := by
      rw [hstep]
      exact Nat.div_le_self _ _
    have hafter (i : ℕ) (hi : i ≤ k) : ∃ now, beats step start i = .ok now ∧ Normalised now ∧
        now.nanos = start.nanos + i * step.toNat := by
      have hmul := Nat.mul_le_mul_right step.toNat hi
      exact beats_ok h hmost (by omega)
    refine ⟨step, hdefined, hone, hafter, ?_, ?_⟩
    · intro i j hij hj now later hnow hlater
      obtain ⟨now', hnow', -, hnanos⟩ := hafter i (by omega)
      obtain ⟨later', hlater', -, hnanos'⟩ := hafter j hj
      cases hnow.symm.trans hnow'
      cases hlater.symm.trans hlater'
      have hmul := Nat.mul_lt_mul_of_pos_right hij hone
      omega
    · intro elmnt timetag helmnt
      obtain ⟨n, now, hnow, hle⟩ := beats_due h hone hmost (schedDue_nanos timetag)
      refine ⟨n, now, hnow, ?_⟩
      rw [drainDiff_neg, helmnt]
      exact not_lt.mpr hle

/-- The clock is well defined and advances exactly for the arguments that `strtol` and the
conversion to `uint32_t` make a rate from one to `NSECS`, up to the end of `time_t`. -/
theorem rate_advances_iff (pre post : List Opt) (optarg : List Byte) (fps : BitVec 32)
    (hlast : ∀ s, Opt.F s ∉ post) (hgo : mainFps (pre ++ .F optarg :: post) = some fps)
    (start : Timespec) (hstart : Normalised start) (k : ℕ) :
    (∃ step, Advances fps start k step) ↔
      1 ≤ strtol optarg % 2 ^ 32 ∧ strtol optarg % 2 ^ 32 ≤ nsecs ∧
        start.nanos + k * (nsecs / (strtol optarg % 2 ^ 32)) < 2 ^ 63 * nsecs := by
  have hrate : (fps.toNat : ℤ) = strtol optarg % 2 ^ 32 := by
    rw [mainFps_last hlast hgo, setFps, BitVec.toNat_ofInt]
    exact Int.toNat_of_nonneg (by omega)
  rw [advances_iff hstart, ← hrate, nsecs]
  push_cast
  omega

theorem thirty_advances : ∃ step, Advances 30 ⟨1700000000, 999999999⟩ 45 step :=
  (rate_advances_iff [] [] [0x33, 0x30] 30 (by simp) (by decide) ⟨1700000000, 999999999⟩
    ⟨by decide, by decide, by decide⟩ 45).mpr (by decide)

/-- The argument `0` ends in a division by zero. -/
theorem zero_not_advances :
    ¬ ∀ (pre post : List Opt) (optarg : List Byte) (fps : BitVec 32),
      (∀ s, Opt.F s ∉ post) → mainFps (pre ++ .F optarg :: post) = some fps →
      ∀ start : Timespec, Normalised start → ∀ k, ∃ step, Advances fps start k step := by
  intro h
  have hstart : Normalised ⟨0, 0⟩ := ⟨by decide, by decide, by decide⟩
  obtain ⟨step, hadv⟩ := h [] [] [0x30] 0 (by simp) (by decide) ⟨0, 0⟩ hstart 0
  have hzero : stepNs 0 = .error .divisionByZero := rfl
  cases hzero.symm.trans hadv.defined

/-- The rate that the user asked for: thirty frames a second without `-F`, else the number of
the last `-F` in decimal digits. A rate of up to `NSECS` makes a clock that advances. -/
theorem rate_asked (opts : List Opt) (fps : BitVec 32) (hgo : mainFps opts = some fps) :
    ((∀ s, Opt.F s ∉ opts) → fps = 30) ∧
      ∀ pre post n, opts = pre ++ .F (decimal n) :: post → (∀ s, Opt.F s ∉ post) → n < 2 ^ 32 →
        fps.toNat = n ∧ ∀ start : Timespec, Normalised start → ∀ k : ℕ,
          ((∃ step, Advances fps start k step) ↔ 1 ≤ n ∧ n ≤ 1000000000 ∧
            start.nanos + k * (1000000000 / n : ℕ) < 2 ^ 63 * nsecs) := by
  constructor
  · intro hnone
    exact mainFps_default hnone hgo
  · intro pre post n hopts hlast hn
    have hset : fps = BitVec.ofNat 32 n := by
      rw [hopts] at hgo
      rw [mainFps_last hlast hgo, setFps_decimal hn]
    have hrate : fps.toNat = n := by
      rw [hset, BitVec.toNat_ofNat, Nat.mod_eq_of_lt hn]
    refine ⟨hrate, fun start hstart k => ?_⟩
    rw [advances_iff hstart, hrate]

/-- `-d -F 50 -F 25 -A`: twenty-five frames, and an hour of them. -/
theorem rate_asked_twentyFive :
    ∃ step, Advances 25 ⟨1700000000, 999999999⟩ 90000 step := by
  have hasked := (rate_asked [.d, .F [0x35, 0x30], .F [0x32, 0x35], .A] 25 (by decide)).2
    [.d, .F [0x35, 0x30]] [.A] 25 rfl (by simp) (by decide)
  exact (hasked.2 ⟨1700000000, 999999999⟩ ⟨by decide, by decide, by decide⟩ 90000).mpr (by decide)

end Rates

end Osc2FtdiDmx.BeatClock
