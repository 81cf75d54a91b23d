import Osc2FtdiDmx.PacketFlatten
import Osc2FtdiDmx.ScheduleOrder

/-! The due time that the packet handler stores for a timetag. The fraction of a
second is lost, so only timetags of different seconds keep their order. -/
namespace Osc2FtdiDmx.TimetagDue
open BytesEndian OscMemory OscReader FuelledRuns ReaderSpecs PacketHandler PacketCalls
open PacketFlatten ScheduleOrder

/-- The integral seconds of a timetag, counted from the year 1900. -/
def seconds (t : BitVec 64) : ℕ := (t >>> 32).toNat

/-- The low 32 bits of a timetag. -/
def fraction (t : BitVec 64) : ℕ := t.toNat % 2 ^ 32

/-- The fraction in nanoseconds. -/
def fractionNanos (t : BitVec 64) : ℚ := (fraction t : ℚ) * 10 ^ 9 / 2 ^ 32

/-- The point in time of a timetag, in nanoseconds since the year 1900. -/
def instant (t : BitVec 64) : ℚ := (seconds t : ℚ) * 10 ^ 9 + fractionNanos t

/-- A stored due time that stands for its timetag. -/
structure Faithful (t : BitVec 64) (due : Timespec) : Prop where
  sec : due.tvSec = (seconds t : ℤ) - 2208988800
  nonneg : 0 ≤ due.tvNsec
  below : due.tvNsec < 1000000000
  near : |(due.tvNsec : ℚ) - fractionNanos t| ≤ 1

lemma schedDue_sec {t : BitVec 64} (h : 2208988800 ≤ seconds t) :
    (schedDue t).tvSec = (seconds t : ℤ) - 2208988800 := by
  have hlt : seconds t < 2 ^ 32 := by
    have ht := t.isLt
    rw [seconds, BitVec.toNat_ushiftRight, Nat.shiftRight_eq_div_pow]
    omega
  have hjan : jan1970.toNat = 2208988800 := rfl
  have hsub : ((t >>> 32) - jan1970).toNat = seconds t - 2208988800 := by
    rw [BitVec.toNat_sub, hjan]
    change (2 ^ 64 - 2208988800 + seconds t) % 2 ^ 64 = _
    omega
  simp only [schedDue]
  rw [BitVec.toInt_eq_toNat_of_lt (by omega), hsub]
  omega

lemma faithful_schedDue {t : BitVec 64} (h : 2208988800 ≤ seconds t) :
    Faithful t (schedDue t) ↔ fraction t ≤ 4 := by
  have hscaled : |((schedDue t).tvNsec : ℚ) - fractionNanos t| = fractionNanos t := by
    rw [schedDue_nsec, Int.cast_zero, zero_sub, abs_neg]
    exact abs_of_nonneg (by rw [fractionNanos]; positivity)
  have hnear : fractionNanos t ≤ 1 ↔ fraction t ≤ 4 := by
    rw [fractionNanos, div_le_one (by positivity)]
    have hcast : (fraction t : ℚ) * 10 ^ 9 ≤ 2 ^ 32 ↔ fraction t * 10 ^ 9 ≤ 2 ^ 32 := by
      exact_mod_cast Iff.rfl
    rw [hcast]
    omega
  constructor
  · intro hf
    exact hnear.mp (hscaled ▸ hf.near)
  · intro hf
    have hzero := schedDue_nsec t
    exact ⟨schedDue_sec h, hzero.ge, by omega, by rw [hscaled]; exact hnear.mpr hf⟩

lemma seconds_le_of_instant {t t' : BitVec 64} (h : instant t < instant t') :
    seconds t ≤ seconds t' := by
  have hbound : fractionNanos t' < 10 ^ 9 := by
    have hlt : (fraction t' : ℚ) < 2 ^ 32 := by exact_mod_cast Nat.mod_lt _ (by positivity)
    rw [fractionNanos, div_lt_iff₀ (by positivity)]
    nlinarith
  have hnonneg : 0 ≤ fractionNanos t := by
    rw [fractionNanos]
    positivity
  rw [instant, instant] at h
  have hlt : (seconds t : ℚ) < seconds t' + 1 := by linarith
  exact_mod_cast Nat.lt_succ_iff.mp (by exact_mod_cast hlt)

section Stored
variable {σ : Type} {E : Env σ} {m : Memory} {c c' : Call σ} {e e' : Sched}

/-- The call is for a message, and puts the element `e` on the schedule. -/
def Puts (E : Env σ) (m : Memory) (c : Call σ) (e : Sched) : Prop :=
  readerIsBundle m c.reader = .ok false ∧
    Converges (c.run E m) (.ok { c.app with
      list := schedAppend c.app.list e, fresh := c.app.fresh + 1 })

/-- A well-formed message that waits is put on the schedule if there is memory for it. -/
lemma puts_message {rest : List Byte} {app : App σ} {t : BitVec 64} {a : Addr}
    (h : Placed m a (slash :: rest)) (hsize : (slash :: rest).length < 2 ^ 31)
    (ht : t ≠ oscImmediate)
    (hroom : E.malloc app.fresh (sizeofSched + BitVec.ofNat 64 (slash :: rest).length) = true) :
    Puts E m ⟨app, t, a, BitVec.ofNat 64 (slash :: rest).length⟩
      (schedElement app t (slash :: rest)) := by
  have hbundle := isBundle_message (over_readerInit h)
  refine ⟨hbundle, 1, ?_, ok_ne_starve _⟩
  have hhandle := handles_handleSpot E m app t a rest h hsize
  rw [handleSpot, if_neg ht, Spot.len, if_pos hroom] at hhandle
  rw [run_message hbundle]
  exact congrArg lift hhandle

lemma schedAppend_inj {list : List Sched} (h : schedAppend list e = schedAppend list e') :
    e = e' := by
  have hperm : (e :: list).Perm (e' :: list) :=
    (schedAppend_perm list e).symm.trans (h ▸ schedAppend_perm list e')
  have hcons : e ::ₘ (list : Multiset Sched) = e' ::ₘ (list : Multiset Sched) :=
    Multiset.coe_eq_coe.mpr hperm
  exact (Multiset.cons_inj_left _).mp hcons

lemma Puts.due (h : Puts E m c e) : e.due = schedDue c.timetag := by
  obtain ⟨hbundle, n, hrun, -⟩ := h
  cases n with
  | zero => cases hrun
  | succ n =>
    rw [run_message hbundle, lift_eq_ok, handleMessage] at hrun
    obtain ⟨isMessage, -, hrun⟩ := bind_eq_ok.mp hrun
    -- only the branch that asks for memory counts up
    have hcount : c.app.fresh ≠ c.app.fresh + 1 := (Nat.succ_ne_self _).symm
    cases isMessage with
    | false => exact (hcount (congrArg App.fresh (Except.ok.inj hrun))).elim
    | true =>
      rw [if_pos rfl] at hrun
      by_cases ht : c.timetag = oscImmediate
      · rw [if_pos ht] at hrun
        obtain ⟨state, -, hrun⟩ := bind_eq_ok.mp hrun
        exact (hcount (congrArg App.fresh (Except.ok.inj hrun))).elim
      · rw [if_neg ht, schedMessage] at hrun
        by_cases hroom : E.malloc c.app.fresh (sizeofSched + c.len) = true
        · rw [if_pos hroom] at hrun
          obtain ⟨bytes, -, hrun⟩ := bind_eq_ok.mp hrun
          have hlist := congrArg App.list (Except.ok.inj hrun)
          rw [← schedAppend_inj hlist]
        · rw [if_neg hroom] at hrun
          have hlen := congrArg (List.length ∘ App.list) (Except.ok.inj hrun)
          simp [(schedAppend_perm c.app.list e).length_eq] at hlen

end Stored

/-- The stored due time stands for its timetag exactly when the fraction is at most 4,
and two stored due times are in the order of their timetags exactly when these differ
in their seconds. -/
theorem stored_due_iff {σ : Type} (E : Env σ) (m m' : Memory) (c c' : Call σ) (e e' : Sched)
    (hc : Puts E m c e) (hc' : Puts E m' c' e')
    (hs : 2208988800 ≤ seconds c.timetag) (hs' : 2208988800 ≤ seconds c'.timetag) :
    (Faithful c.timetag e.due ↔ fraction c.timetag ≤ 4) ∧
      (instant c.timetag + 2 < instant c'.timetag →
        (stamp e < stamp e' ↔ seconds c.timetag ≠ seconds c'.timetag)) := by
  refine ⟨by rw [hc.due, faithful_schedDue hs], fun happart => ?_⟩
  have hle : seconds c.timetag ≤ seconds c'.timetag := seconds_le_of_instant (by linarith)
  rw [stamp_lt, hc.due, hc'.due, schedDue_sec hs, schedDue_sec hs', schedDue_nsec, schedDue_nsec]
  omega

section Examples

def freeEnv : Env Unit := ⟨fun _ _ _ _ => .ok (), fun _ _ => true⟩

/-- The message `/a` with the given timetag. -/
def messageCall (t : BitVec 64) : Call Unit := ⟨⟨(), [], 0⟩, t, 0x10000, 2⟩

def messageSched (t : BitVec 64) : Sched := ⟨0, schedDue t, 2, [slash, 0x61]⟩

lemma messageCall_puts {t : BitVec 64} (ht : t ≠ oscImmediate) :
    Puts freeEnv (image 0x10000 [slash, 0x61]) (messageCall t) (messageSched t) :=
  puts_message (placed_image (by decide)) (by decide) ht rfl

def wholeSecond : BitVec 64 := 2208988801 <<< 32

def halfSecond : BitVec 64 := wholeSecond + 2 ^ 31

theorem stored_due_iff_wholeSecond :
    Faithful wholeSecond (messageSched wholeSecond).due ∧
      ¬ stamp (messageSched wholeSecond) < stamp (messageSched halfSecond) := by
  have hlaw := stored_due_iff freeEnv (image 0x10000 [slash, 0x61]) (image 0x10000 [slash, 0x61])
    (messageCall wholeSecond) (messageCall halfSecond) (messageSched wholeSecond)
    (messageSched halfSecond) (messageCall_puts (by decide)) (messageCall_puts (by decide))
    (by decide) (by decide)
  refine ⟨hlaw.1.mpr (by decide), fun hlt => ?_⟩
  have happart : instant wholeSecond + 2 < instant halfSecond := by
    have hwhole : seconds wholeSecond = 2208988801 ∧ fraction wholeSecond = 0 := by decide
    have hhalf : seconds halfSecond = 2208988801 ∧ fraction halfSecond = 2 ^ 31 := by decide
    rw [instant, instant, fractionNanos, fractionNanos, hwhole.1, hwhole.2, hhalf.1, hhalf.2]
    norm_num
  exact (hlaw.2 happart).mp hlt (by decide)

/-- Half a second is stored as no time at all. -/
theorem halfSecond_not_faithful :
    ¬ ∀ (E : Env Unit) (m : Memory) (c : Call Unit) (e : Sched), Puts E m c e →
      2208988800 ≤ seconds c.timetag → Faithful c.timetag e.due := by
  intro h
  have hfaith := h freeEnv (image 0x10000 [slash, 0x61]) (messageCall halfSecond)
    (messageSched halfSecond) (messageCall_puts (by decide)) (by decide)
  have hfour := (faithful_schedDue (t := halfSecond) (by decide)).mp hfaith
  exact absurd hfour (by decide)

end Examples

end Osc2FtdiDmx.TimetagDue
