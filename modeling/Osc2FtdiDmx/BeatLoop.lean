import Osc2FtdiDmx.PacketFlatten
import Osc2FtdiDmx.TransitionRuns

/-! The part of `_beat` that works on the schedule: packets that were read from the
ring are handled one by one, and each beat drains the elements that are due. -/
namespace Osc2FtdiDmx.BeatLoop
open OscMemory OscReader FuelledRuns PacketHandler PacketFlatten TransitionRuns

/-- The environment of `_beat` with the heap: the block of an element holds the bytes
that were copied into it. -/
structure Host (σ : Type) extends Env σ where
  heap : Sched → Memory
  addr : Sched → Addr
  placed : ∀ elmnt, elmnt.buf.length < 2 ^ 31 → Placed (heap elmnt) (addr elmnt) elmnt.buf

/-- The variable `diff` in seconds, in exact arithmetic; `now` is the variable `to`. -/
def drainDiff (now : Timespec) (elmnt : Sched) : ℚ :=
  ((now.tvSec - elmnt.due.tvSec : ℤ) : ℚ) + ((now.tvNsec - elmnt.due.tvNsec : ℤ) : ℚ) / 1000000000

lemma drainDiff_neg (now : Timespec) (elmnt : Sched) :
    drainDiff now elmnt < 0 ↔ now.nanos < elmnt.due.nanos := by
  have hnanos : drainDiff now elmnt * 1000000000 =
      ((now.nanos - elmnt.due.nanos : ℤ) : ℚ) := by
    rw [drainDiff, Timespec.nanos, Timespec.nanos]
    push_cast
    ring
  rw [← sub_neg (a := now.nanos), ← Int.cast_lt_zero (R := ℚ), ← hnanos]
  constructor <;> intro h <;> linarith

/-- `elmnt->next` in the list as it is now. -/
def schedNext (elmnt : Sched) (list : List Sched) : List Sched :=
  (list.dropWhile (·.id ≠ elmnt.id)).tail

section Drain
variable {σ : Type} (H : Host σ)

/-- The loop over `app->list` in `_beat`; `ran` records the elements it executed. -/
def drainLoop (now : Timespec) : ℕ → App σ → List Sched → Fuelled Fault (App σ × List Sched)
  | 0, _, _ => starve
  | fuel + 1, app, ran =>
      match app.list with
      | [] => pure (app, ran)
      | elmnt :: _ =>
          if drainDiff now elmnt < 0 then pure (app, ran) else do
            let app ← handleOscPacket H.toEnv (H.heap elmnt) fuel app oscImmediate
              (H.addr elmnt) elmnt.len
            drainLoop now fuel { app with list := schedNext elmnt app.list } (ran ++ [elmnt])

theorem drainLoop_chain (now : Timespec) (app : App σ) (ran : List Sched) :
    Chain fun fuel => drainLoop H now fuel app ran := by
  intro fuel
  induction fuel generalizing app ran with
  | zero => exact Or.inl rfl
  | succ fuel ih =>
    change Approx (drainLoop H now (fuel + 1) app ran) (drainLoop H now (fuel + 1 + 1) app ran)
    rw [drainLoop, drainLoop]
    cases app.list with
    | nil => exact Approx.refl _
    | cons elmnt list =>
      by_cases hdue : drainDiff now elmnt < 0
      · simp only [if_pos hdue]
        exact Approx.refl _
      · simp only [if_neg hdue]
        exact (handleOscPacket_chain _ _ _ _ _ _ fuel).bind fun app => ih _ _

/-- What happens in a beat: a packet read from the ring is handled, or the schedule is
drained at the nominal time `now`. -/
inductive BeatEvent
  | packet (p : Packet) (m : Memory) (a : Addr)
  | drain (now : Timespec) (ran : List Sched)

def beatStep (app : App σ) : BeatEvent → App σ → Prop
  | .packet p m a, app' => Placed m a p.encode ∧ p.encode.length < 2 ^ 31 ∧
      Converges (fun fuel => handleOscPacket H.toEnv m fuel app oscImmediate a
        (BitVec.ofNat 64 p.encode.length)) (.ok app')
  | .drain now ran, app' => Converges (fun fuel => drainLoop H now fuel app []) (.ok (app', ran))

end Drain

end Osc2FtdiDmx.BeatLoop
