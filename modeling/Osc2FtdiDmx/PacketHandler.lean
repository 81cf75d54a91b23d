import Osc2FtdiDmx.OscReader
import Osc2FtdiDmx.FuelledRuns

/-! The packet handler of main.c: dispatch of bundles and messages, the recursion
into bundle items, and the schedule of timed messages. The message handler and
the allocator are parameters; a budget bounds the recursion and the item loop. -/
namespace Osc2FtdiDmx.PacketHandler
open BytesEndian OscMemory OscReader FuelledRuns

structure Timespec where
  tvSec : ℤ
  tvNsec : ℤ
  deriving DecidableEq, Repr

def Timespec.nanos (t : Timespec) : ℤ := t.tvSec * 1000000000 + t.tvNsec

/-- `sched_t`: `due` is its field `to`, `next` its position in the list. The `id`
tells blocks of equal contents apart. -/
structure Sched where
  id : ℕ
  due : Timespec
  len : Addr
  buf : List Byte
  deriving DecidableEq, Repr

/-- The parts of `app_t` a packet can change; `fresh` counts the calls of `malloc`. -/
structure App (σ : Type) where
  state : σ
  list : List Sched
  fresh : ℕ

/-- `malloc` tells which call for how many bytes gets a block. -/
structure Env (σ : Type) where
  message : Memory → Reader → Addr → σ → Except Fault σ
  malloc : ℕ → Addr → Bool

/-- `LV2_OSC_IMMEDIATE`. -/
def oscImmediate : BitVec 64 := 1

/-- `JAN_1970`. -/
def jan1970 : BitVec 64 := 2208988800

/-- `sizeof(sched_t)`: a pointer, two `long`s and a `size_t`. -/
def sizeofSched : Addr := 32

/-- The due time stored for a timetag. The seconds wrap around in `uint64_t` before
they become a signed `time_t`; the nanoseconds are computed from the truth value
of `timetag && 32`. -/
def schedDue (timetag : BitVec 64) : Timespec :=
  ⟨((timetag >>> 32) - jan1970).toInt,
    ((if timetag ≠ 0 ∧ (32 : BitVec 64) ≠ 0 then 1 else 0) * 1000000000 / 2 ^ 32 : ℕ)⟩

/-- One truth value, scaled, is less than a nanosecond. -/
lemma schedDue_nsec (timetag : BitVec 64) : (schedDue timetag).tvNsec = 0 := by
  rw [schedDue]
  split_ifs <;> norm_num

/-- The loop condition that ends the search for an insertion point. -/
def schedAfter (ptr elmnt : Sched) : Prop :=
  ptr.due.tvSec > elmnt.due.tvSec ∧ ptr.due.tvNsec > elmnt.due.tvNsec

instance (ptr elmnt : Sched) : Decidable (schedAfter ptr elmnt) :=
  inferInstanceAs (Decidable (_ ∧ _))

def schedAppend : List Sched → Sched → List Sched
  | [], elmnt => [elmnt]
  | ptr :: list, elmnt =>
      if schedAfter ptr elmnt then elmnt :: ptr :: list else ptr :: schedAppend list elmnt

section Handler
variable {σ : Type} (E : Env σ) (m : Memory)

/-- `memcpy(elmnt->buf, buf, len)` into a block of `sizeof(sched_t) + len` bytes. -/
def copyMessage (buf len : Addr) : Except Fault (List Byte) :=
  if (sizeofSched + len).toNat = sizeofSched.toNat + len.toNat then loads m buf len.toNat
  else .error .outOfBounds

/-- The branch of `_handle_osc_packet` for a message with a timetag to wait for. -/
def schedMessage (app : App σ) (timetag : BitVec 64) (buf len : Addr) : Except Fault (App σ) :=
  if E.malloc app.fresh (sizeofSched + len) then do
    let bytes ← copyMessage m buf len
    let elmnt : Sched := ⟨app.fresh, schedDue timetag, len, bytes⟩
    pure { app with list := schedAppend app.list elmnt, fresh := app.fresh + 1 }
  else pure { app with fresh := app.fresh + 1 }

/-- The branch of `_handle_osc_packet` for everything that is not a bundle. -/
def handleMessage (app : App σ) (timetag : BitVec 64) (reader : Reader) (buf len : Addr) :
    Except Fault (App σ) := do
  if ← readerIsMessage m reader then
    if timetag = oscImmediate then
      let state ← E.message m reader len app.state
      pure { app with state }
    else schedMessage E m app timetag buf len
  else pure app

/-- The loop of `OSC_READER_BUNDLE_FOREACH` in `_handle_osc_bundle`. -/
def bundleLoop (packet : App σ → BitVec 64 → Addr → Addr → Fuelled Fault (App σ)) :
    ℕ → App σ → Reader → Item → Fuelled Fault (App σ)
  | 0, _, _, _ => starve
  | fuel + 1, app, r, itm =>
      if readerItemIsEnd r itm then pure app else do
        let app ← packet app itm.timetag itm.body itm.extent
        let (next, r) ← readerItemNext itm m r
        match next with
        | none => pure app
        | some itm => bundleLoop packet fuel app r itm

def handleOscBundle (packet : App σ → BitVec 64 → Addr → Addr → Fuelled Fault (App σ))
    (fuel : ℕ) (app : App σ) (r : Reader) (len : Addr) : Fuelled Fault (App σ) := do
  let (first, r) ← readerBundleBegin len m r
  match first with
  | none => pure app
  | some itm => bundleLoop m packet fuel app r itm

def handleOscPacket : ℕ → App σ → BitVec 64 → Addr → Addr → Fuelled Fault (App σ)
  | 0, _, _, _, _ => starve
  | fuel + 1, app, timetag, buf, len => do
      let reader := readerInitialize buf len
      if ← readerIsBundle m reader then
        handleOscBundle m (handleOscPacket fuel) fuel app reader len
      else
        handleMessage E m app timetag reader buf len

theorem bundleLoop_approx {packet packet' : App σ → BitVec 64 → Addr → Addr → Fuelled Fault (App σ)}
    (hp : ∀ app timetag buf len, Approx (packet app timetag buf len) (packet' app timetag buf len))
    (fuel : ℕ) (app : App σ) (r : Reader) (itm : Item) :
    Approx (bundleLoop m packet fuel app r itm) (bundleLoop m packet' (fuel + 1) app r itm) := by
  induction fuel generalizing app r itm with
  | zero => exact Or.inl rfl
  | succ fuel ih =>
    rw [bundleLoop, bundleLoop]
    by_cases hend : readerItemIsEnd r itm
    · rw [if_pos hend, if_pos hend]
      exact Approx.refl _
    · rw [if_neg hend, if_neg hend]
      refine (hp _ _ _ _).bind fun app => (Approx.refl _).bind fun next => ?_
      rcases next with ⟨_ | itm, r⟩
      · exact Approx.refl _
      · exact ih app r itm

/-- More fuel does not change a packet that was handled. -/
theorem handleOscPacket_chain (app : App σ) (timetag : BitVec 64) (buf len : Addr) :
    Chain fun fuel => handleOscPacket E m fuel app timetag buf len := by
  intro fuel
  induction fuel generalizing app timetag buf len with
  | zero => exact Or.inl rfl
  | succ fuel ih =>
    change Approx (handleOscPacket E m (fuel + 1) app timetag buf len)
      (handleOscPacket E m (fuel + 1 + 1) app timetag buf len)
    rw [handleOscPacket, handleOscPacket]
    refine (Approx.refl _).bind fun bundle => ?_
    cases bundle with
    | false => exact Approx.refl _
    | true =>
      refine (Approx.refl _).bind fun first => ?_
      rcases first with ⟨_ | itm, r⟩
      · exact Approx.refl _
      · exact bundleLoop_approx m ih fuel app r itm

end Handler

end Osc2FtdiDmx.PacketHandler
