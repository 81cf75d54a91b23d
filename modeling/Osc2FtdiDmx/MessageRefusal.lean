import Osc2FtdiDmx.OscTree
import Osc2FtdiDmx.BeatLoop

/-! Messages whose header or first argument cannot be parsed. The message handler
parses them twice and checks only one of the two results, so it never drops them. -/
namespace Osc2FtdiDmx.MessageRefusal
open BytesEndian OscMemory OscReader ReaderSpecs FuelledRuns SlotStore OscTree PacketHandler
open PacketCalls BeatLoop

variable (pm : List Byte → List Byte → Bool)

/-- The packet handler with the message handler of the program. -/
def oscEnv (malloc : ℕ → Addr → Bool) : Env State := ⟨handleOscMessage pm, malloc⟩

/-- `OSC_READER_MESSAGE_BEGIN` yields NULL. -/
def Refused (m : Memory) (reader : Reader) (len : Addr) : Prop :=
  ∃ r, readerMessageBegin len m reader = .ok (none, r)

/-- The handler returns and leaves the slots as they were. -/
def Dropped (m : Memory) (reader : Reader) (len : Addr) (state : State) : Prop :=
  ∃ state', handleOscMessage pm m reader len state = .ok state' ∧ state'.slots = state.slots

variable {pm}

/-- The second parse yields NULL again, and `lv2_osc_reader_match` dereferences it. -/
lemma refused_faults {m : Memory} {reader : Reader} {len : Addr} (state : State)
    (h : Refused m reader len) : handleOscMessage pm m reader len state = .error .nullArg := by
  obtain ⟨r, h⟩ := h
  simp only [handleOscMessage, h, ok_bind, readerMatch]

lemma call_faults {malloc : ℕ → Addr → Bool} {m : Memory} {c : Call State}
    (hslash : load m c.buf = .ok slash) (h : Refused m c.reader c.len)
    (hnow : c.timetag = oscImmediate) (n : ℕ) :
    c.run (oscEnv pm malloc) m (n + 1) = .error (some .nullArg) := by
  have hload : load m c.reader.ptr = .ok slash := hslash
  have hmsg : (oscEnv pm malloc).message m c.reader c.len c.app.state = .error .nullArg :=
    refused_faults c.app.state h
  rw [run_message (isBundle_slash hload), handleMessage, isMessage_slash hload, ok_bind, if_pos rfl,
    if_pos hnow, hmsg]
  rfl

lemma drain_faults {H : Host State} {malloc : ℕ → Addr → Bool} (hH : H.toEnv = oscEnv pm malloc)
    {app : App State} {elmnt : Sched} {list : List Sched} (hlist : app.list = elmnt :: list)
    (hslash : load (H.heap elmnt) (H.addr elmnt) = .ok slash)
    (h : Refused (H.heap elmnt) (readerInitialize (H.addr elmnt) elmnt.len) elmnt.len)
    {now : Timespec} (hdue : ¬ drainDiff now elmnt < 0) :
    Converges (fun fuel => drainLoop H now fuel app []) (.error (some .nullArg)) := by
  have hcall : handleOscPacket H.toEnv (H.heap elmnt) 1 app oscImmediate (H.addr elmnt)
      elmnt.len = .error (some .nullArg) := by
    rw [hH]
    exact call_faults (c := ⟨app, oscImmediate, H.addr elmnt, elmnt.len⟩) hslash h rfl 0
  refine ⟨2, ?_, fault_ne_starve _⟩
  simp only [drainLoop, hlist, if_neg hdue]
  rw [hcall]
  rfl

/-- No refused message is dropped: not by the message handler, not in a packet that it
is a part of at any depth, and not when it comes from the schedule. -/
theorem refused_never_dropped (pm : List Byte → List Byte → Bool) (malloc : ℕ → Addr → Bool)
    (m : Memory) (c : Call State) (hslash : load m c.buf = .ok slash)
    (h : Refused m c.reader c.len) :
    ¬ Dropped pm m c.reader c.len c.app.state ∧
      (c.timetag = oscImmediate → ∀ root, Calls (oscEnv pm malloc) m root c →
        ∀ app', ¬ Converges (root.run (oscEnv pm malloc) m) (.ok app')) ∧
      ∀ (H : Host State) (elmnt : Sched) (list : List Sched) (now : Timespec),
        H.toEnv = oscEnv pm malloc → c.app.list = elmnt :: list → H.heap elmnt = m →
        H.addr elmnt = c.buf → elmnt.len = c.len → ¬ drainDiff now elmnt < 0 →
        ∀ app' ran, ¬ Converges (fun fuel => drainLoop H now fuel c.app []) (.ok (app', ran)) := by
  refine ⟨?_, fun hnow root hcalls app' hok => ?_, ?_⟩
  · rintro ⟨state', hok, -⟩
    rw [refused_faults _ h] at hok
    cases hok
  · have hfault := calls_fault hcalls ⟨1, call_faults hslash h hnow 0, fault_ne_starve _⟩
    cases hok.unique (run_chain root) hfault
  · rintro H elmnt list now hH hlist rfl haddr hlen hdue app' ran hok
    rw [← haddr] at hslash
    have hbegin : Refused (H.heap elmnt) (readerInitialize (H.addr elmnt) elmnt.len) elmnt.len := by
      rw [haddr, hlen]
      exact h
    have hfault := drain_faults hH hlist hslash hbegin hdue
    cases hok.unique (drainLoop_chain H now c.app []) hfault

/-- The path `/a` and a type string without its comma. -/
def noComma : List Byte := [slash, 0x61, 0x00, 0x00, 0x78, 0x69, 0x00, 0x00]

def zeroState : State := ⟨0, 0, false, ⟨0, 0, 0⟩, none, Slots.zero⟩

def noCommaCall : Call State := ⟨⟨zeroState, [], 0⟩, oscImmediate, 0x10000, 8⟩

lemma noComma_refused : Refused (image 0x10000 noComma) noCommaCall.reader noCommaCall.len :=
  ⟨⟨0x10000, 0x10008, 0x10008⟩, by decide +kernel⟩

theorem noComma_never_dropped :
    ¬ Dropped (fun _ _ => true) (image 0x10000 noComma) noCommaCall.reader noCommaCall.len
      zeroState :=
  (refused_never_dropped (fun _ _ => true) (fun _ _ => true) (image 0x10000 noComma) noCommaCall
    (by decide +kernel) noComma_refused).1

theorem refused_not_all_dropped :
    ¬ ∀ (pm : List Byte → List Byte → Bool) (m : Memory) (reader : Reader) (len : Addr)
      (state : State), load m reader.ptr = .ok slash → Refused m reader len →
      Dropped pm m reader len state := by
  intro h
  obtain ⟨state', hok, -⟩ := h (fun _ _ => true) (image 0x10000 noComma) noCommaCall.reader
    noCommaCall.len zeroState (by decide +kernel) noComma_refused
  rw [refused_faults _ noComma_refused] at hok
  cases hok

end Osc2FtdiDmx.MessageRefusal
