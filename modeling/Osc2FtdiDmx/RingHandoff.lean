import Osc2FtdiDmx.RingRuns

/-! The hand-off of packets between the threads: in every interleaving whose packets are
no larger than what was requested for them, the receive ring is an exact FIFO. -/
namespace Osc2FtdiDmx.RingHandoff
open BytesEndian CircularBuffer VarchunkRing VarchunkThreads TransitionRuns RingInvariant
open RingConsumer RingRuns

variable {s s' : Machine}

/-- Only the stores of the producer change the buffer. -/
lemma buf_unchanged {a : Act} (hstep : act s a = some s') {x : ℕ} (hx : storesTo s a ≠ some x) :
    s'.buf x = s.buf x := by
  cases a
  case request minimum => rcases act_request hstep with ⟨_, -, rfl⟩ | rfl <;> rfl
  case store i b =>
    obtain ⟨minimum, tail, grant, hp, rfl⟩ := act_store hstep
    simp only [storesTo, hp, ne_eq, Option.some.injEq] at hx
    exact Function.update_of_ne (Ne.symm hx) _ _
  case commit written =>
    obtain ⟨_, _, _, -, -, rfl⟩ := act_commit hstep
    rfl
  case putByte =>
    obtain ⟨store, stores, newHead, entry, hp, rfl⟩ := act_putByte hstep
    simp only [storesTo, hp, ne_eq, Option.some.injEq] at hx
    exact Function.update_of_ne (Ne.symm hx) _ _
  case publish =>
    obtain ⟨_, _, -, rfl⟩ := act_publish hstep
    rfl
  all_goals exact congrFun (act_reader hstep trivial).buf x

/-- What was obtained is a front part of what was committed. -/
lemma obtained_front (h : Sound s) : s.obtained <+: s.committed := by
  obtain ⟨t, h⟩ := h
  have hconsumer := h.consumer
  cases hc : s.consumer <;> simp only [ConsumerAt, hc] at hconsumer
  case idle =>
    rw [hconsumer]
    exact List.take_prefix _ _
  all_goals
    rw [hconsumer.1]
    exact List.take_prefix _ _

lemma seen_empty_iff (h : Sound s) (hstep : act s .readRequest = some s') :
    s'.consumer = .idle ↔ s.released = s.committed.length := by
  obtain ⟨t, h⟩ := h
  have hlen := h.length
  have hempty : s.released = s.committed.length ↔ s.queue = [] := by
    rw [← hlen, ← List.length_eq_zero_iff]
    omega
  have hspace := readSpace_pos h
  rw [hempty]
  obtain ⟨hc, ⟨hpos, rfl⟩ | ⟨hpos, -, rfl⟩ | ⟨hpos, -, rfl⟩⟩ := act_readRequest hstep
  · rw [hspace, not_not] at hpos
    simp [hc, hpos]
  · simp [hspace.mp hpos]
  · simp [hspace.mp hpos]

/-- In every interleaving the packets obtained are a prefix of the packets committed, no
byte between tail and head is overwritten, and the ring looks empty to the reader
exactly when every committed packet has been released. -/
theorem handoff_fifo (buf : ℕ → Byte) (s : Machine)
    (hrun : RunsTo (Steps act) AsRequested (start buf) s) :
    s.obtained <+: s.committed ∧
      (∀ a s' x, AsRequested s a → act s a = some s' → InUse s.head s.tail x →
        storesTo s a ≠ some x ∧ s'.buf x = s.buf x) ∧
      ∀ s', act s .readRequest = some s' →
        (s'.consumer = .idle ↔ s.released = s.committed.length) := by
  obtain ⟨hsound, hasked⟩ := asked_run hrun
  refine ⟨obtained_front hsound, fun a s' x hok hstep huse => ?_, fun s' hstep => ?_⟩
  · have hfree : storesTo s a ≠ some x := fun hx =>
      (storesTo_free hsound (fits_of_asked hasked hok) hx).2 huse
    exact ⟨hfree, buf_unchanged hstep hfree⟩
  · exact seen_empty_iff hsound hstep

/-- The reader takes the bytes of its chunk one after the other. -/
lemma readBytes_run {s₀ : Machine} {off : Size} {size : BitVec 32} {n : ℕ}
    (hrun : RunsTo (Steps act) AsRequested s₀ s) (hc : s.consumer = .reading off size [])
    (hn : n ≤ size.toNat) : RunsTo (Steps act) AsRequested s₀
      { s with consumer := .reading off size (readRun s.buf (off.toNat + 8) n) } := by
  induction n with
  | zero =>
    obtain ⟨buf, head, tail, producer, consumer, queue, committed, obtained, released⟩ := s
    cases hc
    exact hrun
  | succ n ih =>
    refine (ih (by omega)).snoc (l := .readByte) trivial ?_
    simp only [Steps, act, readRun_length, if_pos (show n < size.toNat by omega),
      readRun_add _ _ n 1]
    rfl

/-- A packet of 4104 bytes goes halfway round the ring, up to the bytes of its chunk. -/
def bigPacket : List Act := List.flatten
  [[.request 4104, .commit 4104], .replicate 8 .putByte, [.publish, .readRequest, .readSize]]

/-- A packet of two bytes for which the rest of the buffer is a gap. -/
def behindGap : List Act := List.flatten
  [[.readDone, .readAdvance, .release, .request 4072, .store 0 0x2f, .store 1 0x61, .commit 2],
    .replicate 16 .putByte,
    [.publish, .readRequest, .checkGap, .skipGap, .readSize, .readByte, .readByte, .readDone]]

def bigPacketRead : Machine :=
  (follow act AsRequested (start fun _ => 0) bigPacket).getD (start fun _ => 0)

lemma bigPacketRead_run : RunsTo (Steps act) AsRequested (start fun _ => 0) bigPacketRead := by
  have hsome : (follow act AsRequested (start fun _ => 0) bigPacket).isSome := by decide +kernel
  obtain ⟨s, hs⟩ := Option.isSome_iff_exists.mp hsome
  rw [bigPacketRead, hs, Option.getD_some]
  exact runsTo_follow act AsRequested RunsTo.refl hs

lemma bigPacketRead_consumer : bigPacketRead.consumer = .reading 0 4104 [] := rfl

/-- A big packet and a small one behind a gap. -/
theorem handoff_fifo_gap : ∃ s, RunsTo (Steps act) AsRequested (start fun _ => 0) s ∧
    s.obtained.map List.length = [4104, 2] ∧ s.obtained.getLast? = some [0x2f, 0x61] ∧
    s.tail = 0 ∧ s.obtained <+: s.committed := by
  have hrun := readBytes_run bigPacketRead_run bigPacketRead_consumer (n := 4104) (by decide)
  have hseen : (follow act AsRequested { bigPacketRead with
      consumer := .reading 0 4104 (readRun bigPacketRead.buf 8 4104) } behindGap).map
      (fun s => (s.obtained.map List.length, s.obtained.getLast?, s.tail)) =
      some ([4104, 2], some [0x2f, 0x61], 0) := by decide +kernel
  obtain ⟨s, hs, hlist⟩ := Option.map_eq_some_iff.mp hseen
  have hrun' := runsTo_follow act AsRequested hrun hs
  obtain ⟨hlengths, hlast, htail⟩ : s.obtained.map List.length = [4104, 2] ∧
      s.obtained.getLast? = some [0x2f, 0x61] ∧ s.tail = 0 := by simpa using hlist
  exact ⟨s, hrun', hlengths, hlast, htail, (handoff_fifo (fun _ => 0) s hrun').1⟩

end Osc2FtdiDmx.RingHandoff
