import Osc2FtdiDmx.PrefixReceive
import Osc2FtdiDmx.SlipEncode
import Osc2FtdiDmx.SlipReceive

/-! The sending loops of `_lv2_osc_stream_run_tcp` and `_lv2_osc_stream_run_ser`. -/
namespace Osc2FtdiDmx.StreamSend
open BytesEndian ByteStuffing SlipDecode SlipEncode TransitionRuns
open SlipReceive (Port rxSize)
open PrefixReceive (encodePrefixed)

/-- `sizeof(stream->tx_buf)`. -/
def txSize : ℕ := 0x4000

/-- The field `slip` of the stream. -/
inductive Framing
  | slip
  | sized
  deriving DecidableEq, Repr

def Framing.encode : Framing → List Byte → List Byte
  | .slip => slipEncode
  | .sized => encodePrefixed

/-- What `send` or `write` returns: a number of bytes, -1 with `EAGAIN`, or another error. -/
inductive Send
  | bytes (n : ℕ)
  | again
  | failed
  deriving DecidableEq, Repr

/-- `queue` is what `read_req` offers, chunk by chunk, and `mem` is the memory from `tx_buf`
on; `overrun` tells that a store went behind the buffer. -/
structure Sender where
  queue : List (List Byte)
  mem : List Byte
  overrun : Bool
  isOpen : Bool
  deriving DecidableEq, Repr

/-- The packet in `tx_buf`, and the new value of `tosend`. -/
def frame (framing : Framing) (mem packet : List Byte) : List Byte × ℕ :=
  match framing with
  | .slip =>
      if packet.length ≤ txSize then slipEncodeInline (overlay packet mem) packet.length
      else (mem, 0)
  | .sized =>
      if packet.length + 4 ≤ txSize then
        (overlay (bytesBE 4 packet.length ++ packet) mem, packet.length + 4)
      else (mem, 0)

/-- One pass of the loop, and the bytes that it puts on the wire. A frame that was not sent
as a whole stays in the queue. -/
def sendPass (framing : Framing) (port : Port) (s : Sender) (r : Send) :
    Option (Sender × List Byte) :=
  match s.queue with
  | [] => none
  | packet :: queue =>
      if s.isOpen then
        let (mem, tosend) := frame framing s.mem packet
        let s := { s with mem, overrun := s.overrun || decide (txSize < tosend) }
        if tosend = 0 then some ({ s with queue }, [])
        else
          match r with
          | .bytes n =>
              if n = tosend then some ({ s with queue }, mem.take n)
              else if n < tosend then some (s, mem.take n)
              else none
          | .again => some (s, [])
          | .failed => some ({ s with isOpen := decide (port = .serial) }, [])
      else none

/-- The packets for which something is sent. -/
def Framing.Sends : Framing → List Byte → Prop
  | .slip, packet => packet ≠ [] ∧ packet.length ≤ txSize
  | .sized, packet => packet.length + 4 ≤ txSize

instance (framing : Framing) (packet : List Byte) : Decidable (framing.Sends packet) :=
  match framing with
  | .slip => inferInstanceAs (Decidable (_ ∧ _))
  | .sized => inferInstanceAs (Decidable (_ ≤ _))

/-- The packets that may be offered: with escapes they still fit into the buffer, and the
length that is sent ahead is not zero. -/
def Framing.Sound : Framing → List Byte → Prop
  | .slip, packet => packet.length ≤ txSize → (slipEncode packet).length ≤ txSize
  | .sized, packet => packet ≠ []

instance (framing : Framing) (packet : List Byte) : Decidable (framing.Sound packet) :=
  match framing with
  | .slip => inferInstanceAs (Decidable (_ → _))
  | .sized => inferInstanceAs (Decidable (_ ≠ _))

section Frame
variable {framing : Framing} {mem packet : List Byte}

/-- Nothing is made of a packet that is not sent. -/
lemma frame_dropped (h : ¬ framing.Sends packet) : frame framing mem packet = (mem, 0) := by
  cases framing with
  | slip =>
    by_cases hlen : packet.length ≤ txSize
    · have hnil : packet = [] := by simpa [Framing.Sends, hlen] using h
      simp [frame, hnil, slipEncodeInline]
    · simp [frame, hlen]
  | sized => simp [frame, show ¬ packet.length + 4 ≤ txSize from h]

lemma overlay_length {data : List Byte} (h : data.length ≤ mem.length) :
    (overlay data mem).length = mem.length := by
  rw [overlay, List.length_append, List.length_drop]
  omega

/-- In the buffer there is the frame of the packet, and nothing else has changed. -/
lemma frame_sent (h : framing.Sends packet) (hsound : framing.Sound packet)
    (hmem : txSize ≤ mem.length) :
    frame framing mem packet =
        (overlay (framing.encode packet) mem, (framing.encode packet).length) ∧
      (framing.encode packet).length ≤ txSize := by
  cases framing with
  | slip =>
    obtain ⟨hne, hlen⟩ := h
    have hfits : (slipEncode packet).length ≤ txSize := hsound hlen
    have hlt := SlipReceive.length_lt_encode packet
    set room := (mem.drop packet.length).take ((slipEncode packet).length - packet.length)
    have hlay : overlay packet mem = packet ++ (room ++ mem.drop (slipEncode packet).length) := by
      rw [overlay, ← List.take_append_drop ((slipEncode packet).length - packet.length)
        (mem.drop packet.length), List.drop_drop, Nat.add_sub_cancel' hlt.le]
    have hroom : packet.length + room.length = (slipEncode packet).length := by
      rw [List.length_take, List.length_drop]
      omega
    refine ⟨?_, hfits⟩
    rw [frame, if_pos hlen, hlay, slipEncodeInline_eq _ hne hroom]
    rfl
  | sized =>
    have hlen : packet.length + 4 ≤ txSize := h
    have hsize : (encodePrefixed packet).length = packet.length + 4 := by
      rw [encodePrefixed, List.length_append, bytesBE_length, Nat.add_comm]
    refine ⟨?_, by rw [Framing.encode, hsize]; exact hlen⟩
    rw [frame, if_pos hlen, Framing.encode, hsize]
    rfl

lemma encode_pos (h : framing.Sends packet) : 0 < (framing.encode packet).length := by
  cases framing with
  | slip => simp [Framing.encode, slipEncode]
  | sized => simp [Framing.encode, encodePrefixed]

end Frame

section Pass
variable {framing : Framing} {port : Port} {s t : Sender} {r : Send} {bytes packet : List Byte}
  {queue : List (List Byte)}

/-- A frame that is sent only in part. -/
def CutShort (framing : Framing) (s : Sender) (r : Send) : Prop :=
  ∃ packet queue n, s.queue = packet :: queue ∧ framing.Sends packet ∧ r = .bytes n ∧
    0 < n ∧ n < (framing.encode packet).length

lemma cutShort_iff (hqueue : s.queue = packet :: queue) :
    CutShort framing s r ↔ framing.Sends packet ∧
      ∃ n, r = .bytes n ∧ 0 < n ∧ n < (framing.encode packet).length := by
  constructor
  · rintro ⟨packet', queue', n, hqueue', hsends, hr, hn⟩
    rw [hqueue] at hqueue'
    cases hqueue'
    exact ⟨hsends, n, hr, hn⟩
  · rintro ⟨hsends, n, hr, hn⟩
    exact ⟨packet, queue, n, hqueue, hsends, hr, hn⟩

instance (framing : Framing) (s : Sender) (r : Send) : Decidable (CutShort framing s r) :=
  match hqueue : s.queue, r with
  | [], _ => isFalse fun ⟨_, _, _, h, _⟩ => by simp [hqueue] at h
  | packet :: _, .bytes n =>
      decidable_of_iff (framing.Sends packet ∧ 0 < n ∧ n < (framing.encode packet).length) <| by
        rw [cutShort_iff hqueue]
        simp
  | _ :: _, .again | _ :: _, .failed => isFalse fun ⟨_, _, _, _, _, h, _⟩ => by cases h

/-- What a pass does that is not cut short: the packet is passed over, it is sent, or
everything stays. -/
structure Passed (framing : Framing) (s t : Sender) (bytes packet : List Byte)
    (queue : List (List Byte)) : Prop where
  outcome : ¬ framing.Sends packet ∧ t.queue = queue ∧ bytes = [] ∨
    framing.Sends packet ∧ t.queue = queue ∧ bytes = framing.encode packet ∨
    t.queue = s.queue ∧ bytes = []

/-- The ways that a pass can go. -/
lemma sendPass_cases (hsound : ∀ p ∈ s.queue, framing.Sound p) (hmem : txSize ≤ s.mem.length)
    (hstep : sendPass framing port s r = some (t, bytes)) :
    ∃ packet queue, s.queue = packet :: queue ∧ t.overrun = s.overrun ∧
      t.mem.length = s.mem.length ∧
      (¬ CutShort framing s r ∧ Passed framing s t bytes packet queue ∨
        CutShort framing s r ∧ t.queue = s.queue ∧ bytes ≠ []) := by
  cases hqueue : s.queue with
  | nil => simp [sendPass, hqueue] at hstep
  | cons packet queue =>
    refine ⟨packet, queue, rfl, ?_⟩
    rw [cutShort_iff hqueue]
    simp only [sendPass, hqueue, Option.ite_none_right_eq_some] at hstep
    obtain ⟨-, hstep⟩ := hstep
    by_cases hsends : framing.Sends packet
    · have hpos := encode_pos hsends
      obtain ⟨hframe, hfits⟩ :=
        frame_sent hsends (hsound packet (by simp [hqueue])) hmem
      have hlen := overlay_length (hfits.trans hmem)
      have htake : (overlay (framing.encode packet) s.mem).take (framing.encode packet).length =
          framing.encode packet := take_overlay _ _
      simp only [hframe, if_neg hpos.ne', decide_eq_false (not_lt.mpr hfits), Bool.or_false]
        at hstep
      cases r with
      | bytes n =>
        by_cases hwhole : n = (framing.encode packet).length
        · simp only [hwhole, if_true, htake, Option.some.injEq, Prod.mk.injEq] at hstep
          obtain ⟨rfl, rfl⟩ := hstep
          refine ⟨rfl, hlen, .inl ⟨?_, ⟨.inr (.inl ⟨hsends, rfl, rfl⟩)⟩⟩⟩
          rintro ⟨-, k, hk, -, hlt⟩
          cases hk
          omega
        · simp only [if_neg hwhole, Option.ite_none_right_eq_some, Option.some.injEq,
            Prod.mk.injEq] at hstep
          obtain ⟨hlt, rfl, rfl⟩ := hstep
          refine ⟨rfl, hlen, ?_⟩
          obtain rfl | hn := Nat.eq_zero_or_pos n
          · refine .inl ⟨?_, ⟨.inr (.inr ⟨hqueue.symm, rfl⟩)⟩⟩
            rintro ⟨-, k, hk, hzero, -⟩
            cases hk
            omega
          · refine .inr ⟨⟨hsends, n, rfl, hn, hlt⟩, rfl, ?_⟩
            apply List.ne_nil_of_length_pos
            rw [List.length_take, hlen]
            omega
      | again | failed =>
        simp only [Option.some.injEq, Prod.mk.injEq] at hstep
        obtain ⟨rfl, rfl⟩ := hstep
        refine ⟨rfl, hlen, .inl ⟨?_, ⟨.inr (.inr ⟨hqueue.symm, rfl⟩)⟩⟩⟩
        rintro ⟨-, k, hk, -⟩
        cases hk
    · simp only [frame_dropped hsends, if_true, Option.some.injEq, Prod.mk.injEq] at hstep
      obtain ⟨rfl, rfl⟩ := hstep
      exact ⟨by simp, rfl, .inl ⟨fun h => hsends h.1, ⟨.inl ⟨hsends, rfl, rfl⟩⟩⟩⟩

end Pass

end Osc2FtdiDmx.StreamSend
