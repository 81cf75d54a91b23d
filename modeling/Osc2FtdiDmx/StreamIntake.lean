import Osc2FtdiDmx.PrefixReceive
import Osc2FtdiDmx.SlipReceive

/-! The receiving loop for SLIP frames on the ring, step by step: the frames are decoded one
after the other, room is requested for each packet, and its bytes are copied and committed
while the `_beat` thread reads. -/
namespace Osc2FtdiDmx.StreamIntake
open BytesEndian CircularBuffer ByteStuffing FramedStreams SlipDecode SlipReceive TransitionRuns
open VarchunkRing VarchunkThreads RingInvariant RingRuns RingHandoff
open PrefixReceive (Result)
open UdpReceive (Background chunks inFlight chunks_step background_step readRun_store)

/-- Between the calls of `recv`; at the head of the loop over the bytes from `ptr` on; where
`size` bytes are to be dispatched; in the `memcpy` to the granted room. -/
inductive Phase
  | idle
  | loop (buf : List Byte)
  | dispatch (buf : List Byte)
  | copy (buf : List Byte) (i : ℕ)

/-- `wire` is what has not arrived; `packets` lists those that were committed. -/
structure Intake where
  ring : Machine
  phase : Phase
  rx : List Byte
  wire : List Byte
  packets : List (List Byte)
  isOpen : Bool

def intakeStart (buf : ℕ → Byte) (sent : List (List Byte)) : Intake :=
  ⟨start buf, .idle, [], encodings slipEncode sent, [], true⟩

inductive IntakeAct
  | recv (r : Result)
  | decode
  | request
  | store
  | commit
  | ring (a : Act)

/-- The producer has nothing left to do in `_write_adv`. -/
def atRest : Producer → Bool
  | .idle => true
  | _ => false

/-- The packet that was decoded at `ptr`. -/
def decodedPacket (buf : List Byte) : List Byte := (slipDecode buf).dst.take (slipDecode buf).size

/-- Behind a frame, or at the end of the call where nothing more is parsed. -/
def afterFrame (s : Intake) (buf : List Byte) : Intake :=
  if (slipDecode buf).parsed = 0 then { s with phase := .idle, rx := (slipDecode buf).dst }
  else { s with phase := .loop ((slipDecode buf).dst.drop (slipDecode buf).parsed) }

/-- One step of the loop, or of the rest of the ring. -/
def intakeAct (port : Port) (s : Intake) : IntakeAct → Option Intake
  | .recv r =>
      match s.phase, r with
      | .idle, .got n =>
          if atRest s.ring.producer ∧ s.isOpen ∧ 0 < n ∧ n ≤ rxSize - s.rx.length ∧
              n ≤ s.wire.length then
            some { s with phase := .loop (s.rx ++ s.wire.take n), wire := s.wire.drop n }
          else none
      | .idle, .again => some s
      | .idle, .failed | .idle, .zero =>
          some { s with isOpen := s.isOpen && decide (port = .serial) }
      | _, _ => none
  | .decode =>
      match s.phase with
      | .loop buf =>
          if atRest s.ring.producer then
            if buf = [] then some { s with phase := .idle, rx := [] }
            else if (slipDecode buf).size = 0 then some (afterFrame s buf)
            else some { s with phase := .dispatch buf }
          else none
      | _ => none
  | .request =>
      match s.phase with
      | .dispatch buf =>
          (act s.ring (.request (BitVec.ofNat 64 (slipDecode buf).size))).map fun ring =>
            match ring.producer with
            | .granted _ _ _ => { s with ring, phase := .copy buf 0 }
            | _ => { s with ring, phase := .idle, rx := (slipDecode buf).dst }
      | _ => none
  | .store =>
      match s.phase with
      | .copy buf i =>
          if i < (slipDecode buf).size then
            (act s.ring (.store i ((decodedPacket buf).getD i 0))).map fun ring =>
              { s with ring, phase := .copy buf (i + 1) }
          else none
      | _ => none
  | .commit =>
      match s.phase with
      | .copy buf i =>
          if i = (slipDecode buf).size then
            (act s.ring (.commit (BitVec.ofNat 64 i))).map fun ring =>
              afterFrame { s with ring, packets := s.packets ++ [decodedPacket buf] } buf
          else none
      | _ => none
  | .ring a => if Background a then (act s.ring a).map fun ring => { s with ring } else none

/-- The bytes that have arrived and stand for no committed packet. -/
def Phase.held (rx : List Byte) : Phase → List Byte
  | .idle => rx
  | .loop buf | .dispatch buf | .copy buf _ => buf

def held (s : Intake) : List Byte := s.phase.held s.rx

/-- The bytes that a call keeps for the next one are those that arrived: an incomplete frame
was not decoded over itself, and neither was one that is refused, which leaves room for
another byte. -/
def Keeps (s : Intake) : IntakeAct → Prop
  | .decode => (slipDecode (held s)).parsed = 0 → (slipDecode (held s)).dst = held s
  | .request => writeRequestMax s.ring.head s.ring.tail
        (BitVec.ofNat 64 (slipDecode (held s)).size) = none →
      (slipDecode (held s)).dst = held s ∧ (held s).length < rxSize
  | _ => True

instance (s : Intake) : ∀ a, Decidable (Keeps s a)
  | .decode => inferInstanceAs (Decidable (_ → _))
  | .request => inferInstanceAs (Decidable (_ → _))
  | .recv _ | .store | .commit | .ring _ => inferInstanceAs (Decidable True)

section Decoding
variable {packet more buf wire : List Byte} {waiting : List (List Byte)}

/-- A whole frame comes first, or a part of one that is not parsed. -/
lemma held_cases (hwaiting : ∀ p ∈ waiting, p ≠ [] ∧ (slipEncode p).length ≤ rxSize)
    (h : buf ++ wire = encodings slipEncode waiting) (hne : buf ≠ []) :
    (∃ packet rest more, waiting = packet :: rest ∧ packet ≠ [] ∧
        buf = slipEncode packet ++ more ∧ more ++ wire = encodings slipEncode rest ∧
        (slipDecode buf).size = packet.length ∧ decodedPacket buf = packet ∧
        (slipDecode buf).parsed ≠ 0 ∧ (slipDecode buf).dst.drop (slipDecode buf).parsed = more) ∨
      (slipDecode buf).size = 0 ∧ (slipDecode buf).parsed = 0 ∧ buf.length < rxSize := by
  cases waiting with
  | nil => exact absurd (List.append_eq_nil_iff.mp h).1 hne
  | cons packet rest =>
    obtain ⟨⟨hpacket, hlen⟩, -⟩ := List.forall_mem_cons.mp hwaiting
    rw [encodings_cons] at h
    by_cases hframe : slipEncode packet <+: buf
    · obtain ⟨more, rfl⟩ := hframe
      rw [List.append_assoc, List.append_cancel_left_eq] at h
      have hlt := length_lt_encode packet
      refine .inl ⟨packet, rest, more, rfl, hpacket, rfl, h, ?_⟩
      rw [decodedPacket, slipDecode_frame]
      refine ⟨rfl, take_overlay _ _, by dsimp only; omega, ?_⟩
      rw [drop_overlay hlt.le, List.drop_left]
    · have hbuf : buf <+: slipEncode packet := (List.prefix_or_prefix_of_prefix ⟨wire, h⟩
        (List.prefix_append _ _)).resolve_right hframe
      obtain rfl | ⟨part, rfl, hpart⟩ := part_of_frame hbuf hframe
      · exact absurd rfl hne
      · obtain ⟨data, hdecode, -⟩ := slipDecode_part hpart
        have hle := hbuf.length_le
        have hshort : (slipEnd :: part).length ≠ (slipEncode packet).length := fun heq =>
          hframe (hbuf.eq_of_length heq ▸ List.prefix_rfl)
        exact .inr (by rw [hdecode]; exact ⟨rfl, rfl, by omega⟩)

end Decoding

/-- The packets committed are the first of those sent, and what is held and still to come are
the frames of the others. -/
structure Kept (sent : List (List Byte)) (s : Intake) : Prop where
  split : ∃ waiting, s.packets ++ waiting = sent ∧ held s ++ s.wire = encodings slipEncode waiting
  room : (held s).length ≤ rxSize
  idle : s.phase = .idle → s.rx.length < rxSize
  sized : ∀ buf, s.phase = .dispatch buf ∨ (∃ i, s.phase = .copy buf i) →
    (slipDecode buf).size ≠ 0

section Specs
variable {port : Port} {s t : Intake}

lemma intake_recv {r : Result} (hstep : intakeAct port s (.recv r) = some t) : s.phase = .idle ∧
    ((∃ n, n ≤ rxSize - s.rx.length ∧
        t = { s with phase := .loop (s.rx ++ s.wire.take n), wire := s.wire.drop n }) ∨
      ∃ isOpen, t = { s with isOpen }) := by
  cases hphase : s.phase with
  | idle =>
    refine ⟨rfl, ?_⟩
    cases r with
    | got n =>
      simp only [intakeAct, hphase, Option.ite_none_right_eq_some, Option.some.injEq] at hstep
      obtain ⟨⟨-, -, -, hle, -⟩, rfl⟩ := hstep
      exact .inl ⟨n, hle, rfl⟩
    | again | failed | zero =>
      simp only [intakeAct, hphase, Option.some.injEq] at hstep
      exact .inr ⟨_, by rw [← hstep, ← hphase]⟩
  | loop | dispatch | copy => cases r <;> simp [intakeAct, hphase] at hstep

lemma intake_decode (hstep : intakeAct port s .decode = some t) : ∃ buf, s.phase = .loop buf ∧
    (buf = [] ∧ t = { s with phase := .idle, rx := [] } ∨
      buf ≠ [] ∧ (slipDecode buf).size = 0 ∧ t = afterFrame s buf ∨
      buf ≠ [] ∧ (slipDecode buf).size ≠ 0 ∧ t = { s with phase := .dispatch buf }) := by
  cases hphase : s.phase with
  | loop buf =>
    refine ⟨buf, rfl, ?_⟩
    simp only [intakeAct, hphase, Option.ite_none_right_eq_some] at hstep
    obtain ⟨-, hstep⟩ := hstep
    split_ifs at hstep with hnil hsize
    · exact .inl ⟨hnil, (Option.some.inj hstep).symm⟩
    · exact .inr (.inl ⟨hnil, hsize, (Option.some.inj hstep).symm⟩)
    · exact .inr (.inr ⟨hnil, hsize, (Option.some.inj hstep).symm⟩)
  | idle | dispatch | copy => simp [intakeAct, hphase] at hstep

lemma intake_request (hstep : intakeAct port s .request = some t) : ∃ buf ring minimum,
    s.phase = .dispatch buf ∧ minimum = BitVec.ofNat 64 (slipDecode buf).size ∧
      act s.ring (.request minimum) = some ring ∧
      ((∃ tail grant, ring.producer = .granted minimum tail grant ∧
          t = { s with ring, phase := .copy buf 0 }) ∨
        writeRequestMax s.ring.head s.ring.tail minimum = none ∧ ring.producer = .idle ∧
          t = { s with ring, phase := .idle, rx := (slipDecode buf).dst }) := by
  cases hphase : s.phase with
  | dispatch buf =>
    simp only [intakeAct, hphase, Option.map_eq_some_iff] at hstep
    obtain ⟨ring, hring, rfl⟩ := hstep
    refine ⟨buf, ring, _, rfl, rfl, hring, ?_⟩
    obtain ⟨grant, hgrant, rfl⟩ | hidle := act_request hring
    · exact .inl ⟨_, grant, rfl, rfl⟩
    · refine .inr ⟨?_, by rw [hidle], by rw [hidle]⟩
      cases hgrant : writeRequestMax s.ring.head s.ring.tail
          (BitVec.ofNat 64 (slipDecode buf).size) with
      | none => rfl
      | some grant =>
        cases hp : s.ring.producer <;> simp only [act, hp, hgrant, Option.some.injEq,
          reduceCtorEq] at hring <;>
        · have hproducer := congrArg Machine.producer (hring.trans hidle)
          cases hproducer
  | idle | loop | copy => simp [intakeAct, hphase] at hstep

lemma intake_store (hstep : intakeAct port s .store = some t) : ∃ buf i ring,
    s.phase = .copy buf i ∧ i < (slipDecode buf).size ∧
      act s.ring (.store i ((decodedPacket buf).getD i 0)) = some ring ∧
      t = { s with ring, phase := .copy buf (i + 1) } := by
  cases hphase : s.phase with
  | copy buf i =>
    simp only [intakeAct, hphase, Option.ite_none_right_eq_some, Option.map_eq_some_iff] at hstep
    obtain ⟨hlt, ring, hring, rfl⟩ := hstep
    exact ⟨buf, i, ring, rfl, hlt, hring, rfl⟩
  | idle | loop | dispatch => simp [intakeAct, hphase] at hstep

lemma intake_commit (hstep : intakeAct port s .commit = some t) : ∃ buf ring,
    s.phase = .copy buf (slipDecode buf).size ∧
      act s.ring (.commit (BitVec.ofNat 64 (slipDecode buf).size)) = some ring ∧
      t = afterFrame { s with ring, packets := s.packets ++ [decodedPacket buf] } buf := by
  cases hphase : s.phase with
  | copy buf i =>
    simp only [intakeAct, hphase, Option.ite_none_right_eq_some, Option.map_eq_some_iff] at hstep
    obtain ⟨rfl, ring, hring, rfl⟩ := hstep
    exact ⟨buf, ring, rfl, hring, rfl⟩
  | idle | loop | dispatch => simp [intakeAct, hphase] at hstep

lemma intake_ring {a : Act} (hstep : intakeAct port s (.ring a) = some t) : Background a ∧
    ∃ ring, act s.ring a = some ring ∧ t = { s with ring } := by
  simp only [intakeAct, Option.ite_none_right_eq_some, Option.map_eq_some_iff] at hstep
  obtain ⟨ha, ring, hring, rfl⟩ := hstep
  exact ⟨ha, ring, hring, rfl⟩

end Specs

section Bytes
variable {port : Port} {sent : List (List Byte)} {s t : Intake} {a : IntakeAct}

lemma kept_start (memory : ℕ → Byte) (sent : List (List Byte)) :
    Kept sent (intakeStart memory sent) :=
  ⟨⟨sent, rfl, rfl⟩, by simp [held, Phase.held, intakeStart], by simp [intakeStart, rxSize],
    by simp [intakeStart]⟩

/-- A frame that is dispatched and copied stays where it is. -/
lemma Kept.dispatched {buf : List Byte} {phase : Phase} {ring : Machine} (h : Kept sent s)
    (hheld : held s = buf) (hsize : (slipDecode buf).size ≠ 0)
    (hphase : phase = .dispatch buf ∨ ∃ i, phase = .copy buf i) :
    Kept sent { s with ring, phase } := by
  obtain ⟨waiting, hwaiting, hkept⟩ := h.split
  have hroom := h.room
  rw [hheld] at hkept hroom
  rcases hphase with rfl | ⟨i, rfl⟩
  · refine ⟨⟨waiting, hwaiting, hkept⟩, hroom, by simp, ?_⟩
    rintro _ (⟨⟨⟩⟩ | ⟨j, ⟨⟩⟩)
    exact hsize
  · refine ⟨⟨waiting, hwaiting, hkept⟩, hroom, by simp, ?_⟩
    rintro _ (⟨⟨⟩⟩ | ⟨j, ⟨⟩⟩)
    exact hsize

/-- Bytes that a call keeps for the next one are kept as they are. -/
lemma Kept.left {buf : List Byte} {ring : Machine} (h : Kept sent s) (hheld : held s = buf)
    (hdst : (slipDecode buf).dst = buf) (hlt : buf.length < rxSize) :
    Kept sent { s with ring, phase := .idle, rx := (slipDecode buf).dst } := by
  obtain ⟨waiting, hwaiting, hkept⟩ := h.split
  rw [hheld] at hkept
  rw [hdst]
  exact ⟨⟨waiting, hwaiting, hkept⟩, hlt.le, fun _ => hlt, by simp⟩

lemma kept_recv {r : Result} (h : Kept sent s) (hstep : intakeAct port s (.recv r) = some t) :
    Kept sent t := by
  obtain ⟨waiting, hwaiting, hkept⟩ := h.split
  obtain ⟨hphase, ⟨n, hn, rfl⟩ | ⟨isOpen, rfl⟩⟩ := intake_recv hstep
  · have hidle := h.idle hphase
    rw [held, hphase, Phase.held] at hkept
    refine ⟨⟨waiting, hwaiting, ?_⟩, ?_, by simp, by simp⟩
    · simp only [held, Phase.held]
      rw [List.append_assoc, List.take_append_drop, hkept]
    · simp only [held, Phase.held, List.length_append, List.length_take]
      omega
  · exact ⟨h.split, h.room, h.idle, h.sized⟩

lemma kept_decode (hsent : ∀ p ∈ sent, p ≠ [] ∧ (slipEncode p).length ≤ rxSize) (h : Kept sent s)
    (hok : Keeps s .decode) (hstep : intakeAct port s .decode = some t) : Kept sent t := by
  obtain ⟨waiting, hwaiting, hkept⟩ := h.split
  obtain ⟨buf, hphase, hcase⟩ := intake_decode hstep
  have hheld : held s = buf := by rw [held, hphase, Phase.held]
  have hroom := h.room
  rw [Keeps, hheld] at hok
  rw [hheld] at hkept hroom
  obtain ⟨rfl, rfl⟩ | ⟨hne, hsize, rfl⟩ | ⟨hne, hsize, rfl⟩ := hcase
  · exact ⟨⟨waiting, hwaiting, hkept⟩, hroom, by simp [rxSize], by simp⟩
  · have hbounds : ∀ p ∈ waiting, p ≠ [] ∧ (slipEncode p).length ≤ rxSize := fun p hp =>
      hsent p (hwaiting ▸ List.mem_append_right _ hp)
    obtain ⟨packet, rest, more, -, hpacket, -, -, hlen, -⟩ | ⟨-, hparsed, hlt⟩ :=
      held_cases hbounds hkept hne
    · exact absurd (List.length_eq_zero_iff.mp (hlen ▸ hsize)) hpacket
    · rw [afterFrame, if_pos hparsed]
      exact h.left hheld (hok hparsed) hlt
  · exact h.dispatched hheld hsize (.inl rfl)

/-- A packet that was committed takes its frame along. -/
lemma kept_commit (hsent : ∀ p ∈ sent, p ≠ [] ∧ (slipEncode p).length ≤ rxSize) (h : Kept sent s)
    (hstep : intakeAct port s .commit = some t) : Kept sent t := by
  obtain ⟨waiting, hwaiting, hkept⟩ := h.split
  obtain ⟨buf, ring, hphase, -, rfl⟩ := intake_commit hstep
  have hsize := h.sized buf (.inr ⟨_, hphase⟩)
  have hroom := h.room
  rw [held, hphase, Phase.held] at hkept hroom
  have hne : buf ≠ [] := by
    rintro rfl
    exact hsize rfl
  have hbounds : ∀ p ∈ waiting, p ≠ [] ∧ (slipEncode p).length ≤ rxSize := fun p hp =>
    hsent p (hwaiting ▸ List.mem_append_right _ hp)
  obtain ⟨packet, rest, more, rfl, -, hbuf, hmore, -, hpacket, hparsed, hdrop⟩ | ⟨hzero, -⟩ :=
    held_cases hbounds hkept hne
  · rw [afterFrame, if_neg hparsed, hdrop, hpacket]
    refine ⟨⟨rest, by simpa using hwaiting, hmore⟩, ?_, by simp, by simp⟩
    rw [hbuf, List.length_append] at hroom
    exact (Nat.le_add_left _ _).trans hroom
  · exact absurd hzero hsize

/-- What is held stays as it is or loses its first frame; by cases on the step. -/
lemma kept_step (hsent : ∀ p ∈ sent, p ≠ [] ∧ (slipEncode p).length ≤ rxSize) (h : Kept sent s)
    (hok : Keeps s a) (hstep : intakeAct port s a = some t) : Kept sent t := by
  cases a with
  | recv r => exact kept_recv h hstep
  | decode => exact kept_decode hsent h hok hstep
  | request =>
    obtain ⟨buf, ring, minimum, hphase, rfl, -, hcase⟩ := intake_request hstep
    have hheld : held s = buf := by rw [held, hphase, Phase.held]
    obtain ⟨tail, grant, -, rfl⟩ | ⟨hnone, -, rfl⟩ := hcase
    · exact h.dispatched hheld (h.sized buf (.inl hphase)) (.inr ⟨0, rfl⟩)
    · rw [Keeps, hheld] at hok
      obtain ⟨hdst, hlt⟩ := hok hnone
      exact h.left hheld hdst hlt
  | store =>
    obtain ⟨buf, i, ring, hphase, -, -, rfl⟩ := intake_store hstep
    have hheld : held s = buf := by rw [held, hphase, Phase.held]
    exact h.dispatched hheld (h.sized buf (.inr ⟨i, hphase⟩)) (.inr ⟨i + 1, rfl⟩)
  | commit => exact kept_commit hsent h hstep
  | ring a =>
    obtain ⟨-, ring, -, rfl⟩ := intake_ring hstep
    exact ⟨h.split, h.room, h.idle, h.sized⟩

end Bytes

/-- The ring between the steps: the bytes copied so far lie behind the header to come, and
the chunks are the packets that were committed. -/
structure Filled (s : Intake) : Prop where
  sound : Sound s.ring
  asked : Asked s.ring
  copied : ∀ buf i, s.phase = .copy buf i → ∃ tail grant,
    s.ring.producer = .granted (BitVec.ofNat 64 (slipDecode buf).size) tail grant ∧
      i ≤ (slipDecode buf).size ∧
      readRun s.ring.buf (grant.start.toNat + 8) i = (decodedPacket buf).take i
  chunks : UdpReceive.chunks s.ring = s.packets

section Ring
variable {port : Port} {sent : List (List Byte)} {s t : Intake} {a : IntakeAct} {buf : List Byte}

/-- What is dispatched is the next packet. -/
lemma dispatched (hsent : ∀ p ∈ sent, p ≠ [] ∧ (slipEncode p).length ≤ rxSize) (h : Kept sent s)
    (hphase : s.phase = .dispatch buf ∨ ∃ i, s.phase = .copy buf i) :
    (decodedPacket buf).length = (slipDecode buf).size ∧ (slipDecode buf).size < rxSize := by
  obtain ⟨waiting, hwaiting, hkept⟩ := h.split
  have hheld : held s = buf := by
    obtain hphase | ⟨i, hphase⟩ := hphase <;> rw [held, hphase, Phase.held]
  have hsize := h.sized buf hphase
  have hne : buf ≠ [] := by
    rintro rfl
    exact hsize rfl
  have hroom := h.room
  rw [hheld] at hkept hroom
  obtain ⟨packet, rest, more, -, -, hbuf, -, hlen, hpacket, -⟩ | ⟨hzero, -⟩ :=
    held_cases (fun p hp => hsent p (hwaiting ▸ List.mem_append_right _ hp)) hkept hne
  · have hlt := length_lt_encode packet
    rw [hpacket, hlen]
    rw [hbuf, List.length_append] at hroom
    exact ⟨rfl, by omega⟩
  · exact absurd hzero hsize

lemma filled_start (memory : ℕ → Byte) (sent : List (List Byte)) :
    Filled (intakeStart memory sent) :=
  ⟨⟨0, ringInv_start memory⟩, trivial, by simp [intakeStart], rfl⟩

lemma afterFrame_phase (s : Intake) (buf buf' : List Byte) (i : ℕ) :
    (afterFrame s buf).phase ≠ .copy buf' i := by
  rw [afterFrame]
  split_ifs <;> simp

lemma afterFrame_same (s : Intake) (buf : List Byte) :
    (afterFrame s buf).ring = s.ring ∧ (afterFrame s buf).packets = s.packets := by
  rw [afterFrame]
  split_ifs <;> exact ⟨rfl, rfl⟩

lemma background_asked {ring : Machine} {a : Act} (ha : Background a) : AsRequested ring a := by
  cases a <;> trivial

lemma Filled.step {ring : Machine} {a : Act} (h : Filled s) (hok : AsRequested s.ring a)
    (hring : act s.ring a = some ring) : Sound ring ∧ Asked ring :=
  ⟨sound_step h.sound (fits_of_asked h.asked hok) hring, asked_step h.sound h.asked hok hring⟩

/-- The size of a packet survives its way through `size_t`. -/
lemma size_toNat {n : ℕ} (h : n < rxSize) : (BitVec.ofNat 64 n).toNat = n := by
  simp only [rxSize] at h
  rw [BitVec.toNat_ofNat, Nat.mod_eq_of_lt (by omega)]

lemma filled_request (hsent : ∀ p ∈ sent, p ≠ [] ∧ (slipEncode p).length ≤ rxSize)
    (hk : Kept sent s) (h : Filled s) (hstep : intakeAct port s .request = some t) : Filled t := by
  obtain ⟨buf, ring, minimum, hphase, hmin, hring, hcase⟩ := intake_request hstep
  obtain ⟨-, hlt⟩ := dispatched hsent hk (.inl hphase)
  have hok : AsRequested s.ring (.request minimum) := by
    rw [AsRequested, hmin, size_toNat hlt]
    simp only [rxSize] at hlt
    omega
  obtain ⟨hsound, hasked⟩ := h.step hok hring
  have hchunks := (chunks_step (by simp) hring).trans h.chunks
  obtain ⟨tail, grant, hproducer, rfl⟩ | ⟨-, -, rfl⟩ := hcase
  · refine ⟨hsound, hasked, ?_, hchunks⟩
    rintro _ _ ⟨⟩
    exact ⟨tail, grant, hmin ▸ hproducer, Nat.zero_le _, rfl⟩
  · exact ⟨hsound, hasked, by simp, hchunks⟩

lemma filled_store (hsent : ∀ p ∈ sent, p ≠ [] ∧ (slipEncode p).length ≤ rxSize)
    (hk : Kept sent s) (h : Filled s) (hstep : intakeAct port s .store = some t) : Filled t := by
  obtain ⟨buf, i, ring, hphase, hi, hring, rfl⟩ := intake_store hstep
  obtain ⟨hlen, hlt⟩ := dispatched hsent hk (.inr ⟨i, hphase⟩)
  obtain ⟨tail, grant, hproducer, -, hread⟩ := h.copied buf i hphase
  have hok : AsRequested s.ring (.store i ((decodedPacket buf).getD i 0)) := by
    rw [AsRequested, hproducer, WhenGranted, size_toNat hlt]
    exact hi
  obtain ⟨hsound, hasked⟩ := h.step hok hring
  refine ⟨hsound, hasked, ?_, (chunks_step (by simp) hring).trans h.chunks⟩
  rintro _ _ ⟨⟩
  obtain ⟨minimum, tail', grant', hgranted, rfl⟩ := act_store hring
  cases hproducer.symm.trans hgranted
  exact ⟨tail, grant, hproducer, hi, readRun_store hread (hlen ▸ hi)⟩

/-- The chunk that is committed is the packet. -/
lemma filled_commit (hsent : ∀ p ∈ sent, p ≠ [] ∧ (slipEncode p).length ≤ rxSize)
    (hk : Kept sent s) (h : Filled s) (hstep : intakeAct port s .commit = some t) : Filled t := by
  obtain ⟨buf, ring, hphase, hring, rfl⟩ := intake_commit hstep
  obtain ⟨hlen, hlt⟩ := dispatched hsent hk (.inr ⟨_, hphase⟩)
  obtain ⟨tail, grant, hproducer, -, hread⟩ := h.copied buf _ hphase
  have hok : AsRequested s.ring (.commit (BitVec.ofNat 64 (slipDecode buf).size)) := by
    rw [AsRequested, hproducer]
    exact BitVec.le_refl _
  obtain ⟨hsound, hasked⟩ := h.step hok hring
  obtain ⟨hsame, hpackets⟩ :=
    afterFrame_same { s with ring, packets := s.packets ++ [decodedPacket buf] } buf
  refine ⟨hsame ▸ hsound, hsame ▸ hasked, fun buf' i hphase => ?_, ?_⟩
  · exact absurd hphase (afterFrame_phase _ buf buf' i)
  · rw [hsame, hpackets, ← h.chunks]
    obtain ⟨minimum, tail', grant', hgranted, -, rfl⟩ := act_commit hring
    cases hproducer.symm.trans hgranted
    rw [size_toNat hlt, hread, ← hlen, List.take_length]
    simp [UdpReceive.chunks, inFlight, hproducer]

/-- The ring holds what was copied so far; by cases on the step. -/
lemma filled_step (hsent : ∀ p ∈ sent, p ≠ [] ∧ (slipEncode p).length ≤ rxSize) (hk : Kept sent s)
    (h : Filled s) (hstep : intakeAct port s a = some t) : Filled t := by
  cases a with
  | recv r =>
    obtain ⟨-, ⟨n, -, rfl⟩ | ⟨isOpen, rfl⟩⟩ := intake_recv hstep
    · exact ⟨h.sound, h.asked, by simp, h.chunks⟩
    · exact ⟨h.sound, h.asked, h.copied, h.chunks⟩
  | decode =>
    obtain ⟨buf, -, ⟨-, rfl⟩ | ⟨-, -, rfl⟩ | ⟨-, -, rfl⟩⟩ := intake_decode hstep
    · exact ⟨h.sound, h.asked, by simp, h.chunks⟩
    · obtain ⟨hring, hpackets⟩ := afterFrame_same s buf
      refine ⟨hring ▸ h.sound, hring ▸ h.asked, fun buf' i hphase => ?_, ?_⟩
      · exact absurd hphase (afterFrame_phase s buf buf' i)
      · rw [hring, hpackets, h.chunks]
    · exact ⟨h.sound, h.asked, by simp, h.chunks⟩
  | request => exact filled_request hsent hk h hstep
  | store => exact filled_store hsent hk h hstep
  | commit => exact filled_commit hsent hk h hstep
  | ring a =>
    obtain ⟨ha, ring, hring, rfl⟩ := intake_ring hstep
    obtain ⟨hsound, hasked⟩ := h.step (background_asked ha) hring
    have hcommit : ∀ written, a ≠ .commit written := by
      rintro written rfl
      exact ha
    refine ⟨hsound, hasked, fun buf i hphase => ?_, (chunks_step hcommit hring).trans h.chunks⟩
    obtain ⟨tail, grant, hproducer, hi, hread⟩ := h.copied buf i hphase
    obtain ⟨hsame, hbuf⟩ := background_step ha hring hproducer
    exact ⟨tail, grant, hsame.trans hproducer, hi, hbuf ▸ hread⟩

end Ring

/-- In every run of the receiving loop on the ring, whatever the `_beat` thread does in between:
the packets committed and those handed over are the first of those sent, and no byte of the
others is lost. -/
theorem intake_law (port : Port) (memory : ℕ → Byte) (sent : List (List Byte))
    (hsent : ∀ p ∈ sent, p ≠ [] ∧ (slipEncode p).length ≤ rxSize) (s : Intake)
    (hrun : RunsTo (Steps (intakeAct port)) Keeps (intakeStart memory sent) s) :
    UdpReceive.chunks s.ring = s.packets ∧ s.packets <+: sent ∧ s.ring.obtained <+: s.packets ∧
      encodings slipEncode s.packets ++ (held s ++ s.wire) = encodings slipEncode sent ∧
      (held s = [] → s.wire = [] → s.packets = sent) := by
  obtain ⟨hkept, hfilled⟩ : Kept sent s ∧ Filled s :=
    hrun.invariant (And.intro (kept_start memory sent) (filled_start memory sent))
      fun _ _ _ h hok hstep => And.intro (kept_step hsent h.1 hok hstep)
        (filled_step hsent h.1 h.2 hstep)
  obtain ⟨waiting, hwaiting, hsplit⟩ := hkept.split
  refine ⟨hfilled.chunks, ⟨waiting, hwaiting⟩, ?_, (encodings_waiting hwaiting).mpr hsplit,
    fun hheld hwire => ?_⟩
  · rw [← hfilled.chunks]
    exact (obtained_front hfilled.sound).trans (List.prefix_append _ _)
  · rw [hheld, hwire] at hsplit
    obtain rfl := encodings_eq_nil slipEncode_ne_nil hsplit.symm
    rw [← hwaiting, List.append_nil]

/-- The second frame is cut behind its first byte; the first packet is read while the second
is copied. -/
def cutFrames : List IntakeAct := List.flatten
  [[.recv (.got 4), .decode, .request, .store, .commit],
    .replicate 8 (.ring .putByte),
    [.ring .publish, .decode, .ring .readRequest, .recv (.got 3), .decode, .request, .store,
      .ring .readSize, .ring .readByte, .store, .ring .readDone, .commit]]

theorem intake_law_cut : ∃ s : Intake, s.ring.obtained = [[0x61]] ∧
    UdpReceive.chunks s.ring = [[0x61], [0x2f, 0x62]] ∧ s.packets <+: [[0x61], [0x2f, 0x62]] := by
  have hfollow : (follow (intakeAct .tcp) Keeps (intakeStart (fun _ => 0) [[0x61], [0x2f, 0x62]])
      cutFrames).map (fun s => (s.ring.obtained, s.packets)) =
        some ([[0x61]], [[0x61], [0x2f, 0x62]]) := by decide +kernel
  obtain ⟨s, hs, heq⟩ := Option.map_eq_some_iff.mp hfollow
  obtain ⟨hobtained, hpackets⟩ := Prod.mk.inj heq
  have hrun := runsTo_follow (intakeAct .tcp) Keeps RunsTo.refl hs
  obtain ⟨hchunks, hfirst, -⟩ := intake_law .tcp (fun _ => 0) [[0x61], [0x2f, 0x62]]
    (by decide +kernel) s hrun
  exact ⟨s, hobtained, hchunks.trans hpackets, hfirst⟩

end Osc2FtdiDmx.StreamIntake
