import Osc2FtdiDmx.FramedStreams
import Osc2FtdiDmx.RingGrant
import Osc2FtdiDmx.UdpReceive

/-! Receiving length-prefixed packets in `_lv2_osc_stream_run_tcp`, on the ring. One pass of
the loop reads the prefix and the body with one call of `recv` each; the body is stored byte
by byte in the room granted, and its length is not compared with it. -/
namespace Osc2FtdiDmx.PrefixReceive
open BytesEndian CircularBuffer FramedStreams VarchunkRing VarchunkThreads TransitionRuns
open RingInvariant RingRuns RingHandoff
open RingGrant (Touched touched_position)
open UdpReceive (reqbuf Background chunks inFlight chunks_step background_step readRun_store
  fitsGrant_step fitsGrant_mono Covers covers_step)

/-- What `recv` returns: a number of bytes, -1 with `EAGAIN` or another error, or 0. -/
inductive Result
  | got (n : ℕ)
  | again
  | failed
  | zero
  deriving DecidableEq, Repr

/-- The results that a request of `len` bytes can have. -/
def Result.Possible (len : ℕ) (pending : List Byte) : Result → Prop
  | .got n => 0 < n ∧ n ≤ len ∧ n ≤ pending.length
  | _ => True

instance (len : ℕ) (pending : List Byte) (r : Result) : Decidable (r.Possible len pending) :=
  match r with
  | .got n => inferInstanceAs (Decidable (0 < n ∧ n ≤ len ∧ n ≤ pending.length))
  | .again | .failed | .zero => inferInstanceAs (Decidable True)

/-- The result as a `ssize_t`. -/
def Result.value : Result → ℤ
  | .got n => n
  | .again | .failed => -1
  | .zero => 0

/-- The bytes that are stored. -/
def Result.stored (pending : List Byte) : Result → List Byte
  | .got n => pending.take n
  | _ => []

/-- In front of the prefix; behind the prefix, which spells `len`; behind the last `recv`,
which has returned `recvd`, with `i` of its bytes stored; or ended by the assertion of
`varchunk_write_advance`. -/
inductive Phase
  | fresh
  | sized (len : ℕ)
  | filling (bytes : List Byte) (recvd : ℤ) (i : ℕ)
  | aborted
  deriving DecidableEq, Repr

/-- A call of `_write_adv`, with the number of bytes that `recv` has stored before it and the
room behind the grant. -/
structure Advance where
  written : Size
  stored : ℕ
  room : ℕ
  deriving DecidableEq, Repr

/-- `pending` is the part of the byte stream that has not arrived. -/
structure Link where
  ring : Machine
  phase : Phase
  pending : List Byte
  advances : List Advance
  isOpen : Bool

def encodePrefixed (packet : List Byte) : List Byte := bytesBE 4 packet.length ++ packet

def linkStart (buf : ℕ → Byte) (sent : List (List Byte)) : Link :=
  ⟨start buf, .fresh, encodings encodePrefixed sent, [], true⟩

inductive LinkAct
  | request
  | first (r : Result)
  | body (r : Result)
  | store
  | writeAdv
  | ring (a : Act)

/-- One step of the loop or of the rest of the ring. The result of `recv` becomes a `size_t`
in `_write_adv`, whatever it is. -/
def linkAct (s : Link) : LinkAct → Option Link
  | .request =>
      match s.phase with
      | .fresh =>
          if s.isOpen then (act s.ring (.request reqbuf)).map fun ring => { s with ring } else none
      | _ => none
  | .first r =>
      match s.ring.producer, s.phase with
      | .granted _ _ _, .fresh =>
          if s.isOpen ∧ r.Possible 4 s.pending then
            match r with
            | .got n =>
                let rest := s.pending.drop n
                if n = 4 then
                  some { s with pending := rest, phase := .sized (valueBE (s.pending.take 4)) }
                else some { s with pending := rest, phase := .filling [] n 0 }
            | .again => some s
            | .failed | .zero => some { s with isOpen := false }
          else none
      | _, _ => none
  | .body r =>
      match s.phase with
      | .sized len =>
          if r.Possible len s.pending then
            let bytes := r.stored s.pending
            some { s with
              pending := s.pending.drop bytes.length
              phase := .filling bytes r.value 0 }
          else none
      | _ => none
  | .store =>
      match s.phase with
      | .filling bytes recvd i =>
          if i < bytes.length then
            (act s.ring (.store i (bytes.getD i 0))).map fun ring =>
              { s with ring, phase := .filling bytes recvd (i + 1) }
          else none
      | _ => none
  | .writeAdv =>
      match s.ring.producer, s.phase with
      | .granted minimum tail grant, .filling bytes recvd i =>
          if i = bytes.length then
            let written : Size := BitVec.ofInt 64 recvd
            let advances := s.advances ++
              [⟨written, bytes.length, room s.ring.head.toNat tail.toNat (padded minimum)⟩]
            if written ≤ grant.rsvd then
              (act s.ring (.commit written)).map fun ring =>
                { s with ring, phase := .fresh, advances }
            else some { s with phase := .aborted, advances }
          else none
      | _, _ => none
  | .ring a =>
      match s.phase with
      | .aborted => none
      | _ => if Background a then (act s.ring a).map fun ring => { s with ring } else none

/-- The chunk that is being stored lies in the buffer and in its free part. -/
def InPlace (s : Link) : Prop := ∀ bytes recvd i minimum tail grant,
  s.phase = .filling bytes recvd i → s.ring.producer = .granted minimum tail grant →
  ∀ x, Touched s.ring.head grant bytes.length x → x < 8192 ∧ ¬ InUse s.ring.head s.ring.tail x

/-- What the receiver owes: every count committed is the number of bytes stored, these fit
with header and padding in the room granted and overwrite nothing, and the packets committed
and those handed over are the first of those sent. -/
structure Delivered (sent : List (List Byte)) (s : Link) : Prop where
  counts : ∀ a ∈ s.advances, a.written.toNat = a.stored
  room : ∀ a ∈ s.advances, 8 + pad8 a.stored ≤ a.room
  inPlace : InPlace s
  committed : chunks s.ring <+: sent
  obtained : s.ring.obtained <+: sent

/-- The length that the prefix has spelled. -/
def Phase.len : Phase → ℕ
  | .sized len => len
  | _ => 0

/-- The prefix is read as a whole or not at all, and the body as a whole; with header and
padding it fits in the room granted. -/
def ReadsWhole (s : Link) : LinkAct → Prop
  | .first (.got n) => n = 4
  | .body r => r = .got s.phase.len ∧ FitsGrant s.ring s.phase.len
  | _ => True

instance (s : Link) : ∀ l, Decidable (ReadsWhole s l)
  | .first (.got _) => inferInstanceAs (Decidable (_ = _))
  | .body _ =>
      have : Decidable (FitsGrant s.ring s.phase.len) :=
        inferInstanceAs (Decidable (WhenGranted _ _))
      inferInstanceAs (Decidable (_ ∧ _))
  | .first .again | .first .failed | .first .zero | .request | .store | .writeAdv | .ring _ =>
      inferInstanceAs (Decidable True)

section Specs
variable {s t : Link}

lemma link_request (hstep : linkAct s .request = some t) : s.phase = .fresh ∧
    ∃ ring, act s.ring (.request reqbuf) = some ring ∧ t = { s with ring } := by
  cases hphase : s.phase with
  | fresh =>
    simp only [linkAct, hphase, Option.ite_none_right_eq_some, Option.map_eq_some_iff] at hstep
    obtain ⟨-, ring, hring, rfl⟩ := hstep
    exact ⟨rfl, ring, hring, by rw [← hphase]⟩
  | sized | filling | aborted => simp [linkAct, hphase] at hstep

/-- The ways that the `recv` for the prefix can go. -/
lemma link_first {r : Result} (hstep : linkAct s (.first r) = some t) : s.phase = .fresh ∧
    (∃ minimum tail grant, s.ring.producer = .granted minimum tail grant) ∧
    ((r = .got 4 ∧ 4 ≤ s.pending.length ∧ t = { s with
        pending := s.pending.drop 4, phase := .sized (valueBE (s.pending.take 4)) }) ∨
      (∃ n, r = .got n ∧ 0 < n ∧ n < 4 ∧
        t = { s with pending := s.pending.drop n, phase := .filling [] n 0 }) ∨
      (∀ n, r ≠ .got n) ∧ ∃ isOpen, t = { s with isOpen }) := by
  cases hp : s.ring.producer <;> cases hphase : s.phase <;>
    simp only [linkAct, hp, hphase, Option.ite_none_right_eq_some, reduceCtorEq] at hstep
  obtain ⟨⟨-, hpossible⟩, hstep⟩ := hstep
  refine ⟨rfl, ⟨_, _, _, rfl⟩, ?_⟩
  cases r with
  | got n =>
    obtain ⟨hpos, hle, havail⟩ := hpossible
    by_cases hn : n = 4
    · subst hn
      simp only [if_true, Option.some.injEq] at hstep
      exact .inl ⟨rfl, havail, hstep.symm⟩
    · simp only [if_neg hn, Option.some.injEq] at hstep
      exact .inr (.inl ⟨n, rfl, hpos, by omega, hstep.symm⟩)
  | again =>
    cases hstep
    exact .inr (.inr ⟨by simp, s.isOpen, by rw [← hphase]⟩)
  | failed | zero =>
    cases hstep
    exact .inr (.inr ⟨by simp, false, by rw [← hphase]⟩)

lemma link_body {r : Result} (hstep : linkAct s (.body r) = some t) : ∃ len,
    s.phase = .sized len ∧ r.Possible len s.pending ∧ t = { s with
      pending := s.pending.drop (r.stored s.pending).length
      phase := .filling (r.stored s.pending) r.value 0 } := by
  cases hphase : s.phase with
  | sized len =>
    simp only [linkAct, hphase, Option.ite_none_right_eq_some, Option.some.injEq] at hstep
    exact ⟨len, rfl, hstep.1, hstep.2.symm⟩
  | fresh | filling | aborted => simp [linkAct, hphase] at hstep

lemma link_store (hstep : linkAct s .store = some t) : ∃ bytes recvd i ring,
    s.phase = .filling bytes recvd i ∧ i < bytes.length ∧
      act s.ring (.store i (bytes.getD i 0)) = some ring ∧
      t = { s with ring, phase := .filling bytes recvd (i + 1) } := by
  cases hphase : s.phase with
  | filling bytes recvd i =>
    simp only [linkAct, hphase, Option.ite_none_right_eq_some, Option.map_eq_some_iff] at hstep
    obtain ⟨hlt, ring, hring, rfl⟩ := hstep
    exact ⟨bytes, recvd, i, ring, rfl, hlt, hring, rfl⟩
  | fresh | sized | aborted => simp [linkAct, hphase] at hstep

lemma link_writeAdv (hstep : linkAct s .writeAdv = some t) :
    ∃ minimum tail grant bytes recvd, s.ring.producer = .granted minimum tail grant ∧
      s.phase = .filling bytes recvd bytes.length ∧
      t.advances = s.advances ++ [⟨BitVec.ofInt 64 recvd, bytes.length,
        room s.ring.head.toNat tail.toNat (padded minimum)⟩] ∧ t.pending = s.pending ∧
      (BitVec.ofInt 64 recvd ≤ grant.rsvd ∧ t.phase = .fresh ∧
          act s.ring (.commit (BitVec.ofInt 64 recvd)) = some t.ring ∨
        ¬ BitVec.ofInt 64 recvd ≤ grant.rsvd ∧ t.phase = .aborted ∧ t.ring = s.ring) := by
  rcases hp : s.ring.producer with _ | ⟨minimum, tail, grant⟩ | _ <;>
    rcases hphase : s.phase with _ | _ | ⟨bytes, recvd, i⟩ | _ <;>
    simp only [linkAct, hp, hphase, Option.ite_none_right_eq_some, reduceCtorEq] at hstep
  obtain ⟨rfl, hstep⟩ := hstep
  refine ⟨minimum, tail, grant, bytes, recvd, rfl, rfl, ?_⟩
  split_ifs at hstep with hle
  · obtain ⟨ring, hring, rfl⟩ := Option.map_eq_some_iff.mp hstep
    exact ⟨rfl, rfl, .inl ⟨hle, rfl, hring⟩⟩
  · cases hstep
    exact ⟨rfl, rfl, .inr ⟨hle, rfl, rfl⟩⟩

lemma link_ring {a : Act} (hstep : linkAct s (.ring a) = some t) : s.phase ≠ .aborted ∧
    Background a ∧ ∃ ring, act s.ring a = some ring ∧ t = { s with ring } := by
  cases hphase : s.phase with
  | aborted => simp [linkAct, hphase] at hstep
  | fresh | sized | filling =>
    simp only [linkAct, hphase, Option.ite_none_right_eq_some, Option.map_eq_some_iff] at hstep
    obtain ⟨ha, ring, hring, rfl⟩ := hstep
    exact ⟨by simp, ha, ring, hring, by rw [← hphase]⟩

end Specs

/-- `i` of the bytes lie behind the header of the chunk to come. -/
def Copied (ring : Machine) (bytes : List Byte) (i : ℕ) : Prop := ∃ minimum tail grant,
  ring.producer = .granted minimum tail grant ∧ i ≤ bytes.length ∧
    readRun ring.buf (grant.start.toNat + 8) i = bytes.take i

/-- The bytes that the pass under way has taken from the stream. -/
def Phase.held : Phase → List Byte
  | .fresh | .aborted => []
  | .sized len => bytesBE 4 len
  | .filling bytes _ _ => encodePrefixed bytes

/-- The pass under way can come to a good end. -/
def OnTrack (ring : Machine) : Phase → Prop
  | .fresh => True
  | .sized len => len < 2 ^ 32 ∧ ∃ minimum tail grant, ring.producer = .granted minimum tail grant
  | .filling bytes recvd i => bytes.length < 2 ^ 32 ∧ recvd = bytes.length ∧
      FitsGrant ring bytes.length ∧ Copied ring bytes i
  | .aborted => False

/-- What holds between the steps of a run that reads whole packets. -/
structure Aligned (sent : List (List Byte)) (s : Link) : Prop where
  sound : Sound s.ring
  covers : Covers s.ring
  counts : ∀ a ∈ s.advances, a.written.toNat = a.stored
  room : ∀ a ∈ s.advances, 8 + pad8 a.stored ≤ a.room
  committed : chunks s.ring <+: sent
  kept : encodings encodePrefixed (chunks s.ring) ++ (s.phase.held ++ s.pending) =
    encodings encodePrefixed sent
  onTrack : OnTrack s.ring s.phase

section Bytes
variable {packet bytes pending more : List Byte} {len : ℕ}

lemma encodePrefixed_ne_nil (packet : List Byte) : encodePrefixed packet ≠ [] := by
  simp [encodePrefixed, bytesBE]

lemma sized_packet (hlen : len < 2 ^ 32) (hpacket : packet.length < 2 ^ 32)
    (h : bytesBE 4 len ++ pending = encodePrefixed packet ++ more) :
    len = packet.length ∧ pending = packet ++ more := by
  rw [encodePrefixed, List.append_assoc] at h
  obtain ⟨hfirst, hrest⟩ := List.append_inj h (by simp)
  have hvalue := congrArg valueBE hfirst
  rw [valueBE_bytesBE, valueBE_bytesBE, Nat.mod_eq_of_lt (by omega),
    Nat.mod_eq_of_lt (by omega)] at hvalue
  exact ⟨hvalue, hrest⟩

lemma filled_packet (hbytes : bytes.length < 2 ^ 32) (hpacket : packet.length < 2 ^ 32)
    (h : encodePrefixed bytes ++ pending = encodePrefixed packet ++ more) :
    bytes = packet ∧ pending = more := by
  rw [encodePrefixed, List.append_assoc] at h
  obtain ⟨hlen, hrest⟩ := sized_packet hbytes hpacket h
  exact List.append_inj hrest hlen

lemma value_front (hpacket : packet.length < 2 ^ 32) (more : List Byte) :
    valueBE ((encodePrefixed packet ++ more).take 4) = packet.length := by
  have htake : (encodePrefixed packet ++ more).take 4 = bytesBE 4 packet.length := by
    rw [encodePrefixed, List.append_assoc, List.take_left' (bytesBE_length _ _)]
  rw [htake, valueBE_bytesBE, Nat.mod_eq_of_lt (by omega)]

lemma drop_front (packet more : List Byte) :
    (encodePrefixed packet ++ more).drop 4 = packet ++ more := by
  rw [encodePrefixed, List.append_assoc, List.drop_left' (bytesBE_length _ _)]

/-- The count of a part that was stored. -/
lemma written_stored {n : ℕ} (hn : n < 2 ^ 64) : (BitVec.ofInt 64 (n : ℤ)).toNat = n := by
  simpa using hn

end Bytes

section Ring
variable {ring ring' : Machine} {bytes : List Byte} {i : ℕ} {a : Act} {phase : Phase}

lemma copied_store (h : Copied ring bytes i) (hi : i < bytes.length)
    (hring : act ring (.store i (bytes.getD i 0)) = some ring') : Copied ring' bytes (i + 1) := by
  obtain ⟨minimum, tail, grant, hp, -, hread⟩ := h
  obtain ⟨_, _, _, hgranted, rfl⟩ := act_store hring
  cases hp.symm.trans hgranted
  exact ⟨minimum, tail, grant, hp, hi, readRun_store hread hi⟩

lemma copied_ring (h : Copied ring bytes i) (ha : Background a)
    (hring : act ring a = some ring') : Copied ring' bytes i := by
  obtain ⟨minimum, tail, grant, hp, hi, hread⟩ := h
  obtain ⟨hproducer, hbuf⟩ := background_step ha hring hp
  exact ⟨minimum, tail, grant, hproducer.trans hp, hi, hbuf ▸ hread⟩

lemma commit_chunks {written : Size} (hring : act ring (.commit written) = some ring') :
    ∃ chunk, chunks ring' = chunks ring ++ [chunk] := by
  obtain ⟨minimum, tail, grant, hp, -, rfl⟩ := act_commit hring
  exact ⟨readRun ring.buf (grant.start.toNat + 8) written.toNat, by simp [chunks, inFlight, hp]⟩

/-- The chunk that is committed for as many bytes as were stored. -/
lemma commit_copied {written : Size} (h : Copied ring bytes bytes.length)
    (hwritten : written.toNat = bytes.length) (hring : act ring (.commit written) = some ring') :
    chunks ring' = chunks ring ++ [bytes] := by
  obtain ⟨minimum, tail, grant, hp, -, hread⟩ := h
  obtain ⟨_, _, _, hgranted, -, rfl⟩ := act_commit hring
  cases hp.symm.trans hgranted
  rw [hwritten, hread, List.take_length]
  simp [chunks, inFlight, hp]

lemma background_ne (ring : Machine) (ha : Background a) :
    (∀ minimum, a ≠ .request minimum) ∧ (∀ written, a ≠ .commit written) ∧ Fits ring a := by
  cases a <;> simp [Background, Fits] at ha ⊢

/-- While bytes are stored and read the grant stays as it is. -/
lemma same_grant (h : Copied ring bytes i) (ha : Background a ∨ ∃ j b, a = .store j b)
    (hring : act ring a = some ring') :
    ring'.producer = ring.producer ∧ ring'.head = ring.head := by
  obtain ⟨minimum, tail, grant, hp, -⟩ := h
  obtain ha | ⟨j, b, rfl⟩ := ha
  · cases a
    case request | store | commit => exact ha.elim
    case putByte | publish =>
      simp only [act, hp] at hring
      cases hring
    all_goals
      have hsame := act_reader hring trivial
      exact ⟨hsame.producer, hsame.head⟩
  · obtain ⟨_, _, _, -, rfl⟩ := act_store hring
    exact ⟨rfl, rfl⟩

lemma onTrack_ring (h : OnTrack ring phase) (ha : Background a)
    (hring : act ring a = some ring') : OnTrack ring' phase := by
  cases phase with
  | fresh => trivial
  | sized len =>
    obtain ⟨hlen, minimum, tail, grant, hp⟩ := h
    exact ⟨hlen, minimum, tail, grant, (background_step ha hring hp).1.trans hp⟩
  | filling bytes recvd i =>
    obtain ⟨hlen, hrecvd, hfits, hcopied⟩ := h
    have hne := background_ne ring ha
    exact ⟨hlen, hrecvd, fitsGrant_step hfits hne.1 hring, copied_ring hcopied ha hring⟩
  | aborted => exact h.elim

/-- What fits in the room granted lies in the buffer and in its free part. -/
lemma touched_free (h : Sound ring) {minimum tail : Size} {grant : Grant} {n : ℕ}
    (hp : ring.producer = .granted minimum tail grant) (hfits : FitsGrant ring n) :
    ∀ x, Touched ring.head grant n x → x < 8192 ∧ ¬ InUse ring.head ring.tail x := by
  intro x hx
  obtain ⟨t, hinv⟩ := h
  have hproducer := hinv.producer
  rw [ProducerAt, hp] at hproducer
  obtain ⟨w, hle, hlt, rfl⟩ :=
    touched_position hinv hproducer ((fitsGrant_granted hp n).mp hfits) hx
  exact ⟨Nat.mod_lt _ (by norm_num), hinv.not_inUse hle hlt⟩

/-- What fits is within the maximum that was reported. -/
lemma le_rsvd (h : Covers ring) {minimum tail : Size} {grant : Grant} {n : ℕ}
    (hp : ring.producer = .granted minimum tail grant) (hfits : FitsGrant ring n) :
    n ≤ grant.rsvd.toNat := by
  have hroom := (fitsGrant_granted hp n).mp hfits
  have hpad := le_pad8 n
  rw [Covers, hp] at h
  have hmax : room _ _ _ ≤ grant.rsvd.toNat := h
  omega

end Ring

section Steps
variable {sent : List (List Byte)} {s t : Link} {l : LinkAct} {packet : List Byte}

lemma aligned_start (buf : ℕ → Byte) (sent : List (List Byte)) : Aligned sent (linkStart buf sent) :=
  ⟨⟨0, ringInv_start buf⟩, trivial, by simp [linkStart], by simp [linkStart], List.nil_prefix,
    by simp [linkStart, chunks, inFlight, start, Phase.held], trivial⟩

lemma Aligned.delivered (h : Aligned sent s) : Delivered sent s := by
  refine ⟨h.counts, h.room, fun bytes recvd i minimum tail grant hphase hp => ?_, h.committed,
    ((obtained_front h.sound).trans (List.prefix_append _ _)).trans h.committed⟩
  have htrack := h.onTrack
  rw [hphase] at htrack
  exact touched_free h.sound hp htrack.2.2.1

/-- The bytes that are held or still to come start with the first packet that is not committed. -/
lemma Aligned.next (h : Aligned sent s) (hne : s.phase.held ++ s.pending ≠ []) :
    ∃ packet waiting, chunks s.ring ++ packet :: waiting = sent ∧
      s.phase.held ++ s.pending = encodePrefixed packet ++ encodings encodePrefixed waiting := by
  obtain ⟨waiting, hwaiting⟩ := h.committed
  have hkept := (encodings_waiting hwaiting).mp h.kept
  cases waiting with
  | nil => exact absurd hkept hne
  | cons packet waiting => exact ⟨packet, waiting, hwaiting, by simpa using hkept⟩

/-- A step of the ring other than a commit leaves the stream alone. -/
lemma Aligned.ring {ring : Machine} {phase : Phase} {a : Act} (h : Aligned sent s)
    (hring : act s.ring a = some ring) (hfits : Fits s.ring a)
    (hcommit : ∀ written, a ≠ .commit written) (hheld : phase.held = s.phase.held)
    (htrack : OnTrack ring phase) : Aligned sent { s with ring, phase } := by
  have hchunks := chunks_step hcommit hring
  refine ⟨sound_step h.sound hfits hring, covers_step h.sound h.covers hring, h.counts, h.room,
    hchunks ▸ h.committed, ?_, htrack⟩
  rw [hchunks, hheld]
  exact h.kept

/-- The prefix is taken from the stream. -/
lemma aligned_first {r : Result} (hsent : ∀ p ∈ sent, p ≠ [] ∧ p.length < 2 ^ 32)
    (h : Aligned sent s) (hok : ReadsWhole s (.first r))
    (hstep : linkAct s (.first r) = some t) : Aligned sent t := by
  obtain ⟨hphase, hgranted, ⟨rfl, havail, rfl⟩ | ⟨n, rfl, -, hn, rfl⟩ | ⟨-, isOpen, rfl⟩⟩ :=
    link_first hstep
  · have hheld : s.phase.held ++ s.pending = s.pending := by
      rw [hphase, Phase.held, List.nil_append]
    obtain ⟨packet, waiting, hwaiting, hnext⟩ := h.next (by
      rw [hheld, ← List.length_pos_iff]
      omega)
    have hpacket := (hsent packet (by simp [← hwaiting])).2
    rw [hheld] at hnext
    refine ⟨h.sound, h.covers, h.counts, h.room, h.committed, ?_, ?_⟩
    · rw [← h.kept, hheld, hnext]
      simp only [value_front hpacket, drop_front, Phase.held]
      rw [encodePrefixed, List.append_assoc]
    · rw [hnext, value_front hpacket]
      exact ⟨hpacket, hgranted⟩
  · exact absurd hok hn.ne
  · exact ⟨h.sound, h.covers, h.counts, h.room, h.committed, h.kept, h.onTrack⟩

/-- The body is taken from the stream. -/
lemma aligned_body {r : Result} (h : Aligned sent s) (hok : ReadsWhole s (.body r))
    (hstep : linkAct s (.body r) = some t) : Aligned sent t := by
  obtain ⟨len, hphase, hpossible, rfl⟩ := link_body hstep
  obtain ⟨rfl, hfits⟩ := hok
  rw [hphase, Phase.len] at hpossible hfits ⊢
  obtain ⟨-, -, havail⟩ := hpossible
  have htrack := h.onTrack
  rw [hphase] at htrack
  obtain ⟨hlen, minimum, tail, grant, hp⟩ := htrack
  have hstored : (s.pending.take len).length = len := by rw [List.length_take, min_eq_left havail]
  refine ⟨h.sound, h.covers, h.counts, h.room, h.committed, ?_, ?_⟩
  · rw [← h.kept, hphase]
    simp only [Result.stored, Phase.held, encodePrefixed, hstored, List.append_assoc,
      List.take_append_drop]
  · simp only [Result.stored, Result.value, OnTrack, hstored]
    exact ⟨hlen, trivial, hfits, minimum, tail, grant, hp, Nat.zero_le _, rfl⟩

/-- What was stored is committed. -/
lemma aligned_writeAdv (hsent : ∀ p ∈ sent, p ≠ [] ∧ p.length < 2 ^ 32) (h : Aligned sent s)
    (hstep : linkAct s .writeAdv = some t) : Aligned sent t := by
  obtain ⟨minimum, tail, grant, bytes, recvd, hp, hphase, hadvances, hpending, hcase⟩ :=
    link_writeAdv hstep
  have htrack := h.onTrack
  rw [hphase] at htrack
  obtain ⟨hlen, rfl, hfits, hcopied⟩ := htrack
  have hwritten := written_stored (n := bytes.length) (by omega)
  have hle : BitVec.ofInt 64 (bytes.length : ℤ) ≤ grant.rsvd := by
    rw [BitVec.le_def, hwritten]
    exact le_rsvd h.covers hp hfits
  obtain ⟨-, hfresh, hring⟩ | ⟨hnot, -⟩ := hcase
  · have hchunks := commit_copied hcopied hwritten hring
    have hcommit : Fits s.ring (.commit (BitVec.ofInt 64 (bytes.length : ℤ))) := by
      rw [Fits, hwritten]
      exact hfits
    obtain ⟨packet, waiting, hwaiting, hnext⟩ := h.next (by
      simp [hphase, Phase.held, encodePrefixed_ne_nil])
    rw [hphase, Phase.held] at hnext
    obtain ⟨rfl, hmore⟩ := filled_packet hlen (hsent packet (by simp [← hwaiting])).2 hnext
    refine ⟨sound_step h.sound hcommit hring, covers_step h.sound h.covers hring, ?_, ?_, ?_, ?_, ?_⟩
    · rw [hadvances, List.forall_mem_append, List.forall_mem_singleton]
      exact ⟨h.counts, hwritten⟩
    · rw [hadvances, List.forall_mem_append, List.forall_mem_singleton]
      exact ⟨h.room, (fitsGrant_granted hp _).mp hfits⟩
    · exact ⟨waiting, by rw [hchunks, ← hwaiting, List.append_assoc, List.singleton_append]⟩
    · rw [hchunks, hfresh, hpending, hmore, ← hwaiting]
      simp [Phase.held]
    · rw [hfresh]
      trivial
  · exact absurd hle hnot

lemma aligned_step (hsent : ∀ p ∈ sent, p ≠ [] ∧ p.length < 2 ^ 32) (h : Aligned sent s)
    (hok : ReadsWhole s l) (hstep : linkAct s l = some t) : Aligned sent t := by
  cases l with
  | request =>
    obtain ⟨hphase, ring, hring, rfl⟩ := link_request hstep
    exact h.ring hring trivial (by simp) rfl (by rw [hphase]; trivial)
  | first r => exact aligned_first hsent h hok hstep
  | body r => exact aligned_body h hok hstep
  | store =>
    obtain ⟨bytes, recvd, i, ring, hphase, hi, hring, rfl⟩ := link_store hstep
    have htrack := h.onTrack
    rw [hphase] at htrack
    obtain ⟨hlen, hrecvd, hfits, hcopied⟩ := htrack
    refine h.ring hring (fitsGrant_mono hfits hi) (by simp) (by rw [hphase]; rfl) ?_
    exact ⟨hlen, hrecvd, fitsGrant_step hfits (by simp) hring, copied_store hcopied hi hring⟩
  | writeAdv => exact aligned_writeAdv hsent h hstep
  | ring a =>
    obtain ⟨-, ha, ring, hring, rfl⟩ := link_ring hstep
    obtain ⟨-, hcommit, hfits⟩ := background_ne s.ring ha
    exact h.ring hring hfits hcommit rfl (onTrack_ring h.onTrack ha hring)


/-- Something was committed that the receiver does not owe. -/
def Spoilt (sent : List (List Byte)) (s : Link) : Prop :=
  (∃ a ∈ s.advances, a.written.toNat ≠ a.stored ∨ ¬ 8 + pad8 a.stored ≤ a.room) ∨
    ¬ chunks s.ring <+: sent

/-- The pass under way can come to no good end. -/
def Astray (sent : List (List Byte)) (s : Link) : Prop := ∃ bytes recvd i,
  s.phase = .filling bytes recvd i ∧ Copied s.ring bytes i ∧ Covers s.ring ∧
    ((BitVec.ofInt 64 recvd).toNat ≠ bytes.length ∨ ¬ FitsGrant s.ring bytes.length ∨
      ¬ chunks s.ring ++ [bytes] <+: sent)

lemma Spoilt.not_delivered (h : Spoilt sent s) : ¬ Delivered sent s := by
  intro hd
  obtain ⟨a, ha, hne | hroom⟩ | hchunks := h
  · exact hne (hd.counts a ha)
  · exact hroom (hd.room a ha)
  · exact hchunks hd.committed

/-- No step takes back what was committed. -/
lemma link_grows (hstep : linkAct s l = some t) :
    s.advances <+: t.advances ∧ chunks s.ring <+: chunks t.ring := by
  cases l with
  | request =>
    obtain ⟨-, ring, hring, rfl⟩ := link_request hstep
    exact ⟨List.prefix_rfl, by rw [chunks_step (by simp) hring]⟩
  | first r =>
    obtain ⟨-, -, ⟨-, -, rfl⟩ | ⟨n, -, -, -, rfl⟩ | ⟨-, isOpen, rfl⟩⟩ := link_first hstep
    all_goals exact ⟨List.prefix_rfl, List.prefix_rfl⟩
  | body r =>
    obtain ⟨len, -, -, rfl⟩ := link_body hstep
    exact ⟨List.prefix_rfl, List.prefix_rfl⟩
  | store =>
    obtain ⟨bytes, recvd, i, ring, -, -, hring, rfl⟩ := link_store hstep
    exact ⟨List.prefix_rfl, by rw [chunks_step (by simp) hring]⟩
  | writeAdv =>
    obtain ⟨minimum, tail, grant, bytes, recvd, hp, -, hadvances, -, hcase⟩ := link_writeAdv hstep
    refine ⟨hadvances ▸ List.prefix_append _ _, ?_⟩
    obtain ⟨-, -, hring⟩ | ⟨-, -, hring⟩ := hcase
    · obtain ⟨chunk, hchunks⟩ := commit_chunks hring
      exact hchunks ▸ List.prefix_append _ _
    · rw [hring]
  | ring a =>
    obtain ⟨-, ha, ring, hring, rfl⟩ := link_ring hstep
    exact ⟨List.prefix_rfl, by rw [chunks_step (background_ne s.ring ha).2.1 hring]⟩

lemma Spoilt.step (h : Spoilt sent s) (hstep : linkAct s l = some t) : Spoilt sent t := by
  obtain ⟨hadvances, hchunks⟩ := link_grows hstep
  obtain ⟨a, ha, hbad⟩ | hnot := h
  · exact .inl ⟨a, hadvances.subset ha, hbad⟩
  · exact .inr fun ht => hnot (hchunks.trans ht)

/-- The pass goes on, or its count is committed. -/
lemma Astray.step (h : Astray sent s) (hstep : linkAct s l = some t) :
    Astray sent t ∧ t.advances = s.advances ∨ Spoilt sent t := by
  obtain ⟨bytes, recvd, i, hphase, hcopied, hcovers, hbad⟩ := h
  have hgoes {ring : Machine} {a : Act} {j : ℕ} (ha : Background a ∨ ∃ j b, a = .store j b)
      (hring : act s.ring a = some ring) (hcopied' : Copied ring bytes j) :
      Astray sent { s with ring, phase := .filling bytes recvd j } := by
    obtain ⟨hproducer, hhead⟩ := same_grant hcopied ha hring
    have hcommit : ∀ written, a ≠ .commit written := by
      rintro written rfl
      simp [Background] at ha
    refine ⟨bytes, recvd, j, rfl, hcopied', ?_, ?_⟩
    · rw [Covers, hproducer, hhead]
      exact hcovers
    · rw [FitsGrant, hproducer, hhead, chunks_step hcommit hring]
      exact hbad
  cases l with
  | request => cases hphase.symm.trans (link_request hstep).1
  | first r => cases hphase.symm.trans (link_first hstep).1
  | body r =>
    obtain ⟨len, hsized, -⟩ := link_body hstep
    cases hphase.symm.trans hsized
  | store =>
    obtain ⟨_, _, _, ring, hphase', hi, hring, rfl⟩ := link_store hstep
    cases hphase.symm.trans hphase'
    exact .inl ⟨hgoes (.inr ⟨_, _, rfl⟩) hring (copied_store hcopied hi hring), rfl⟩
  | writeAdv =>
    obtain ⟨minimum, tail, grant, _, _, hp, hphase', hadvances, -, hcase⟩ := link_writeAdv hstep
    cases hphase.symm.trans hphase'
    refine .inr ?_
    have hmem := hadvances ▸ List.mem_append_right s.advances (List.mem_singleton_self _)
    by_cases hcount : (BitVec.ofInt 64 recvd).toNat = bytes.length
    · by_cases hfits : FitsGrant s.ring bytes.length
      · have hle : BitVec.ofInt 64 recvd ≤ grant.rsvd := by
          rw [BitVec.le_def, hcount]
          exact le_rsvd hcovers hp hfits
        have hnot := hbad.resolve_left (not_not_intro hcount) |>.resolve_left (not_not_intro hfits)
        obtain ⟨-, -, hring⟩ | ⟨hgt, -⟩ := hcase
        · exact .inr (commit_copied hcopied hcount hring ▸ hnot)
        · exact absurd hle hgt
      · exact .inl ⟨_, hmem, .inr fun hroom => hfits ((fitsGrant_granted hp _).mpr hroom)⟩
    · exact .inl ⟨_, hmem, .inl hcount⟩
  | ring a =>
    obtain ⟨-, ha, ring, hring, rfl⟩ := link_ring hstep
    have hnext := hgoes (.inl ha) hring (copied_ring hcopied ha hring)
    rw [← hphase] at hnext
    exact .inl ⟨hnext, rfl⟩

/-- A step that does not read what it should leads astray. -/
lemma astray_of_not (hsent : ∀ p ∈ sent, p ≠ [] ∧ p.length < 2 ^ 32) (h : Aligned sent s)
    (hnot : ¬ ReadsWhole s l) (hstep : linkAct s l = some t) :
    Astray sent t ∧ t.advances = s.advances := by
  cases l with
  | request | store | writeAdv | ring a => exact absurd trivial hnot
  | first r =>
    obtain ⟨hphase, ⟨minimum, tail, grant, hp⟩, hcase⟩ := link_first hstep
    obtain ⟨rfl, -⟩ | ⟨n, rfl, hpos, hn, rfl⟩ | ⟨hr, -⟩ := hcase
    · exact absurd rfl hnot
    · -- part of a prefix counts as bytes stored
      have hne : (BitVec.ofInt 64 (n : ℤ)).toNat ≠ ([] : List Byte).length := by
        rw [written_stored (by omega)]
        exact hpos.ne'
      exact ⟨⟨[], n, 0, rfl, ⟨minimum, tail, grant, hp, le_rfl, rfl⟩, h.covers, .inl hne⟩, rfl⟩
    · cases r with
      | got n => exact absurd rfl (hr n)
      | again | failed | zero => exact absurd trivial hnot
  | body r =>
    obtain ⟨len, hphase, hpossible, rfl⟩ := link_body hstep
    have htrack := h.onTrack
    rw [hphase] at htrack
    obtain ⟨hlen, minimum, tail, grant, hp⟩ := htrack
    refine ⟨⟨r.stored s.pending, r.value, 0, rfl, ⟨minimum, tail, grant, hp, Nat.zero_le _, rfl⟩,
      h.covers, ?_⟩, rfl⟩
    by_contra hgood
    rw [not_or, not_or, not_not, not_not, not_not] at hgood
    obtain ⟨-, hfits, hcommitted⟩ := hgood
    obtain ⟨packet, waiting, hwaiting, hnext⟩ := h.next (by
      simp [hphase, Phase.held, bytesBE])
    obtain ⟨hne, hpacket⟩ := hsent packet (by simp [← hwaiting])
    rw [hphase, Phase.held] at hnext
    obtain ⟨rfl, hpending⟩ := sized_packet hlen hpacket hnext
    rw [← hwaiting, List.prefix_append_right_inj] at hcommitted
    have hstored : r.stored s.pending = packet := (List.cons_prefix_cons.mp hcommitted).1
    cases r with
    | got n =>
      have hn : n = packet.length := by
        rw [← hstored, Result.stored, List.length_take, min_eq_left hpossible.2.2]
      rw [hstored] at hfits
      rw [ReadsWhole, hphase, Phase.len] at hnot
      exact hnot ⟨by rw [hn], hfits⟩
    | again | failed | zero => exact hne hstored.symm

/-- What is on track is not astray. -/
lemma Aligned.not_astray (hsent : ∀ p ∈ sent, p ≠ [] ∧ p.length < 2 ^ 32) (h : Aligned sent s) :
    ¬ Astray sent s := by
  rintro ⟨bytes, recvd, i, hphase, -, -, hbad⟩
  have htrack := h.onTrack
  rw [hphase] at htrack
  obtain ⟨hlen, rfl, hfits, -⟩ := htrack
  obtain ⟨packet, waiting, hwaiting, hnext⟩ := h.next (by
    simp [hphase, Phase.held, encodePrefixed_ne_nil])
  rw [hphase, Phase.held] at hnext
  obtain ⟨rfl, -⟩ := filled_packet hlen (hsent packet (by simp [← hwaiting])).2 hnext
  obtain hcount | hnot | hnot := hbad
  · exact hcount (written_stored (by omega))
  · exact hnot hfits
  · exact hnot ⟨waiting, by rw [← hwaiting, List.append_assoc, List.singleton_append]⟩

/-- One step keeps a run aligned exactly where it reads what it should. -/
lemma aligned_iff (hsent : ∀ p ∈ sent, p ≠ [] ∧ p.length < 2 ^ 32) (h : Aligned sent s)
    (hstep : linkAct s l = some t) : Aligned sent t ↔ ReadsWhole s l := by
  constructor
  · intro ht
    by_contra hnot
    exact ht.not_astray hsent (astray_of_not hsent h hnot hstep).1
  · exact fun hok => aligned_step hsent h hok hstep

/-- What is astray stays so until something wrong is committed. -/
lemma Astray.run (h : Astray sent s) (hrun : RunsTo (Steps linkAct) Free s t) :
    Astray sent t ∧ t.advances = s.advances ∨ Spoilt sent t := by
  refine hrun.invariant (P := fun t => Astray sent t ∧ t.advances = s.advances ∨ Spoilt sent t)
    (.inl ⟨h, rfl⟩) fun t l u ht _ hstep => ?_
  obtain ⟨hastray, hsame⟩ | hspoilt := ht
  · obtain ⟨hnext, hadvances⟩ | hspoilt := hastray.step hstep
    · exact .inl ⟨hnext, hadvances.trans hsame⟩
    · exact .inr hspoilt
  · exact .inr (hspoilt.step hstep)

end Steps

/-- In every run whose steps read whole packets that fit in the room granted, every count
committed was stored, nothing is overwritten, and the packets committed and handed over are
the first of those sent. A step that does otherwise breaks this as soon as its count is
committed. -/
theorem prefixed_framed (buf : ℕ → Byte) (sent : List (List Byte))
    (hsent : ∀ p ∈ sent, p ≠ [] ∧ p.length < 2 ^ 32) (s : Link)
    (hrun : RunsTo (Steps linkAct) ReadsWhole (linkStart buf sent) s) :
    Delivered sent s ∧ ∀ l t u, linkAct s l = some t → ¬ ReadsWhole s l →
      RunsTo (Steps linkAct) Free t u → u.advances ≠ s.advances → ¬ Delivered sent u := by
  have haligned : Aligned sent s := hrun.invariant (aligned_start buf sent)
    fun _ _ _ h hok hstep => aligned_step hsent h hok hstep
  refine ⟨haligned.delivered, fun l t u hstep hnot hfree hne => ?_⟩
  obtain ⟨hastray, hsame⟩ := astray_of_not hsent haligned hnot hstep
  obtain ⟨-, hadvances⟩ | hspoilt := hastray.run hfree
  · exact absurd (hadvances.trans hsame) hne
  · exact hspoilt.not_delivered

/-- A packet is received while the ring still holds the one before. -/
def twoPackets : List LinkAct := List.flatten
  [[.request, .first (.got 4), .body (.got 1), .store, .writeAdv],
    .replicate 8 (.ring .putByte),
    [.ring .publish, .request, .first .again, .request, .ring .readRequest, .first (.got 4),
      .body (.got 2), .store, .ring .readSize, .ring .readByte, .store, .ring .readDone, .writeAdv]]

theorem prefixed_framed_two : ∃ s, Delivered [[0x2f], [0x61, 0x62]] s ∧
    chunks s.ring = [[0x2f], [0x61, 0x62]] ∧ s.ring.obtained = [[0x2f]] := by
  have hfollow : (follow linkAct ReadsWhole (linkStart (fun _ => 0) [[0x2f], [0x61, 0x62]])
      twoPackets).map (fun s => (chunks s.ring, s.ring.obtained)) =
        some ([[0x2f], [0x61, 0x62]], [[0x2f]]) := by decide +kernel
  obtain ⟨s, hs, heq⟩ := Option.map_eq_some_iff.mp hfollow
  obtain ⟨hchunks, hobtained⟩ := Prod.mk.inj heq
  have hrun := runsTo_follow linkAct ReadsWhole RunsTo.refl hs
  exact ⟨s, (prefixed_framed _ _ (by decide +kernel) s hrun).1, hchunks, hobtained⟩

/-- The body is not there yet when the prefix is read, and -1 is committed. -/
theorem prefixed_minus_one : ¬ ∀ (buf : ℕ → Byte) (sent : List (List Byte)),
    (∀ p ∈ sent, p ≠ [] ∧ p.length < 2 ^ 32) →
    ∀ s, RunsTo (Steps linkAct) Free (linkStart buf sent) s →
      ∀ a ∈ s.advances, a.written.toNat = a.stored := by
  intro h
  have hfollow : (follow linkAct Free (linkStart (fun _ => 0) [[0x2f]])
      [.request, .first (.got 4), .body .again, .writeAdv]).map Link.advances =
        some [⟨BitVec.ofInt 64 (-1), 0, 8184⟩] := by decide +kernel
  obtain ⟨s, hs, hadvances⟩ := Option.map_eq_some_iff.mp hfollow
  have hrun := runsTo_follow linkAct Free RunsTo.refl hs
  have hcount := h _ _ (by decide +kernel) s hrun _ (hadvances ▸ List.mem_singleton_self _)
  simp at hcount

end Osc2FtdiDmx.PrefixReceive
