import Osc2FtdiDmx.BeatFrames
import Osc2FtdiDmx.UdpReceive

/-! The bridge at work: the input thread receives datagrams into the ring, the `_beat`
thread handles the packets where they lie in the ring, runs the schedule and fills a
frame. The steps of the two threads interleave freely. -/
namespace Osc2FtdiDmx.BridgeSystem
open BytesEndian CircularBuffer OscMemory OscReader FuelledRuns TransitionRuns
open PacketHandler BeatLoop VarchunkRing VarchunkThreads RingInvariant RingConsumer RingRuns RingHandoff UdpReceive
open PriorityLevels SlotStore SlotRefinement LightingDesk OscTree MessageEncoding MessageLaw
open MessageCues BeatFrames

/-- Where `_beat` stands: in the loop over the ring, behind the handler of the packet it
was handed, or at the schedule. -/
inductive Place
  | ring
  | handled
  | schedule
  deriving DecidableEq

/-- `app` and the frames are the `_beat` thread's own; `times` are the times of its beats. -/
structure Bridge where
  udp : Udp
  place : Place
  app : App State
  frames : List (Fin 512 → Byte)
  times : List Timespec

/-- The buffer of the ring, mapped from `base` on. -/
def ringMemory (base : Addr) (buf : ℕ → Byte) : Memory := fun p =>
  if (p - base).toNat < 8192 then some (buf (p - base).toNat) else none

/-- What `varchunk_read_request` returns for the chunk at the tail. -/
def heldPacket (base : Addr) (s : Machine) : RingPacket :=
  ⟨ringMemory base s.buf, base + s.tail + 8, (readWord s.buf s.tail.toNat).setWidth 64⟩

inductive BridgeAct
  | udp (a : UdpAct)
  | handle
  | beat (now : Timespec)

/-- The loop over the ring ends where a request returns NULL; a packet is released after it
was handled. -/
def placeAfter (place : Place) (a : UdpAct) (consumer : Consumer) : Option Place :=
  match a, place with
  | .ring .readRequest, .ring =>
      match consumer with
      | .idle => some .schedule
      | _ => some .ring
  | .ring .readAdvance, .handled => some .handled
  | .ring .release, .handled => some .ring
  | .ring .readRequest, _ | .ring .readAdvance, _ | .ring .release, _ => none
  | _, _ => some place

section Code
variable (pm : List Byte → List Byte → Bool) (A : Allocator) (base : Addr)

def bridgeStep (b : Bridge) : BridgeAct → Bridge → Prop
  | .udp a, b' => ∃ udp place, udpAct b.udp a = some udp ∧
      placeAfter b.place a udp.ring.consumer = some place ∧ b' = { b with udp, place }
  | .handle, b' => b.place = .ring ∧ b.udp.ring.consumer = .holding ∧
      ∃ app, Converges (fun fuel => handleOscPacket (A.host pm).toEnv (heldPacket base b.udp.ring).mem
          fuel b.app oscImmediate (heldPacket base b.udp.ring).buf (heldPacket base b.udp.ring).len)
          (.ok app) ∧
        b' = { b with app, place := .handled }
  | .beat now, b' => b.place = .schedule ∧
      ∃ app ran, Converges (fun fuel => drainLoop (A.host pm) now fuel b.app []) (.ok (app, ran)) ∧
        b' = { b with
          app
          place := .ring
          frames := b.frames ++ [fillDmx app.state.slots]
          times := b.times ++ [now] }

end Code

/-- The bytes are a tree of well-formed messages. -/
def Plays (bytes : List Byte) : Prop := ∃ score : Score, bytes = score.packet.encode

/-- The datagrams received are such trees and fit in the room they are granted. -/
def Admissible (b : Bridge) : BridgeAct → Prop
  | .udp a => FitsDatagram b.udp a ∧ ∀ datagram, a = .receive datagram → Plays datagram
  | _ => True

/-- What the packets handled are among those that the ring handed out. -/
def Handled (place : Place) (consumer : Consumer) (obtained done : List (List Byte)) : Prop :=
  match place, consumer with
  | .ring, .holding => ∃ got, obtained = done ++ [got]
  | .ring, .advancing _ => False
  | .ring, _ => obtained = done
  | .handled, .holding => obtained = done
  | .handled, .advancing _ => obtained = done
  | .handled, _ => False
  | .schedule, .idle => obtained = done
  | .schedule, _ => False

section Ring
variable {s s' : Machine} {u u' : Udp}

/-- What belongs to the reader is left alone by the producer. -/
structure SameConsumer (s s' : Machine) : Prop where
  consumer : s'.consumer = s.consumer
  obtained : s'.obtained = s.obtained

lemma act_producer {a : Act} (h : act s a = some s') (ha : ¬ a.OfReader) : SameConsumer s s' := by
  cases a
  case request minimum => rcases act_request h with ⟨_, -, rfl⟩ | rfl <;> exact ⟨rfl, rfl⟩
  case store i b =>
    obtain ⟨_, _, _, -, rfl⟩ := act_store h
    exact ⟨rfl, rfl⟩
  case commit written =>
    obtain ⟨_, _, _, -, -, rfl⟩ := act_commit h
    exact ⟨rfl, rfl⟩
  case putByte =>
    obtain ⟨_, _, _, _, -, rfl⟩ := act_putByte h
    exact ⟨rfl, rfl⟩
  case publish =>
    obtain ⟨_, _, -, rfl⟩ := act_publish h
    exact ⟨rfl, rfl⟩
  all_goals exact absurd trivial ha

/-- A step of `_beat` on the ring. -/
def OfBeat : UdpAct → Prop
  | .ring a => a.OfReader
  | _ => False

lemma udp_producer {a : UdpAct} (h : udpAct u a = some u') (ha : ¬ OfBeat a) :
    SameConsumer u.ring u'.ring := by
  cases a with
  | request =>
    obtain ⟨-, ring, hring, rfl⟩ := udp_request h
    exact act_producer hring id
  | receive datagram =>
    obtain ⟨-, rfl⟩ := udp_receive h
    exact ⟨rfl, rfl⟩
  | store =>
    obtain ⟨_, _, _, _, _, ring, -, -, -, hring, rfl⟩ := udp_store h
    exact act_producer hring id
  | commit =>
    obtain ⟨_, _, _, _, ring, -, -, hring, rfl⟩ := udp_commit h
    exact act_producer hring id
  | ring a =>
    obtain ⟨-, ring, hring, rfl⟩ := udp_ring h
    exact act_producer hring ha

lemma place_producer {place place' : Place} {a : UdpAct} {consumer : Consumer} (ha : ¬ OfBeat a)
    (h : placeAfter place a consumer = some place') : place' = place := by
  cases a with
  | ring a =>
    cases a <;> first | exact absurd trivial ha | exact (Option.some.inj h).symm
  | _ => exact (Option.some.inj h).symm

/-- By cases on the step of `_beat`: where it stands tells which steps it can take. -/
lemma handled_reader {place place' : Place} {a : Act} {done : List (List Byte)}
    (h : Handled place s.consumer s.obtained done) (ha : a.OfReader) (hstep : act s a = some s')
    (hplace : placeAfter place (.ring a) s'.consumer = some place') :
    Handled place' s'.consumer s'.obtained done := by
  cases a
  case request | store | commit | putByte | publish => exact ha.elim
  case readRequest =>
    obtain ⟨hc, hcases⟩ := act_readRequest hstep
    cases place <;> simp only [placeAfter, reduceCtorEq] at hplace
    rw [hc] at h
    obtain ⟨-, rfl⟩ | ⟨-, -, rfl⟩ | ⟨-, -, rfl⟩ := hcases
    · rw [hc] at hplace ⊢
      cases hplace
      exact h
    · cases hplace
      exact h
    · cases hplace
      exact h
  case checkGap =>
    obtain ⟨hc, hcases⟩ := act_checkGap hstep
    rw [hc] at h
    cases hplace
    cases place <;> simp only [Handled] at h
    obtain ⟨-, rfl⟩ | ⟨-, rfl⟩ := hcases <;> exact h
  case skipGap =>
    obtain ⟨hc, rfl⟩ := act_skipGap hstep
    rw [hc] at h
    cases hplace
    cases place <;> simp only [Handled] at h
    exact h
  case readSize =>
    obtain ⟨_, hc, rfl⟩ := act_readSize hstep
    rw [hc] at h
    cases hplace
    cases place <;> simp only [Handled] at h
    exact h
  case readByte =>
    obtain ⟨_, _, _, hc, -, rfl⟩ := act_readByte hstep
    rw [hc] at h
    cases hplace
    cases place <;> simp only [Handled] at h
    exact h
  case readDone =>
    obtain ⟨_, _, got, hc, -, rfl⟩ := act_readDone hstep
    rw [hc] at h
    cases hplace
    cases place <;> simp only [Handled] at h
    exact ⟨got, congrArg (· ++ [got]) h⟩
  case readAdvance =>
    obtain ⟨hc, rfl⟩ := act_readAdvance hstep
    cases place <;> simp only [placeAfter, reduceCtorEq] at hplace
    cases hplace
    rw [hc] at h
    exact h
  case release =>
    obtain ⟨_, hc, rfl⟩ := act_release hstep
    cases place <;> simp only [placeAfter, reduceCtorEq] at hplace
    cases hplace
    rw [hc] at h
    exact h

lemma handled_udp {place place' : Place} {a : UdpAct} {done : List (List Byte)}
    (h : Handled place u.ring.consumer u.ring.obtained done) (hstep : udpAct u a = some u')
    (hplace : placeAfter place a u'.ring.consumer = some place') :
    Handled place' u'.ring.consumer u'.ring.obtained done := by
  by_cases ha : OfBeat a
  · cases a with
    | ring a =>
      obtain ⟨-, ring, hring, rfl⟩ := udp_ring hstep
      exact handled_reader h ha hring hplace
    | _ => exact ha.elim
  · have hsame := udp_producer hstep ha
    rw [place_producer ha hplace, hsame.consumer, hsame.obtained]
    exact h

/-- The datagrams that wait or are committed came in by an admissible step. -/
structure AllPlay (u : Udp) : Prop where
  datagrams : ∀ datagram ∈ u.datagrams, Plays datagram
  pending : ∀ datagram i, u.pending = some (datagram, i) → Plays datagram

lemma allPlay_udp {a : UdpAct} (h : AllPlay u)
    (hok : ∀ datagram, a = .receive datagram → Plays datagram)
    (hstep : udpAct u a = some u') : AllPlay u' := by
  cases a with
  | request =>
    obtain ⟨-, ring, -, rfl⟩ := udp_request hstep
    exact ⟨h.datagrams, h.pending⟩
  | receive datagram =>
    obtain ⟨-, rfl⟩ := udp_receive hstep
    refine ⟨h.datagrams, ?_⟩
    rintro _ _ ⟨⟩
    exact hok datagram rfl
  | store =>
    obtain ⟨_, _, _, datagram, i, ring, -, hq, -, -, rfl⟩ := udp_store hstep
    refine ⟨h.datagrams, ?_⟩
    rintro _ _ ⟨⟩
    exact h.pending datagram i hq
  | commit =>
    obtain ⟨_, _, _, datagram, ring, -, hq, -, rfl⟩ := udp_commit hstep
    refine ⟨fun d hd => ?_, by simp⟩
    rcases List.mem_append.mp hd with hd | hd
    · exact h.datagrams d hd
    · rw [List.mem_singleton.mp hd]
      exact h.pending datagram _ hq
  | ring a =>
    obtain ⟨-, ring, -, rfl⟩ := udp_ring hstep
    exact ⟨h.datagrams, h.pending⟩

lemma ring_holds (base : Addr) (buf : ℕ → Byte) {off n : ℕ} (h : off + n ≤ 8192) :
    Holds (ringMemory base buf) (base + BitVec.ofNat 64 off) (readRun buf off n) := by
  induction n generalizing off with
  | zero => trivial
  | succ n ih =>
    have hoff : (base + BitVec.ofNat 64 off - base).toNat = off := by
      rw [BitVec.add_comm, BitVec.add_sub_cancel, BitVec.toNat_ofNat]
      omega
    have hnext : base + BitVec.ofNat 64 off + 1 = base + BitVec.ofNat 64 (off + 1) := by
      rw [BitVec.ofNat_add, BitVec.add_assoc]
      rfl
    rw [Nat.add_comm n 1, readRun_add]
    refine ⟨?_, ?_⟩
    · simp only [ringMemory, hoff, if_pos (show off < 8192 by omega), Nat.add_zero]
    · rw [hnext]
      exact ih (by omega)

/-- The packet at hand lies in the ring, with its length in front of it. -/
lemma held_placed {base : Addr} (hbase : base.toNat + 8192 + 16 ≤ 2 ^ 64) (h : Sound s)
    (hc : s.consumer = .holding) {done : List (List Byte)} {got : List Byte}
    (hgot : s.obtained = done ++ [got]) :
    Placed (heldPacket base s).mem (heldPacket base s).buf got ∧
      (heldPacket base s).len = BitVec.ofNat 64 got.length ∧ got.length < 8192 := by
  obtain ⟨t, h⟩ := h
  have hconsumer := h.consumer
  rw [ConsumerAt, hc] at hconsumer
  obtain ⟨hobtained, e, es, hqueue, hgap⟩ := hconsumer
  have hdata : got = e.data := by
    have hlog := h.log
    rw [hqueue, List.map_cons] at hlog
    have hhead : s.committed[s.released]? = some e.data := by
      rw [← List.head?_drop, hlog]
      rfl
    rw [hobtained, List.take_add_one, hhead] at hgot
    have hlast := (List.append_inj' hgot rfl).2
    simpa using hlast.symm
  subst hdata
  obtain ⟨hsize, -, hdata, hbound⟩ := firstChunk h hqueue hgap
  have hpad := le_pad8 e.data.length
  have hbuf : (heldPacket base s).buf = base + BitVec.ofNat 64 (s.tail.toNat + 8) := by
    rw [heldPacket, BitVec.ofNat_add, BitVec.ofNat_toNat, BitVec.setWidth_eq, BitVec.add_assoc]
    rfl
  have hnat : (base + BitVec.ofNat 64 (s.tail.toNat + 8)).toNat = base.toNat + (s.tail.toNat + 8) := by
    rw [BitVec.toNat_add, BitVec.toNat_ofNat]
    omega
  refine ⟨⟨?_, ?_⟩, ?_, by omega⟩
  · have hholds := ring_holds base s.buf (show s.tail.toNat + 8 + e.data.length ≤ 8192 by omega)
    rwa [hdata, ← hbuf] at hholds
  · rw [hbuf, hnat]
    omega
  · apply BitVec.eq_of_toNat_eq
    rw [heldPacket, BitVec.toNat_setWidth, hsize, BitVec.toNat_ofNat]

end Ring

section Runs
variable {pm : List Byte → List Byte → Bool} {A : Allocator} {base : Addr} {M : Pair → Option Byte}
variable {b b' : Bridge}

/-- The messages that came in during a beat, with its time. -/
def heard (turn : List Score × Timespec) : List (BitVec 64 × Message) × ℤ :=
  (scoreMessages turn.1, turn.2.nanos)

/-- The calls of `malloc` during the beats so far. -/
def callsIn (turns : List (List Score × Timespec)) : ℕ := calls ((turns.map heard).flatMap (·.1))

/-- The beats as the desk takes them. -/
def deskTurns (pm : List Byte → List Byte → Bool) (A : Allocator)
    (turns : List (List Score × Timespec)) : List (List (Option ℤ × Cue Pair Byte) × ℤ) :=
  turnsFrom pm A 0 (turns.map heard)

lemma deskTurns_concat (turns : List (List Score × Timespec)) (turn : List Score × Timespec) :
    deskTurns pm A (turns ++ [turn]) = deskTurns pm A turns ++
      [(cuesFrom pm A (callsIn turns) (scoreMessages turn.1), turn.2.nanos)] := by
  rw [deskTurns, List.map_append, turnsFrom_append, Nat.zero_add]
  rfl

lemma callsIn_concat (turns : List (List Score × Timespec)) (turn : List Score × Timespec) :
    callsIn (turns ++ [turn]) = callsIn turns + calls (scoreMessages turn.1) := by
  simp [callsIn, heard]

def encodeAll (scores : List Score) : List (List Byte) := scores.map fun score => score.packet.encode

/-- What `_beat` has made of the turns so far, and of what it handled since the last of them. -/
structure Played (pm : List Byte → List Byte → Bool) (A : Allocator) (M : Pair → Option Byte)
    (turns : List (List Score × Timespec)) (inbox : List Score) (app : App State)
    (frames : List (Fin 512 → Byte)) (times : List Timespec) : Prop where
  follows : Follows pm (callsIn turns + calls (scoreMessages inbox))
    ((Desk.after ⟨M, []⟩ (deskTurns pm A turns)).takeAll
      (cuesFrom pm A (callsIn turns) (scoreMessages inbox))) app
  frames : frames = Desk.frames 0 ⟨M, []⟩ (deskTurns pm A turns)
  times : times = turns.map (·.2)

/-- The packet at hand is handled as what it came in as. -/
lemma Played.handle {turns : List (List Score × Timespec)} {inbox : List Score} {app : App State}
    {frames : List (Fin 512 → Byte)} {times : List Timespec} {ring : Machine}
    {done : List (List Byte)} {got : List Byte} (h : Played pm A M turns inbox app frames times)
    (hbase : base.toNat + 8192 + 16 ≤ 2 ^ 64) (hsound : Sound ring)
    (hc : ring.consumer = .holding) (hgot : ring.obtained = done ++ [got]) (hplays : Plays got) :
    ∃ score app', got = score.packet.encode ∧
      Played pm A M turns (inbox ++ [score]) app' frames times ∧
      Converges (fun fuel => handleOscPacket (A.host pm).toEnv (heldPacket base ring).mem fuel
        app oscImmediate (heldPacket base ring).buf (heldPacket base ring).len) (.ok app') := by
  obtain ⟨score, rfl⟩ := hplays
  obtain ⟨hplaced, hlen, hsize⟩ := held_placed hbase hsound hc hgot
  obtain ⟨app', hrun, hfollows⟩ := follows_delivery (A := A) h.follows
    ⟨score, (heldPacket base ring).mem, (heldPacket base ring).buf, hplaced, by omega⟩
  rw [← hlen] at hrun
  refine ⟨score, app', rfl, ⟨?_, h.frames, h.times⟩, hrun.converges (ok_ne_starve _)⟩
  have hmsgs : scoreMessages (inbox ++ [score]) =
      scoreMessages inbox ++ score.flatten PacketHandler.oscImmediate := by simp [scoreMessages]
  rw [hmsgs, calls_append, cuesFrom_append, Desk.takeAll, List.foldl_append, ← Nat.add_assoc]
  exact hfollows

/-- The schedule runs, and the beat is over. -/
lemma Played.beat {turns : List (List Score × Timespec)} {inbox : List Score} {app : App State}
    {frames : List (Fin 512 → Byte)} {times : List Timespec}
    (h : Played pm A M turns inbox app frames times) (now : Timespec) :
    ∃ app' ran, Converges (fun fuel => drainLoop (A.host pm) now fuel app []) (.ok (app', ran)) ∧
      Played pm A M (turns ++ [(inbox, now)]) [] app' (frames ++ [fillDmx app'.state.slots])
        (times ++ [now]) := by
  obtain ⟨app', ran, hrun, hfollows⟩ := follows_drain (A := A) h.follows rfl now []
  have hafter : ((Desk.after ⟨M, []⟩ (deskTurns pm A turns)).takeAll
      (cuesFrom pm A (callsIn turns) (scoreMessages inbox))).advance now.nanos =
      Desk.after ⟨M, []⟩ (deskTurns pm A (turns ++ [(inbox, now)])) := by
    rw [deskTurns_concat, Desk.after, Desk.after, List.foldl_append]
    rfl
  rw [hafter, ← callsIn_concat turns (inbox, now)] at hfollows
  refine ⟨app', ran, hrun.converges (ok_ne_starve _), hfollows, ?_, ?_⟩
  · have hframe := hfollows.frame
    rw [deskTurns_concat] at hframe
    rw [deskTurns_concat, Desk.frames_append_singleton, ← hframe, ← h.frames]
  · rw [h.times, List.map_append, List.map_singleton]

/-- The beats so far are the turns of the desk; `inbox` was handled since the last of them. -/
structure Inv (pm : List Byte → List Byte → Bool) (A : Allocator) (M : Pair → Option Byte)
    (turns : List (List Score × Timespec)) (inbox : List Score) (b : Bridge) : Prop
    extends Played pm A M turns inbox b.app b.frames b.times where
  whole : Whole b.udp
  plays : AllPlay b.udp
  handled : Handled b.place b.udp.ring.consumer b.udp.ring.obtained
    (encodeAll (turns.flatMap (·.1) ++ inbox))

variable {turns : List (List Score × Timespec)} {inbox : List Score}

lemma Inv.udp {a : UdpAct} (h : Inv pm A M turns inbox b) (hok : Admissible b (.udp a))
    (hstep : bridgeStep pm A base b (.udp a) b') : Inv pm A M turns inbox b' := by
  obtain ⟨udp, place, hudp, hplace, rfl⟩ := hstep
  exact ⟨h.toPlayed, whole_step h.whole hok.1 hudp, allPlay_udp h.plays hok.2 hudp,
    handled_udp h.handled hudp hplace⟩

/-- The packet at hand is handled as the datagram it came in as. -/
lemma Inv.handle (h : Inv pm A M turns inbox b) (hbase : base.toNat + 8192 + 16 ≤ 2 ^ 64)
    (hplace : b.place = .ring) (hc : b.udp.ring.consumer = .holding) :
    ∃ score app, Inv pm A M turns (inbox ++ [score]) { b with app, place := .handled } ∧
      Converges (fun fuel => handleOscPacket (A.host pm).toEnv (heldPacket base b.udp.ring).mem fuel
        b.app oscImmediate (heldPacket base b.udp.ring).buf (heldPacket base b.udp.ring).len)
        (.ok app) := by
  have hhandled := h.handled
  rw [hplace, hc] at hhandled
  obtain ⟨got, hgot⟩ := hhandled
  have hmem : got ∈ b.udp.datagrams := by
    have hfront := (obtained_front h.whole.sound).trans
      (List.prefix_append b.udp.ring.committed (inFlight b.udp.ring.producer))
    have hchunks := h.whole.chunks
    rw [chunks] at hchunks
    rw [hchunks, hgot] at hfront
    exact hfront.subset (by simp)
  obtain ⟨score, app, rfl, hplayed, hrun⟩ :=
    h.toPlayed.handle hbase h.whole.sound hc hgot (h.plays.datagrams got hmem)
  refine ⟨score, app, ⟨hplayed, h.whole, h.plays, ?_⟩, hrun⟩
  rw [hc, hgot]
  simp [Handled, encodeAll]

/-- The schedule runs, and the beat is over. -/
lemma Inv.beat (h : Inv pm A M turns inbox b) (hplace : b.place = .schedule) (now : Timespec) :
    ∃ app ran, Converges (fun fuel => drainLoop (A.host pm) now fuel b.app []) (.ok (app, ran)) ∧
      Inv pm A M (turns ++ [(inbox, now)]) []
        { b with
          app
          place := .ring
          frames := b.frames ++ [fillDmx app.state.slots]
          times := b.times ++ [now] } := by
  obtain ⟨app, ran, hrun, hplayed⟩ := h.toPlayed.beat now
  refine ⟨app, ran, hrun, hplayed, h.whole, h.plays, ?_⟩
  have hhandled := h.handled
  rw [hplace] at hhandled
  cases hc : b.udp.ring.consumer <;> simp only [Handled, hc] at hhandled ⊢
  simpa using hhandled

lemma Inv.front (h : Inv pm A M turns inbox b) : b.udp.ring.obtained <+: b.udp.datagrams := by
  rw [← h.whole.chunks]
  exact (obtained_front h.whole.sound).trans (List.prefix_append _ _)

end Runs

section Example

end Example

end Osc2FtdiDmx.BridgeSystem
