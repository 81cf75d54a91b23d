import Osc2FtdiDmx.MessageCues
import Osc2FtdiDmx.MessageRefusal
import Osc2FtdiDmx.ScheduleDrain

/-! The loop of `_beat` from the ring to the adapter: the packets that wait in the ring,
the elements of the schedule that are due, the frame, and its transmission. -/
namespace Osc2FtdiDmx.BeatFrames
open BytesEndian OscMemory OscReader FuelledRuns PacketHandler PacketFlatten BeatLoop ScheduleDrain
open MessageEncoding PriorityLevels SlotStore SlotRefinement LightingDesk OscTree MessageRefusal
open MessageCues MessageLaw

/-- A packet as `varchunk_read_request` hands it out. -/
structure RingPacket where
  mem : Memory
  buf : Addr
  len : Addr

/-- What libftdi returns to the three calls of `_ftdi_xmit`. -/
structure Line where
  breakOn : ℤ
  breakOff : ℤ
  written : ℤ

/-- One pass through the loop of `_beat`: what the ring holds, the variable `to`, and what
libftdi answers. -/
structure Turn where
  inbox : List RingPacket
  now : Timespec
  line : Line

/-- `app->dmx`, with the start code that is never written and so stays 0. -/
def dmxBytes (data : Fin 512 → Byte) : List Byte := 0 :: List.ofFn data

/-- `_ftdi_xmit`: whether it succeeds, and what it handed to `ftdi_write_data`. -/
def ftdiXmit (line : Line) (dmx : List Byte) : Bool × List (List Byte) :=
  if line.breakOn ≠ 0 then (false, []) else
    if line.breakOff ≠ 0 then (false, []) else
      (line.written = dmx.length, [dmx])

section Code
variable (H : Host State)

def readRing (fuel : ℕ) : App State → List RingPacket → Fuelled Fault (App State)
  | app, [] => pure app
  | app, p :: ps => do
      let app ← handleOscPacket H.toEnv p.mem fuel app oscImmediate p.buf p.len
      readRing fuel app ps

/-- One pass: whether `_ftdi_xmit` succeeded, and what was written to the adapter. -/
def beatTurn (fuel : ℕ) (app : App State) (turn : Turn) :
    Fuelled Fault (App State × Bool × List (List Byte)) := do
  let app ← readRing H fuel app turn.inbox
  let (app, _) ← drainLoop H turn.now fuel app []
  pure (app, ftdiXmit turn.line (dmxBytes (fillDmx app.state.slots)))

/-- The loop of `_beat`, which a failed transmission ends, with all that was written. -/
def beatLoop (fuel : ℕ) : App State → List Turn → Fuelled Fault (App State × List (List Byte))
  | app, [] => pure (app, [])
  | app, turn :: turns => do
      let (app, ok, sent) ← beatTurn H fuel app turn
      if ok then
        let (app, rest) ← beatLoop fuel app turns
        pure (app, sent ++ rest)
      else pure (app, sent)

end Code

/-- The allocator: which calls of `malloc` get a block, and where the block of an element lies. -/
structure Allocator where
  malloc : ℕ → Addr → Bool
  heap : Sched → Memory
  addr : Sched → Addr
  placed : ∀ elmnt, elmnt.buf.length < 2 ^ 31 → Placed (heap elmnt) (addr elmnt) elmnt.buf

/-- The environment of `_beat` with the message handler of the program. -/
def Allocator.host (A : Allocator) (pm : List Byte → List Byte → Bool) : Host State :=
  { oscEnv pm A.malloc with heap := A.heap, addr := A.addr, placed := A.placed }

/-- A packet in the ring that is a tree of well-formed messages. -/
structure Delivery where
  score : Score
  mem : Memory
  buf : Addr
  placed : Placed mem buf score.packet.encode
  size : score.packet.encode.length < 2 ^ 31

def Delivery.ring (d : Delivery) : RingPacket :=
  ⟨d.mem, d.buf, BitVec.ofNat 64 d.score.packet.encode.length⟩

/-- A pass through the loop of `_beat` that finds such packets in the ring. -/
structure Beat where
  inbox : List Delivery
  now : Timespec
  line : Line

def Beat.turn (b : Beat) : Turn := ⟨b.inbox.map Delivery.ring, b.now, b.line⟩

section Cues
variable (pm : List Byte → List Byte → Bool) (A : Allocator)

/-- Each message that has to wait is a call of `malloc`. -/
def calls (msgs : List (BitVec 64 × Message)) : ℕ := msgs.countP (·.1 ≠ oscImmediate)

@[simp] lemma calls_append (msgs msgs' : List (BitVec 64 × Message)) :
    calls (msgs ++ msgs') = calls msgs + calls msgs' := List.countP_append

/-- The cue of a message with its timetag, unless the call `n` of `malloc` fails for it. -/
def cueOf (n : ℕ) (tm : BitVec 64 × Message) : Option (Option ℤ × Cue Pair Byte) :=
  if tm.1 = oscImmediate then some (none, messageCue pm tm.2) else
    if A.malloc n (sizeofSched + BitVec.ofNat 64 tm.2.encode.length) then
      some (some (schedDue tm.1).nanos, messageCue pm tm.2)
    else none

/-- The cues of messages in a row, after `n` calls of `malloc`. -/
def cuesFrom : ℕ → List (BitVec 64 × Message) → List (Option ℤ × Cue Pair Byte)
  | _, [] => []
  | n, tm :: msgs => (cueOf pm A n tm).toList ++ cuesFrom (n + calls [tm]) msgs

lemma cuesFrom_append (n : ℕ) (msgs msgs' : List (BitVec 64 × Message)) :
    cuesFrom pm A n (msgs ++ msgs') =
      cuesFrom pm A n msgs ++ cuesFrom pm A (n + calls msgs) msgs' := by
  induction msgs generalizing n with
  | nil => rfl
  | cons tm msgs ih =>
    have hcalls : calls (tm :: msgs) = calls [tm] + calls msgs := calls_append [tm] msgs
    simp only [List.cons_append, cuesFrom, ih, hcalls, List.append_assoc, Nat.add_assoc]

def scoreMessages (scores : List Score) : List (BitVec 64 × Message) :=
  scores.flatMap (·.flatten oscImmediate)

/-- The messages that come in during a beat, and the time of its end. -/
def Beat.heard (b : Beat) : List (BitVec 64 × Message) × ℤ :=
  (scoreMessages (b.inbox.map Delivery.score), b.now.nanos)

/-- The beats as the desk takes them, from the call `n` of `malloc` on. -/
def turnsFrom : ℕ → List (List (BitVec 64 × Message) × ℤ) → List (List (Option ℤ × Cue Pair Byte) × ℤ)
  | _, [] => []
  | n, (msgs, now) :: turns => (cuesFrom pm A n msgs, now) :: turnsFrom (n + calls msgs) turns

lemma turnsFrom_append (n : ℕ) (turns turns' : List (List (BitVec 64 × Message) × ℤ)) :
    turnsFrom pm A n (turns ++ turns') =
      turnsFrom pm A n turns ++ turnsFrom pm A (n + calls (turns.flatMap (·.1))) turns' := by
  induction turns generalizing n with
  | nil => rfl
  | cons turn turns ih =>
    obtain ⟨msgs, now⟩ := turn
    simp only [List.cons_append, turnsFrom, ih, List.flatMap_cons, calls_append, Nat.add_assoc]

lemma turnsFrom_length (n : ℕ) (turns : List (List (BitVec 64 × Message) × ℤ)) :
    (turnsFrom pm A n turns).length = turns.length := by
  induction turns generalizing n with
  | nil => rfl
  | cons turn turns ih =>
    obtain ⟨msgs, now⟩ := turn
    simp only [turnsFrom, List.length_cons, ih]

/-- What `_ftdi_xmit` hands on of a sequence of frames, until it fails. -/
def transmissions : List Line → List (List Byte) → List (List Byte)
  | line :: lines, dmx :: frames =>
      let (ok, sent) := ftdiXmit line dmx
      if ok then sent ++ transmissions lines frames else sent
  | _, _ => []

end Cues

/-- An element of the schedule and the waiting cue it stands for. -/
def Element (pm : List Byte → List Byte → Bool) (e : Sched) (w : ℤ × Cue Pair Byte) : Prop :=
  ∃ msg : Message, e.buf = msg.encode ∧ e.buf.length < 2 ^ 31 ∧
    e.len = BitVec.ofNat 64 e.buf.length ∧ e.due.tvNsec = 0 ∧
    w = (e.due.nanos, messageCue pm msg)

/-- The slots represent the levels of the desk, the schedule the line of its cues; `malloc`
was called `n` times. -/
structure Follows (pm : List Byte → List Byte → Bool) (n : ℕ) (desk : Desk Pair Byte ℤ)
    (app : App State) : Prop where
  slots : Represents app.state.slots desk.levels
  list : List.Forall₂ (Element pm) app.list desk.waiting
  fresh : app.fresh = n

section Steps
variable {pm : List Byte → List Byte → Bool} {A : Allocator} {n : ℕ} {desk : Desk Pair Byte ℤ}
variable {app : App State} {m : Memory}

lemma elements_flat {list : List Sched} {ws : List (ℤ × Cue Pair Byte)}
    (h : List.Forall₂ (Element pm) list ws) : ∀ e ∈ list, e.due.tvNsec = 0 := by
  induction h with
  | nil => simp
  | cons helem _ ih =>
    obtain ⟨msg, -, -, -, hflat, -⟩ := helem
    exact List.forall_mem_cons.mpr ⟨hflat, ih⟩

/-- A message that has to wait goes to the end of the line. -/
lemma follows_schedOne (h : Follows pm n desk app) (t : BitVec 64) {msg : Message}
    (hlen : msg.encode.length < 2 ^ 31) :
    Follows pm (n + 1) (desk.take (some (schedDue t).nanos, messageCue pm msg))
      (schedOne app t msg.encode) := by
  have hflat := schedDue_nsec t
  have htail : schedAppend app.list (schedElement app t msg.encode) =
      app.list ++ [schedElement app t msg.encode] :=
    schedAppend_tail fun e he => (elements_flat h.list e he).trans_le hflat.ge
  refine ⟨h.slots, ?_, congrArg (· + 1) h.fresh⟩
  simp only [schedOne, htail, Desk.take]
  exact List.rel_append h.list (.cons ⟨msg, rfl, hlen, rfl, hflat, rfl⟩ .nil)

/-- A message in memory is played, put on the schedule, or dropped for want of memory. -/
lemma follows_spot (h : Follows pm n desk app) {t : BitVec 64} {a : Addr} {msg : Message}
    (hplaced : Placed m a msg.encode) (hlen : msg.encode.length < 2 ^ 31) :
    ∃ app', handleSpot (oscEnv pm A.malloc) m app ⟨t, a, msg.encode⟩ = .ok app' ∧
      Follows pm (n + calls [(t, msg)]) (desk.takeAll (cueOf pm A n (t, msg)).toList) app' := by
  rw [handleSpot, cueOf]
  by_cases ht : t = oscImmediate
  · obtain ⟨state', hrun, hslots⟩ := message_plays hplaced h.slots
    have hcalls : calls [(t, msg)] = 0 := by simp [calls, ht]
    rw [if_pos ht, if_pos ht, hcalls]
    change ∃ app', (handleOscMessage pm m _ _ app.state >>= _) = _ ∧ _
    rw [Spot.len, hrun, ok_bind]
    exact ⟨_, rfl, hslots, h.list, h.fresh⟩
  · have hcalls : calls [(t, msg)] = 1 := by simp [calls, ht]
    rw [if_neg ht, if_neg ht, hcalls, ← h.fresh]
    by_cases hroom : A.malloc app.fresh (sizeofSched + BitVec.ofNat 64 msg.encode.length) = true
    · rw [if_pos hroom]
      refine ⟨_, if_pos hroom, ?_⟩
      rw [h.fresh]
      exact follows_schedOne h t hlen
    · rw [if_neg hroom]
      exact ⟨_, if_neg hroom, h.slots, h.list, rfl⟩

/-- By induction on the messages; the calls of `malloc` go on from one to the next. -/
lemma follows_spots {spots : List Spot} {msgs : List (BitVec 64 × Message)}
    (hplaced : ∀ s ∈ spots, Placed m s.addr s.bytes ∧ s.bytes.length < 2 ^ 31)
    (hmsgs : spots.map (fun s => (s.timetag, s.bytes)) = msgs.map fun tm => (tm.1, tm.2.encode))
    (h : Follows pm n desk app) :
    ∃ app', spots.foldlM (handleSpot (oscEnv pm A.malloc) m) app = .ok app' ∧
      Follows pm (n + calls msgs) (desk.takeAll (cuesFrom pm A n msgs)) app' := by
  induction spots generalizing msgs n desk app with
  | nil =>
    obtain rfl : msgs = [] := by simpa using hmsgs.symm
    exact ⟨app, rfl, h⟩
  | cons s spots ih =>
    rcases msgs with _ | ⟨⟨t, msg⟩, msgs⟩
    · simp at hmsgs
    · obtain ⟨t', a, bytes⟩ := s
      simp only [List.map_cons, List.cons.injEq, Prod.mk.injEq] at hmsgs
      obtain ⟨⟨rfl, rfl⟩, hmsgs⟩ := hmsgs
      obtain ⟨hthis, hrest⟩ := List.forall_mem_cons.mp hplaced
      obtain ⟨mid, hmid, hfollows⟩ := follows_spot (A := A) h hthis.1 hthis.2
      obtain ⟨app', hrun, hfollows'⟩ := ih hrest hmsgs hfollows
      refine ⟨app', ?_, ?_⟩
      · rw [List.foldlM_cons, hmid]
        exact hrun
      · have hcalls : calls ((t', msg) :: msgs) = calls [(t', msg)] + calls msgs :=
          calls_append [(t', msg)] msgs
        rw [cuesFrom, Desk.takeAll, List.foldl_append, hcalls, ← Nat.add_assoc]
        exact hfollows'

/-- A packet from the ring is taken cue by cue. -/
lemma follows_delivery (h : Follows pm n desk app) (d : Delivery) :
    ∃ app', Settles (fun fuel => handleOscPacket (A.host pm).toEnv d.mem fuel app oscImmediate d.buf
        (BitVec.ofNat 64 d.score.packet.encode.length)) (.ok app') ∧
      Follows pm (n + calls (d.score.flatten oscImmediate))
        (desk.takeAll (cuesFrom pm A n (d.score.flatten oscImmediate))) app' := by
  have hspots : ∀ s ∈ d.score.packet.place oscImmediate d.buf,
      Placed d.mem s.addr s.bytes ∧ s.bytes.length < 2 ^ 31 := fun s hs =>
    ⟨place_placed _ _ _ d.placed s hs, (spots_bytes _ _ d.size s hs).2⟩
  have hmsgs := (place_flatten d.score.packet oscImmediate d.buf).trans
    (packet_flatten d.score oscImmediate)
  obtain ⟨app', hrun, hfollows⟩ := follows_spots (A := A) hspots hmsgs h
  obtain ⟨N, hN⟩ := packet_settles (handles_handleSpot (A.host pm).toEnv d.mem) d.score.packet app
    oscImmediate d.buf d.placed d.size
  refine ⟨app', ⟨N, fun k hk => (hN k hk).trans ?_⟩, hfollows⟩
  change lift (List.foldlM (handleSpot (oscEnv pm A.malloc) d.mem) app _) = _
  rw [hrun]
  rfl

/-- The block of an element that is due holds a message, which is played. -/
lemma element_plays {e : Sched} {w : ℤ × Cue Pair Byte} (he : Element pm e w)
    {M : Pair → Option Byte} (hM : Represents app.state.slots M) :
    ∃ state', Represents state'.slots (play M w.2) ∧
      ∃ N, ∀ n ≥ N, handleOscPacket (A.host pm).toEnv (A.heap e) n app oscImmediate (A.addr e)
        e.len = lift (.ok state' >>= fun state => .ok { app with state }) := by
  obtain ⟨msg, hbuf, hlen, hsize, -, rfl⟩ := he
  have hplaced := A.placed e hlen
  rw [hbuf] at hplaced hlen hsize
  obtain ⟨state', hrun, hslots⟩ := message_plays hplaced hM
  obtain ⟨N, hN⟩ := packet_settles (handles_handleSpot (A.host pm).toEnv (A.heap e))
    (.message msg.encode.tail) app oscImmediate (A.addr e) hplaced hlen
  refine ⟨state', hslots, N, fun n hn => ?_⟩
  have hpacket := hN n hn
  rw [Packet.encode, encode_slash, ← hsize] at hpacket
  rw [hpacket, Packet.place, List.foldlM_cons, handleSpot, if_pos rfl, encode_slash]
  change lift ((handleOscMessage pm (A.heap e) _ _ app.state >>= _) >>= _) = _
  rw [Spot.len, hrun]
  rfl

/-- The drain of the schedule moves the line of the desk up to the time of the beat. By
induction on the line; each round takes its first cue. -/
lemma follows_drain {waiting : List (ℤ × Cue Pair Byte)} (h : Follows pm n desk app)
    (hwaiting : desk.waiting = waiting) (now : Timespec) (ran : List Sched) :
    ∃ app' ran', Settles (fun fuel => drainLoop (A.host pm) now fuel app ran) (.ok (app', ran')) ∧
      Follows pm n (desk.advance now.nanos) app' := by
  induction waiting generalizing desk app ran with
  | nil =>
    have hlist : app.list = [] := List.forall₂_nil_right_iff.mp (hwaiting ▸ h.list)
    refine ⟨app, ran, ⟨1, fun k hk => ?_⟩, ?_⟩
    · obtain ⟨k, rfl⟩ : ∃ j, k = j + 1 := ⟨k - 1, by omega⟩
      exact drain_stop (fun e rest he => by rw [hlist] at he; cases he) ran k
    · rwa [Desk.advance_nil hwaiting]
  | cons w waiting ih =>
    obtain ⟨e, list, he, hrest, hlist⟩ := List.forall₂_cons_right_iff.mp (hwaiting ▸ h.list)
    have hdue : w.1 = e.due.nanos := by
      obtain ⟨msg, -, -, -, -, rfl⟩ := he
      rfl
    by_cases hearly : drainDiff now e < 0
    · refine ⟨app, ran, ⟨1, fun k hk => ?_⟩, ?_⟩
      · obtain ⟨k, rfl⟩ : ∃ j, k = j + 1 := ⟨k - 1, by omega⟩
        refine drain_stop (fun e' rest he' => ?_) ran k
        rw [hlist] at he'
        cases he'
        exact hearly
      · rw [drainDiff_neg, ← hdue] at hearly
        rwa [Desk.advance_early hwaiting hearly]
    · obtain ⟨state', hslots, N, hN⟩ := element_plays (A := A) he h.slots
      have hplayed : Follows pm n ⟨play desk.levels w.2, waiting⟩
          { app with state := state', list } := ⟨hslots, hrest, h.fresh⟩
      obtain ⟨app', ran', ⟨K, hK⟩, hfollows⟩ := ih hplayed rfl (ran ++ [e])
      refine ⟨app', ran', ⟨max N K + 1, fun k hk => ?_⟩, ?_⟩
      · obtain ⟨k, rfl⟩ : ∃ j, k = j + 1 := ⟨k - 1, by omega⟩
        change drainLoop (A.host pm) now (k + 1) app ran = _
        rw [drain_round (H := A.host pm) hlist hearly (hN k (by omega))]
        exact hK k (by omega)
      · rw [drainDiff_neg, ← hdue, not_lt] at hearly
        rwa [Desk.advance_due hwaiting hearly]

lemma follows_inbox (h : Follows pm n desk app) (ds : List Delivery) :
    ∃ app', Settles (fun fuel => readRing (A.host pm) fuel app (ds.map Delivery.ring)) (.ok app') ∧
      Follows pm (n + calls (scoreMessages (ds.map Delivery.score)))
        (desk.takeAll (cuesFrom pm A n (scoreMessages (ds.map Delivery.score)))) app' := by
  induction ds generalizing n desk app with
  | nil => exact ⟨app, .const _, h⟩
  | cons d ds ih =>
    obtain ⟨mid, hmid, hfollows⟩ := follows_delivery (A := A) h d
    obtain ⟨app', hrun, hfollows'⟩ := ih hfollows
    refine ⟨app', hmid.bind hrun, ?_⟩
    have hmsgs : scoreMessages ((d :: ds).map Delivery.score) =
        d.score.flatten oscImmediate ++ scoreMessages (ds.map Delivery.score) := rfl
    rw [hmsgs, cuesFrom_append, Desk.takeAll, List.foldl_append, calls_append, ← Nat.add_assoc]
    exact hfollows'

/-- The frame of the code is the frame of the desk. -/
lemma Follows.frame (h : Follows pm n desk app) : fillDmx app.state.slots = desk.frame 0 :=
  funext h.slots.getVal

lemma follows_turn (h : Follows pm n desk app) (b : Beat) :
    ∃ app', Follows pm (n + calls b.heard.1)
        ((desk.takeAll (cuesFrom pm A n b.heard.1)).advance b.heard.2) app' ∧
      Settles (fun fuel => beatTurn (A.host pm) fuel app b.turn) (.ok (app', ftdiXmit b.line
        (dmxBytes (((desk.takeAll (cuesFrom pm A n b.heard.1)).advance b.heard.2).frame 0)))) := by
  obtain ⟨mid, hring, hmid⟩ := follows_inbox (A := A) h b.inbox
  obtain ⟨app', ran, hdrain, hfollows⟩ := follows_drain (A := A) hmid rfl b.now []
  refine ⟨app', hfollows, ?_⟩
  rw [Beat.heard, ← hfollows.frame]
  exact hring.bind (hdrain.bind (.const _))

/-- By induction on the beats; a failed transmission ends both sequences. -/
lemma follows_loop (h : Follows pm n desk app) (beats : List Beat) :
    ∃ app', Settles (fun fuel => beatLoop (A.host pm) fuel app (beats.map Beat.turn))
      (.ok (app', transmissions (beats.map Beat.line)
        ((desk.frames 0 (turnsFrom pm A n (beats.map Beat.heard))).map dmxBytes))) := by
  induction beats generalizing n desk app with
  | nil => exact ⟨app, .const _⟩
  | cons b beats ih =>
    obtain ⟨mid, hfollows, hturn⟩ := follows_turn (A := A) h b
    simp only [List.map_cons, turnsFrom, Desk.frames, transmissions, beatLoop]
    generalize ftdiXmit b.line _ = answer at hturn ⊢
    rcases answer with ⟨_ | _, sent⟩
    · exact ⟨mid, hturn.bind (.const _)⟩
    · obtain ⟨app', hrest⟩ := ih hfollows
      exact ⟨app', hturn.bind (hrest.bind (.const _))⟩

end Steps

section Example

/-- All memory there is, and blocks at one address. -/
def plainAllocator : Allocator where
  malloc := plainHost.malloc
  heap := plainHost.heap
  addr := plainHost.addr
  placed := plainHost.placed

def threeDelivery : Delivery where
  score := .message threeChannels
  mem := image 0x1000 threeChannels.encode
  buf := 0x1000
  placed := placed_image (by decide)
  size := by decide

/-- A beat that finds the message, and one that finds nothing. -/
def twoBeats : List Beat := [⟨[threeDelivery], ⟨1, 0⟩, ⟨0, 0, 513⟩⟩, ⟨[], ⟨2, 0⟩, ⟨0, 0, 512⟩⟩]

end Example

end Osc2FtdiDmx.BeatFrames
