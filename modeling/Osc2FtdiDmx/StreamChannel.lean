import Osc2FtdiDmx.StreamSend

/-! Both ends of a stream: a sending loop, the bytes on the wire, and a receiving loop that
takes them as they come. -/
namespace Osc2FtdiDmx.StreamChannel
open BytesEndian FramedStreams SlipDecode TransitionRuns StreamSend
open SlipReceive (Port Recv recvAct Spares Received received_step delivered_start rxSize)
open PrefixReceive (encodePrefixed encodePrefixed_ne_nil linkAct Aligned ReadsWhole LinkAct)
open UdpReceive (chunks)

/-- The receiver at the other end: what it does, how bytes reach it, and what it owes for the
packets of which the frames were sent. -/
structure Receiving (σ L : Type) where
  framing : Framing
  act : σ → L → Option σ
  feed : σ → List Byte → σ
  Owes : List (List Byte) → σ → Prop
  Ok : List (List Byte) → σ → L → Prop
  owes_feed : ∀ {sent s packet}, Owes sent s →
    Owes (sent ++ [packet]) (feed s (framing.encode packet))
  owes_only : ∀ {sent s bytes}, Owes sent s → Owes sent (feed s bytes) → bytes = []
  feed_nil : ∀ s, feed s [] = s
  owes_act : ∀ {sent s l t}, (∀ p ∈ sent, framing.Sends p ∧ framing.Sound p) → Owes sent s →
    act s l = some t → (Owes sent t ↔ Ok sent s l)

/-- Both ends. `offered` are the packets that were ever put into the queue, `sent` those of
which the whole frame was sent. -/
structure Channel (σ : Type) where
  sender : Sender
  offered : List (List Byte)
  sent : List (List Byte)
  link : σ

inductive Move (L : Type)
  | offer (packet : List Byte)
  | send (r : Send)
  | receive (l : L)

section Channel
variable {σ L : Type} (R : Receiving σ L) (port : Port)

/-- The packets of which the frame went out between two states of the queue. -/
def sentBy (framing : Framing) (s t : Sender) : List (List Byte) :=
  (s.queue.take (s.queue.length - t.queue.length)).filter framing.Sends

def channelAct (c : Channel σ) : Move L → Option (Channel σ)
  | .offer packet => some { c with
      sender := { c.sender with queue := c.sender.queue ++ [packet] }
      offered := c.offered ++ [packet] }
  | .send r => (sendPass R.framing port c.sender r).map fun (sender, bytes) =>
      { c with
        sender
        sent := c.sent ++ sentBy R.framing c.sender sender
        link := R.feed c.link bytes }
  | .receive l => (R.act c.link l).map fun link => { c with link }

def channelStart (mem : List Byte) (link : σ) : Channel σ := ⟨⟨[], mem, false, true⟩, [], [], link⟩

/-- Packets are offered that may be, no frame is cut short, and the receiver's calls are as
it needs them. -/
def MoveOk (c : Channel σ) : Move L → Prop
  | .offer packet => R.framing.Sound packet
  | .send r => ¬ CutShort R.framing c.sender r
  | .receive l => R.Ok c.sent c.link l

/-- What the channel owes. -/
structure Carried (c : Channel σ) : Prop where
  owes : R.Owes c.sent c.link
  order : c.sent ++ c.sender.queue.filter R.framing.Sends = c.offered.filter R.framing.Sends
  clean : c.sender.overrun = false

structure ChannelInv (c : Channel σ) : Prop extends Carried R c where
  sound : ∀ p ∈ c.offered, R.framing.Sound p
  queued : ∀ p ∈ c.sender.queue, R.framing.Sound p
  mem : txSize ≤ c.sender.mem.length

variable {R} {port} {c d : Channel σ} {l : Move L} {mem : List Byte} {link : σ}

lemma channelInv_start (hmem : txSize ≤ mem.length) (h : R.Owes [] link) :
    ChannelInv R (channelStart mem link) :=
  ⟨⟨h, rfl, rfl⟩, by simp [channelStart], by simp [channelStart], hmem⟩

lemma sent_bounds (h : ChannelInv R c) : ∀ p ∈ c.sent, R.framing.Sends p ∧ R.framing.Sound p := by
  intro p hp
  have hoffered : p ∈ c.offered.filter R.framing.Sends := by
    rw [← h.order]
    exact List.mem_append_left _ hp
  rw [List.mem_filter] at hoffered
  exact ⟨by simpa using hoffered.2, h.sound p hoffered.1⟩

lemma offer_inv {packet : List Byte} (h : ChannelInv R c) (hsound : R.framing.Sound packet)
    (hstep : channelAct R port c (.offer packet) = some d) : ChannelInv R d := by
  cases hstep
  refine ⟨⟨h.owes, ?_, h.clean⟩, ?_, ?_, h.mem⟩
  · simp [← h.order, List.filter_append]
  · exact List.forall_mem_append.mpr ⟨h.sound, by simpa using hsound⟩
  · exact List.forall_mem_append.mpr ⟨h.queued, by simpa using hsound⟩

lemma sentBy_same (framing : Framing) {s t : Sender} (h : t.queue = s.queue) :
    sentBy framing s t = [] := by
  simp [sentBy, h]

lemma sentBy_whole {framing : Framing} {s t : Sender} {packet : List Byte}
    (h : s.queue = packet :: t.queue) (hsends : framing.Sends packet) :
    sentBy framing s t = [packet] := by
  simp [sentBy, h, hsends]

lemma sentBy_dropped {framing : Framing} {s t : Sender} {packet : List Byte}
    (h : s.queue = packet :: t.queue) (hsends : ¬ framing.Sends packet) :
    sentBy framing s t = [] := by
  simp [sentBy, h, hsends]

/-- A pass of the sender keeps what the channel owes exactly where no frame is cut short. -/
lemma send_inv {r : Send} (h : ChannelInv R c) (hstep : channelAct R port c (.send r) = some d) :
    (Carried R d ↔ ¬ CutShort R.framing c.sender r) ∧ (Carried R d → ChannelInv R d) := by
  obtain ⟨⟨t, bytes⟩, hpass, rfl⟩ := Option.map_eq_some_iff.mp hstep
  obtain ⟨packet, queue, hqueue, hoverrun, hmem, hcase⟩ := sendPass_cases h.queued h.mem hpass
  have hclean : t.overrun = false := hoverrun.trans h.clean
  have hinv (hqueued : ∀ p ∈ t.queue, p ∈ c.sender.queue) :
      Carried R ⟨t, c.offered, c.sent ++ sentBy R.framing c.sender t, R.feed c.link bytes⟩ →
        ChannelInv R ⟨t, c.offered, c.sent ++ sentBy R.framing c.sender t, R.feed c.link bytes⟩ :=
    fun hd => ⟨hd, h.sound, fun p hp => h.queued p (hqueued p hp), hmem ▸ h.mem⟩
  have hnext (hqueued : t.queue = queue) : c.sender.queue = packet :: t.queue := by
    rw [hqueue, hqueued]
  obtain ⟨hnot, ⟨⟨hsends, hq, rfl⟩ | ⟨hsends, hq, rfl⟩ | ⟨hq, rfl⟩⟩⟩ | ⟨hcut, hq, hne⟩ := hcase
  · -- the packet is passed over
    have hsent := sentBy_dropped (hnext hq) hsends
    refine ⟨iff_of_true ⟨?_, ?_, hclean⟩ hnot, hinv fun p hp => ?_⟩
    · simpa [hsent, R.feed_nil] using h.owes
    · simpa [hsent, hnext hq, hsends] using h.order
    · simp [hnext hq, hp]
  · -- the frame is on the wire as a whole
    have hsent := sentBy_whole (hnext hq) hsends
    refine ⟨iff_of_true ⟨?_, ?_, hclean⟩ hnot, hinv fun p hp => ?_⟩
    · simpa [hsent] using R.owes_feed h.owes
    · simpa [hsent, hnext hq, hsends] using h.order
    · simp [hnext hq, hp]
  · -- everything stays as it was
    have hsent := sentBy_same R.framing hq
    refine ⟨iff_of_true ⟨?_, ?_, hclean⟩ hnot, hinv fun p hp => hq ▸ hp⟩
    · simpa [hsent, R.feed_nil] using h.owes
    · simpa [hsent, hq] using h.order
  · have hsent := sentBy_same R.framing hq
    have hno : ¬ Carried R ⟨t, c.offered, c.sent ++ sentBy R.framing c.sender t,
        R.feed c.link bytes⟩ := fun hd => by
      have howes := hd.owes
      rw [hsent, List.append_nil] at howes
      exact hne (R.owes_only h.owes howes)
    exact ⟨iff_of_false hno (not_not_intro hcut), fun hd => absurd hd hno⟩

lemma receive_inv {l : L} (h : ChannelInv R c)
    (hstep : channelAct R port c (.receive l) = some d) :
    (Carried R d ↔ R.Ok c.sent c.link l) ∧ (Carried R d → ChannelInv R d) := by
  obtain ⟨link, hact, rfl⟩ := Option.map_eq_some_iff.mp hstep
  have howes := R.owes_act (sent_bounds h) h.owes hact
  refine ⟨⟨fun hd => howes.mp hd.owes, fun hok => ⟨howes.mpr hok, h.order, h.clean⟩⟩, fun hd => ?_⟩
  exact ⟨hd, h.sound, h.queued, h.mem⟩

/-- One move keeps what the channel owes exactly where it is made as it should be. -/
lemma move_inv (h : ChannelInv R c) (hok : MoveOk R c l) (hstep : channelAct R port c l = some d) :
    ChannelInv R d := by
  cases l with
  | offer packet => exact offer_inv h hok hstep
  | send r =>
    have hsend := send_inv h hstep
    exact hsend.2 (hsend.1.mpr hok)
  | receive l =>
    have hreceive := receive_inv h hstep
    exact hreceive.2 (hreceive.1.mpr hok)

/-- In every run of such moves, in whatever order, the channel keeps its invariant. -/
theorem channel_inv (hmem : txSize ≤ mem.length) (hlink : R.Owes [] link)
    (hrun : RunsTo (Steps (channelAct R port)) (MoveOk R) (channelStart mem link) c) :
    ChannelInv R c :=
  hrun.invariant (channelInv_start hmem hlink) fun _ _ _ h hok hstep => move_inv h hok hstep

lemma sent_initial (h : ChannelInv R c) : c.sent <+: c.offered.filter R.framing.Sends :=
  ⟨_, h.order⟩

lemma sent_all (h : ChannelInv R c) (hqueue : c.sender.queue = []) :
    c.sent = c.offered.filter R.framing.Sends := by
  simpa [hqueue] using h.order

end Channel

section Feed
variable {sent : List (List Byte)} {packet bytes : List Byte}

def feedSlip (s : SlipReceive.Link) (bytes : List Byte) : SlipReceive.Link :=
  { s with pending := s.pending ++ bytes }

def feedSized (s : PrefixReceive.Link) (bytes : List Byte) : PrefixReceive.Link :=
  { s with pending := s.pending ++ bytes }

lemma received_feed {s : SlipReceive.Link} (h : Received sent s) :
    Received (sent ++ [packet]) (feedSlip s (slipEncode packet)) := by
  refine ⟨h.committed.trans (List.prefix_append _ _), ?_, h.room, fun hnil _ => ?_⟩
  · rw [encodings_append, ← h.kept]
    simp [feedSlip]
  · simp [feedSlip, slipEncode] at hnil

lemma received_only {s : SlipReceive.Link} (h : Received sent s)
    (h' : Received sent (feedSlip s bytes)) : bytes = [] := by
  have hkept := h'.kept
  rw [← h.kept, feedSlip, ← List.append_assoc] at hkept
  simpa using hkept

lemma feedSlip_nil (s : SlipReceive.Link) : feedSlip s [] = s := by simp [feedSlip]

lemma received_act {port : Port} {s t : SlipReceive.Link} {l : Recv}
    (hsent : ∀ p ∈ sent, Framing.slip.Sends p ∧ Framing.slip.Sound p) (h : Received sent s)
    (hstep : recvAct port s l = some t) : Received sent t ↔ Spares sent s l := by
  refine received_step (fun p hp => ?_) h hstep
  obtain ⟨⟨hne, hlen⟩, hsound⟩ := hsent p hp
  exact ⟨hne, hsound hlen⟩

lemma aligned_feed {s : PrefixReceive.Link} (h : Aligned sent s) :
    Aligned (sent ++ [packet]) (feedSized s (encodePrefixed packet)) := by
  refine ⟨h.sound, h.covers, h.counts, h.room, h.committed.trans (List.prefix_append _ _), ?_,
    h.onTrack⟩
  rw [encodings_append, ← h.kept]
  simp [feedSized]

lemma aligned_only {s : PrefixReceive.Link} (h : Aligned sent s)
    (h' : Aligned sent (feedSized s bytes)) : bytes = [] := by
  have hkept := h'.kept
  rw [← h.kept, feedSized, List.append_cancel_left_eq, List.append_cancel_left_eq] at hkept
  simpa using hkept

lemma feedSized_nil (s : PrefixReceive.Link) : feedSized s [] = s := by simp [feedSized]

lemma aligned_act {s t : PrefixReceive.Link} {l : LinkAct}
    (hsent : ∀ p ∈ sent, Framing.sized.Sends p ∧ Framing.sized.Sound p) (h : Aligned sent s)
    (hstep : linkAct s l = some t) : Aligned sent t ↔ ReadsWhole s l := by
  refine PrefixReceive.aligned_iff (fun p hp => ?_) h hstep
  obtain ⟨hlen, hne⟩ := hsent p hp
  simp only [Framing.Sends, txSize] at hlen
  exact ⟨hne, by omega⟩

/-- All packets are committed when no bytes are left and no pass is under way. -/
lemma aligned_whole {s : PrefixReceive.Link} (h : Aligned sent s) (hphase : s.phase = .fresh)
    (hpending : s.pending = []) : chunks s.ring = sent := by
  obtain ⟨waiting, hwaiting⟩ := h.committed
  have hkept := (encodings_waiting hwaiting).mp h.kept
  rw [hphase, hpending, PrefixReceive.Phase.held, List.append_nil] at hkept
  rw [← hwaiting, encodings_eq_nil encodePrefixed_ne_nil hkept.symm, List.append_nil]

end Feed

/-- The receiving loop for SLIP frames. -/
def slipReceiving (port : Port) : Receiving SlipReceive.Link Recv where
  framing := .slip
  act := recvAct port
  feed := feedSlip
  Owes := Received
  Ok := Spares
  owes_feed := received_feed
  owes_only := received_only
  feed_nil := feedSlip_nil
  owes_act := received_act

/-- The receiving loop for packets with their length in front. -/
def sizedReceiving : Receiving PrefixReceive.Link LinkAct where
  framing := .sized
  act := linkAct
  feed := feedSized
  Owes := Aligned
  Ok _ := ReadsWhole
  owes_feed := aligned_feed
  owes_only := aligned_only
  feed_nil := feedSized_nil
  owes_act := aligned_act

instance (port : Port) (c : Channel SlipReceive.Link) :
    ∀ l, Decidable (MoveOk (slipReceiving port) c l)
  | .offer packet => inferInstanceAs (Decidable (Framing.slip.Sound packet))
  | .send r => inferInstanceAs (Decidable (¬ CutShort .slip c.sender r))
  | .receive l => inferInstanceAs (Decidable (Spares c.sent c.link l))

instance (c : Channel PrefixReceive.Link) : ∀ l, Decidable (MoveOk sizedReceiving c l)
  | .offer packet => inferInstanceAs (Decidable (Framing.sized.Sound packet))
  | .send r => inferInstanceAs (Decidable (¬ CutShort .sized c.sender r))
  | .receive l => inferInstanceAs (Decidable (ReadsWhole c.link l))

/-- With SLIP frames. The packets that arrive are the first of those that were offered and are
not too long, nothing is stored behind `tx_buf`, and all arrive as soon as the queue and the
wire are empty and none is refused. A frame that is cut short, or a call that does not spare
the packet it holds back, breaks what the channel owes. -/
theorem slip_channel (port : Port) (mem : List Byte) (hmem : txSize ≤ mem.length)
    (c : Channel SlipReceive.Link)
    (hrun : RunsTo (Steps (channelAct (slipReceiving port) port)) (MoveOk (slipReceiving port))
      (channelStart mem (SlipReceive.linkStart [])) c) :
    c.sender.overrun = false ∧
    c.link.committed <+: c.offered.filter Framing.slip.Sends ∧
    (c.sender.queue = [] → c.link.pending = [] → c.link.refused = false →
      c.link.committed = c.offered.filter Framing.slip.Sends) ∧
    (∀ r d, channelAct (slipReceiving port) port c (.send r) = some d →
      (Carried (slipReceiving port) d ↔ ¬ CutShort .slip c.sender r)) ∧
    ∀ l d, channelAct (slipReceiving port) port c (.receive l) = some d →
      (Carried (slipReceiving port) d ↔ Spares c.sent c.link l) := by
  have hlink : (slipReceiving port).Owes [] (SlipReceive.linkStart []) :=
    (delivered_start []).toReceived
  have hinv := channel_inv hmem hlink hrun
  refine ⟨hinv.clean, hinv.owes.committed.trans (sent_initial hinv), ?_, ?_, ?_⟩
  · intro hqueue hpending hrefused
    exact (hinv.owes.granted hpending hrefused).trans (sent_all hinv hqueue)
  · exact fun r d hstep => (send_inv hinv hstep).1
  · exact fun l d hstep => (receive_inv hinv hstep).1

/-- The second packet is empty and is passed over, and the third one is cut behind the escape
pair that stands for `END`. -/
theorem slip_channel_three : ∃ c : Channel SlipReceive.Link,
    c.offered = [[0x61], [], [0xc0, 0x62]] ∧ c.link.committed = [[0x61], [0xc0, 0x62]] ∧
      c.sender.overrun = false := by
  let start := channelStart (List.replicate txSize 0) (SlipReceive.linkStart [])
  let moves : List (Move Recv) := [.offer [0x61], .offer [], .send .again, .send (.bytes 3),
    .offer [0xc0, 0x62], .send .again, .receive (.bytes 3 fun _ => true), .send (.bytes 0),
    .send (.bytes 5), .receive (.bytes 3 fun _ => true), .receive .again,
    .receive (.bytes 2 fun _ => true)]
  have hfollow : (follow (channelAct (slipReceiving .tcp) .tcp) (MoveOk (slipReceiving .tcp))
      start moves).map (fun c => (c.offered, c.link.committed)) =
        some ([[0x61], [], [0xc0, 0x62]], [[0x61], [0xc0, 0x62]]) := by
    decide +kernel
  obtain ⟨c, hc, heq⟩ := Option.map_eq_some_iff.mp hfollow
  obtain ⟨hoffered, hcommitted⟩ := Prod.mk.inj heq
  have hrun := runsTo_follow _ _ RunsTo.refl hc
  have hmem : txSize ≤ (List.replicate txSize (0 : Byte)).length := by simp
  exact ⟨c, hoffered, hcommitted, (slip_channel .tcp _ hmem c hrun).1⟩

/-- With the length in front of each packet. What is committed and handed over is again the
first of what was offered, every count was stored, and with its header and padding it fits in
the room granted and overwrites nothing. A frame that is cut short, or a step that does not
read a packet as it should, breaks what the channel owes. -/
theorem sized_channel (mem : List Byte) (hmem : txSize ≤ mem.length) (buf : ℕ → Byte)
    (c : Channel PrefixReceive.Link)
    (hrun : RunsTo (Steps (channelAct sizedReceiving .tcp)) (MoveOk sizedReceiving)
      (channelStart mem (PrefixReceive.linkStart buf [])) c) :
    c.sender.overrun = false ∧
    PrefixReceive.Delivered (c.offered.filter Framing.sized.Sends) c.link ∧
    (c.sender.queue = [] → c.link.pending = [] → c.link.phase = .fresh →
      chunks c.link.ring = c.offered.filter Framing.sized.Sends) ∧
    (∀ r d, channelAct sizedReceiving .tcp c (.send r) = some d →
      (Carried sizedReceiving d ↔ ¬ CutShort .sized c.sender r)) ∧
    ∀ l d, channelAct sizedReceiving .tcp c (.receive l) = some d →
      (Carried sizedReceiving d ↔ ReadsWhole c.link l) := by
  have hinv := channel_inv hmem (PrefixReceive.aligned_start buf []) hrun
  have howes : Aligned c.sent c.link := hinv.owes
  have hdelivered := howes.delivered
  have hinitial := sent_initial hinv
  refine ⟨hinv.clean, ⟨hdelivered.counts, hdelivered.room, hdelivered.inPlace,
    hdelivered.committed.trans hinitial, hdelivered.obtained.trans hinitial⟩, ?_, ?_, ?_⟩
  · intro hqueue hpending hphase
    exact (aligned_whole howes hphase hpending).trans (sent_all hinv hqueue)
  · exact fun r d hstep => (send_inv hinv hstep).1
  · exact fun l d hstep => (receive_inv hinv hstep).1

/-- The second packet is offered and sent while the first one is stored and read. -/
theorem sized_channel_two : ∃ c : Channel PrefixReceive.Link,
    chunks c.link.ring = [[0x2f], [0x61, 0x62]] ∧ c.link.ring.obtained = [[0x2f]] ∧
      c.sender.overrun = false := by
  let start := channelStart (List.replicate txSize 0) (PrefixReceive.linkStart (fun _ => 0) [])
  let moves : List (Move LinkAct) := List.flatten
    [[.offer [0x2f], .send (.bytes 5), .receive .request, .receive (.first (.got 4)),
        .offer [0x61, 0x62], .receive (.body (.got 1)), .receive .store, .receive .writeAdv],
      .replicate 8 (.receive (.ring .putByte)),
      [.receive (.ring .publish), .receive .request, .receive (.first .again), .send (.bytes 0),
        .send (.bytes 6), .receive .request, .receive (.ring .readRequest),
        .receive (.first (.got 4)), .receive (.body (.got 2)), .receive .store,
        .receive (.ring .readSize), .receive (.ring .readByte), .receive .store,
        .receive (.ring .readDone), .receive .writeAdv]]
  have hfollow : (follow (channelAct sizedReceiving .tcp) (MoveOk sizedReceiving) start moves).map
      (fun c => (chunks c.link.ring, c.link.ring.obtained)) =
        some ([[0x2f], [0x61, 0x62]], [[0x2f]]) := by
    decide +kernel
  obtain ⟨c, hc, heq⟩ := Option.map_eq_some_iff.mp hfollow
  obtain ⟨hchunks, hobtained⟩ := Prod.mk.inj heq
  have hrun := runsTo_follow _ _ RunsTo.refl hc
  have hmem : txSize ≤ (List.replicate txSize (0 : Byte)).length := by simp
  exact ⟨c, hchunks, hobtained, (sized_channel _ hmem _ c hrun).1⟩

end Osc2FtdiDmx.StreamChannel
